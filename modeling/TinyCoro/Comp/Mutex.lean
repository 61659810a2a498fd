import Mathlib.Data.List.Basic

/-! The coroutine mutex: a flag taken by compare-exchange and a queue of handles
that is only touched under the spinlock. Each definition is one atomic step. -/
namespace TinyCoro.Comp
variable {C : Type}

structure Mutex (C : Type) where
  locked : Bool
  waiters : List C
  deriving DecidableEq, Repr

namespace Mutex

def init : Mutex C := ⟨false, []⟩

/-- `compare_exchange_strong(false, true)` on `m_locked`: the answer and the mutex after it. -/
def tryLock (m : Mutex C) : Bool × Mutex C := (!m.locked, { m with locked := true })

/-- The section shared by both awaiters and `enqueue_waiter`: take the free mutex
for the handle, which is then submitted, or queue the handle. -/
def lockOrQueue (handle : C) (m : Mutex C) : Bool × Mutex C :=
  match m.tryLock with
  | (true, m) => (true, m)
  | (false, m) => (false, { m with waiters := m.waiters ++ [handle] })

/-- `lock_awaiter::await_suspend`; true if the handle is submitted. -/
def lockAwaitSuspend (handle : C) (m : Mutex C) : Bool × Mutex C := lockOrQueue handle m

def guardAwaitSuspend (handle : C) (m : Mutex C) : Bool × Mutex C := lockOrQueue handle m

def enqueueWaiter (handle : C) (m : Mutex C) : Bool × Mutex C := lockOrQueue handle m

/-- `unlock`: hand the mutex to the first waiter, which is submitted with
`m_locked` left set, or release it. -/
def unlock (m : Mutex C) : Option C × Mutex C :=
  match m.waiters with
  | h :: rest => (some h, { m with waiters := rest })
  | [] => (none, { m with locked := false })

end Mutex
end TinyCoro.Comp
