import Mathlib.Logic.Function.Basic
import Mathlib.Tactic.Simps.Basic
import TinyCoro.Transition.Runs
import TinyCoro.Comp.Mutex

/-! Coroutines that share mutexes, condition variables and the data the mutexes
protect. Every lock-free operation and every spinlock section is one step;
`wait` releases the mutex in one step and enters the queue in another, and a
notifier examines the queue entry by entry while it holds its spinlock. -/
namespace TinyCoro.Comp.CondVar
open Transition

/-- A wait predicate over the data of the mutex; `none` is the empty `cond_type`. -/
abbrev Cond (D : Type) := Option (D → Bool)

def Cond.met {D : Type} (cond : Cond D) (d : D) : Bool := cond.elim false (· d)

def Cond.unmet {D : Type} (cond : Cond D) (d : D) : Bool := cond.elim false (!· d)

structure Waiter (C M D : Type) where
  handle : C
  mtx : M
  cond : Cond D

inductive Await (M V D : Type)
  | lock (m : M)
  | lockGuard (m : M)
  | wait (v : V) (m : M) (cond : Cond D)

def Await.mtx {M V D : Type} : Await M V D → M
  | .lock m => m
  | .lockGuard m => m
  | .wait _ m _ => m

/-- Where a coroutine stands. `queued`, `waiting` and `picked` say where its
handle is kept: in a mutex queue, in a condition variable, in a notifier's hand. -/
inductive Pc (C M V D : Type)
  | running
  | lockSuspend (m : M)
  | guardSuspend (m : M)
  | queued (a : Await M V D)
  | submitted (a : Await M V D)
  | waitUnlock (v : V) (m : M) (cond : Cond D)
  | waitPush (v : V) (m : M) (cond : Cond D)
  | waiting (v : V) (m : M) (cond : Cond D)
  | picked (v : V) (m : M) (cond : Cond D)
  | notify (v : V) (left : Nat)
  | notifyEnqueue (v : V) (left : Nat) (w : Waiter C M D)

/-- `holder` is the coroutine inside a loop under `m_lock`, if any. -/
structure Queue (C M D : Type) where
  holder : Option C
  waiters : List (Waiter C M D)

/-- `owners` is history: a coroutine is listed from the step that grants it the
mutex to its unlock step. `submissions` lists the handles given to `submit_task`. -/
structure State (C M V D : Type) where
  mtx : M → Mutex C
  cv : V → Queue C M D
  pc : C → Pc C M V D
  shared : M → D
  owners : M → List C
  submissions : List C

variable {C M V D : Type} [DecidableEq C] [DecidableEq M] [DecidableEq V]

def init (shared : M → D) : State C M V D :=
  ⟨fun _ => .init, fun _ => ⟨none, []⟩, fun _ => .running, shared, fun _ => [], []⟩

namespace State

@[simps -fullyApplied] def goto (c : C) (p : Pc C M V D) (s : State C M V D) : State C M V D :=
  { s with pc := Function.update s.pc c p }

@[simps -fullyApplied] def setMtx (m : M) (x : Mutex C) (s : State C M V D) : State C M V D :=
  { s with mtx := Function.update s.mtx m x }

@[simps -fullyApplied] def setCv (v : V) (q : Queue C M D) (s : State C M V D) : State C M V D :=
  { s with cv := Function.update s.cv v q }

@[simps -fullyApplied] def grant (m : M) (c : C) (s : State C M V D) : State C M V D :=
  { s with owners := Function.update s.owners m (s.owners m ++ [c]) }

@[simps -fullyApplied] def disown (m : M) (c : C) (s : State C M V D) : State C M V D :=
  { s with owners := Function.update s.owners m ((s.owners m).erase c) }

@[simps -fullyApplied] def submitTask (c : C) (a : Await M V D) (s : State C M V D) : State C M V D :=
  { s with
    pc := Function.update s.pc c (.submitted a)
    submissions := s.submissions ++ [c] }

end State

def Pc.await (m : M) : Pc C M V D → Await M V D
  | .queued a => a
  | _ => .lock m

def Await.enter (c : C) (x : Mutex C) : Await M V D → Bool × Mutex C
  | .lock _ => x.lockAwaitSuspend c
  | .lockGuard _ => x.guardAwaitSuspend c
  | .wait _ _ _ => x.enqueueWaiter c

def tryLockBy (c : C) (m : M) (fail : Pc C M V D) (s : State C M V D) : State C M V D :=
  match (s.mtx m).tryLock with
  | (true, x) => (s.setMtx m x).grant m c
  | (false, x) => (s.setMtx m x).goto c fail

/-- The handle of `c`, suspended in `a`, is given to its mutex: granted and submitted, or queued. -/
def suspendOn (c : C) (a : Await M V D) (s : State C M V D) : State C M V D :=
  match a.enter c (s.mtx a.mtx) with
  | (true, x) => ((s.setMtx a.mtx x).grant a.mtx c).submitTask c a
  | (false, x) => (s.setMtx a.mtx x).goto c (.queued a)

/-- `m.unlock()` by its owner `c`. The handle at the front of the queue becomes the owner. -/
def unlockBy (c : C) (m : M) (s : State C M V D) : State C M V D :=
  match (s.mtx m).unlock with
  | (some h, x) => (((s.setMtx m x).disown m c).grant m h).submitTask h ((s.pc h).await m)
  | (none, x) => (s.setMtx m x).disown m c

/-- The pop of one waiter in `notify_one` and `notify_all`: put it back if its
predicate fails, else go on to `enqueue_waiter` with it. -/
def examine (c : C) (v : V) (left : Nat) (w : Waiter C M D) (rest : List (Waiter C M D))
    (s : State C M V D) : State C M V D :=
  if w.cond.unmet (s.shared w.mtx) then
    (s.setCv v { s.cv v with waiters := rest ++ [w] }).goto c (.notify v left)
  else
    ((s.setCv v { s.cv v with waiters := rest }).goto c (.notifyEnqueue v left w)).goto w.handle
      (.picked v w.mtx w.cond)

inductive Op (M V D : Type)
  | tryLock (m : M)
  | lockReady (m : M)
  | guardReady (m : M)
  | lockSuspend
  | unlock (m : M)
  | write (m : M) (f : D → D)
  | waitReady (v : V) (m : M) (cond : Cond D)
  | waitUnlock
  | waitPush
  | notifyOne (v : V)
  | notifyAll (v : V)
  | notifyNext
  | notifyEnqueue
  | resume

/-- The step of coroutine `c`. Only an owner unlocks, waits or writes the data. -/
def step (l : C × Op M V D) (s : State C M V D) : Option (State C M V D) :=
  let c := l.1
  match l.2, s.pc c with
  | .tryLock m, .running => some (tryLockBy c m .running s)
  | .lockReady m, .running => some (tryLockBy c m (.lockSuspend m) s)
  | .guardReady m, .running => some (tryLockBy c m (.guardSuspend m) s)
  | .lockSuspend, .lockSuspend m => some (suspendOn c (.lock m) s)
  | .lockSuspend, .guardSuspend m => some (suspendOn c (.lockGuard m) s)
  | .unlock m, .running => if c ∈ s.owners m then some (unlockBy c m s) else none
  | .write m f, .running =>
    if c ∈ s.owners m then some { s with shared := Function.update s.shared m (f (s.shared m)) } else none
  | .waitReady v m cond, .running =>
    if c ∈ s.owners m then
      some (if cond.met (s.shared m) then s else s.goto c (.waitUnlock v m cond))
    else none
  | .waitUnlock, .waitUnlock v m cond => some ((unlockBy c m s).goto c (.waitPush v m cond))
  | .waitPush, .waitPush v m cond =>
    if (s.cv v).holder = none then
      some ((s.setCv v { s.cv v with waiters := (s.cv v).waiters ++ [⟨c, m, cond⟩] }).goto c (.waiting v m cond))
    else none
  | .notifyOne v, .running =>
    if (s.cv v).holder = none then
      some ((s.setCv v { s.cv v with holder := some c }).goto c (.notify v (min 1 (s.cv v).waiters.length)))
    else none
  | .notifyAll v, .running =>
    if (s.cv v).holder = none then
      some ((s.setCv v { s.cv v with holder := some c }).goto c (.notify v (s.cv v).waiters.length))
    else none
  | .notifyNext, .notify v 0 => some ((s.setCv v { s.cv v with holder := none }).goto c .running)
  | .notifyNext, .notify v (n + 1) => match (s.cv v).waiters with
    | w :: rest => some (examine c v n w rest s)
    | [] => none
  | .notifyEnqueue, .notifyEnqueue v n w => some ((suspendOn w.handle (.wait v w.mtx w.cond) s).goto c (.notify v n))
  | .resume, .submitted _ => some (s.goto c .running)
  | _, _ => none

end TinyCoro.Comp.CondVar
