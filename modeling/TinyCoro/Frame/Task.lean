import Mathlib.Logic.Function.Basic
import TinyCoro.Frame.Calls
import TinyCoro.Transition.Fuel

/-! Tasks of every return type, whose bodies may also throw, catch and suspend. The
promise keeps the outcome of a body until `await_resume` of the parent asks for it, and
the three kinds of return types keep it in three different ways. -/
namespace TinyCoro.Frame.Task

/-- Who has control. -/
inductive Control
  | resumer
  | coroutine (c : Nat)
  | terminated
  deriving DecidableEq, Repr

/-- The return types in use other than `void`: those that meet `pod_type`, with the value
of `T{}`, and the others; and the exceptions, with the one that `container` makes itself.
`rootReturns` says of the compiled program whether control is back with the resumer where
`final_awaiter::await_suspend` runs off its end, which the language leaves undefined. -/
structure Types where
  Pod : Type
  Other : Type
  pod : Pod → Type
  other : Other → Type
  podInit (p : Pod) : pod p
  Exn : Type
  runtimeError (what : String) : Exn
  rootReturns : Bool
  [podDecEq : DecidableEq Pod]
  [otherDecEq : DecidableEq Other]

attribute [instance] Types.podDecEq Types.otherDecEq

def Types.offEnd (T : Types) : Control := if T.rootReturns then .resumer else .terminated

inductive Ret (T : Types)
  | void
  | pod (p : T.Pod)
  | other (o : T.Other)
  deriving DecidableEq

def Ret.Val {T : Types} : Ret T → Type
  | .void => Unit
  | .pod p => T.pod p
  | .other o => T.other o

def Ret.isPod {T : Types} : Ret T → Bool
  | .pod _ => true
  | _ => false

variable {T : Types} {r : Ret T}

abbrev Outcome (r : Ret T) : Type := Except T.Exn r.Val

/-- What is left of a task body: `co_return` a value, let an exception out, suspend with
`std::suspend_always`, or `co_await` a task that is created for it. The continuation is
given what the `co_await` returns or throws; to let that through is to throw it again. -/
inductive Body (T : Types) : Ret T → Type
  | ret {r : Ret T} (v : r.Val) : Body T r
  | throw {r : Ret T} (e : T.Exn) : Body T r
  | suspend {r : Ret T} (k : Body T r) : Body T r
  | await {c r : Ret T} (child : Body T c) (k : Outcome c → Body T r) : Body T r

/-- What a promise has stored: the exception pointer of `promise<void>`, the variant of
`container`, or the union and the state of the `container` of `pod_type`. -/
inductive Container (r : Ret T)
  | none
  | value (v : r.Val)
  | exception (e : T.Exn)

namespace Container

/-- `return_void` keeps nothing. -/
def returnValue : {r : Ret T} → r.Val → Container r → Container r
  | .void, _, store => store
  | .pod _, v, _ => .value v
  | .other _, v, _ => .value v

def setException (e : T.Exn) (_ : Container r) : Container r := .exception e

/-- `result()`; no answer where the program is terminated, which is what rethrowing does
in the `container` of `pod_type`: its `result` is `noexcept`. -/
def result : {r : Ret T} → Container r → Option (Outcome r)
  | .void, .exception e => some (.error e)
  | .void, _ => some (.ok ())
  | .pod _, .value v => some (.ok v)
  | .pod _, .exception _ => .none
  | .pod p, .none => some (.ok (T.podInit p))
  | .other _, .value v => some (.ok v)
  | .other _, .exception e => some (.error e)
  | .other _, .none => some (.error (T.runtimeError "The return value was never set, did you execute the coroutine?"))

end Container

/-- Where a coroutine stands. `start` and `final` are its initial and its final suspend
point, at `suspended` it is in a `std::suspend_always`, and at `awaiting` in the `co_await`
of a child. -/
inductive Point (r : Ret T)
  | start (b : Body T r)
  | run (b : Body T r)
  | suspended (b : Body T r)
  | awaiting {c : Ret T} (child : Nat) (k : Outcome c → Body T r)
  | final

structure Coroutine (T : Types) where
  ret : Ret T
  parent : Option Nat
  point : Point ret
  store : Container ret

abbrev Event (T : Types) : Type := Frame.Event (Σ r, Body T r) (Σ r : Ret T, Outcome r)

structure State (T : Types) where
  heap : Nat → Option (Coroutine T)
  next : Nat
  control : Control
  log : List (Event T)

namespace Coroutine

def done (f : Coroutine T) : Bool :=
  match f.point with
  | .final => true
  | _ => false

def awaits (f : Coroutine T) : Option Nat :=
  match f.point with
  | .awaiting child _ => some child
  | _ => none

/-- The handle that `final_awaiter::await_suspend` returns. There is none when `m_parent`
is null: the function has no other `return`. -/
def finalAwaitSuspend (f : Coroutine T) : Option Nat := f.parent

def outcome (c : Ret T) (f : Coroutine T) : Option (Option (Outcome c)) :=
  if h : f.ret = c then some (h ▸ f.store.result) else none

end Coroutine

namespace State

def set (c : Nat) (f : Coroutine T) (s : State T) : State T := { s with heap := Function.update s.heap c (some f) }

/-- `destroy()`: with a frame goes the task object of the child it awaits. The fuel is for
the frames below it. -/
def destroy (c : Nat) : Nat → (Nat → Option (Coroutine T)) → Nat → Option (Coroutine T)
  | 0, heap => heap
  | fuel + 1, heap => match (heap c).bind Coroutine.awaits with
    | some child => destroy child fuel (Function.update heap c none)
    | none => Function.update heap c none

def create (b : Body T r) (s : State T) : State T :=
  { s.set s.next ⟨r, none, .start b, .none⟩ with next := s.next + 1 }

def done (c : Nat) (s : State T) : Bool := (s.heap c).any Coroutine.done

/-- `awaitable_base::await_ready` for a handle that is not null. -/
def awaitReady (c : Nat) (s : State T) : Bool := s.done c

def awaitSuspend (c parent : Nat) (s : State T) : State T :=
  { s with
    heap := Function.update s.heap c ((s.heap c).map fun f => { f with parent := some parent })
    control := .coroutine c }

/-- The coroutine ends with this in its promise, and its final suspend transfers to the
handle it gets. -/
def finish (c : Nat) (f : Coroutine T) (store : Container f.ret) (s : State T) : State T :=
  { s.set c { f with point := .final, store := store } with
    control := match f.finalAwaitSuspend with
      | some parent => .coroutine parent
      | none => T.offEnd }

def step (s : State T) : Option (State T) :=
  match s.control with
  | .resumer | .terminated => none
  | .coroutine c => match s.heap c with
    | none => none
    | some f => match f.point with
      | .start b => some { s.set c { f with point := .run b } with log := s.log ++ [.enter c ⟨f.ret, b⟩] }
      | .suspended b => some (s.set c { f with point := .run b })
      | .run (.ret v) => some (s.finish c f (f.store.returnValue v))
      | .run (.throw e) => some (s.finish c f (f.store.setException e))
      | .run (.suspend k) => some { s.set c { f with point := .suspended k } with control := .resumer }
      | .run (.await child k) =>
        let t := (s.create child).set c { f with point := .awaiting s.next k }
        some (if t.awaitReady s.next then t else t.awaitSuspend s.next c)
      -- `await_resume`, after which the task object of the child dies
      | .awaiting (c := a) n k => ((s.heap n).bind (Coroutine.outcome a)).map fun
        | some o => { s with
            heap := Function.update (destroy n s.next s.heap) c (some { f with point := .run (k o) })
            log := s.log ++ [.back c n ⟨a, o⟩] }
        | none => { s with control := .terminated }
      | .final => none

/-- Run until control is back with the resumer, which it never is when the program is terminated. -/
def run : Nat → State T → Option (State T) := Transition.fuelled (·.control == .resumer) step

def resume (fuel c : Nat) (s : State T) : Option (Bool × State T) :=
  if s.done c then some (false, s) else (run fuel { s with control := .coroutine c }).map fun t => (!t.done c, t)

def result (r : Ret T) (c : Nat) (s : State T) : Option (Outcome r) := ((s.heap c).bind (Coroutine.outcome r)).join

end State

def task (b : Body T r) : State T := State.create b ⟨fun _ => none, 0, .resumer, []⟩

/-- `int` and `std::string` as return types, messages as exceptions, and a final suspend of
the root after which `resume()` returns. -/
def intAndString : Types where
  Pod := Unit
  Other := Unit
  pod _ := Int
  other _ := String
  podInit _ := (0 : Int)
  Exn := String
  runtimeError := id
  rootReturns := true

end TinyCoro.Frame.Task
