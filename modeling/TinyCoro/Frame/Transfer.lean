import Mathlib.Logic.Function.Basic
import TinyCoro.Frame.Calls
import TinyCoro.Transition.Fuel

/-! Tasks that return values and await tasks they create, on a heap of coroutine frames.
Control goes from frame to frame by symmetric transfer: the way back is not on a call
stack but in the `m_parent` of each promise. -/
namespace TinyCoro.Frame.Transfer
variable {ι : Type} {V : ι → Type} {r : ι}

/-- What is left of a task body: `co_return` a value, or `co_await` a task that is created
for it and go on with what that returns. `V` gives the values of each return type. -/
inductive Body (V : ι → Type) : ι → Type
  | ret {r : ι} (v : V r) : Body V r
  | await {c r : ι} (child : Body V c) (k : V c → Body V r) : Body V r

/-- Where a coroutine stands; `start` and `final` are its initial and its final suspend
point, and at `awaiting` it is suspended in the `co_await` of a child. -/
inductive Point (V : ι → Type) (r : ι)
  | start (b : Body V r)
  | run (b : Body V r)
  | awaiting {c : ι} (child : Nat) (k : V c → Body V r)
  | final

/-- `parent` is `m_parent`, and `result` what the promise's container holds. -/
structure Coroutine (V : ι → Type) where
  ret : ι
  parent : Option Nat
  point : Point V ret
  result : Option (V ret)

abbrev Event (V : ι → Type) : Type := Frame.Event (Σ r, Body V r) (Σ r, V r)

/-- `running` is the coroutine that has control; `none` means that it is with whoever
called `resume()`. The log is history. -/
structure State (V : ι → Type) where
  heap : Nat → Option (Coroutine V)
  next : Nat
  running : Option Nat
  log : List (Event V)

def Coroutine.done (f : Coroutine V) : Bool :=
  match f.point with
  | .final => true
  | _ => false

def Coroutine.value [DecidableEq ι] (c : ι) (f : Coroutine V) : Option (V c) :=
  if h : f.ret = c then h ▸ f.result else none

namespace State

def set (c : Nat) (f : Coroutine V) (s : State V) : State V := { s with heap := Function.update s.heap c (some f) }

def destroy (c : Nat) (s : State V) : State V := { s with heap := Function.update s.heap c none }

def create (b : Body V r) (s : State V) : State V :=
  { s.set s.next ⟨r, none, .start b, none⟩ with next := s.next + 1 }

def done (c : Nat) (s : State V) : Bool := (s.heap c).any Coroutine.done

/-- `awaitable_base::await_ready` for a handle that is not null. -/
def awaitReady (c : Nat) (s : State V) : Bool := s.done c

def awaitSuspend (c parent : Nat) (s : State V) : State V :=
  { s with heap := Function.update s.heap c ((s.heap c).map fun f => { f with parent := some parent }), running := some c }

variable [DecidableEq ι]

def step (s : State V) : Option (State V) :=
  match s.running with
  | none => none
  | some c => match s.heap c with
    | none => none
    | some f => match f.point with
      | .start b => some { s.set c { f with point := .run b } with log := s.log ++ [.enter c ⟨f.ret, b⟩] }
      -- `return_value`, and then the final suspend returns `m_parent`; null is the resumer
      | .run (.ret v) => some { s.set c { f with point := .final, result := some v } with running := f.parent }
      | .run (.await child k) =>
        let t := (s.create child).set c { f with point := .awaiting s.next k }
        some (if t.awaitReady s.next then t else t.awaitSuspend s.next c)
      -- `await_resume`, after which the task object of the child dies
      | .awaiting (c := a) n k => ((s.heap n).bind (Coroutine.value a)).map fun v =>
        { (s.destroy n).set c { f with point := .run (k v) } with log := s.log ++ [.back c n ⟨a, v⟩] }
      | .final => none

/-- Run until control is back with the resumer. -/
def run : Nat → State V → Option (State V) := Transition.fuelled (·.running.isNone) step

def resume (fuel c : Nat) (s : State V) : Option (Bool × State V) :=
  if s.done c then some (false, s) else (run fuel { s with running := some c }).map fun t => (!t.done c, t)

def result (r : ι) (c : Nat) (s : State V) : Option (V r) := (s.heap c).bind (Coroutine.value r)

end State

def task (b : Body V r) : State V := State.create b ⟨fun _ => none, 0, none, []⟩

def Body.eval : {r : ι} → Body V r → V r
  | _, .ret v => v
  | _, .await child k => (k child.eval).eval

def Body.calls : {r : ι} → Body V r → Nat
  | _, .ret _ => 0
  | _, .await child k => 1 + child.calls + (k child.eval).calls

/-- What happens in the direct evaluation of the call `self`, in order, when the calls
made in it are numbered from `next` on. -/
def Body.trace (self next : Nat) : {r : ι} → Body V r → List (Event V)
  | _, .ret _ => []
  | _, .await (c := c) child k =>
    .enter next ⟨c, child⟩ :: child.trace next (next + 1) ++
      .back self next ⟨c, child.eval⟩ :: (k child.eval).trace self (next + 1 + child.calls)

end TinyCoro.Frame.Transfer
