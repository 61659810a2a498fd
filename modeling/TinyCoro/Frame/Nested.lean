import Mathlib.Logic.Function.Basic
import Mathlib.Data.List.Basic
import TinyCoro.Transition.Runs

/-! One engine that executes a detached root task and the tasks it awaits, on a
heap of coroutine frames. A `co_await` of a task transfers to the child and the
child's final suspend transfers back, all inside one resume by the engine. -/
namespace TinyCoro.Frame.Nested

/-- What a coroutine does: end, suspend and give its own handle away, or await a
child task. -/
inductive Body
  | ret
  | suspend (k : Body)
  | call (child k : Body)
  deriving DecidableEq, Repr

/-- `body` is what is left to do and `final` is set at the final suspend point;
`parent` and `detached` are the promise's `m_parent` and `m_detached`, and `child`
is the frame held by the temporary task object of the current `co_await`. -/
structure Coroutine where
  body : Body
  parent : Option Nat
  detached : Bool
  final : Bool
  child : Option Nat
  deriving DecidableEq, Repr

/-- Where the engine stands in `exec_one_task` with the handle `h` it popped: `cur`
is the coroutine that runs. -/
inductive Pc
  | idle
  | running (h cur : Nat)
  | testing (h : Nat)
  | cleaning (h : Nat)
  deriving DecidableEq, Repr

/-- `waiting` are the suspended handles that have yet to be submitted. `cleaned`
lists the frames the engine destroyed, `deadDones` counts its calls of `done()` on
destroyed frames. -/
structure State where
  heap : Nat → Option Coroutine
  next : Nat
  queue : List Nat
  waiting : List Nat
  pc : Pc
  cleaned : List Nat
  deadDones : Nat

/-- The root has been created, detached and submitted. -/
def init (b : Body) : State where
  heap := Function.update (fun _ => none) 0 (some ⟨b, none, true, false, none⟩)
  next := 1
  queue := [0]
  waiting := []
  pc := .idle
  cleaned := []
  deadDones := 0

namespace State

def set (c : Nat) (f : Coroutine) (s : State) : State := { s with heap := Function.update s.heap c (some f) }

def destroy (c : Nat) (s : State) : State := { s with heap := Function.update s.heap c none }

def goto (p : Pc) (s : State) : State := { s with pc := p }

def runStep (h cur : Nat) (f : Coroutine) (s : State) : State :=
  match f.child, f.body with
  -- the child is back: `await_resume`, and the temporary task object dies
  | some c, _ => (s.destroy c).set cur { f with child := none }
  -- final suspend: transfer to `m_parent`, or return to the engine
  | none, .ret => match f.parent with
    | some p => (s.set cur { f with final := true }).goto (.running h p)
    | none => (s.set cur { f with final := true }).goto (.testing h)
  | none, .suspend k => { s.set cur { f with body := k } with waiting := s.waiting ++ [cur], pc := .testing h }
  -- a new frame, whose `m_parent` is set by `await_suspend`, and transfer to it
  | none, .call b k =>
    { (s.set cur { f with body := k, child := some s.next }).set s.next ⟨b, some cur, false, false, none⟩ with
      next := s.next + 1
      pc := .running h s.next }

def engineStep (s : State) : Option State :=
  match s.pc with
  | .idle => match s.queue with
    | h :: queue => some { s with queue := queue, pc := .running h h }
    | [] => none
  | .running h cur => (s.heap cur).map fun f => s.runStep h cur f
  | .testing h => match s.heap h with
    | some f => if f.final then some (s.goto (.cleaning h)) else some (s.goto .idle)
    -- `done()` of a destroyed frame, read as false
    | none => some { s with deadDones := s.deadDones + 1, pc := .idle }
  | .cleaning h => match s.heap h with
    | some f =>
      if f.detached then some { s.destroy h with cleaned := s.cleaned ++ [h], pc := .idle } else some (s.goto .idle)
    | none => none

end State

inductive Label
  | engine
  | submit (h : Nat)
  deriving DecidableEq, Repr

def step (l : Label) (s : State) : Option State :=
  match l with
  | .engine => s.engineStep
  | .submit h =>
    if h ∈ s.waiting then some { s with waiting := s.waiting.erase h, queue := s.queue ++ [h] } else none

end TinyCoro.Frame.Nested
