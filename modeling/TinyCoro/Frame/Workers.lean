import Mathlib.Logic.Function.Basic
import Mathlib.Data.List.Basic
import TinyCoro.Transition.Runs

/-! Workers that execute coroutines: `exec_one_task` as the steps pop, resume,
`done()` and `clean`. A coroutine that suspends gives its handle away inside the
resume, so another worker may resume it before the first one looks at it again. An
awaited coroutine and the one that awaits it hand control to each other inside the
resume, and the task object destroys the frame of the first when that has ended. -/
namespace TinyCoro.Frame
variable {W H : Type}

/-- Where a frame is: its handle is in the queue of a worker or in the waiter list of a
primitive, a worker has popped it or gives it control, it awaits `c`, is at its final
suspend point, or is destroyed. -/
inductive Place (W H : Type)
  | fresh
  | queued (j : W)
  | taken (w : W)
  | waiting
  | awaiting (c : H)
  | final
  | destroyed
  deriving DecidableEq

/-- Where a worker stands in `exec_one_task` with a handle `h`. In `running h cur` it
resumes `h` and control is with `cur`. `returning h` lasts from the point at which that
coroutine has given its handle away, or ended, to the `done()` test. -/
inductive Pc (H : Type)
  | idle
  | popped (h : H)
  | running (h cur : H)
  | returning (h : H)
  | cleaning (h : H)
  deriving DecidableEq

/-- `parent` is `m_parent` of the promises, and `destroys` counts the calls of
`destroy` on each frame. -/
structure State (W H : Type) where
  place : H → Place W H
  parent : H → Option H
  queue : W → List H
  pc : W → Pc H
  destroys : H → Nat

def init : State W H := ⟨fun _ => .fresh, fun _ => none, fun _ => [], fun _ => .idle, fun _ => 0⟩

/-- From `submit` to `drop` these are steps of the coroutine that has control. `suspend`
ends the resume, with the handle in a waiter list or, when the primitive turns out to be
ready, submitted to a queue. `call c` is a `co_await` of a task, and `drop c` the
destructor of a task object whose coroutine has ended. -/
inductive Op (W H : Type)
  | pop
  | resume
  | submit (h : H) (j : W)
  | wake (h : H) (j : W)
  | call (c : H)
  | suspend (target : Option W)
  | complete
  | drop (c : H)
  | done
  | clean
  deriving DecidableEq

/-- A step of a worker, or a submission and a task object from outside the workers. -/
inductive Label (W H : Type)
  | outside (h : H) (j : W)
  | outsideDrop (c : H)
  | worker (w : W) (op : Op W H)
  deriving DecidableEq

variable [DecidableEq W] [DecidableEq H]

namespace State

def goto (w : W) (p : Pc H) (s : State W H) : State W H := { s with pc := Function.update s.pc w p }

def put (h : H) (p : Place W H) (s : State W H) : State W H := { s with place := Function.update s.place h p }

def push (h : H) (j : W) (s : State W H) : State W H :=
  { s with
    place := Function.update s.place h (.queued j)
    queue := Function.update s.queue j (s.queue j ++ [h]) }

def pull (w : W) (h : H) (rest : List H) (s : State W H) : State W H :=
  { s with
    place := Function.update s.place h (.taken w)
    queue := Function.update s.queue w rest
    pc := Function.update s.pc w (.popped h) }

/-- The coroutine `cur` loses control, which goes back into `exec_one_task`. -/
def leave (w : W) (h cur : H) (p : Place W H) (s : State W H) : State W H := (s.goto w (.returning h)).put cur p

/-- Control goes to `c` inside the resume of `h`. -/
def enter (w : W) (h c : H) (s : State W H) : State W H := (s.put c (.taken w)).goto w (.running h c)

def destroy (h : H) (s : State W H) : State W H :=
  { s with
    place := Function.update s.place h .destroyed
    destroys := Function.update s.destroys h (s.destroys h + 1) }

end State

open State in
/-- `detached h` is `m_detached` of the promise: `clean` destroys only such frames, and
no task object has them. At the final suspend point control goes to the parent, and
without one to the resumer. -/
def step (detached : H → Bool) (l : Label W H) (s : State W H) : Option (State W H) :=
  match l with
  | .outside h j => if s.place h = .fresh then some (s.push h j) else none
  | .outsideDrop c => if s.place c = .final ∧ detached c = false then some (s.destroy c) else none
  | .worker w op => match op, s.pc w with
    | .pop, .idle => match s.queue w with
      | h :: rest => some (s.pull w h rest)
      | [] => none
    | .resume, .popped h => some (s.goto w (.running h h))
    | .submit h j, .running _ _ => if s.place h = .fresh then some (s.push h j) else none
    | .wake h j, .running _ _ => if s.place h = .waiting then some (s.push h j) else none
    | .call c, .running h cur =>
      if s.place c = .fresh ∧ detached c = false then
        some ({ s.leave w h cur (.awaiting c) with parent := Function.update s.parent c (some cur) }.enter w h c)
      else none
    | .suspend none, .running h cur => some (s.leave w h cur .waiting)
    | .suspend (some j), .running h cur => some ((s.goto w (.returning h)).push cur j)
    | .complete, .running h cur => match s.parent cur with
      | some p => some ((s.leave w h cur .final).enter w h p)
      | none => some (s.leave w h cur .final)
    | .drop c, .running _ _ => if s.place c = .final ∧ detached c = false then some (s.destroy c) else none
    | .done, .returning h =>
      if s.place h = .final ∨ s.place h = .destroyed then some (s.goto w (.cleaning h)) else some (s.goto w .idle)
    | .clean, .cleaning h =>
      if detached h then some ((s.goto w .idle).destroy h) else some (s.goto w .idle)
    | _, _ => none

end TinyCoro.Frame
