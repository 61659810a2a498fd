import Mathlib.Logic.Function.Basic
import Mathlib.Tactic.Simps.Basic
import TinyCoro.Transition.Runs

/-! What `event`, `latch` and `wait_group` have in common: a shared word that tells
whether waiting is over, and a vector of handles under a spinlock. The awaiter tests
the word without the lock and once more under it before it stores its handle; an
operation that ends the waiting submits the stored handles under the lock. -/
namespace TinyCoro.Comp.Gate
open Transition

/-- An operation on the shared word: the lock-free update it begins with, whether the
caller goes on to the section under the spinlock (from the value before the update),
and what it writes there before it submits the waiters. -/
structure Op (G : Type) where
  fetch : G → G
  flushes : G → Bool
  stores : List (G → G)

/-- `isReady` is the test of `await_ready` and of `await_suspend`. -/
structure Kind (G O : Type) where
  isReady : G → Bool
  op : O → Op G

inductive WaitPc
  | fresh
  | notReady
  | pushing
  | submitting
  | suspended
  | ready
  deriving DecidableEq, Repr

/-- Where one call of an operation stands. `pending` is on the way to the spinlock,
`storing` and `flushing` are inside its section; `k` handles have been submitted. -/
inductive CallPc (G : Type)
  | idle
  | pending (stores : List (G → G))
  | storing (left : List (G → G))
  | flushing (k : Nat)
  | returned

inductive Party (W J : Type)
  | wait (i : W)
  | call (j : J)
  deriving DecidableEq, Repr

/-- `submitted` lists the handles given to `submit_to_scheduler`, and `result` is the
shared word as `await_resume` found it. The last three fields are history: the handles
in the order in which they were stored, the operations in the order of their lock-free
updates, and whether the word was ready at some moment since the wait's `await_ready`. -/
structure State (W J G O : Type) where
  gate : G
  holder : Option (Party W J)
  waiters : List W
  submitted : List W
  wait : W → WaitPc
  call : J → CallPc G
  result : W → Option G
  stored : List W
  calls : List O
  opened : W → Bool

variable {W J G O : Type}

def init (gate : G) : State W J G O :=
  ⟨gate, none, [], [], fun _ => .fresh, fun _ => .idle, fun _ => none, [], [], fun _ => false⟩

/-- `awaitSuspend` takes the spinlock and tests, `suspendEnd` stores or submits the
handle and releases it. `enter`, `store`, `submit` and `leave` are the section of an
operation: lock, one write, one submission, clear and unlock. -/
inductive Label (W J O : Type)
  | awaitReady (i : W)
  | awaitSuspend (i : W)
  | suspendEnd (i : W)
  | resume (i : W)
  | call (j : J) (o : O)
  | enter (j : J)
  | store (j : J)
  | submit (j : J)
  | leave (j : J)
  deriving DecidableEq, Repr

def Label.called : Label W J O → Option O
  | .call _ o => some o
  | _ => none

def CallPc.inside : List (G → G) → CallPc G
  | [] => .flushing 0
  | f :: left => .storing (f :: left)

variable [DecidableEq W] [DecidableEq J]

namespace State

@[simps] def setWait (i : W) (p : WaitPc) (s : State W J G O) : State W J G O :=
  { s with wait := Function.update s.wait i p }

@[simps] def setCall (j : J) (p : CallPc G) (s : State W J G O) : State W J G O :=
  { s with call := Function.update s.call j p }

@[simps] def note (K : Kind G O) (s : State W J G O) : State W J G O :=
  { s with opened := fun i => s.opened i || (s.wait i != .fresh && K.isReady s.gate) }

end State

def move (K : Kind G O) (l : Label W J O) (s : State W J G O) : Option (State W J G O) :=
  match l with
  | .awaitReady i => match s.wait i with
    | .fresh => some (s.setWait i (if K.isReady s.gate then .ready else .notReady))
    | _ => none
  | .awaitSuspend i => match s.wait i with
    | .notReady =>
      if s.holder = none then
        some ({ s with holder := some (.wait i) }.setWait i (if K.isReady s.gate then .submitting else .pushing))
      else none
    | _ => none
  | .suspendEnd i => match s.wait i with
    | .pushing =>
      some ({ s with holder := none, waiters := s.waiters ++ [i], stored := s.stored ++ [i] }.setWait i .suspended)
    | .submitting => some ({ s with holder := none, submitted := s.submitted ++ [i] }.setWait i .suspended)
    | _ => none
  | .resume i =>
    if s.result i = none ∧ (s.wait i = .ready ∨ i ∈ s.submitted) then
      some { s with result := Function.update s.result i (some s.gate) }
    else none
  | .call j o => match s.call j with
    | .idle =>
      some ({ s with gate := (K.op o).fetch s.gate, calls := s.calls ++ [o] }.setCall j
        (if (K.op o).flushes s.gate then .pending (K.op o).stores else .returned))
    | _ => none
  | .enter j => match s.call j with
    | .pending stores =>
      if s.holder = none then some ({ s with holder := some (.call j) }.setCall j (.inside stores)) else none
    | _ => none
  | .store j => match s.call j with
    | .storing (f :: left) => some ({ s with gate := f s.gate }.setCall j (.inside left))
    | _ => none
  | .submit j => match s.call j with
    | .flushing k => match s.waiters[k]? with
      | some i => some ({ s with submitted := s.submitted ++ [i] }.setCall j (.flushing (k + 1)))
      | none => none
    | _ => none
  | .leave j => match s.call j with
    | .flushing k =>
      if k = s.waiters.length then some ({ s with holder := none, waiters := [] }.setCall j .returned) else none
    | _ => none

def step (K : Kind G O) (l : Label W J O) (s : State W J G O) : Option (State W J G O) := (move K l s).map (·.note K)

omit [DecidableEq W] [DecidableEq J] in
/-- A value found in an updated function is the new one, or was there before. -/
theorem update_cases {α β : Type} [DecidableEq α] {f : α → β} {a x : α} {b y : β} (h : Function.update f a b x = y) :
    (x = a ∧ b = y) ∨ (x ≠ a ∧ f x = y) := by
  by_cases hx : x = a
  · subst hx
    exact .inl ⟨rfl, by rwa [Function.update_self] at h⟩
  · exact .inr ⟨hx, by rwa [Function.update_of_ne hx] at h⟩

omit [DecidableEq J] in
theorem State.setWait_cases {s : State W J G O} {i x : W} {p q : WaitPc} (h : (s.setWait i p).wait x = q) :
    (x = i ∧ p = q) ∨ (x ≠ i ∧ s.wait x = q) := by
  rw [State.setWait_wait] at h
  exact update_cases h

omit [DecidableEq J] in
/-- A wait that is not at its new point was there before. -/
theorem State.setWait_other {s : State W J G O} {i x : W} {p q : WaitPc} (h : (s.setWait i p).wait x = q)
    (hne : p ≠ q) : s.wait x = q :=
  (State.setWait_cases h).elim (fun h => absurd h.2 hne) And.right

omit [DecidableEq J] in
theorem State.setWait_either {s : State W J G O} {i x : W} {p q r : WaitPc}
    (h : (s.setWait i p).wait x = q ∨ (s.setWait i p).wait x = r) (hq : p ≠ q) (hr : p ≠ r) : s.wait x = q ∨ s.wait x = r :=
  h.imp (fun h => State.setWait_other h hq) fun h => State.setWait_other h hr

omit [DecidableEq W] in
theorem State.setCall_cases {s : State W J G O} {j x : J} {p q : CallPc G} (h : (s.setCall j p).call x = q) :
    (x = j ∧ p = q) ∨ (x ≠ j ∧ s.call x = q) := by
  rw [State.setCall_call] at h
  exact update_cases h

omit [DecidableEq W] in
theorem State.setCall_other {s : State W J G O} {j x : J} {p q : CallPc G} (h : (s.setCall j p).call x = q)
    (hne : p ≠ q) : s.call x = q :=
  (State.setCall_cases h).elim (fun h => absurd h.2 hne) And.right

inductive Steps (K : Kind G O) (s : State W J G O) : Label W J O → State W J G O → Prop
  | awaitReady (i : W) (hw : s.wait i = .fresh) :
    Steps K s (.awaitReady i) (s.setWait i (if K.isReady s.gate then .ready else .notReady))
  | awaitSuspend (i : W) (hw : s.wait i = .notReady) (hh : s.holder = none) :
    Steps K s (.awaitSuspend i)
      ({ s with holder := some (.wait i) }.setWait i (if K.isReady s.gate then .submitting else .pushing))
  | push (i : W) (hw : s.wait i = .pushing) :
    Steps K s (.suspendEnd i)
      ({ s with holder := none, waiters := s.waiters ++ [i], stored := s.stored ++ [i] }.setWait i .suspended)
  | submitSelf (i : W) (hw : s.wait i = .submitting) :
    Steps K s (.suspendEnd i) ({ s with holder := none, submitted := s.submitted ++ [i] }.setWait i .suspended)
  | resume (i : W) (hr : s.result i = none) (hw : s.wait i = .ready ∨ i ∈ s.submitted) :
    Steps K s (.resume i) { s with result := Function.update s.result i (some s.gate) }
  | call (j : J) (o : O) (hc : s.call j = .idle) :
    Steps K s (.call j o)
      ({ s with gate := (K.op o).fetch s.gate, calls := s.calls ++ [o] }.setCall j
        (if (K.op o).flushes s.gate then .pending (K.op o).stores else .returned))
  | enter (j : J) (stores : List (G → G)) (hc : s.call j = .pending stores) (hh : s.holder = none) :
    Steps K s (.enter j) ({ s with holder := some (.call j) }.setCall j (.inside stores))
  | store (j : J) (f : G → G) (left : List (G → G)) (hc : s.call j = .storing (f :: left)) :
    Steps K s (.store j) ({ s with gate := f s.gate }.setCall j (.inside left))
  | submit (j : J) (k : Nat) (i : W) (hc : s.call j = .flushing k) (hi : s.waiters[k]? = some i) :
    Steps K s (.submit j) ({ s with submitted := s.submitted ++ [i] }.setCall j (.flushing (k + 1)))
  | leave (j : J) (hc : s.call j = .flushing s.waiters.length) :
    Steps K s (.leave j) ({ s with holder := none, waiters := [] }.setCall j .returned)

theorem step_cases {K : Kind G O} {l : Label W J O} {s t : State W J G O} (h : step K l s = some t) :
    ∃ u, Steps K s l u ∧ t = u.note K := by
  obtain ⟨u, hu, rfl⟩ := Option.map_eq_some_iff.mp h
  refine ⟨u, ?_, rfl⟩
  cases l with
  | awaitReady i | call j o | store j =>
    simp only [move] at hu
    split at hu <;> cases hu
    constructor
    assumption
  | awaitSuspend i | enter j =>
    simp only [move] at hu
    split at hu
    · split at hu <;> cases hu
      constructor <;> assumption
    · cases hu
  | suspendEnd i =>
    simp only [move] at hu
    split at hu <;> cases hu
    · exact .push i ‹_›
    · exact .submitSelf i ‹_›
  | resume i =>
    simp only [move] at hu
    split at hu <;> cases hu
    rename_i hr
    exact .resume i hr.1 hr.2
  | submit j =>
    simp only [move] at hu
    split at hu
    · split at hu <;> cases hu
      constructor <;> assumption
    · cases hu
  | leave j =>
    simp only [move] at hu
    split at hu
    · split at hu <;> cases hu
      rename_i hc hk
      subst hk
      exact .leave j hc
    · cases hu

end TinyCoro.Comp.Gate
