import TinyCoro.Transition.Owners
import TinyCoro.Transition.Runs

/-! `task` objects as owners of coroutine frames: their constructors, assignments and
destructors, and the member functions that give a frame up. -/
namespace TinyCoro.Frame.Ownership
open Transition

/-- A `task` object, which is only its `m_coroutine`; `none` is the null handle. -/
structure Task where
  coroutine : Option Nat
  deriving DecidableEq, Repr

/-- The objects there are and the frames: the ones below `next` have been created, and
`detached` is the `m_detached` of their promises. `destroys` and `released` are history:
how often `destroy()` of the handle was called, and whether a task let the frame go. -/
structure State (O : Type) where
  object : O → Option Task
  next : Nat
  detached : Nat → Bool
  destroys : Nat → Nat
  released : Nat → Bool

/-- What a program does with its task objects. A new object is made by the call of a
coroutine, by `task()` or by the move constructor. -/
inductive Op (O : Type)
  | create (this : O)
  | construct (this : O)
  | moveConstruct (this other : O)
  | moveAssign (this other : O)
  | destroy (this : O)
  | detach (this : O)
  | handle (this : O)
  | destruct (this : O)
  deriving DecidableEq, Repr

variable {O : Type}

def init : State O :=
  { object := fun _ => none, next := 0, detached := fun _ => false, destroys := fun _ => 0, released := fun _ => false }

namespace State
variable [DecidableEq O]

def assign (this : O) (h : Option Nat) (s : State O) : State O :=
  { s with object := Function.update s.object this (some ⟨h⟩) }

def remove (this : O) (s : State O) : State O := { s with object := Function.update s.object this none }

/-- `if (m_coroutine != nullptr) m_coroutine.destroy();` -/
def destroyFrame (h : Option Nat) (s : State O) : State O :=
  match h with
  | some f => { s with destroys := Function.update s.destroys f (s.destroys f + 1) }
  | none => s

def release (h : Option Nat) (s : State O) : State O :=
  match h with
  | some f => { s with released := Function.update s.released f true }
  | none => s

def create (this : O) (s : State O) : State O := { s.assign this (some s.next) with next := s.next + 1 }

/-- `task(task&& other)`, with the `std::exchange` on `other` before the object is written. -/
def moveConstruct (this other : O) (src : Task) (s : State O) : State O :=
  (s.assign other none).assign this src.coroutine

def moveAssign (this other : O) (dst src : Task) (s : State O) : State O :=
  if other ≠ this then (((s.destroyFrame dst.coroutine).assign other none).assign this src.coroutine) else s

def destroy (this : O) (t : Task) (s : State O) : Bool × State O :=
  match t.coroutine with
  | some f => (true, (s.destroyFrame (some f)).assign this none)
  | none => (false, s)

/-- `detach()` of a task whose handle is not null. -/
def detach (this : O) (f : Nat) (s : State O) : State O :=
  { (s.release (some f)).assign this none with detached := Function.update s.detached f true }

def handle (this : O) (t : Task) (s : State O) : Option Nat × State O :=
  (t.coroutine, (s.release t.coroutine).assign this none)

def destruct (this : O) (t : Task) (s : State O) : State O := (s.destroyFrame t.coroutine).remove this

end State

/-- There is no step for an operation on an object that is not there, for a second object in
one place, and for `detach()` with a null handle, which the function dereferences. -/
def step [DecidableEq O] (op : Op O) (s : State O) : Option (State O) :=
  match op with
  | .create this => match s.object this with
    | none => some (s.create this)
    | some _ => none
  | .construct this => match s.object this with
    | none => some (s.assign this none)
    | some _ => none
  | .moveConstruct this other => match s.object this, s.object other with
    | none, some src => some (s.moveConstruct this other src)
    | _, _ => none
  | .moveAssign this other => match s.object this, s.object other with
    | some dst, some src => some (s.moveAssign this other dst src)
    | _, _ => none
  | .destroy this => (s.object this).map fun t => (s.destroy this t).2
  | .detach this => match s.object this with
    | some ⟨some f⟩ => some (s.detach this f)
    | _ => none
  | .handle this => (s.object this).map fun t => (s.handle this t).2
  | .destruct this => (s.object this).map fun t => s.destruct this t

def State.held (s : State O) (o : O) : Option Nat := (s.object o).bind Task.coroutine

def State.live (s : State O) (f : Nat) : Prop := f < s.next ∧ s.destroys f = 0

def Inv (s : State O) : Prop := Owned (· < s.next) s.held s.destroys s.released

theorem inv_init : Inv (init : State O) :=
  Owned.start (fun _ h => absurd h (Nat.not_lt_zero _)) (fun _ => rfl) (fun _ => rfl) (fun _ => rfl)

section
variable {s : State O} {this other : O} {h : Option Nat} {t : Task}

theorem held_of_object (ht : s.object this = some t) : s.held this = t.coroutine := by
  rw [State.held, ht, Option.bind_some]

theorem held_of_absent (ht : s.object this = none) : s.held this = none := by
  rw [State.held, ht, Option.bind_none]

@[simp] theorem held_destroyFrame : (s.destroyFrame h).held = s.held := by
  cases h with
  | none => rfl
  | some f => rfl

variable [DecidableEq O]

@[simp] theorem held_assign : (s.assign this h).held = Function.update s.held this h := by
  funext o
  simp only [State.held, State.assign, Function.update_apply]
  split
  · rfl
  · rfl

@[simp] theorem held_remove : (s.remove this).held = Function.update s.held this none := by
  funext o
  simp only [State.held, State.remove, Function.update_apply]
  split
  · rfl
  · rfl

/-- The invariant reads only the handles, so an object with a null handle is as good as none. -/
theorem inv_remove_iff : Inv (s.remove this) ↔ Inv (s.assign this none) := by
  unfold Inv
  rw [held_remove, held_assign]
  exact Iff.rfl

theorem inv_empty (hs : Inv s) (hthis : s.held this = none) : Inv (s.assign this none) := by
  unfold Inv at hs ⊢
  rw [held_assign, ← hthis, Function.update_eq_self]
  exact hs

theorem inv_create (hs : Inv s) (hthis : s.held this = none) : Inv (s.create this) := by
  have hmade : ∀ f, f < s.next + 1 ↔ f < s.next ∨ f = s.next := fun f => Nat.lt_succ_iff_lt_or_eq
  have h := Owned.make hs (Nat.lt_irrefl s.next) hthis hmade
  rw [← held_assign] at h
  exact h

theorem inv_move (other : O) (hs : Inv s) (hthis : s.held this = none) :
    Inv ((s.assign other none).assign this (s.held other)) := by
  have h := Owned.move hs hthis (c := other)
  rw [← held_assign, ← held_assign] at h
  exact h

theorem inv_destroyFrame (hs : Inv s) (hthis : s.held this = h) : Inv ((s.destroyFrame h).assign this none) := by
  cases h with
  | none => exact inv_empty hs hthis
  | some f =>
    have h := Owned.spend hs hthis
    rw [← held_assign] at h
    exact h

theorem inv_release (hs : Inv s) (hthis : s.held this = h) : Inv ((s.release h).assign this none) := by
  cases h with
  | none => exact inv_empty hs hthis
  | some f =>
    have h := Owned.release hs hthis
    rw [← held_assign] at h
    exact h

/-- The target's own frame is destroyed first, and then it is as if the target had been empty. -/
theorem inv_moveAssign {dst src : Task} (hs : Inv s) (hthis : s.object this = some dst)
    (hother : s.object other = some src) : Inv (s.moveAssign this other dst src) := by
  unfold State.moveAssign
  split
  · rename_i hne
    have hdrop := inv_destroyFrame hs (held_of_object hthis)
    have hempty : ((s.destroyFrame dst.coroutine).assign this none).held this = none := by
      rw [held_assign, Function.update_self]
    have hmove := inv_move other hdrop hempty
    unfold Inv at hmove ⊢
    simp only [held_assign, held_destroyFrame] at hmove ⊢
    rw [Function.update_of_ne hne, Function.update_comm hne.symm, Function.update_idem, held_of_object hother] at hmove
    exact hmove
  · exact hs

theorem inv_step {op : Op O} {u : State O} (hs : Inv s) (hu : step op s = some u) : Inv u := by
  cases op with
  | create this =>
    simp only [step] at hu
    split at hu
    · cases hu
      exact inv_create hs (held_of_absent ‹_›)
    · cases hu
  | construct this =>
    simp only [step] at hu
    split at hu
    · cases hu
      exact inv_empty hs (held_of_absent ‹_›)
    · cases hu
  | moveConstruct this other =>
    simp only [step] at hu
    split at hu
    · rename_i src hthis hother
      cases hu
      rw [State.moveConstruct, ← held_of_object hother]
      exact inv_move other hs (held_of_absent hthis)
    · cases hu
  | moveAssign this other =>
    simp only [step] at hu
    split at hu
    · cases hu
      exact inv_moveAssign hs ‹_› ‹_›
    · cases hu
  | destroy this =>
    obtain ⟨t, ht, rfl⟩ := Option.map_eq_some_iff.mp hu
    unfold State.destroy
    split
    · rename_i f hf
      exact inv_destroyFrame hs ((held_of_object ht).trans hf)
    · exact hs
  | detach this =>
    simp only [step] at hu
    split at hu
    · cases hu
      exact inv_release hs (held_of_object ‹_›)
    · cases hu
  | handle this =>
    obtain ⟨t, ht, rfl⟩ := Option.map_eq_some_iff.mp hu
    exact inv_release hs (held_of_object ht)
  | destruct this =>
    obtain ⟨t, ht, rfl⟩ := Option.map_eq_some_iff.mp hu
    exact inv_remove_iff.mpr (inv_destroyFrame hs (held_of_object ht))

theorem inv_reachable (h : Reachable step init s) : Inv s :=
  h.invariant Inv inv_init fun _ _ _ _ hs hu => inv_step hs hu

/-- A live frame is in one task object at most and no frame is destroyed twice. Without task
objects, the frames that `detach()` and `handle() &&` let go are the ones not destroyed. -/
theorem single_owner (h : Reachable step init s) :
    (∀ f, s.live f → ∀ a b, s.held a = some f → s.held b = some f → a = b) ∧ (∀ f, s.destroys f ≤ 1) ∧
      ((∀ o, s.object o = none) → ∀ f < s.next, s.destroys f = if s.released f then 0 else 1) := by
  have hs : Owned (· < s.next) s.held s.destroys s.released := inv_reachable h
  refine ⟨fun f _ a b ha hb => hs.one a b f ha hb, hs.spent_le, fun hnone f hf => ?_⟩
  exact hs.settled (fun o => held_of_absent (hnone o)) hf

end

/-- Frame 0 goes through three objects and frame 1 is destroyed by an assignment over it.
Frames 2 and 3 are let go, and frame 4 is destroyed by hand. -/
def handedAround : List (Op (Fin 4)) :=
  [.create 0, .create 1, .moveAssign 1 0, .moveAssign 1 1, .moveConstruct 2 1, .create 3, .detach 3, .destruct 3, .create 3,
    .handle 3, .destruct 3, .create 3, .destroy 3, .destroy 3, .destruct 0, .destruct 1, .destruct 2, .destruct 3]

theorem single_owner_handedAround : ∃ s, exec step handedAround init = some s ∧ (∀ o, s.object o = none) ∧ s.next = 5 ∧
    ∀ f < s.next, s.destroys f = if f = 2 ∨ f = 3 then 0 else 1 := by
  obtain ⟨s, hs⟩ : ∃ s, s ∈ exec step handedAround init := ⟨_, rfl⟩
  have hgone := (single_owner (Reachable.of_exec _ hs)).2.2
  cases hs
  refine ⟨_, rfl, by decide, rfl, fun f hf => ?_⟩
  rw [hgone (by decide) f hf]
  revert f
  decide

end TinyCoro.Frame.Ownership
