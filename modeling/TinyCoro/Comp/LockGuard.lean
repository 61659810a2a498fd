import Mathlib.Data.List.Count
import TinyCoro.Comp.MutexOwner

/-! Coroutines that take one mutex with `co_await lock_guard()`, and what becomes of the
`detail::lock_guard` objects. The mutex and its waiters are those of `CondVar`, with no
condition variable; a guard's destructor unlocks the mutex whoever owns it. -/
namespace TinyCoro.Comp.LockGuard
open Transition CondVar HandlePlaces NotifyPlaces MutexOwner

/-- A `detail::lock_guard` in the body of a coroutine. Its `m_mtx` is the one mutex, so the
object is only told apart by where it is and by the acquisition it goes back to. -/
structure Guard (C : Type) where
  object : Nat
  coroutine : C
  acquisition : Nat
  deriving DecidableEq, Repr

/-- A call of `unlock()` by a guard; `owner` says whether its coroutine held the mutex. -/
structure Unlock (C : Type) where
  coroutine : C
  acquisition : Nat
  owner : Bool
  deriving DecidableEq, Repr

/-- `guards` are the guard objects there are, `objects` and `acquisitions` number them and
the acquisitions. The last two lists are history: the acquisitions whose guards were moved,
and the calls of `unlock()`. -/
structure State (C : Type) where
  sys : CondVar.State C Unit Empty Unit
  guards : List (Guard C)
  objects : Nat
  acquisitions : Nat
  moved : List Nat
  unlocks : List (Unlock C)

inductive Label (C : Type)
  | awaitReady (c : C)
  | awaitSuspend (c : C)
  | resume (c : C)
  | moveConstruct (other : Guard C)
  | destruct (g : Guard C)
  deriving DecidableEq, Repr

variable {C : Type}

def init : State C := ⟨CondVar.init fun _ => (), [], 0, 0, [], []⟩

namespace State

/-- `guard_awaiter::await_resume`: the guard that the `co_await` returns. -/
def awaitResume (c : C) (s : State C) : State C :=
  { s with
    guards := s.guards ++ [⟨s.objects, c, s.acquisitions⟩]
    objects := s.objects + 1
    acquisitions := s.acquisitions + 1 }

/-- `lock_guard(lock_guard&& other)`, which copies the reference and leaves `other` as it is. -/
def moveConstruct (other : Guard C) (s : State C) : State C :=
  { s with
    guards := s.guards ++ [{ other with object := s.objects }]
    objects := s.objects + 1
    moved := s.moved ++ [other.acquisition] }

def running (c : C) (s : State C) : Bool :=
  match s.sys.pc c with
  | .running => true
  | _ => false

variable [DecidableEq C]

def destruct (g : Guard C) (s : State C) : State C :=
  { s with
    sys := unlockBy g.coroutine () s.sys
    guards := s.guards.erase g
    unlocks := s.unlocks ++ [⟨g.coroutine, g.acquisition, decide (g.coroutine ∈ s.sys.owners ())⟩] }

end State

variable [DecidableEq C]

/-- `awaitReady` ends with the guard when it finds the mutex free. -/
def step (l : Label C) (s : State C) : Option (State C) :=
  match l with
  | .awaitReady c => (CondVar.step (c, .guardReady ()) s.sys).map fun t =>
    if (s.sys.mtx ()).locked then { s with sys := t } else { s with sys := t }.awaitResume c
  | .awaitSuspend c => (CondVar.step (c, .lockSuspend) s.sys).map fun t => { s with sys := t }
  | .resume c => (CondVar.step (c, .resume) s.sys).map fun t => { s with sys := t }.awaitResume c
  | .moveConstruct other => if s.running other.coroutine ∧ other ∈ s.guards then some (s.moveConstruct other) else none
  | .destruct g => if s.running g.coroutine ∧ g ∈ s.guards then some (s.destruct g) else none

def State.guardsOf (s : State C) (a : Nat) : Nat := s.guards.countP (·.acquisition = a)
def State.unlocksOf (s : State C) (a : Nat) : Nat := s.unlocks.countP (·.acquisition = a)

/-- One call of `unlock()` for each acquisition, by a coroutine that holds the mutex, and at
most one coroutine that does. -/
structure OneUnlock (s : State C) : Prop where
  atMost : ∀ a, s.unlocksOf a ≤ 1
  done : ∀ a < s.acquisitions, s.guardsOf a = 0 → s.unlocksOf a = 1
  owner : ∀ u ∈ s.unlocks, u.owner = true
  exclusive : (s.sys.owners ()).length ≤ 1

def Unmoved (l : Label C) (_ : State C) : Prop := ∀ other, l ≠ .moveConstruct other

instance (l : Label C) (s : State C) : Decidable (Unmoved l s) :=
  match l with
  | .moveConstruct other => isFalse fun h => h other rfl
  | .awaitReady _ | .awaitSuspend _ | .resume _ | .destruct _ => isTrue nofun

section Books
variable {s : State C}

/-- Every guard that was made for an acquisition, by `await_resume` or by a move, is there
or has unlocked. -/
def Books (s : State C) : Prop :=
  ∀ a, s.unlocksOf a + s.guardsOf a = (if a < s.acquisitions then 1 else 0) + s.moved.count a

omit [DecidableEq C] in
theorem books_awaitResume (hs : Books s) (c : C) : Books (s.awaitResume c) := by
  intro a
  have h := hs a
  simp only [State.unlocksOf, State.guardsOf, State.awaitResume, List.countP_append, List.countP_singleton] at h ⊢
  grind

omit [DecidableEq C] in
theorem books_moveConstruct (hs : Books s) (other : Guard C) : Books (s.moveConstruct other) := by
  intro a
  have h := hs a
  simp only [State.unlocksOf, State.guardsOf, State.moveConstruct, List.countP_append, List.countP_singleton,
    List.count_append, List.count_singleton] at h ⊢
  grind

theorem books_destruct (hs : Books s) {g : Guard C} (hg : g ∈ s.guards) : Books (s.destruct g) := by
  intro a
  have h := hs a
  have hcount := (List.perm_cons_erase hg).countP_eq (fun x : Guard C => decide (x.acquisition = a))
  rw [List.countP_cons] at hcount
  simp only [State.unlocksOf, State.guardsOf, State.destruct, List.countP_append, List.countP_singleton] at h ⊢
  grind

theorem books_step {l : Label C} {t : State C} (hs : Books s) (h : step l s = some t) : Books t := by
  cases l with
  | awaitReady c =>
    obtain ⟨u, -, rfl⟩ := Option.map_eq_some_iff.mp h
    split
    · exact hs
    · exact books_awaitResume (s := { s with sys := u }) hs c
  | awaitSuspend c =>
    obtain ⟨u, -, rfl⟩ := Option.map_eq_some_iff.mp h
    exact hs
  | resume c =>
    obtain ⟨u, -, rfl⟩ := Option.map_eq_some_iff.mp h
    exact books_awaitResume (s := { s with sys := u }) hs c
  | moveConstruct other =>
    obtain ⟨-, h⟩ := Option.ite_none_right_eq_some.mp h
    cases h
    exact books_moveConstruct hs other
  | destruct g =>
    obtain ⟨⟨-, hg⟩, h⟩ := Option.ite_none_right_eq_some.mp h
    cases h
    exact books_destruct hs hg

theorem books_reachable (h : Reachable step init s) : Books s :=
  h.invariant Books (fun _ => rfl) fun _ _ _ _ hs ht => books_step hs ht

end Books

/-- What holds as long as no guard is moved: there is one guard at most, and its coroutine
holds the mutex and is past its `co_await`. -/
structure Inv (s : State C) : Prop where
  places : HandlePlaces.Inv s.sys
  moved : s.moved = []
  lone : s.guards.length ≤ 1
  holder : ∀ g ∈ s.guards, g.coroutine ∈ s.sys.owners ()
  past : ∀ g ∈ s.guards, ∀ a, s.sys.pc g.coroutine ≠ .submitted a
  unlocks : ∀ u ∈ s.unlocks, u.owner = true

omit [DecidableEq C] in
theorem inv_init : Inv (init : State C) :=
  ⟨HandlePlaces.inv_init _, rfl, Nat.zero_le 1, fun _ h => (List.not_mem_nil h).elim, fun _ h => (List.not_mem_nil h).elim,
    fun _ h => (List.not_mem_nil h).elim⟩

namespace Inv
variable {s : State C} {t : CondVar.State C Unit Empty Unit} {c : C}

omit [DecidableEq C] in
theorem no_guard_free (hs : Inv s) (hl : (s.sys.mtx ()).locked = false) : s.guards = [] := by
  refine List.eq_nil_iff_forall_not_mem.mpr fun g hg => ?_
  have ho := hs.holder g hg
  rw [((hs.places.mutex ()).of_free hl).2] at ho
  exact List.not_mem_nil ho

omit [DecidableEq C] in
theorem no_guard_submitted (hs : Inv s) {a : Await Unit Empty Unit} (hp : s.sys.pc c = .submitted a) : s.guards = [] := by
  refine List.eq_nil_iff_forall_not_mem.mpr fun g hg => ?_
  have hc : c ∈ s.sys.owners () := hs.places.owner c () (by rw [hp]; rfl)
  exact hs.past g hg a (owner_unique hs.places hc (hs.holder g hg) ▸ hp)

omit [DecidableEq C] in
/-- A step without guards before and after it. -/
theorem empty (hs : Inv s) (ht : HandlePlaces.Inv t) (hg : s.guards = []) : Inv { s with sys := t } := by
  refine ⟨ht, hs.moved, hs.lone, fun g h => ?_, fun g h => ?_, hs.unlocks⟩
  · rw [hg] at h
    exact (List.not_mem_nil h).elim
  · rw [hg] at h
    exact (List.not_mem_nil h).elim

omit [DecidableEq C] in
/-- The first guard, for the coroutine that has just become the owner. -/
theorem awaitResume (hs : Inv s) (ht : HandlePlaces.Inv t) (hg : s.guards = []) (hc : c ∈ t.owners ())
    (hp : t.pc c = .running) : Inv ({ s with sys := t }.awaitResume c) := by
  have hone : ({ s with sys := t }.awaitResume c).guards = [⟨s.objects, c, s.acquisitions⟩] := by
    rw [State.awaitResume, hg, List.nil_append]
  refine ⟨ht, hs.moved, Nat.le_of_eq (congrArg List.length hone), fun g h => ?_, fun g h a => ?_, hs.unlocks⟩
  · rw [hone, List.mem_singleton] at h
    rw [h]
    exact hc
  · rw [hone, List.mem_singleton] at h
    rw [h]
    exact hp ▸ nofun

/-- Going to sleep in `lock_guard()` takes nothing from the owner. -/
theorem goto (hs : Inv s) {p : Pc C Unit Empty Unit} {x : Mutex C} (hp : ∀ a, p ≠ .submitted a)
    (ht : HandlePlaces.Inv ((s.sys.setMtx () x).goto c p)) : Inv { s with sys := (s.sys.setMtx () x).goto c p } := by
  refine ⟨ht, hs.moved, hs.lone, hs.holder, fun g hg a => ?_, hs.unlocks⟩
  simp only [State.goto_pc, State.setMtx_pc, Function.update_apply]
  split
  · exact hp a
  · exact hs.past g hg a

end Inv

section Step
variable {s : State C} {c : C}

theorem inv_awaitReady (hs : Inv s) {t : State C} (h : step (.awaitReady c) s = some t) : Inv t := by
  obtain ⟨u, hu, rfl⟩ := Option.map_eq_some_iff.mp h
  have hplaces := inv_step hs.places hu
  cases hp : s.sys.pc c with
  | running =>
    simp only [CondVar.step, hp, Option.some.injEq, tryLockBy_eq] at hu
    split at hu
    · subst hu
      rw [if_pos ‹_›]
      exact hs.goto (x := s.sys.mtx ()) (by simp) (by simpa [State.setMtx] using hplaces)
    · rename_i hl
      subst hu
      rw [if_neg hl]
      exact hs.awaitResume hplaces (hs.no_guard_free (by simpa using hl)) (by simp) hp
  | _ => simp [CondVar.step, hp] at hu

theorem inv_suspendOn (hs : Inv s) {a : Await Unit Empty Unit} (hplaces : HandlePlaces.Inv (suspendOn c a s.sys)) :
    Inv { s with sys := suspendOn c a s.sys } := by
  rw [suspendOn_eq] at hplaces ⊢
  split at hplaces
  · rw [if_pos ‹_›]
    exact hs.goto nofun hplaces
  · rename_i hl
    rw [if_neg hl]
    exact hs.empty hplaces (hs.no_guard_free (by simpa using hl))

theorem inv_awaitSuspend (hs : Inv s) {t : State C} (h : step (.awaitSuspend c) s = some t) : Inv t := by
  obtain ⟨u, hu, rfl⟩ := Option.map_eq_some_iff.mp h
  have hplaces := inv_step hs.places hu
  cases hp : s.sys.pc c with
  | lockSuspend | guardSuspend =>
    simp only [CondVar.step, hp, Option.some.injEq] at hu
    subst hu
    exact inv_suspendOn hs hplaces
  | _ => simp [CondVar.step, hp] at hu

theorem inv_resume (hs : Inv s) {t : State C} (h : step (.resume c) s = some t) : Inv t := by
  obtain ⟨u, hu, rfl⟩ := Option.map_eq_some_iff.mp h
  have hplaces := inv_step hs.places hu
  cases hp : s.sys.pc c with
  | submitted a =>
    simp only [CondVar.step, hp, Option.some.injEq] at hu
    subst hu
    have hown : c ∈ s.sys.owners () := hs.places.owner c () (by rw [hp]; rfl)
    exact hs.awaitResume hplaces (hs.no_guard_submitted hp) hown (by simp)
  | _ => simp [CondVar.step, hp] at hu

/-- The only guard goes, and its coroutine is the owner. -/
theorem inv_destruct (hs : Inv s) {g : Guard C} (hr : s.running g.coroutine = true) (hg : g ∈ s.guards) :
    Inv (s.destruct g) := by
  have hown := hs.holder g hg
  have hp : s.sys.pc g.coroutine = .running := by
    cases hp : s.sys.pc g.coroutine with
    | running => rfl
    | _ => simp [State.running, hp] at hr
  have hstep : CondVar.step (g.coroutine, .unlock ()) s.sys = some (unlockBy g.coroutine () s.sys) := by
    simp [CondVar.step, hp, hown]
  have hnil : s.guards.erase g = [] := by
    rw [← List.length_eq_zero_iff, List.length_erase_of_mem hg]
    have := hs.lone
    omega
  refine ⟨inv_step hs.places hstep, hs.moved, ?_, fun x hx => ?_, fun x hx => ?_, fun u hu => ?_⟩
  · rw [State.destruct, hnil]
    exact Nat.zero_le 1
  · rw [State.destruct, hnil] at hx
    exact (List.not_mem_nil hx).elim
  · rw [State.destruct, hnil] at hx
    exact (List.not_mem_nil hx).elim
  · rcases List.mem_append.mp hu with hu | hu
    · exact hs.unlocks u hu
    · rw [List.mem_singleton.mp hu]
      exact decide_eq_true hown

theorem inv_lockGuard {l : Label C} {t : State C} (hs : Inv s) (ho : Unmoved l s) (h : step l s = some t) : Inv t := by
  cases l with
  | awaitReady c => exact inv_awaitReady hs h
  | awaitSuspend c => exact inv_awaitSuspend hs h
  | resume c => exact inv_resume hs h
  | moveConstruct other => exact absurd rfl (ho other)
  | destruct g =>
    obtain ⟨⟨hr, hg⟩, h⟩ := Option.ite_none_right_eq_some.mp h
    cases h
    exact inv_destruct hs hr hg

omit [DecidableEq C] in
theorem oneUnlock_of_inv (hs : Inv s) (hb : Books s) : OneUnlock s := by
  refine ⟨fun a => ?_, fun a ha hg => ?_, hs.unlocks, ?_⟩
  · have h := hb a
    rw [hs.moved, List.count_nil] at h
    split at h <;> omega
  · have h := hb a
    rw [hs.moved, List.count_nil, hg, if_pos ha] at h
    exact h
  · rcases hs.places.mutex () with ⟨-, o, ho⟩ | ⟨-, ho⟩ <;> simp [ho]

end Step

/-- In every run without moved guards there is one `unlock()` for each acquisition, by its
owner. In every run at all, an acquisition whose guards are gone has had one exactly if
they were not moved. -/
theorem guard_unlocks_once :
    (∀ s : State C, Reach step Unmoved init s → OneUnlock s) ∧
    (∀ s : State C, Reachable step init s → ∀ a < s.acquisitions, s.guardsOf a = 0 →
      (s.unlocksOf a = 1 ↔ a ∉ s.moved)) := by
  refine ⟨fun s h => ?_, fun s h a ha hg => ?_⟩
  · exact oneUnlock_of_inv (h.invariant Inv inv_init fun _ _ _ ho hs ht => inv_lockGuard hs ho ht)
      (books_reachable h.reachable)
  · have hb := books_reachable h a
    rw [hg, if_pos ha] at hb
    rw [← List.count_eq_zero]
    omega

def inTurn : List (Label (Fin 2)) :=
  [.awaitReady 0, .awaitReady 1, .awaitSuspend 1, .destruct ⟨0, 0, 0⟩, .resume 1, .destruct ⟨1, 1, 1⟩]

theorem guard_unlocks_once_inTurn : ∃ s : State (Fin 2), Reach step Unmoved init s ∧ s.acquisitions = 2 ∧
    s.unlocks = [⟨0, 0, true⟩, ⟨1, 1, true⟩] ∧ OneUnlock s ∧ (s.unlocksOf 1 = 1 ↔ 1 ∉ s.moved) := by
  obtain ⟨s, hs⟩ : ∃ s, s ∈ exec (step (C := Fin 2)) inTurn init := ⟨_, rfl⟩
  have hr := Reach.exec .start (by decide : Along (step (C := Fin 2)) Unmoved inTurn init) hs
  have hone := guard_unlocks_once.1 s hr
  have hiff := guard_unlocks_once.2 s hr.reachable 1
  cases hs
  exact ⟨_, hr, rfl, by decide, hone, hiff (by decide) (by decide)⟩

/-- A guard moved once and destroyed with the guard it was moved from: both waiting
coroutines are let in. -/
theorem moved_guard_unlocks_twice : ¬ ∀ s : State (Fin 3), Reachable step init s → OneUnlock s := by
  intro h
  have hp : exec (step (C := Fin 3)) [.awaitReady 0, .moveConstruct ⟨0, 0, 0⟩, .awaitReady 1, .awaitSuspend 1,
      .awaitReady 2, .awaitSuspend 2, .destruct ⟨0, 0, 0⟩, .destruct ⟨1, 0, 0⟩] init = some _ := rfl
  have hexcl := (h _ (Reachable.of_exec _ hp)).exclusive
  exact absurd hexcl (by decide)

end TinyCoro.Comp.LockGuard
