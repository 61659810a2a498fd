import Mathlib.Algebra.GroupWithZero.Nat
import Mathlib.Logic.Function.Basic
import Mathlib.Data.List.Basic

/-! Runs of a partial step function under an arbitrary schedule of labels.
A label names who moves and how; a refused label leaves no successor. -/
namespace TinyCoro.Transition
variable {S L : Type}

/-- Follow a schedule; the run stops at the first refused label. -/
def exec (step : L → S → Option S) : List L → S → Option S
  | [], s => some s
  | l :: ls, s => (step l s).bind (exec step ls)

/-- Every step of the schedule is taken in a state that meets `ok`. -/
def Along (step : L → S → Option S) (ok : L → S → Prop) : List L → S → Prop
  | [], _ => True
  | l :: ls, s => ok l s ∧ ∀ t, step l s = some t → Along step ok ls t

/-- States reached from `init` by steps that all meet `ok`. -/
inductive Reach (step : L → S → Option S) (ok : L → S → Prop) (init : S) : S → Prop
  | start : Reach step ok init init
  | next {s t : S} {l : L} : Reach step ok init s → ok l s → step l s = some t → Reach step ok init t

/-- Reachability under every schedule. -/
abbrev Reachable (step : L → S → Option S) (init : S) : S → Prop :=
  Reach step (fun _ _ => True) init

section
variable {step : L → S → Option S} {ok : L → S → Prop} {init : S}

@[simp] theorem exec_nil (s : S) : exec step [] s = some s := rfl

@[simp] theorem exec_cons (l : L) (ls : List L) (s : S) :
    exec step (l :: ls) s = (step l s).bind (exec step ls) := rfl

theorem exec_append (as bs : List L) (s : S) :
    exec step (as ++ bs) s = (exec step as s).bind (exec step bs) := by
  induction as generalizing s with
  | nil => rfl
  | cons a as ih =>
    rw [List.cons_append, exec_cons, exec_cons, Option.bind_assoc]
    exact congrArg _ (funext ih)

theorem exec_append_some {as bs : List L} {s t : S} (h : exec step (as ++ bs) s = some t) :
    ∃ m, exec step as s = some m ∧ exec step bs m = some t := by
  rw [exec_append] at h
  exact Option.bind_eq_some_iff.mp h

theorem exec_cons_some {l : L} {ls : List L} {s t : S} (h : exec step (l :: ls) s = some t) :
    ∃ m, step l s = some m ∧ exec step ls m = some t :=
  Option.bind_eq_some_iff.mp h

theorem Reach.exec {s t : S} {ls : List L} (hs : Reach step ok init s)
    (ha : Along step ok ls s) (he : exec step ls s = some t) : Reach step ok init t := by
  induction ls generalizing s with
  | nil =>
    cases he
    exact hs
  | cons l ls ih =>
    obtain ⟨m, hm, ht⟩ := exec_cons_some he
    exact ih (hs.next ha.1 hm) (ha.2 m hm) ht

theorem along_of_forall {ls : List L} (h : ∀ l ∈ ls, ∀ s, ok l s) (s : S) : Along step ok ls s := by
  induction ls generalizing s with
  | nil => trivial
  | cons l ls ih => exact ⟨h l (by simp) s, fun t _ => ih (fun l hl => h l (by simp [hl])) t⟩

/-- The condition holds along a schedule when it holds at each of its positions. -/
theorem along_iff_split {ls : List L} {s : S} :
    Along step ok ls s ↔ ∀ pre l post t, ls = pre ++ l :: post → exec step pre s = some t → ok l t := by
  induction ls generalizing s with
  | nil => simp [Along]
  | cons a ls ih =>
    constructor
    · rintro ⟨ha, hls⟩ pre l post t hl ht
      cases pre with
      | nil =>
        obtain ⟨rfl, rfl⟩ := List.cons.inj hl
        cases ht
        exact ha
      | cons b pre =>
        obtain ⟨rfl, rfl⟩ := List.cons.inj hl
        obtain ⟨m, hm, ht⟩ := exec_cons_some ht
        exact ih.mp (hls m hm) pre l post t rfl ht
    · intro h
      refine ⟨h [] a ls s rfl rfl, fun t ht => ih.mpr fun pre l post u hl hu => ?_⟩
      exact h (a :: pre) l post u (by rw [hl]; rfl) (by rw [exec_cons, ht]; exact hu)

instance Along.decidable [∀ l s, Decidable (ok l s)] : ∀ ls s, Decidable (Along step ok ls s)
  | [], _ => isTrue trivial
  | l :: ls, s =>
    match h : step l s with
    | none => decidable_of_iff (ok l s) (by simp [Along, h])
    | some t =>
      have := Along.decidable ls t
      decidable_of_iff (ok l s ∧ Along step ok ls t) (by simp [Along, h])

/-- A schedule that runs to the end shows its last state reachable. -/
theorem Reachable.of_exec {t : S} (ls : List L) (he : Transition.exec step ls init = some t) :
    Reachable step init t :=
  Reach.exec .start (along_of_forall (fun _ _ _ => trivial) init) he

theorem Reach.trans {s t : S} (hs : Reach step ok init s) (ht : Reach step ok s t) : Reach step ok init t := by
  induction ht with
  | start => exact hs
  | next _ ho hst ih => exact ih.next ho hst

theorem Reach.weaken {ok' : L → S → Prop} (h : ∀ l s, ok l s → ok' l s) {t : S}
    (ht : Reach step ok init t) : Reach step ok' init t := by
  induction ht with
  | start => exact .start
  | next _ ho hs ih => exact ih.next (h _ _ ho) hs

theorem Reach.reachable {t : S} (ht : Reach step ok init t) : Reachable step init t :=
  ht.weaken fun _ _ _ => trivial

/-- Induction over runs: an initial property kept by every admitted step is invariant. -/
theorem Reach.invariant (P : S → Prop) (h0 : P init)
    (hstep : ∀ l s t, ok l s → P s → step l s = some t → P t) {t : S}
    (ht : Reach step ok init t) : P t := by
  induction ht with
  | start => exact h0
  | next _ ho hs ih => exact hstep _ _ _ ho ih hs

/-- A relation that each step keeps, against any number of steps of another machine, relates
every state that is reached to one that the other reaches. -/
theorem Reach.simulate {S' L' : Type} {step' : L' → S' → Option S'} {ok' : L' → S' → Prop} {init' : S'} (R : S → S' → Prop)
    (h0 : R init init')
    (hstep : ∀ l s s' t, ok l s → Reach step ok init s → Reach step' ok' init' s' → R s s' → step l s = some t →
      ∃ t', Reach step' ok' s' t' ∧ R t t')
    {t : S} (ht : Reach step ok init t) : ∃ t', Reach step' ok' init' t' ∧ R t t' := by
  induction ht with
  | start => exact ⟨init', .start, h0⟩
  | next hs ho hst ih =>
    obtain ⟨s', hs', hR⟩ := ih
    obtain ⟨t', ht', hR'⟩ := hstep _ _ _ _ ho hs hs' hR hst
    exact ⟨t', hs'.trans ht', hR'⟩

theorem along_concat {ls : List L} {l : L} {s t : S} (ha : Along step ok ls s) (he : exec step ls s = some t)
    (ho : ok l t) : Along step ok (ls ++ [l]) s := by
  induction ls generalizing s with
  | nil =>
    cases he
    exact ⟨ho, fun _ _ => trivial⟩
  | cons a ls ih =>
    obtain ⟨m, hm, he⟩ := exec_cons_some he
    refine ⟨ha.1, fun m' hm' => ?_⟩
    cases hm.symm.trans hm'
    exact ih (ha.2 m hm) he

/-- A property that a step ends where it is not `ok`, and that does not come back, holds at
the end of exactly the runs that meet `ok` throughout. -/
theorem holds_iff_along {I P : S → Prop}
    (hstep : ∀ l s t, I s → step l s = some t → I t ∧ (P t ↔ P s ∧ ok l s)) {ls : List L} {s t : S} (hs : I s)
    (he : exec step ls s = some t) : P t ↔ P s ∧ Along step ok ls s := by
  induction ls generalizing s with
  | nil =>
    cases he
    simp [Along]
  | cons l ls ih =>
    obtain ⟨m, hm, he⟩ := exec_cons_some he
    obtain ⟨hI, hP⟩ := hstep l s m hs hm
    rw [ih hI he, hP, and_assoc]
    simp [Along, hm]

/-- Steps that each lower a number are at most as many as it says at the start. -/
theorem exec_length_le {I : S → Prop} {m : S → Nat}
    (hstep : ∀ l s t, I s → step l s = some t → I t ∧ m t < m s) {ls : List L} {s t : S} (hs : I s)
    (he : exec step ls s = some t) : ls.length + m t ≤ m s := by
  induction ls generalizing s with
  | nil =>
    cases he
    simp
  | cons l ls ih =>
    obtain ⟨u, hu, he⟩ := exec_cons_some he
    obtain ⟨hI, hlt⟩ := hstep l s u hs hu
    have := ih hI he
    rw [List.length_cons]
    omega

/-- Such steps can be followed until none is left. -/
theorem exists_exec_last {I : S → Prop} {m : S → Nat}
    (hstep : ∀ l s t, I s → step l s = some t → I t ∧ m t < m s) {s : S} (hs : I s) :
    ∃ ls t, exec step ls s = some t ∧ ∀ l, step l t = none := by
  induction hm : m s using Nat.strongRecOn generalizing s with
  | ind n ih =>
    by_cases hlast : ∀ l, step l s = none
    · exact ⟨[], s, rfl, hlast⟩
    · obtain ⟨l, hl⟩ := not_forall.mp hlast
      obtain ⟨u, hu⟩ := Option.ne_none_iff_exists'.mp hl
      obtain ⟨hI, hlt⟩ := hstep l s u hs hu
      obtain ⟨ls, t, he, ht⟩ := ih (m u) (hm ▸ hlt) hI rfl
      exact ⟨l :: ls, t, by rw [exec_cons, hu]; exact he, ht⟩

theorem along_append {as bs : List L} {s : S} (h : Along step ok (as ++ bs) s) : Along step ok as s :=
  along_iff_split.mpr fun pre l post t hl ht => along_iff_split.mp h pre l (post ++ bs) t (by simp [hl]) ht

end

section Answers
variable {S' A : Type}

/-- What is observed of a schedule when every step gives an answer; nothing is after a
refused label. -/
def answers (step : L → S → Option S) (answer : L → S → A) : List L → S → List A
  | [], _ => []
  | l :: ls, s => answer l s :: (step l s).elim [] (answers step answer ls)

variable {step : L → S → Option S} {step' : L → S' → Option S'} {answer : L → S → A} {answer' : L → S' → A}
  {ok : L → S → Prop} {R : S → S' → Prop}

/-- Two machines that go on together where `ok` holds and answer differently where it fails
are told apart by exactly the schedules along which it fails. -/
theorem answers_eq_iff
    (hok : ∀ l s s', R s s' → ok l s →
      answer l s = answer' l s' ∧ ∃ t t', step l s = some t ∧ step' l s' = some t' ∧ R t t')
    (hne : ∀ l s s', R s s' → ¬ ok l s → answer l s ≠ answer' l s') (ls : List L) {s : S} {s' : S'} (h : R s s') :
    answers step answer ls s = answers step' answer' ls s' ↔ Along step ok ls s := by
  induction ls generalizing s s' with
  | nil => simp [answers, Along]
  | cons l ls ih =>
    by_cases ho : ok l s
    · obtain ⟨ha, t, t', ht, ht', hR⟩ := hok l s s' h ho
      have hnext : Along step ok (l :: ls) s ↔ Along step ok ls t := by simp [Along, ho, ht]
      rw [hnext, ← ih hR, answers, answers, ha, ht, ht', Option.elim_some, Option.elim_some]
      exact ⟨fun h => (List.cons.inj h).2, fun h => by rw [h]⟩
    · exact ⟨fun ha => absurd (List.cons.inj ha).1 (hne l s s' h ho), fun ha => absurd ha.1 ho⟩

end Answers

/-! The parties of systems on fixed inputs are numbered from 0 on. -/
instance neZeroOne : NeZero 1 := ⟨by decide⟩
instance neZeroTwo : NeZero 2 := ⟨by decide⟩
instance neZeroThree : NeZero 3 := ⟨by decide⟩
instance neZeroFour : NeZero 4 := ⟨by decide⟩

end TinyCoro.Transition
