import Mathlib.Data.List.Nodup
import TinyCoro.Comp.Gate

/-! What holds of the waiters of every gate: the sections exclude each other, and a
suspended wait is stored or submitted, once, with the stored ones submitted in the
order in which they were stored. -/
namespace TinyCoro.Comp.GatePlaces
open Transition Gate
variable {W J G O : Type}

def suspending : WaitPc → Bool
  | .pushing | .submitting => true
  | _ => false

def flushing : CallPc G → Bool
  | .storing _ | .flushing _ => true
  | _ => false

def progress : CallPc G → Nat
  | .flushing k => k
  | _ => 0

def flushed (s : State W J G O) : Nat :=
  match s.holder with
  | some (.call j) => progress (s.call j)
  | _ => 0

def active : CallPc G → Bool
  | .pending _ | .storing _ | .flushing _ => true
  | _ => false

theorem flushing_inside (stores : List (G → G)) : flushing (.inside stores) = true := by
  cases stores <;> rfl

theorem progress_inside (stores : List (G → G)) : progress (.inside stores) = 0 := by
  cases stores <;> rfl

variable [DecidableEq W]

/-- `order` says that the stored handles are, in the order in which they were stored,
those submitted and those still to be submitted. -/
structure Inv (s : State W J G O) : Prop where
  holdWait : ∀ i, s.holder = some (.wait i) ↔ suspending (s.wait i) = true
  holdCall : ∀ j, s.holder = some (.call j) ↔ flushing (s.call j) = true
  order : s.submitted.filter (· ∈ s.stored) ++ s.waiters.drop (flushed s) = s.stored
  nodup : s.submitted.Nodup
  stored_nodup : s.stored.Nodup
  settled : ∀ i, s.wait i = .suspended ↔ i ∈ s.stored ∨ i ∈ s.submitted

theorem inv_init (gate : G) : Inv (init gate : State W J G O) := by
  constructor <;> simp [init, suspending, flushing]

/-- The invariant does not look at the history of the ready moments. -/
theorem Inv.note {s : State W J G O} (hs : Inv s) (K : Kind G O) : Inv (s.note K) :=
  ⟨hs.holdWait, hs.holdCall, hs.order, hs.nodup, hs.stored_nodup, hs.settled⟩

/-- Nobody is inside a section while the spinlock is free. -/
theorem Inv.free {s : State W J G O} (hs : Inv s) (hh : s.holder = none) :
    (∀ i, suspending (s.wait i) = false) ∧ ∀ j, flushing (s.call j) = false := by
  refine ⟨fun i => ?_, fun j => ?_⟩
  · have := hs.holdWait i
    rw [hh] at this
    simpa using this
  · have := hs.holdCall j
    rw [hh] at this
    simpa using this

/-- A call inside its section is alone there. -/
theorem Inv.alone {s : State W J G O} (hs : Inv s) {j : J} (hc : flushing (s.call j) = true) :
    (∀ j', j' ≠ j → flushing (s.call j') = false) ∧ ∀ i, suspending (s.wait i) = false := by
  have hh := (hs.holdCall j).mpr hc
  refine ⟨fun j' hne => ?_, fun i => ?_⟩
  · have := hs.holdCall j'
    rw [hh] at this
    simpa [Ne.symm hne] using this
  · have := hs.holdWait i
    rw [hh] at this
    simpa using this

theorem Inv.flushed_eq {s : State W J G O} (hs : Inv s) {j : J} {k : Nat} (hc : s.call j = .flushing k) :
    flushed s = k := by
  have hh := (hs.holdCall j).mpr (by rw [hc]; rfl)
  simp [flushed, hh, hc, progress]

theorem Inv.waiter_stored {s : State W J G O} (hs : Inv s) {i : W} (hi : i ∈ s.waiters.drop (flushed s)) :
    i ∈ s.stored ∧ i ∉ s.submitted := by
  have hn := hs.stored_nodup
  rw [← hs.order, List.nodup_append] at hn
  have hst : i ∈ s.stored := by
    rw [← hs.order]
    exact List.mem_append_right _ hi
  refine ⟨hst, fun hsub => ?_⟩
  exact hn.2.2 i (List.mem_filter.mpr ⟨hsub, by simpa using hst⟩) i hi rfl

/-- A suspended wait whose handle is not about to be submitted has been submitted once. -/
theorem Inv.submitted_once {s : State W J G O} (hs : Inv s) {i : W} (hw : s.wait i = .suspended)
    (hi : i ∉ s.waiters.drop (flushed s)) : s.submitted.count i = 1 := by
  refine List.count_eq_one_of_mem hs.nodup ?_
  rcases (hs.settled i).mp hw with hst | hsub
  · rw [← hs.order, List.mem_append] at hst
    exact (List.mem_filter.mp (hst.resolve_right hi)).1
  · exact hsub

/-- A wait that moves between points outside of the section, neither of them the last. -/
private theorem inv_setWait {s : State W J G O} (hs : Inv s) {i : W} {p : WaitPc}
    (hp : suspending p = suspending (s.wait i)) (hn : s.wait i ≠ .suspended) (hn' : p ≠ .suspended) :
    Inv (s.setWait i p) := by
  refine ⟨fun x => ?_, hs.holdCall, hs.order, hs.nodup, hs.stored_nodup, fun x => ?_⟩
  · by_cases hx : x = i
    · subst hx
      simpa [hp] using hs.holdWait x
    · simpa [hx] using hs.holdWait x
  · by_cases hx : x = i
    · subst hx
      have := hs.settled x
      simpa [hn, hn'] using this
    · simpa [hx] using hs.settled x

/-- The spinlock is taken for the test of `await_suspend`. -/
private theorem inv_awaitSuspend {s : State W J G O} (hs : Inv s) {i : W} (hw : s.wait i = .notReady)
    (hh : s.holder = none) {p : WaitPc} (hp : suspending p = true) :
    Inv ({ s with holder := some (.wait i) }.setWait i p) := by
  obtain ⟨hnone, hfree⟩ := hs.free hh
  have hord := hs.order
  simp only [flushed, hh] at hord
  refine ⟨fun x => ?_, fun j => ?_, hord, hs.nodup, hs.stored_nodup, fun x => ?_⟩
  · by_cases hx : x = i
    · simp [hx, hp]
    · simp [hx, Ne.symm hx, hnone]
  · simp [hfree]
  · by_cases hx : x = i
    · subst hx
      have := hs.settled x
      have hne : p ≠ .suspended := by
        rintro rfl
        cases hp
      simpa [hw, hne] using this
    · simpa [hx] using hs.settled x

/-- The end of `await_suspend`: the spinlock is released and the handle settled. -/
private theorem inv_suspendEnd {s t : State W J G O} (hs : Inv s) {i : W} (hw : suspending (s.wait i) = true)
    (hwait : t.wait = Function.update s.wait i .suspended) (hcall : t.call = s.call) (hh : t.holder = none)
    (horder : t.submitted.filter (· ∈ t.stored) ++ t.waiters = t.stored) (hn : t.submitted.Nodup)
    (hsn : t.stored.Nodup) (hset : ∀ x, (x ∈ t.stored ∨ x ∈ t.submitted) ↔ x = i ∨ x ∈ s.stored ∨ x ∈ s.submitted) :
    Inv t := by
  have hhold := (hs.holdWait i).mpr hw
  refine ⟨fun x => ?_, fun j => ?_, ?_, hn, hsn, fun x => ?_⟩
  · rw [hh, hwait]
    by_cases hx : x = i
    · simp [hx, suspending]
    · have := hs.holdWait x
      rw [hhold] at this
      simpa [hx, Ne.symm hx] using this
  · have := hs.holdCall j
    rw [hhold] at this
    rw [hh, hcall]
    simpa using this
  · simpa [flushed, hh] using horder
  · rw [hwait, hset]
    by_cases hx : x = i
    · simp [hx]
    · simpa [hx] using hs.settled x

/-- The handle of a wait that is not suspended has been given to nobody. -/
theorem Inv.unsettled {s : State W J G O} (hs : Inv s) {i : W} (hw : s.wait i ≠ .suspended) :
    i ∉ s.stored ∧ i ∉ s.submitted := by
  rw [← not_or, ← hs.settled i]
  exact hw

private theorem inv_push {s : State W J G O} (hs : Inv s) {i : W} (hw : s.wait i = .pushing) :
    Inv ({ s with holder := none, waiters := s.waiters ++ [i], stored := s.stored ++ [i] }.setWait i .suspended) := by
  have hhold := (hs.holdWait i).mpr (by rw [hw]; rfl)
  have hnot := hs.unsettled (by rw [hw]; exact nofun)
  have hord := hs.order
  simp only [flushed, hhold, List.drop_zero] at hord
  refine inv_suspendEnd hs (by rw [hw]; rfl) rfl rfl rfl ?_ hs.nodup ?_ ?_
  · have hfilter : s.submitted.filter (· ∈ s.stored ++ [i]) = s.submitted.filter (· ∈ s.stored) := by
      refine List.filter_congr fun x hx => ?_
      have hxi : x ≠ i := by
        rintro rfl
        exact hnot.2 hx
      simp [hxi]
    simp only [State.setWait_submitted, State.setWait_stored, State.setWait_waiters]
    rw [hfilter, ← List.append_assoc, hord]
  · exact hs.stored_nodup.append (List.nodup_singleton i) (by simpa using hnot.1)
  · intro x
    simp only [State.setWait_stored, State.setWait_submitted, List.mem_append, List.mem_singleton]
    tauto

private theorem inv_submitSelf {s : State W J G O} (hs : Inv s) {i : W} (hw : s.wait i = .submitting) :
    Inv ({ s with holder := none, submitted := s.submitted ++ [i] }.setWait i .suspended) := by
  have hhold := (hs.holdWait i).mpr (by rw [hw]; rfl)
  have hnot := hs.unsettled (by rw [hw]; exact nofun)
  have hord := hs.order
  simp only [flushed, hhold, List.drop_zero] at hord
  refine inv_suspendEnd hs (by rw [hw]; rfl) rfl rfl rfl ?_ ?_ hs.stored_nodup ?_
  · simpa [List.filter_append, hnot.1] using hord
  · exact hs.nodup.append (List.nodup_singleton i) (by simpa using hnot.2)
  · intro x
    simp only [State.setWait_stored, State.setWait_submitted, List.mem_append, List.mem_singleton]
    tauto

variable [DecidableEq J]

/-- A step of a call that keeps the spinlock as it is, and the handles. -/
private theorem inv_setCall {s t : State W J G O} (hs : Inv s) {j : J} {p : CallPc G} (hf : flushing p = flushing (s.call j))
    (hpr : progress p = progress (s.call j)) (hcall : t.call = Function.update s.call j p) (hwait : t.wait = s.wait)
    (hh : t.holder = s.holder) (hw : t.waiters = s.waiters) (hsub : t.submitted = s.submitted)
    (hst : t.stored = s.stored) : Inv t := by
  have hfl : flushed t = flushed s := by
    unfold flushed
    rw [hh]
    split
    · rename_i j' _
      rw [hcall]
      by_cases hj : j' = j
      · rw [hj, Function.update_self, hpr]
      · rw [Function.update_of_ne hj]
    · rfl
  refine ⟨?_, fun j' => ?_, ?_, ?_, ?_, ?_⟩
  · rw [hh, hwait]
    exact hs.holdWait
  · rw [hh, hcall]
    by_cases hj : j' = j
    · subst hj
      rw [Function.update_self, hf]
      exact hs.holdCall j'
    · rw [Function.update_of_ne hj]
      exact hs.holdCall j'
  · rw [hsub, hst, hw, hfl]
    exact hs.order
  · rw [hsub]
    exact hs.nodup
  · rw [hst]
    exact hs.stored_nodup
  · rw [hwait, hst, hsub]
    exact hs.settled

private theorem inv_enter {s : State W J G O} (hs : Inv s) (j : J) (stores : List (G → G)) (hh : s.holder = none) :
    Inv ({ s with holder := some (.call j) }.setCall j (.inside stores)) := by
  obtain ⟨hwait, hcall⟩ := hs.free hh
  have hord := hs.order
  simp only [flushed, hh] at hord
  refine ⟨fun i => ?_, fun j' => ?_, ?_, hs.nodup, hs.stored_nodup, hs.settled⟩
  · simp [hwait]
  · by_cases hj : j' = j
    · simp [hj, flushing_inside]
    · simp [hj, Ne.symm hj, hcall]
  · simpa [flushed, progress_inside] using hord

private theorem inv_submit {s : State W J G O} (hs : Inv s) {j : J} {k : Nat} {i : W} (hc : s.call j = .flushing k)
    (hi : s.waiters[k]? = some i) :
    Inv ({ s with submitted := s.submitted ++ [i] }.setCall j (.flushing (k + 1))) := by
  have hh := (hs.holdCall j).mpr (by rw [hc]; rfl)
  have hfl := hs.flushed_eq hc
  have hdrop : s.waiters.drop k = i :: s.waiters.drop (k + 1) := by
    obtain ⟨hlt, rfl⟩ := List.getElem?_eq_some_iff.mp hi
    exact List.drop_eq_getElem_cons hlt
  obtain ⟨hst, hns⟩ := hs.waiter_stored (by rw [hfl, hdrop]; exact List.mem_cons_self)
  have hord := hs.order
  rw [hfl, hdrop] at hord
  refine ⟨hs.holdWait, fun j' => ?_, ?_, ?_, hs.stored_nodup, fun x => ?_⟩
  · by_cases hj : j' = j
    · simp [hj, hh, flushing]
    · simpa [hj] using hs.holdCall j'
  · simpa [flushed, hh, progress, List.filter_append, hst] using hord
  · exact hs.nodup.append (List.nodup_singleton i) (by simpa using hns)
  · have := hs.settled x
    simp only [State.setCall_wait, State.setCall_stored, State.setCall_submitted, List.mem_append, List.mem_singleton]
    rw [this]
    constructor
    · tauto
    · rintro (h | h | rfl)
      · exact .inl h
      · exact .inr h
      · exact .inl hst

private theorem inv_leave {s : State W J G O} (hs : Inv s) {j : J} (hc : s.call j = .flushing s.waiters.length) :
    Inv ({ s with holder := none, waiters := [] }.setCall j .returned) := by
  have hh := (hs.holdCall j).mpr (by rw [hc]; rfl)
  have hord := hs.order
  rw [hs.flushed_eq hc, List.drop_length] at hord
  refine ⟨fun i => ?_, fun j' => ?_, ?_, hs.nodup, hs.stored_nodup, hs.settled⟩
  · have := hs.holdWait i
    rw [hh] at this
    simpa using this
  · by_cases hj : j' = j
    · simp [hj, flushing]
    · have := hs.holdCall j'
      rw [hh] at this
      simpa [hj, Ne.symm hj] using this
  · simpa [flushed] using hord

theorem inv_steps {K : Kind G O} {l : Label W J O} {s t : State W J G O} (hs : Inv s) (h : Steps K s l t) : Inv t := by
  cases h with
  | awaitReady i hw => refine inv_setWait hs ?_ (by rw [hw]; nofun) ?_ <;> split <;> simp [hw, suspending]
  | awaitSuspend i hw hh => exact inv_awaitSuspend hs hw hh (by split <;> rfl)
  | push i hw => exact inv_push hs hw
  | submitSelf i hw => exact inv_submitSelf hs hw
  | resume i hr hw => exact ⟨hs.holdWait, hs.holdCall, hs.order, hs.nodup, hs.stored_nodup, hs.settled⟩
  | call j o hc => refine inv_setCall hs ?_ ?_ rfl rfl rfl rfl rfl rfl <;> split <;> rw [hc] <;> rfl
  | enter j stores hc hh => exact inv_enter hs j stores hh
  | store j f left hc =>
    exact inv_setCall hs (by rw [hc, flushing_inside]; rfl) (by rw [hc, progress_inside]; rfl) rfl rfl rfl rfl rfl rfl
  | submit j k i hc hi => exact inv_submit hs hc hi
  | leave j hc => exact inv_leave hs hc

theorem inv_step {K : Kind G O} {l : Label W J O} {s t : State W J G O} (hs : Inv s) (h : step K l s = some t) :
    Inv t := by
  obtain ⟨u, hu, rfl⟩ := step_cases h
  exact (inv_steps hs hu).note K

theorem reach_inv {K : Kind G O} {ok : Label W J O → State W J G O → Prop} {gate : G} {s : State W J G O}
    (h : Reach (step K) ok (init gate) s) : Inv s :=
  h.invariant Inv (inv_init gate) fun _ _ _ _ hs ht => inv_step hs ht

end TinyCoro.Comp.GatePlaces
