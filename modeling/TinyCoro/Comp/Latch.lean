import Mathlib.Data.Fin.Basic
import TinyCoro.Comp.CountDown

/-! `latch`: a countdown that opens at zero, once. -/
namespace TinyCoro.Comp.Latch
open Transition Gate GatePlaces
variable {W J : Type}

/-- `count_down`: the decrement wraps, and whoever saw 1 flushes. -/
def countDown : Gate.Op (BitVec 64) := ⟨(· - 1), (· == 1), []⟩

def latch : Kind (BitVec 64) Unit := ⟨(· == 0), fun _ => countDown⟩

/-- At most `count` calls of `count_down` in the whole run. -/
def AtMost (count : BitVec 64) (l : Label W J Unit) (s : State W J (BitVec 64) Unit) : Prop :=
  ∀ o ∈ l.called, s.calls.length < count.toNat

instance (count : BitVec 64) (l : Label W J Unit) (s : State W J (BitVec 64) Unit) : Decidable (AtMost count l s) :=
  inferInstanceAs (Decidable (∀ o ∈ l.called, _))

theorem counter : CountDown.Counter latch where
  ready := by simp [latch]
  stores _ := rfl
  opens _ _ h := by
    rw [eq_of_beq h]
    rfl

theorem followed (l : Label W J Unit) (s : State W J (BitVec 64) Unit) : GateOpen.Followed latch l s := by
  intro o _ h
  simp only [latch, countDown, beq_iff_eq] at h ⊢
  bv_omega

variable [DecidableEq W] [DecidableEq J]

private theorem reach_inv {count : BitVec 64} {s : State W J (BitVec 64) Unit}
    (h : Reach (step latch) (AtMost count) (init count) s) : CountDown.Inv count s := by
  induction h with
  | start => exact CountDown.inv_init _
  | next _ ho ht ih => exact CountDown.inv_step counter ih (fun o hl => ⟨rfl, ho o hl⟩) ht

/-- With at most `count` calls of `count_down`, nobody gets past `co_await wait()` before
all of them have decremented and nobody is submitted twice; once the count is 0 and its
flush is over, `m_waiters` is empty and whoever suspended has been submitted. -/
theorem latch_opens_once (count : BitVec 64) {s : State W J (BitVec 64) Unit}
    (h : Reach (step latch) (AtMost count) (init count) s) :
    (∀ i t, step latch (.resume i) s = some t → s.calls.length = count.toNat) ∧
    s.submitted.Nodup ∧
    (s.gate = 0 → (∀ j, GatePlaces.active (s.call j) = false) →
      s.waiters = [] ∧ ∀ i, s.wait i = .suspended → s.submitted.count i = 1) := by
  have hp := GatePlaces.reach_inv h
  have hg := GateOpen.reach_awaited (fun _ => rfl) (fun l s _ => followed l s) h
  have hs := reach_inv h
  refine ⟨fun i t ht => hs.gate_zero (hs.resumed ht), hp.nodup, fun h0 hno => ?_⟩
  obtain ⟨hnil, -, honce⟩ := hg.nobody_left hp (by simp [latch, h0]) hno
  exact ⟨hnil, honce⟩

/-- One wait is stored, one is between its test and its push when the count gets to 0. -/
def lateWait : List (Label (Fin 2) (Fin 2) Unit) :=
  [.awaitReady 0, .awaitSuspend 0, .suspendEnd 0, .call 0 (), .awaitReady 1, .awaitSuspend 1, .call 1 (),
    .suspendEnd 1, .enter 1, .submit 1, .submit 1, .leave 1]

theorem latch_opens_once_lateWait : ∃ s : State (Fin 2) (Fin 2) (BitVec 64) Unit,
    Reach (step latch) (AtMost 2) (init 2) s ∧ (∃ t, step latch (.resume 1) s = some t) ∧ s.calls.length = 2 ∧
    s.submitted.Nodup ∧ (∀ i, s.wait i = .suspended) ∧ ∀ i, s.wait i = .suspended → s.submitted.count i = 1 := by
  obtain ⟨s, hs⟩ : ∃ s, s ∈ exec (step latch) lateWait (init 2) := ⟨_, rfl⟩
  have hr := Reach.exec .start (by decide : Along (step latch) (AtMost 2) lateWait (init 2)) hs
  obtain ⟨hres, hn, hdone⟩ := latch_opens_once 2 hr
  cases hs
  exact ⟨_, hr, ⟨_, rfl⟩, hres 1 _ rfl, hn, by decide, (hdone rfl (by decide)).2⟩

/-- No `count_down()`, by a `latch_guard` or directly, decrements a count that is 0. -/
def NotAtZero (l : Label W J Unit) (s : State W J (BitVec 64) Unit) : Prop := ∀ o ∈ l.called, s.gate ≠ 0

instance (l : Label W J Unit) (s : State W J (BitVec 64) Unit) : Decidable (NotAtZero l s) :=
  inferInstanceAs (Decidable (∀ o ∈ l.called, _))

def Quiet (s : State W J (BitVec 64) Unit) : Prop :=
  (∀ j, active (s.call j) = false) ∧ ∀ i, suspending (s.wait i) = false

/-- The latch, which was open at the moment `s`, is open in `t`: with nothing in progress
`m_waiters` is empty, and a wait begun after `s` has not been stored since the moment `u`,
at which the flush was over. -/
structure StaysOpen (s u t : State W J (BitVec 64) Unit) : Prop where
  empty : Quiet t → t.waiters = []
  skipped : (∀ j, active (u.call j) = false) → ∀ i, s.wait i = .fresh → i ∈ t.stored → i ∈ u.stored

def Passing (s t : State W J (BitVec 64) Unit) : Prop :=
  t.gate = 0 ∧ ∀ i, s.wait i = .fresh → (t.wait i = .fresh ∨ t.wait i = .ready) ∧ i ∉ t.stored

omit [DecidableEq J] in
private theorem not_stored {s : State W J (BitVec 64) Unit} (hp : GatePlaces.Inv s) {i : W} (hi : s.wait i = .fresh) :
    i ∉ s.stored := by
  intro hst
  have hsus := (hp.settled i).mpr (.inl hst)
  rw [hi] at hsus
  cases hsus

omit [DecidableEq J] in
private theorem passing_start {s : State W J (BitVec 64) Unit} (hp : GatePlaces.Inv s) (h0 : s.gate = 0) : Passing s s := by
  exact ⟨h0, fun i hi => ⟨.inl hi, not_stored hp hi⟩⟩

/-- The only step of such a wait is its `await_ready`, which finds the count at 0. -/
private theorem passing_step {s m t : State W J (BitVec 64) Unit} {l : Label W J Unit} (hs : Passing s m)
    (hplain : ∀ j, GateOpen.Plain (m.call j)) (ho : NotAtZero l m) (h : step latch l m = some t) : Passing s t := by
  have hgate : t.gate = 0 := by
    rcases GateOpen.gate_cases hplain h with ⟨j, o, rfl, -⟩ | ⟨-, hg, -⟩
    · exact absurd hs.1 (ho o rfl)
    · rw [hg, hs.1]
  refine ⟨hgate, fun i hi => ?_⟩
  obtain ⟨hw, hst⟩ := hs.2 i hi
  obtain ⟨u, hu, rfl⟩ := step_cases h
  cases hu with
  | awaitReady x hx =>
    refine ⟨?_, hst⟩
    simp only [State.note_wait, State.setWait_wait, Function.update_apply]
    split
    · simp [latch, hs.1]
    · exact hw
  | awaitSuspend x hx hh =>
    refine ⟨?_, hst⟩
    have hne : i ≠ x := by
      rintro rfl
      simp [hx] at hw
    simpa [hne] using hw
  | push x hx | submitSelf x hx =>
    have hne : i ≠ x := by
      rintro rfl
      simp [hx] at hw
    simpa [hne] using ⟨hw, hst⟩
  | _ => exact ⟨hw, hst⟩

private theorem passing_run {count : BitVec 64} {s t : State W J (BitVec 64) Unit}
    (hs : Reach (step latch) NotAtZero (init count) s) (h0 : s.gate = 0) (ht : Reach (step latch) NotAtZero s t) :
    Passing s t := by
  induction ht with
  | start => exact passing_start (GatePlaces.reach_inv hs) h0
  | next hm ho hst ih => exact passing_step ih (GateOpen.reach_plain (fun _ => rfl) (hs.trans hm)) ho hst

omit [DecidableEq J] in
private theorem Quiet.free {s : State W J (BitVec 64) Unit} (hq : Quiet s) (hp : GatePlaces.Inv s) : s.holder = none := by
  cases hh : s.holder with
  | none => rfl
  | some p =>
    cases p with
    | wait i => exact absurd ((hp.holdWait i).mp hh) (by simp [hq.2 i])
    | call j =>
      have hc := (hp.holdCall j).mp hh
      have hno := hq.1 j
      cases hj : s.call j with
      | storing | flushing => simp [hj, active] at hno
      | _ => simp [hj, flushing] at hc

/-- One more `count_down()` at 0 leaves 2^64 - 1, and the next wait is stored. -/
private theorem closed_again {s : State W J (BitVec 64) Unit} {i : W} {j : J} (h0 : s.gate = 0) (hh : s.holder = none)
    (hi : s.wait i = .fresh) (hj : s.call j = .idle) : ∃ t, Reachable (step latch) s t ∧ i ∈ t.stored := by
  obtain ⟨t, ht, hst⟩ : ∃ t, exec (step latch) [.call j (), .awaitReady i, .awaitSuspend i, .suspendEnd i] s = some t ∧
      i ∈ t.stored := by
    simp [step, move, latch, countDown, h0, hh, hi, hj]
  exact ⟨t, Reachable.of_exec _ ht, hst⟩

/-- A latch that is open and not counted down at 0 stays open. When it is counted down once
more, it is closed to the next wait. -/
theorem latch_stays_open (count : BitVec 64) :
    (∀ s u t : State W J (BitVec 64) Unit, Reach (step latch) NotAtZero (init count) s → Reach (step latch) NotAtZero s u →
      Reach (step latch) NotAtZero u t → s.gate = 0 → StaysOpen s u t) ∧
    (∀ (s : State W J (BitVec 64) Unit) i j, Reachable (step latch) (init count) s → s.gate = 0 → Quiet s →
      s.wait i = .fresh → s.call j = .idle → ∃ t, Reachable (step latch) s t ∧ ¬ StaysOpen s s t) := by
  refine ⟨fun s u t hs hu ht h0 => ?_, fun s i j hs h0 hq hi hj => ?_⟩
  · have hpass := passing_run hs h0 (hu.trans ht)
    have hall := (hs.trans hu).trans ht
    refine ⟨fun hq => ?_, fun _ i hi hst => absurd hst (hpass.2 i hi).2⟩
    have hawait := GateOpen.reach_awaited (fun _ => rfl) (fun l s _ => followed l s) hall
    exact (hawait.nobody_left (GatePlaces.reach_inv hall) (by simp [latch, hpass.1]) hq.1).1
  · have hp := GatePlaces.reach_inv hs
    obtain ⟨t, ht, hst⟩ := closed_again h0 (hq.free hp) hi hj
    exact ⟨t, ht, fun hopen => not_stored hp hi (hopen.skipped hq.1 i hi hst)⟩

def untilOpen : List (Label (Fin 2) (Fin 2) Unit) := [.awaitReady 0, .awaitSuspend 0, .suspendEnd 0, .call 0 ()]
def flush : List (Label (Fin 2) (Fin 2) Unit) := [.enter 0, .submit 0, .leave 0]

theorem latch_stays_open_afterFlush : ∃ s u t : State (Fin 2) (Fin 2) (BitVec 64) Unit,
    Reach (step latch) NotAtZero (init 1) s ∧ s.gate = 0 ∧ s.waiters = [0] ∧ Reach (step latch) NotAtZero s u ∧
    Reach (step latch) NotAtZero u t ∧ t.wait 1 = .ready ∧ StaysOpen s u t ∧
    ∃ t, Reachable (step latch) u t ∧ ¬ StaysOpen u u t := by
  obtain ⟨s, hs⟩ : ∃ s, s ∈ exec (step latch) untilOpen (init 1) := ⟨_, rfl⟩
  obtain ⟨u, hu⟩ : ∃ u, u ∈ exec (step latch) flush s := by
    cases hs
    exact ⟨_, rfl⟩
  obtain ⟨t, ht⟩ : ∃ t, step latch (.awaitReady 1) u = some t := by
    cases hs
    cases hu
    exact ⟨_, rfl⟩
  have hrs := Reach.exec .start (by decide : Along (step latch) NotAtZero untilOpen (init 1)) hs
  have hru : Reach (step latch) NotAtZero s u := Reach.exec .start (by cases hs; decide) hu
  have hrt : Reach (step latch) NotAtZero u t := Reach.start.next (by cases hs; cases hu; decide) ht
  have hopen := (latch_stays_open 1).1 s u t hrs hru hrt
  have hclosed := (latch_stays_open 1).2 u 1 1 (hrs.trans hru).reachable
  cases hs
  cases hu
  cases ht
  exact ⟨_, _, _, hrs, rfl, by decide, hru, hrt, by decide, hopen rfl,
    hclosed rfl ⟨by decide, by decide⟩ (by decide) rfl⟩

/-- `latch(0)` is open from the start; after one `count_down()` a wait is stored in it. -/
theorem latch_closed_by_wrap : ¬ ∀ s u t : State (Fin 1) (Fin 1) (BitVec 64) Unit, Reachable (step latch) (init 0) s →
    Reachable (step latch) s u → Reachable (step latch) u t → s.gate = 0 → StaysOpen s u t := by
  intro h
  have hp : exec (step latch) [.call 0 (), .awaitReady 0, .awaitSuspend 0, .suspendEnd 0]
      (init 0 : State (Fin 1) (Fin 1) (BitVec 64) Unit) = some _ := rfl
  have hopen := h _ _ _ .start .start (Reachable.of_exec _ hp) rfl
  exact absurd (hopen.empty ⟨by decide, by decide⟩) (by decide)

end TinyCoro.Comp.Latch
