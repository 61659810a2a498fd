import Mathlib.Algebra.Ring.Int.Defs
import Mathlib.Data.Fintype.Basic
import TinyCoro.Comp.CountDown

/-! `wait_group`: a counter that can be raised again, whose waiters are flushed by the
`done` that brings it to zero. A flush is decided before the lock is taken, so it can
find waiters that came after the counter had left zero. -/
namespace TinyCoro.Comp.WaitGroup
open Transition Gate GatePlaces
variable {W J : Type}

inductive Op
  | add (count : BitVec 32)
  | done
  deriving DecidableEq, Repr

/-- `m_count` is an `atomic<int>`: its additions wrap. -/
def add (count : BitVec 32) : Gate.Op (BitVec 32) := ⟨(· + count), fun _ => false, []⟩

def done : Gate.Op (BitVec 32) := ⟨(· - 1), (· == 1), []⟩

def waitGroup : Kind (BitVec 32) Op where
  isReady := (· == 0)
  op
    | .add count => add count
    | .done => done

/-- How much has been added and not been done yet, not wrapped. -/
def outstanding (count : BitVec 32) (calls : List Op) : Int :=
  count.toInt + (calls.map fun | .add n => n.toInt | .done => -1).sum

/-- `add` is given a positive number, and `done` is called for something added before. -/
def Op.Allowed (left : Int) : Op → Prop
  | .add count => 0 < count.toInt
  | .done => 0 < left

instance (left : Int) : DecidablePred (Op.Allowed left)
  | .add count => inferInstanceAs (Decidable (0 < count.toInt))
  | .done => inferInstanceAs (Decidable (0 < left))

def Disciplined (count : BitVec 32) (l : Label W J Op) (s : State W J (BitVec 32) Op) : Prop :=
  ∀ o ∈ l.called, o.Allowed (outstanding count s.calls)

/-- No `add` brings the counter to 0, as it does from a negative count or by wrapping. -/
def AddsKeep (l : Label W J Op) (s : State W J (BitVec 32) Op) : Prop :=
  ∀ o ∈ l.called, o ≠ .done → (waitGroup.op o).fetch s.gate ≠ 0

instance (count : BitVec 32) (l : Label W J Op) (s : State W J (BitVec 32) Op) : Decidable (Disciplined count l s) :=
  inferInstanceAs (Decidable (∀ o ∈ l.called, _))

instance (l : Label W J Op) (s : State W J (BitVec 32) Op) : Decidable (AddsKeep l s) :=
  inferInstanceAs (Decidable (∀ o ∈ l.called, _))

theorem isReady_iff (g : BitVec 32) : waitGroup.isReady g = true ↔ g = 0 := by
  simp [waitGroup]

theorem counter : CountDown.Counter waitGroup where
  ready := isReady_iff
  stores o := by cases o <;> rfl
  opens o g h := by
    cases o with
    | add n => cases h
    | done =>
      rw [eq_of_beq h]
      rfl

private theorem followed {l : Label W J Op} {s : State W J (BitVec 32) Op} (h : AddsKeep l s) :
    GateOpen.Followed waitGroup l s := by
  intro o ho hr
  rw [isReady_iff] at hr
  have hkeep := h o ho
  cases o with
  | add n => exact absurd hr (hkeep nofun)
  | done =>
    simp only [waitGroup, done, beq_iff_eq] at hr ⊢
    bv_omega

variable [DecidableEq W] [DecidableEq J]

/-- As long as no `add` brings the counter to 0, whoever is stored while it is 0 has a
flush to come, nobody is submitted twice, and nobody is left waiting once the counter
is 0 and the flushes are over. -/
theorem wait_group_strands_nobody (count : BitVec 32) {s : State W J (BitVec 32) Op}
    (h : Reach (step waitGroup) AddsKeep (init count) s) :
    (s.gate = 0 → s.waiters ≠ [] → ∃ j, active (s.call j) = true) ∧
    s.submitted.Nodup ∧
    (s.gate = 0 → (∀ j, active (s.call j) = false) → s.waiters = [] ∧ (∀ i, s.wait i ≠ .pushing) ∧
      ∀ i, s.wait i = .suspended → s.submitted.count i = 1) := by
  have hp := GatePlaces.reach_inv h
  have hs := GateOpen.reach_awaited counter.stores (fun _ _ => followed) h
  refine ⟨fun h0 hw => hs ((isReady_iff _).mpr h0) (.inl hw), hp.nodup, fun h0 hno => ?_⟩
  exact hs.nobody_left hp ((isReady_iff _).mpr h0) hno

/-- The counter gets to zero twice, with a waiter stored each time; the second one is
stored while the first flush is pending. -/
def reused : List (Label (Fin 2) (Fin 4) Op) :=
  [.call 0 (.add 1), .awaitReady 0, .awaitSuspend 0, .suspendEnd 0, .call 1 .done, .call 2 (.add 1), .awaitReady 1,
    .awaitSuspend 1, .suspendEnd 1, .call 3 .done, .enter 1, .submit 1, .submit 1, .leave 1, .enter 3, .leave 3]

theorem wait_group_strands_nobody_reused : ∃ s : State (Fin 2) (Fin 4) (BitVec 32) Op,
    Reach (step waitGroup) AddsKeep (init 0) s ∧ s.gate = 0 ∧ s.submitted.Nodup ∧ s.waiters = [] ∧
    (∀ i, s.wait i = .suspended) ∧ ∀ i, s.wait i = .suspended → s.submitted.count i = 1 := by
  obtain ⟨s, hs⟩ : ∃ s, s ∈ exec (step waitGroup) reused (init 0) := ⟨_, rfl⟩
  have hr := Reach.exec .start (by decide : Along (step waitGroup) AddsKeep reused (init 0)) hs
  obtain ⟨-, hn, hdone⟩ := wait_group_strands_nobody 0 hr
  cases hs
  obtain ⟨hnil, -, honce⟩ := hdone rfl (by decide)
  exact ⟨_, hr, rfl, hn, hnil, by decide, honce⟩

/-- Four calls of `add` raise the counter by 2^32 in all, the last three after a waiter
has been stored. -/
def wrapped : List (Label (Fin 1) (Fin 4) Op) :=
  [.call 0 (.add 1), .awaitReady 0, .awaitSuspend 0, .suspendEnd 0, .call 1 (.add 2147483647),
    .call 2 (.add 2147483647), .call 3 (.add 1)]

theorem wait_group_strands_wrapped : ¬ ∀ s : State (Fin 1) (Fin 4) (BitVec 32) Op,
    Reach (step waitGroup) (Disciplined 0) (init 0) s →
      s.gate = 0 → s.waiters ≠ [] → ∃ j, active (s.call j) = true := by
  intro h
  obtain ⟨s, hs⟩ : ∃ s, s ∈ exec (step waitGroup) wrapped (init 0) := ⟨_, rfl⟩
  have hr := Reach.exec .start (by decide : Along (step waitGroup) (Disciplined 0) wrapped (init 0)) hs
  cases hs
  obtain ⟨j, hj⟩ := h _ hr rfl nofun
  revert j
  decide

private theorem reach_opened {count : BitVec 32} {s : State W J (BitVec 32) Op}
    (h : Reach (step waitGroup) GateOpen.PushedInTime (init count) s) : GateOpen.Opened s :=
  h.invariant GateOpen.Opened (GateOpen.opened_init _) fun _ _ _ hok hs ht => GateOpen.opened_step counter.opens hs hok ht

omit [DecidableEq J] in
/-- Whoever stores its handle holds the lock, so a flush is still on its way to it. -/
private theorem pending_of_pushing {s : State W J (BitVec 32) Op} (hp : GatePlaces.Inv s)
    (hplain : ∀ j, GateOpen.Plain (s.call j)) {i : W} {j : J} (hi : s.wait i = .pushing)
    (hj : active (s.call j) = true) : s.call j = .pending [] := by
  have hout := hp.holdCall j
  rw [(hp.holdWait i).mpr (by rw [hi]; rfl)] at hout
  have hnone := hplain j
  cases hcall : s.call j with
  | idle | returned =>
    rw [hcall] at hj
    cases hj
  | pending l =>
    rw [hcall] at hnone
    obtain rfl : l = [] := hnone
    rfl
  | storing l | flushing k => simp [hcall, flushing] at hout

/-- A wait that is stored too late is released by the flush that is on its way. -/
private theorem late_push_released {ok : Label W J Op → State W J (BitVec 32) Op → Prop} {count : BitVec 32}
    {s t : State W J (BitVec 32) Op} (h : Reach (step waitGroup) ok (init count) s) {i : W} {j : J}
    (hi : s.wait i = .pushing) (hop : s.opened i = false) (hj : active (s.call j) = true)
    (ht : step waitGroup (.suspendEnd i) s = some t) :
    ∃ u v, Reach (step waitGroup) (fun l _ => l.called = none) t u ∧ step waitGroup (.resume i) u = some v ∧
      u.opened i = false := by
  have hp := GatePlaces.reach_inv h
  have hr : waitGroup.isReady s.gate = false := by
    by_contra hr
    cases hop.symm.trans (GateOpen.reach_noted h i (by simp [hi]) (by simpa using hr))
  have hres : s.result i = none := by
    by_contra hne
    rcases GateOpen.reach_result h i hne with hw | hw
    · cases hi.symm.trans hw
    · cases hi.symm.trans ((hp.settled i).mpr (.inr hw))
  obtain ⟨m, hm, rfl⟩ := step_cases ht
  cases hm with
  | submitSelf i hw => cases hi.symm.trans hw
  | push i hw =>
    have hc := pending_of_pushing hp (GateOpen.reach_plain counter.stores h) hi hj
    obtain ⟨u, hu, hsub, hresult, hopened⟩ := GateOpen.flush_run (K := waitGroup) (s := State.note waitGroup
      (State.setWait i .suspended { s with holder := none, waiters := s.waiters ++ [i], stored := s.stored ++ [i] }))
      hc rfl hr
    have hmem : i ∈ u.submitted := by
      rw [hsub]
      exact List.mem_append_right _ (List.mem_append_right _ (List.mem_singleton_self i))
    have hnone : u.result i = none := by
      rw [hresult]
      exact hres
    refine ⟨u, _, hu, by simp [step, move, hmem, hnone]; rfl, ?_⟩
    rw [hopened, GateOpen.note_not_ready (by exact hr)]
    exact hop

/-- In every run in which no wait is stored while a flush is on its way that was decided
before its `await_ready`, the counter has been 0 between a wait's `await_ready` and its
end; a wait stored otherwise can be released without that. -/
theorem wait_group_no_early_release (count : BitVec 32) :
    (∀ s : State W J (BitVec 32) Op, Reach (step waitGroup) GateOpen.PushedInTime (init count) s →
      ∀ i t, step waitGroup (.resume i) s = some t → s.opened i = true) ∧
    (∀ s t : State W J (BitVec 32) Op, Reach (step waitGroup) (Disciplined count) (init count) s → ∀ i,
      ¬ GateOpen.PushedInTime (.suspendEnd i) s → step waitGroup (.suspendEnd i) s = some t →
      ∃ u v, Reach (step waitGroup) (fun l _ => l.called = none) t u ∧ step waitGroup (.resume i) u = some v ∧
        u.opened i = false) := by
  refine ⟨fun s hs i t ht => (reach_opened hs).resumed ht, fun s t hs i hlate ht => ?_⟩
  simp only [GateOpen.PushedInTime, not_forall, not_or] at hlate
  obtain ⟨x, hx, hi, hop, j, hj⟩ := hlate
  cases hx
  exact late_push_released hs hi (by simpa using hop) (by simpa using hj) ht

def inTime : List (Label (Fin 1) (Fin 2) Op) :=
  [.call 0 (.add 1), .awaitReady 0, .awaitSuspend 0, .suspendEnd 0, .call 1 .done, .enter 1, .submit 1]

theorem wait_group_no_early_release_inTime : ∃ s t : State (Fin 1) (Fin 2) (BitVec 32) Op,
    Reach (step waitGroup) GateOpen.PushedInTime (init 0) s ∧ step waitGroup (.resume 0) s = some t ∧
    s.opened 0 = true := by
  obtain ⟨s, hs⟩ : ∃ s, s ∈ exec (step waitGroup) inTime (init 0) := ⟨_, rfl⟩
  have hr := Reach.exec .start (by decide : Along (step waitGroup) GateOpen.PushedInTime inTime (init 0)) hs
  cases hs
  exact ⟨_, _, hr, rfl, (wait_group_no_early_release 0).1 _ hr 0 _ rfl⟩

/-- The counter is raised again before the flush, and a wait begins after that. -/
def overtaken : List (Label (Fin 1) (Fin 3) Op) :=
  [.call 0 (.add 1), .call 1 .done, .call 2 (.add 1), .awaitReady 0, .awaitSuspend 0, .suspendEnd 0, .enter 1, .submit 1]

theorem wait_group_early_release_overtaken : ¬ ∀ s : State (Fin 1) (Fin 3) (BitVec 32) Op,
    Reach (step waitGroup) (Disciplined 0) (init 0) s →
      ∀ i t, step waitGroup (.resume i) s = some t → s.opened i = true := by
  intro h
  obtain ⟨s, hs⟩ : ∃ s, s ∈ exec (step waitGroup) overtaken (init 0) := ⟨_, rfl⟩
  have hr := Reach.exec .start (by decide : Along (step waitGroup) (Disciplined 0) overtaken (init 0)) hs
  cases hs
  exact absurd (h _ hr 0 _ rfl) (by decide)

end TinyCoro.Comp.WaitGroup
