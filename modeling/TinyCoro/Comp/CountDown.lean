import TinyCoro.Comp.GateOpen

/-! Gates that are counted down to zero, once: as long as no more is counted down than
there was at the start, whoever gets past the wait finds the count at zero. -/
namespace TinyCoro.Comp.CountDown
open Transition Gate GatePlaces
variable {W J O : Type} {w : Nat} {K : Kind (BitVec w) O}

structure Counter (K : Kind (BitVec w) O) : Prop where
  ready : ∀ g, K.isReady g = true ↔ g = 0
  stores : ∀ o, (K.op o).stores = []
  opens : ∀ o g, (K.op o).flushes g = true → K.isReady ((K.op o).fetch g) = true

/-- Only decrements are called, at most `count` of them. -/
def AtMost (K : Kind (BitVec w) O) (count : BitVec w) (l : Label W J O) (s : State W J (BitVec w) O) : Prop :=
  ∀ o ∈ l.called, (K.op o).fetch = (· - 1) ∧ s.calls.length < count.toNat

structure Inv (count : BitVec w) (s : State W J (BitVec w) O) : Prop where
  count : s.gate.toNat + s.calls.length = count.toNat
  active : ∀ j, active (s.call j) = true → s.gate = 0
  opened : ∀ i, s.opened i = true → s.gate = 0
  noted : ∀ i, s.wait i ≠ .fresh → s.gate = 0 → s.opened i = true
  plain : ∀ j, GateOpen.Plain (s.call j)
  passed : GateOpen.Opened s

theorem inv_init (count : BitVec w) : Inv count (init count : State W J (BitVec w) O) := by
  refine ⟨?_, ?_, ?_, ?_, ?_, GateOpen.opened_init _⟩ <;> simp [init, GatePlaces.active, GateOpen.Plain]

/-- A flush on its way means that the count is 0, so a wait stored now has seen it. -/
theorem Inv.pushed_in_time {count : BitVec w} {s : State W J (BitVec w) O} (hs : Inv count s) (l : Label W J O) :
    GateOpen.PushedInTime l s := by
  intro i _ hi
  by_cases hact : ∃ j, GatePlaces.active (s.call j) = true
  · obtain ⟨j, hj⟩ := hact
    exact .inl (hs.noted i (by simp [hi]) (hs.active j hj))
  · exact .inr fun j => by simpa using not_exists.mp hact j

/-- The count is down to 0 when everything has been counted down. -/
theorem Inv.gate_zero {count : BitVec w} {s : State W J (BitVec w) O} (hs : Inv count s) (h : s.gate = 0) :
    s.calls.length = count.toNat := by
  have hcount := hs.count
  rw [h] at hcount
  simpa using hcount

/-- Below the top there is no borrow. -/
private theorem toNat_pred {g : BitVec w} (h : g ≠ 0) : (g - 1).toNat + 1 = g.toNat := by
  have hpos : g.toNat ≠ 0 := fun h0 => h (BitVec.eq_of_toNat_eq (by simpa using h0))
  have hlt := g.isLt
  have hone : (1 : BitVec w).toNat = 1 := by
    change 1 % 2 ^ w = 1
    exact Nat.mod_eq_of_lt (by omega)
  rw [BitVec.toNat_sub, hone]
  have hw : 2 ^ w - 1 + g.toNat = g.toNat - 1 + 2 ^ w := by omega
  rw [hw, Nat.add_mod_right, Nat.mod_eq_of_lt (by omega)]
  omega

variable [DecidableEq W] [DecidableEq J]

theorem inv_step (hK : Counter K) {count : BitVec w} {l : Label W J O} {s t : State W J (BitVec w) O}
    (hs : Inv count s) (hok : AtMost K count l s) (h : step K l s = some t) : Inv count t := by
  have hcount := hs.count
  have hplain := GateOpen.plain_step hK.stores hs.plain h
  have hpassed := GateOpen.opened_step hK.opens hs.passed (hs.pushed_in_time l) h
  obtain ⟨hnoted, hopened⟩ := GateOpen.step_noted h
  simp only [hK.ready] at hnoted hopened
  rcases GateOpen.gate_cases hs.plain h with ⟨j, o, rfl, hgate, hcalls, hact⟩ | ⟨-, hgate, hcalls, hact⟩
  · -- the call is admitted, so the count was not yet 0
    obtain ⟨hdec, hlt⟩ := hok o rfl
    have hne : s.gate ≠ 0 := by
      intro h0
      simp [h0] at hcount
      omega
    refine ⟨?_, fun x hx => ?_, fun i hi => ?_, hnoted, hplain, hpassed⟩
    · have := toNat_pred hne
      rw [hgate, hcalls, hdec, List.length_append, List.length_singleton]
      change (s.gate - 1).toNat + _ = _
      omega
    · rcases hact x hx with hx | hf
      · exact absurd (hs.active x hx) hne
      · rw [hgate]
        exact (hK.ready _).mp (hK.opens o _ hf)
    · exact (hopened i hi).elim (fun h => absurd (hs.opened i h) hne) id
  · refine ⟨by rw [hgate, hcalls, hcount], fun x hx => hgate ▸ hs.active x (hact x hx), fun i hi => ?_, hnoted,
      hplain, hpassed⟩
    exact (hopened i hi).elim (fun h => hgate ▸ hs.opened i h) id

/-- At 0 there is nothing left to count down. -/
theorem Inv.zero_step {count : BitVec w} {l : Label W J O} {s t : State W J (BitVec w) O} (hs : Inv count s)
    (hok : AtMost K count l s) (h : step K l s = some t) (h0 : s.gate = 0) : t.gate = 0 := by
  rcases GateOpen.gate_cases hs.plain h with ⟨j, o, rfl, -⟩ | ⟨-, hgate, -⟩
  · have hlt := (hok o rfl).2
    rw [hs.gate_zero h0] at hlt
    omega
  · rw [hgate, h0]

/-- Nobody gets past the wait before the count is down to 0. -/
theorem Inv.resumed {count : BitVec w} {s t : State W J (BitVec w) O} (hs : Inv count s) {i : W}
    (h : step K (.resume i) s = some t) : s.gate = 0 :=
  hs.opened i (hs.passed.resumed h)

end TinyCoro.Comp.CountDown
