import Mathlib.Data.Option.Basic

/-! A machine that goes on by itself until it halts, run with fuel for its steps. What does
not depend on the fuel is that one run goes on as another. -/
namespace TinyCoro.Transition
variable {S : Type}

/-- `none` where the machine is stuck, and also when the fuel is used up. -/
def fuelled (halted : S → Bool) (step : S → Option S) : Nat → S → Option S
  | 0, s => if halted s then some s else none
  | fuel + 1, s => if halted s then some s else (step s).bind (fuelled halted step fuel)

/-- One run goes on as the other. -/
def Leads (halted : S → Bool) (step : S → Option S) (s t : S) : Prop :=
  ∃ n, ∀ fuel, fuelled halted step (fuel + n) s = fuelled halted step fuel t

variable {halted : S → Bool} {step : S → Option S} {s t u : S}

theorem fuelled_halted (fuel : Nat) (h : halted s = true) : fuelled halted step fuel s = some s := by
  cases fuel with
  | zero => rw [fuelled, if_pos h]
  | succ fuel => rw [fuelled, if_pos h]

theorem fuelled_stuck (fuel : Nat) (h : halted s = false) (hs : step s = none) : fuelled halted step fuel s = none := by
  cases fuel with
  | zero => rw [fuelled, h, if_neg Bool.false_ne_true]
  | succ fuel => rw [fuelled, h, if_neg Bool.false_ne_true, hs, Option.bind_none]

/-- More fuel does not change what a run returns. -/
theorem fuelled_mono {fuel : Nat} (m : Nat) (h : fuelled halted step fuel s = some t) :
    fuelled halted step (fuel + m) s = some t := by
  induction fuel generalizing s with
  | zero =>
    rw [fuelled] at h
    split at h
    · cases h
      exact fuelled_halted _ ‹_›
    · cases h
  | succ fuel ih =>
    rw [Nat.add_right_comm]
    rw [fuelled] at h ⊢
    split at h
    · rw [if_pos ‹_›, h]
    · rw [if_neg ‹_›]
      obtain ⟨v, hv, ht⟩ := Option.bind_eq_some_iff.mp h
      rw [hv, Option.bind_some]
      exact ih ht

namespace Leads

theorem trans (h : Leads halted step s t) (h' : Leads halted step t u) : Leads halted step s u := by
  obtain ⟨n, hn⟩ := h
  obtain ⟨m, hm⟩ := h'
  refine ⟨m + n, fun fuel => ?_⟩
  rw [← Nat.add_assoc, hn, hm]

theorem single (h : halted s = false) (hs : step s = some t) : Leads halted step s t := by
  refine ⟨1, fun fuel => ?_⟩
  rw [fuelled, h, if_neg Bool.false_ne_true, hs, Option.bind_some]

theorem returns (h : Leads halted step s t) (ht : halted t = true) :
    ∃ n, ∀ fuel, n ≤ fuel → fuelled halted step fuel s = some t := by
  obtain ⟨n, hn⟩ := h
  refine ⟨n, fun fuel hf => ?_⟩
  obtain ⟨m, rfl⟩ := Nat.exists_eq_add_of_le' hf
  rw [hn, fuelled_halted m ht]

/-- A run has one end. -/
theorem eq (h : Leads halted step s t) (ht : halted t = true) {fuel : Nat}
    (hr : fuelled halted step fuel s = some u) : u = t := by
  obtain ⟨n, hn⟩ := h.returns ht
  have hu := fuelled_mono n hr
  rw [hn _ (Nat.le_add_left ..)] at hu
  exact (Option.some.inj hu).symm

/-- What follows a run that returns follows the run it goes on as. -/
theorem bind_some {α : Type} {g : S → Option α} {x : α} {fuel : Nat} (h : Leads halted step s t)
    (hx : (fuelled halted step fuel s).bind g = some x) : ∃ fuel', (fuelled halted step fuel' t).bind g = some x := by
  obtain ⟨n, hn⟩ := h
  obtain ⟨u, hu, hg⟩ := Option.bind_eq_some_iff.mp hx
  refine ⟨fuel, ?_⟩
  rw [← hn, fuelled_mono n hu, Option.bind_some, hg]

/-- A run that gets stuck returns nothing, with whatever fuel. -/
theorem stuck (h : Leads halted step s t) (ht : halted t = false) (hs : step t = none) (fuel : Nat) :
    fuelled halted step fuel s = none := by
  obtain ⟨n, hn⟩ := h
  cases hr : fuelled halted step fuel s with
  | none => rfl
  | some u =>
    have hu := fuelled_mono n hr
    rw [hn, fuelled_stuck fuel ht hs] at hu
    cases hu

end Leads
end TinyCoro.Transition
