import Mathlib.Algebra.GroupWithZero.Nat
import Mathlib.Logic.Function.Basic

/-! Turns at the places of a ring: turn `k` is at place `k % n`, and begins when the ones
before it at the place have begun. A turn waits from when it is issued until it begins. -/
namespace TinyCoro.Transition
variable {n issued : Nat} {begun : Nat → Nat} {waits waits' : Nat → Prop}

/-- A turn is known by its place and its round. -/
theorem eq_of_place_round {j k : Nat} (hplace : j % n = k % n) (hround : j / n = k / n) : j = k := by
  rw [← Nat.div_add_mod j n, hplace, hround, Nat.div_add_mod]

/-- `begun` counts the turns that have begun at each place; nobody waits for longer than a round. -/
structure Turns (n : Nat) (begun : Nat → Nat) (issued : Nat) (waits : Nat → Prop) : Prop where
  window : ∀ k, waits k → k < issued ∧ issued ≤ k + n
  begun_iff : ∀ k, k / n < begun (k % n) ↔ k < issued ∧ ¬ waits k

namespace Turns

theorem start (hb : ∀ r, begun r = 0) (hw : ∀ k, ¬ waits k) : Turns n begun 0 waits :=
  ⟨fun k hk => absurd hk (hw k), fun k => by simp [hb]⟩

theorem congr {begun' : Nat → Nat} (h : Turns n begun issued waits) (hn : 0 < n) (hb : ∀ r < n, begun' r = begun r)
    (hw : ∀ k, waits' k ↔ waits k) : Turns n begun' issued waits' := by
  refine ⟨fun k hk => h.window k ((hw k).mp hk), fun k => ?_⟩
  rw [hb _ (Nat.mod_lt k hn), hw]
  exact h.begun_iff k

/-- Who waits is the next at its place. -/
theorem next (h : Turns n begun issued waits) (hn : 0 < n) {k : Nat} (hk : waits k) : k / n = begun (k % n) := by
  have hge : ¬ k / n < begun (k % n) := fun hlt => ((h.begun_iff k).mp hlt).2 hk
  obtain ⟨hlt, hwin⟩ := h.window k hk
  by_cases hkn : k < n
  · rw [Nat.div_eq_of_lt hkn] at hge ⊢
    omega
  · -- the turn one round before is not waiting any more
    obtain ⟨j, rfl⟩ : ∃ j, k = j + n := ⟨k - n, by omega⟩
    have hj : ¬ waits j := fun hj => by
      have := (h.window j hj).2
      omega
    have hbegun := (h.begun_iff j).mpr ⟨by omega, hj⟩
    rw [Nat.add_div_right _ hn, Nat.add_mod_right] at hge ⊢
    omega

/-- One more turn is issued when nobody is behind by the whole round. -/
theorem issue (h : Turns n begun issued waits) (hn : 0 < n) (hok : ∀ k, waits k → k + n ≠ issued)
    (hw : ∀ k, waits' k ↔ waits k ∨ k = issued) : Turns n begun (issued + 1) waits' := by
  refine ⟨fun k hk => ?_, fun k => ?_⟩
  · rcases (hw k).mp hk with hk | rfl
    · have hwin := h.window k hk
      have hne := hok k hk
      omega
    · omega
  · rw [h.begun_iff k, hw]
    constructor
    · rintro ⟨hlt, hk⟩
      exact ⟨by omega, fun hk' => hk'.elim hk fun he => by omega⟩
    · rintro ⟨hlt, hk⟩
      have hne : k ≠ issued := fun he => hk (.inr he)
      exact ⟨by omega, fun hk' => hk (.inl hk')⟩

/-- A turn begins. -/
theorem begins (h : Turns n begun issued waits) (hn : 0 < n) {k : Nat} (hk : waits k) {begun' : Nat → Nat}
    (hb : ∀ r < n, begun' r = if r = k % n then begun r + 1 else begun r) (hw : ∀ j, waits' j ↔ waits j ∧ j ≠ k) :
    Turns n begun' issued waits' := by
  have hnext := h.next hn hk
  refine ⟨fun j hj => h.window j ((hw j).mp hj).1, fun j => ?_⟩
  rw [hb _ (Nat.mod_lt j hn), hw]
  by_cases hjk : j = k
  · subst hjk
    simp only [if_true, ne_eq, not_true, and_false, not_false_eq_true, and_true]
    exact ⟨fun _ => (h.window j hk).1, fun _ => by omega⟩
  · simp only [ne_eq, hjk, not_false_eq_true, and_true]
    rw [← h.begun_iff j]
    split
    · rename_i hr
      -- at the same place another turn has another number
      have hdiv : j / n ≠ k / n := fun hd => hjk (eq_of_place_round hr hd)
      rw [hr]
      omega
    · rfl

end Turns
end TinyCoro.Transition
