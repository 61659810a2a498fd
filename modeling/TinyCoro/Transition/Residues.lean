import Mathlib.Data.Int.CardIntervalMod

/-! How often a residue comes up in a window of consecutive numbers. -/
namespace TinyCoro.Transition
variable {n i : Nat}

/-- The numbers below `b` with residue `i`. -/
theorem count_residue (hn : 0 < n) (hi : i < n) (b : Nat) :
    Nat.count (fun x => x % n = i) b = b / n + if i < b % n then 1 else 0 := by
  have h := Nat.count_modEq_card b hn i
  rw [Nat.mod_eq_of_lt hi] at h
  rw [← h]
  congr 1
  funext x
  rw [Nat.ModEq, Nat.mod_eq_of_lt hi]

/-- Rounding up adds one unless the division is exact. -/
theorem ceil_div (hn : 0 < n) (k : Nat) : (k + (n - 1)) / n = k / n + if k % n = 0 then 0 else 1 := by
  have hpred : n - 1 < n := Nat.sub_lt hn Nat.one_pos
  rw [Nat.add_div hn, Nat.div_eq_of_lt hpred, Nat.mod_eq_of_lt hpred]
  split <;> split <;> omega

theorem add_mod_cases {a b : Nat} (ha : a < n) (hb : b < n) : (a + b) % n = if a + b < n then a + b else a + b - n := by
  split
  · exact Nat.mod_eq_of_lt ‹_›
  · rw [Nat.mod_eq_sub_mod (by omega), Nat.mod_eq_of_lt (by omega)]

/-- A residue comes up once in each full round of the window, and once more at most. -/
theorem count_window (hn : 0 < n) (hi : i < n) (c k : Nat) :
    Nat.count (fun j => (c + j) % n = i) k = k / n ∨ Nat.count (fun j => (c + j) % n = i) k = (k + (n - 1)) / n := by
  have hadd := Nat.count_add (fun x => x % n = i) c k
  have hc := Nat.mod_lt c hn
  have hk := Nat.mod_lt k hn
  rw [count_residue hn hi, count_residue hn hi, Nat.add_div hn, Nat.add_mod, add_mod_cases hc hk] at hadd
  rw [ceil_div hn]
  -- the counts differ by the rounds of `k`, and by one where its rest meets the residue
  split_ifs at hadd ⊢ <;> omega

end TinyCoro.Transition
