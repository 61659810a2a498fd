import Mathlib.Algebra.GroupWithZero.Nat
import Mathlib.Data.Nat.Size

/-! Machine words as numbers: the low bits of a word, and the highest one. -/
namespace TinyCoro.Words
variable {w : Nat}

theorem mask_toNat {n : BitVec w} {e : Nat} (hn : n.toNat = 2 ^ e) : (n - 1).toNat = 2 ^ e - 1 := by
  have hw : 0 < w := by
    rcases Nat.eq_zero_or_pos w with rfl | hw
    · rw [BitVec.of_length_zero (x := n)] at hn
      exact absurd hn.symm (Nat.ne_of_gt (Nat.two_pow_pos e))
    · exact hw
  have hone : (1 : BitVec w).toNat = 1 := BitVec.toNat_one hw
  have hle : (1 : BitVec w) ≤ n := by
    rw [BitVec.le_def, hn, hone]
    exact Nat.two_pow_pos e
  rw [BitVec.toNat_sub_of_le hle, hn, hone]

theorem mask_bit {n : BitVec w} {e : Nat} (hn : n.toNat = 2 ^ e) (i : Nat) : (n - 1).getLsbD i = decide (i < e) := by
  rw [BitVec.getLsbD, mask_toNat hn, Nat.testBit_two_pow_sub_one]

/-- The word below a power of two, as a mask, takes the remainder. -/
theorem and_mask {n : BitVec w} {e : Nat} (hn : n.toNat = 2 ^ e) (x : BitVec w) :
    (x &&& (n - 1)).toNat = x.toNat % 2 ^ e := by
  rw [BitVec.toNat_and, mask_toNat hn, Nat.and_two_pow_sub_one_eq_mod]

/-- Numbers that are counted in a word keep their remainder. -/
theorem ofNat_and_mask {n : BitVec w} {e : Nat} (hn : n.toNat = 2 ^ e) (k : Nat) :
    (BitVec.ofNat w k &&& (n - 1)).toNat = k % 2 ^ e := by
  have hdvd : 2 ^ e ∣ 2 ^ w := by
    refine Nat.pow_dvd_pow 2 ?_
    have hlt := n.isLt
    rw [hn] at hlt
    exact Nat.le_of_lt ((Nat.pow_lt_pow_iff_right (by decide)).mp hlt)
  rw [and_mask hn, BitVec.toNat_ofNat, Nat.mod_mod_of_dvd k hdvd]

def Smeared (k : Nat) (x y : BitVec w) : Prop := ∀ i, y.getLsbD i = true ↔ ∃ j < k, x.getLsbD (i + j) = true

theorem Smeared.self (x : BitVec w) : Smeared 1 x x := by
  intro i
  simp

theorem Smeared.or {k u : Nat} {x y : BitVec w} (h : Smeared k x y) (hu : u ≤ k) : Smeared (k + u) x (y ||| y >>> u) := by
  intro i
  rw [BitVec.getLsbD_or, BitVec.getLsbD_ushiftRight, Bool.or_eq_true, h i, h (u + i)]
  constructor
  · rintro (⟨j, hj, hx⟩ | ⟨j, hj, hx⟩)
    · exact ⟨j, by omega, hx⟩
    · exact ⟨u + j, by omega, by rwa [show i + (u + j) = u + i + j by omega]⟩
  · rintro ⟨j, hj, hx⟩
    by_cases hjk : j < k
    · exact .inl ⟨j, hjk, hx⟩
    · exact .inr ⟨j - u, by omega, by rwa [show u + i + (j - u) = i + j by omega]⟩

/-- Smeared over the whole width, the highest bit has filled all below it. -/
theorem Smeared.toNat {k : Nat} {x y : BitVec w} (h : Smeared k x y) (hk : w ≤ k) : y.toNat = 2 ^ x.toNat.size - 1 := by
  refine Nat.eq_of_testBit_eq fun i => ?_
  rw [Nat.testBit_two_pow_sub_one, Bool.eq_iff_iff, decide_eq_true_iff, Nat.lt_size]
  have hi := h i
  rw [BitVec.getLsbD] at hi
  rw [hi]
  constructor
  · rintro ⟨j, -, hx⟩
    exact Nat.le_trans (Nat.pow_le_pow_right (by decide) (Nat.le_add_right i j)) (Nat.ge_two_pow_of_testBit hx)
  · intro hx
    obtain ⟨j, hj, hbit⟩ := Nat.exists_ge_and_testBit_of_ge_two_pow hx
    have hjw : j < w := BitVec.lt_of_getLsbD hbit
    exact ⟨j - i, by omega, by rwa [show i + (j - i) = j by omega]⟩

end TinyCoro.Words
