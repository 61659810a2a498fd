import TinyCoro.Words.Bits

/-! Where the task queue of an engine keeps an element: the number of slots, and the slot of
a ticket. The counters that tickets are taken from are of type `unsigned` and wrap. -/
namespace TinyCoro.Queue
open Words

abbrev Unsigned := BitVec 32

/-- `remap_index<BITS>`: the index within a cache line changes places with the index of the line. -/
def remapIndex (bits : Nat) (index : Unsigned) : Unsigned :=
  let mixMask := ((1 : Unsigned) <<< bits) - 1
  let mix := (index ^^^ (index >>> bits)) &&& mixMask
  index ^^^ mix ^^^ (mix <<< bits)

def orEqual (x : Unsigned) (u : Nat) : Unsigned := x ||| x >>> u

/-- `round_up_to_power_of_2` for 32 bits. -/
def roundUpToPowerOf2 (a : Unsigned) : Unsigned :=
  [1, 2, 4, 8, 16].foldl orEqual (a - 1) + 1

/-- `size_` as the constructor computes it; `bits` is `SHUFFLE_BITS`. -/
def queueSize (bits : Nat) (size : Unsigned) : Unsigned :=
  let least := (1 : Unsigned) <<< (bits * 2)
  if roundUpToPowerOf2 size < least then least else roundUpToPowerOf2 size

def cacheLineIndexBits : Nat → Nat
  | 256 => 8
  | 128 => 7
  | 64 => 6
  | 32 => 5
  | 16 => 4
  | 8 => 3
  | 4 => 2
  | 2 => 1
  | _ => 0

/-- A number of slots that the two halves of the index fit in. -/
structure Shape where
  bits : Nat
  size : Unsigned
  exponent : Nat
  size_eq : size.toNat = 2 ^ exponent
  fits : 2 * bits ≤ exponent

namespace Shape

def index (g : Shape) (ticket : Unsigned) : Unsigned := remapIndex g.bits (ticket &&& (g.size - 1))

end Shape

theorem one_shiftLeft {k : Nat} (hk : k < 32) : ((1 : Unsigned) <<< k).toNat = 2 ^ k := by
  have hlt : 2 ^ k < 2 ^ 32 := Nat.pow_lt_pow_right (by decide) hk
  rw [BitVec.toNat_shiftLeft, Nat.shiftLeft_eq]
  exact (Nat.mod_eq_of_lt (by simpa using hlt)).trans (Nat.one_mul _)

/-- The two groups of bits have changed places, and the others are where they were. -/
theorem remapIndex_bit {bits i : Nat} (hb : 2 * bits ≤ 32) (hi : i < 32) (x : Unsigned) : (remapIndex bits x).getLsbD i =
    if i < bits then x.getLsbD (i + bits) else if i < 2 * bits then x.getLsbD (i - bits) else x.getLsbD i := by
  have hmask : ∀ j, (((1 : Unsigned) <<< bits) - 1).getLsbD j = decide (j < bits) := mask_bit (one_shiftLeft (by omega))
  simp only [remapIndex, BitVec.getLsbD_xor, BitVec.getLsbD_and, BitVec.getLsbD_shiftLeft,
    BitVec.getLsbD_ushiftRight, hmask, hi]
  by_cases hlow : i < bits
  · simp [hlow, Nat.add_comm]
  · by_cases hmid : i < 2 * bits
    · have hsub : i - bits < bits := by omega
      have hadd : bits + (i - bits) = i := by omega
      simp only [hlow, hmid, hsub, hadd, decide_false, decide_true, Bool.and_false, Bool.and_true, Bool.true_and,
        Bool.xor_false, Bool.not_false, if_true, if_false]
      rw [Bool.xor_comm (x.getLsbD (i - bits)), ← Bool.xor_assoc, Bool.xor_self, Bool.false_xor]
    · have hsub : ¬ i - bits < bits := by omega
      simp [hlow, hmid, hsub]

/-- Changing places twice is no change. -/
theorem remapIndex_remapIndex {bits : Nat} (hb : 2 * bits ≤ 32) (x : Unsigned) :
    remapIndex bits (remapIndex bits x) = x := by
  refine BitVec.eq_of_getLsbD_eq fun i hi => ?_
  rw [remapIndex_bit hb hi]
  split
  · rename_i hlow
    rw [remapIndex_bit hb (by omega), if_neg (by omega), if_pos (by omega), Nat.add_sub_cancel]
  · split
    · rw [remapIndex_bit hb (by omega), if_pos (by omega), Nat.sub_add_cancel (by omega)]
    · rw [remapIndex_bit hb hi, if_neg (by omega), if_neg (by omega)]

/-- The index stays inside of an array that has both groups. -/
theorem remapIndex_lt {bits e : Nat} (hb : 2 * bits ≤ e) (he : e ≤ 32) {x : Unsigned} (hx : x.toNat < 2 ^ e) :
    (remapIndex bits x).toNat < 2 ^ e := by
  refine Nat.lt_pow_two_of_testBit _ fun i hi => ?_
  change (remapIndex bits x).getLsbD i = false
  by_cases hi' : i < 32
  · rw [remapIndex_bit (by omega) hi', if_neg (by omega), if_neg (by omega)]
    exact Nat.testBit_lt_two_pow (Nat.lt_of_lt_of_le hx (Nat.pow_le_pow_right (by decide) hi))
  · exact BitVec.getLsbD_of_ge _ i (by omega)

namespace Shape
variable (g : Shape)

theorem exponent_lt : g.exponent < 32 := by
  have hlt := g.size.isLt
  rw [g.size_eq] at hlt
  exact (Nat.pow_lt_pow_iff_right (by decide)).mp hlt

theorem size_pos : 0 < g.size.toNat := by
  rw [g.size_eq]
  exact Nat.two_pow_pos _

/-- The slots are inside of the array. -/
theorem index_lt (ticket : Unsigned) : (g.index ticket).toNat < g.size.toNat := by
  have hlt := g.exponent_lt
  rw [g.size_eq]
  refine remapIndex_lt g.fits (by omega) ?_
  rw [and_mask g.size_eq]
  exact Nat.mod_lt _ (Nat.two_pow_pos _)

/-- Two tickets share a slot when they are whole rounds apart, also where the counter has
wrapped between them. -/
theorem index_eq_iff (j k : Nat) : g.index (.ofNat 32 j) = g.index (.ofNat 32 k) ↔ j % g.size.toNat = k % g.size.toNat := by
  have hlt := g.exponent_lt
  have hfits := g.fits
  have hbits : 2 * g.bits ≤ 32 := by omega
  have hinj : ∀ x y, remapIndex g.bits x = remapIndex g.bits y → x = y := fun x y h => by
    rw [← remapIndex_remapIndex hbits x, h, remapIndex_remapIndex hbits]
  rw [g.size_eq, ← ofNat_and_mask g.size_eq j, ← ofNat_and_mask g.size_eq k]
  constructor
  · intro h
    rw [hinj _ _ h]
  · intro h
    rw [index, index, BitVec.eq_of_toNat_eq h]

theorem index_surjective {i : Unsigned} (hi : i.toNat < g.size.toNat) : ∃ k, g.index (.ofNat 32 k) = i := by
  have hlt := g.exponent_lt
  have hfits := g.fits
  rw [g.size_eq] at hi
  refine ⟨(remapIndex g.bits i).toNat, ?_⟩
  have hmask : BitVec.ofNat 32 (remapIndex g.bits i).toNat &&& (g.size - 1) = remapIndex g.bits i := by
    refine BitVec.eq_of_toNat_eq ?_
    rw [ofNat_and_mask g.size_eq, Nat.mod_eq_of_lt (remapIndex_lt hfits (by omega) hi)]
  rw [index, hmask, remapIndex_remapIndex (by omega)]

end Shape

/-- All bits below the highest one of `a - 1` are set before the last addition. -/
theorem roundUpToPowerOf2_toNat (a : Unsigned) : (roundUpToPowerOf2 a).toNat = 2 ^ (a - 1).toNat.size % 2 ^ 32 := by
  have hsmear : Smeared 32 (a - 1) ([1, 2, 4, 8, 16].foldl orEqual (a - 1)) :=
    ((((((Smeared.self (a - 1)).or (Nat.le_refl 1)).or (Nat.le_refl 2)).or (Nat.le_refl 4)).or (Nat.le_refl 8)).or
      (Nat.le_refl 16))
  have hpos : 0 < 2 ^ (a - 1).toNat.size := Nat.two_pow_pos _
  rw [roundUpToPowerOf2, BitVec.toNat_add, hsmear.toNat (Nat.le_refl 32)]
  change (2 ^ (a - 1).toNat.size - 1 + 1) % 2 ^ 32 = _
  rw [Nat.sub_add_cancel hpos]

theorem two_pow_size_pred {a : Nat} (ha : 0 < a) : a ≤ 2 ^ (a - 1).size ∧ 2 ^ (a - 1).size < 2 * a := by
  have hlt := Nat.lt_size_self (a - 1)
  refine ⟨by omega, ?_⟩
  rcases Nat.eq_zero_or_pos (a - 1).size with h0 | h0
  · rw [h0]
    omega
  · obtain ⟨k, hk⟩ := Nat.exists_eq_succ_of_ne_zero (Nat.ne_of_gt h0)
    have hle : 2 ^ k ≤ a - 1 := Nat.lt_size.mp (by omega)
    rw [hk, Nat.pow_succ]
    omega

/-- The requested size is rounded up as far as a word allows, and by less than a factor of two. -/
theorem roundUpToPowerOf2_spec {a : Unsigned} (h0 : 0 < a.toNat) (ha : a.toNat ≤ 2 ^ 31) :
    ∃ e, (roundUpToPowerOf2 a).toNat = 2 ^ e ∧ a.toNat ≤ 2 ^ e ∧ 2 ^ e < 2 * a.toNat := by
  have hpred : (a - 1).toNat = a.toNat - 1 := BitVec.toNat_sub_of_le (by rw [BitVec.le_def]; exact h0)
  obtain ⟨hle, hlt⟩ := two_pow_size_pred h0
  have hsize : (a.toNat - 1).size ≤ 31 := Nat.size_le.mpr (by omega)
  have hpow : 2 ^ (a.toNat - 1).size < 2 ^ 32 := Nat.pow_lt_pow_right (by decide) (by omega)
  exact ⟨_, by rw [roundUpToPowerOf2_toNat, hpred, Nat.mod_eq_of_lt hpow], hle, hlt⟩

/-- What is too large for a word, or nothing, is rounded to zero. -/
theorem roundUpToPowerOf2_zero {a : Unsigned} (ha : a.toNat = 0 ∨ 2 ^ 31 < a.toNat) : (roundUpToPowerOf2 a).toNat = 0 := by
  have hpred : 2 ^ 31 ≤ (a - 1).toNat := by bv_omega
  have hsize : (a - 1).toNat.size = 32 := by
    refine Nat.le_antisymm (Nat.size_le.mpr (a - 1).isLt) ?_
    exact Nat.lt_size.mpr hpred
  rw [roundUpToPowerOf2_toNat, hsize, Nat.mod_self]

theorem cacheLineIndexBits_le (n : Nat) : cacheLineIndexBits n ≤ 8 := by
  unfold cacheLineIndexBits
  split <;> decide

/-- Every argument of the constructor makes a queue whose indexes are well defined. -/
theorem queueSize_spec {bits : Nat} (hb : bits ≤ 8) (size : Unsigned) :
    ∃ e, (queueSize bits size).toNat = 2 ^ e ∧ 2 * bits ≤ e := by
  have hleast : ((1 : Unsigned) <<< (bits * 2)).toNat = 2 ^ (bits * 2) := one_shiftLeft (by omega)
  simp only [queueSize]
  split
  · exact ⟨_, hleast, by omega⟩
  · rename_i hge
    rw [BitVec.lt_def, hleast, Nat.not_lt] at hge
    have hsize : ¬ (size.toNat = 0 ∨ 2 ^ 31 < size.toNat) := fun h => by
      rw [roundUpToPowerOf2_zero h] at hge
      exact absurd hge (Nat.not_le.mpr (Nat.two_pow_pos _))
    obtain ⟨e, he, -⟩ := roundUpToPowerOf2_spec (a := size) (by omega) (by omega)
    rw [he] at hge
    exact ⟨e, he, by rw [Nat.mul_comm]; exact (Nat.pow_le_pow_iff_right (by decide)).mp hge⟩

/-- The size is at least the requested one, and less than twice as much unless it is the least. -/
theorem queueSize_bounds {bits : Nat} (hb : bits ≤ 8) {size : Unsigned} (hsize : size.toNat ≤ 2 ^ 31) :
    size.toNat ≤ (queueSize bits size).toNat ∧
    ((queueSize bits size).toNat = 2 ^ (2 * bits) ∨ (queueSize bits size).toNat < 2 * size.toNat) := by
  have hleast : ((1 : Unsigned) <<< (bits * 2)).toNat = 2 ^ (bits * 2) := one_shiftLeft (by omega)
  rcases Nat.eq_zero_or_pos size.toNat with h0 | h0
  · rw [h0]
    refine ⟨Nat.zero_le _, .inl ?_⟩
    have hlt : roundUpToPowerOf2 size < (1 : Unsigned) <<< (bits * 2) := by
      rw [BitVec.lt_def, roundUpToPowerOf2_zero (.inl h0), hleast]
      exact Nat.two_pow_pos _
    simp only [queueSize, if_pos hlt, hleast, Nat.mul_comm]
  · obtain ⟨e, he, hle, hlt⟩ := roundUpToPowerOf2_spec h0 hsize
    simp only [queueSize]
    split
    · rename_i hless
      rw [BitVec.lt_def, he] at hless
      exact ⟨Nat.le_of_lt (Nat.lt_of_le_of_lt hle hless), .inl (by rw [hleast, Nat.mul_comm])⟩
    · rw [he]
      exact ⟨hle, .inr hlt⟩

namespace Shape

/-- A queue for the requested number of elements, on a machine with so many states in a cache line. -/
def make (statesPerCacheLine : Nat) (size : Unsigned) : Shape where
  bits := cacheLineIndexBits statesPerCacheLine
  size := queueSize (cacheLineIndexBits statesPerCacheLine) size
  exponent := (queueSize (cacheLineIndexBits statesPerCacheLine) size).toNat.log2
  size_eq := by
    obtain ⟨e, he, -⟩ := queueSize_spec (cacheLineIndexBits_le statesPerCacheLine) size
    rw [he, Nat.log2_two_pow]
  fits := by
    obtain ⟨e, he, hfits⟩ := queueSize_spec (cacheLineIndexBits_le statesPerCacheLine) size
    rw [he, Nat.log2_two_pow]
    exact hfits

/-- The queue has room for what was asked for, and less than twice as much unless that is the
least size; the slots of the tickets go round in it, each used once in a round, for as long as
the counters run and wrap. -/
theorem make_slots (statesPerCacheLine : Nat) (size : Unsigned) : let g := make statesPerCacheLine size
    (size.toNat ≤ 2 ^ 31 → size.toNat ≤ g.size.toNat ∧ (g.size.toNat = 2 ^ (2 * g.bits) ∨ g.size.toNat < 2 * size.toNat)) ∧
    (∀ j k, g.index (.ofNat 32 j) = g.index (.ofNat 32 k) ↔ j % g.size.toNat = k % g.size.toNat) ∧
    (∀ i, (∃ k, g.index (.ofNat 32 k) = i) ↔ i.toNat < g.size.toNat) := by
  intro g
  refine ⟨queueSize_bounds (cacheLineIndexBits_le _), g.index_eq_iff, fun i => ⟨?_, g.index_surjective⟩⟩
  · rintro ⟨k, rfl⟩
    exact g.index_lt _

end Shape

end TinyCoro.Queue
