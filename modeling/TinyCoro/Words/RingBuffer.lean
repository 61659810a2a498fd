import Mathlib.Data.Nat.ModEq
import Mathlib.Logic.Function.Basic
import TinyCoro.Words.Bits

/-! Buffers with a power of two of places, found by counters that run freely and wrap. -/
namespace TinyCoro.Words
variable {w e : Nat} {α : Type} {n : BitVec w}

/-- Counters less than a round apart have places of their own. -/
theorem place_inj (hn : n.toNat = 2 ^ e) {head : BitVec w} {i j : Nat} (hi : i < n.toNat) (hj : j < n.toNat)
    (h : (head + BitVec.ofNat w i) &&& (n - 1) = (head + BitVec.ofNat w j) &&& (n - 1)) : i = j := by
  have hplace : ∀ k, (head + BitVec.ofNat w k) &&& (n - 1) = BitVec.ofNat w (head.toNat + k) &&& (n - 1) := by
    intro k
    rw [BitVec.ofNat_add, BitVec.ofNat_toNat, BitVec.setWidth_eq]
  rw [hplace i, hplace j] at h
  have hmod := congrArg BitVec.toNat h
  rw [ofNat_and_mask hn, ofNat_and_mask hn] at hmod
  have hij := Nat.ModEq.add_left_cancel' head.toNat hmod
  rw [hn] at hi hj
  exact Nat.ModEq.eq_of_lt_of_lt hij hi hj

structure Holds (n : BitVec w) (places : BitVec w → α) (head tail : BitVec w) (l : List α) : Prop where
  fits : l.length ≤ n.toNat
  tail_eq : tail = head + BitVec.ofNat w l.length
  get : ∀ k a, l[k]? = some a → places ((head + BitVec.ofNat w k) &&& (n - 1)) = a

namespace Holds
variable {places : BitVec w → α} {head tail : BitVec w} {l : List α}

theorem nil (head : BitVec w) : Holds n places head head [] := by
  refine ⟨Nat.zero_le _, ?_, ?_⟩
  · simp
  · intro k a h
    simp at h

theorem count (h : Holds n places head tail l) : (tail - head).toNat = l.length := by
  have hlt : l.length < 2 ^ w := Nat.lt_of_le_of_lt h.fits n.isLt
  rw [h.tail_eq, BitVec.add_comm, BitVec.add_sub_cancel, BitVec.toNat_ofNat, Nat.mod_eq_of_lt hlt]

theorem eq_nil_iff (h : Holds n places head tail l) : tail - head = 0 ↔ l = [] := by
  rw [← List.length_eq_zero_iff, ← h.count]
  constructor
  · intro hz
    rw [hz]
    exact BitVec.toNat_zero
  · intro hz
    apply BitVec.eq_of_toNat_eq
    exact hz.trans BitVec.toNat_zero.symm

theorem full_iff (h : Holds n places head tail l) : n ≤ tail - head ↔ l.length = n.toNat := by
  rw [BitVec.le_def, h.count]
  exact ⟨fun hle => Nat.le_antisymm h.fits hle, fun heq => Nat.le_of_eq heq.symm⟩

theorem first (h : Holds n places head tail l) {a : α} {rest : List α} (hl : l = a :: rest) :
    places (head &&& (n - 1)) = a := by
  have hget := h.get 0 a (by rw [hl]; rfl)
  simpa using hget

/-- The place of the tail is not among those in use. -/
theorem tail_free (hn : n.toNat = 2 ^ e) (h : Holds n places head tail l) (hlt : l.length < n.toNat) {k : Nat}
    (hk : k < l.length) : (head + BitVec.ofNat w k) &&& (n - 1) ≠ tail &&& (n - 1) := by
  intro heq
  rw [h.tail_eq] at heq
  exact absurd (place_inj hn (Nat.lt_trans hk hlt) hlt heq) (Nat.ne_of_lt hk)

/-- Places that are not in use may change. -/
theorem frame (h : Holds n places head tail l) {places' : BitVec w → α}
    (hp : ∀ k < l.length, places' ((head + BitVec.ofNat w k) &&& (n - 1)) = places ((head + BitVec.ofNat w k) &&& (n - 1))) :
    Holds n places' head tail l := by
  refine ⟨h.fits, h.tail_eq, ?_⟩
  intro k a hk
  rw [hp k (List.getElem?_eq_some_iff.mp hk).1]
  exact h.get k a hk

theorem push (hn : n.toNat = 2 ^ e) (h : Holds n places head tail l) (hlt : l.length < n.toNat) (a : α) :
    Holds n (Function.update places (tail &&& (n - 1)) a) head (tail + 1) (l ++ [a]) := by
  refine ⟨?_, ?_, ?_⟩
  · rw [List.length_append]
    exact hlt
  · rw [h.tail_eq, List.length_append, List.length_singleton, BitVec.ofNat_add, BitVec.add_assoc]
    rfl
  · intro k b hk
    rcases Nat.lt_or_ge k l.length with hkl | hkl
    · rw [List.getElem?_append_left hkl] at hk
      rw [Function.update_of_ne (h.tail_free hn hlt hkl)]
      exact h.get k b hk
    · rw [List.getElem?_append_right hkl] at hk
      obtain ⟨hzero, hb⟩ := List.getElem?_eq_some_iff.mp hk
      rw [List.length_singleton] at hzero
      have hkeq : k = l.length := by omega
      rw [hkeq, ← h.tail_eq, Function.update_self]
      rw [List.getElem_singleton] at hb
      exact hb

theorem drop (h : Holds n places head tail l) {k : Nat} (hk : k ≤ l.length) :
    Holds n places (head + BitVec.ofNat w k) tail (l.drop k) := by
  refine ⟨?_, ?_, ?_⟩
  · rw [List.length_drop]
    exact Nat.le_trans (Nat.sub_le _ _) h.fits
  · rw [h.tail_eq, BitVec.add_assoc, ← BitVec.ofNat_add, List.length_drop, Nat.add_sub_cancel' hk]
  · intro i a hi
    rw [List.getElem?_drop] at hi
    rw [BitVec.add_assoc, ← BitVec.ofNat_add]
    exact h.get (k + i) a hi

/-- The places that are read one after the other. -/
theorem read (h : Holds n places head tail l) {k : Nat} (hk : k ≤ l.length) :
    (List.range k).map (fun i => places ((head + BitVec.ofNat w i) &&& (n - 1))) = l.take k := by
  apply List.ext_getElem?
  intro i
  rcases Nat.lt_or_ge i k with hi | hi
  · have hil : i < l.length := Nat.lt_of_lt_of_le hi hk
    rw [List.getElem?_take_of_lt hi, List.getElem?_eq_getElem hil, List.getElem?_map, List.getElem?_range hi,
      Option.map_some]
    rw [h.get i _ (List.getElem?_eq_getElem hil)]
  · rw [List.getElem?_eq_none (by simpa using hi), List.getElem?_eq_none (by simp; omega)]

end Holds

def contents (n : BitVec w) (places : BitVec w → α) (head tail : BitVec w) : List α :=
  (List.range (tail - head).toNat).map fun k => places ((head + BitVec.ofNat w k) &&& (n - 1))

section contents
variable {places : BitVec w → α} {head tail : BitVec w}

theorem contents_length : (contents n places head tail).length = (tail - head).toNat := by
  rw [contents, List.length_map, List.length_range]

theorem holds_contents (h : (tail - head).toNat ≤ n.toNat) : Holds n places head tail (contents n places head tail) := by
  refine ⟨?_, ?_, ?_⟩
  · rw [contents_length]
    exact h
  · rw [contents_length, BitVec.ofNat_toNat, BitVec.setWidth_eq, BitVec.add_comm, BitVec.sub_add_cancel]
  · intro k a hk
    rw [contents, List.getElem?_map, Option.map_eq_some_iff] at hk
    obtain ⟨j, hj, ha⟩ := hk
    obtain ⟨hlt, hjk⟩ := List.getElem?_eq_some_iff.mp hj
    rw [List.getElem_range] at hjk
    rw [hjk]
    exact ha

theorem Holds.contents_eq {l : List α} (h : Holds n places head tail l) : contents n places head tail = l := by
  rw [contents, h.count, h.read (Nat.le_refl _), List.take_length]

@[simp] theorem contents_self (head : BitVec w) : contents n places head head = [] :=
  (Holds.nil head).contents_eq

theorem contents_push (hn : n.toNat = 2 ^ e) (h : (tail - head).toNat < n.toNat) (a : α) :
    contents n (Function.update places (tail &&& (n - 1)) a) head (tail + 1) = contents n places head tail ++ [a] := by
  apply Holds.contents_eq
  apply (holds_contents (Nat.le_of_lt h)).push hn
  rw [contents_length]
  exact h

/-- The distance of the counters grows with the tail. -/
theorem toNat_sub_push (h : (tail - head).toNat < n.toNat) : (tail + 1 - head).toNat = (tail - head).toNat + 1 := by
  have hcomm : tail + 1 - head = tail - head + 1 := by
    rw [BitVec.sub_eq_add_neg, BitVec.sub_eq_add_neg, BitVec.add_assoc, BitVec.add_comm 1, BitVec.add_assoc]
  have hn := n.isLt
  have hw : 0 < w := by
    rcases Nat.eq_zero_or_pos w with rfl | hw
    · omega
    · exact hw
  have hone : (1 : BitVec w).toNat = 1 := BitVec.toNat_one hw
  rw [hcomm, BitVec.toNat_add, hone, Nat.mod_eq_of_lt (by omega)]

theorem toNat_sub_drop {k : Nat} (hk : k ≤ (tail - head).toNat) :
    (tail - (head + BitVec.ofNat w k)).toNat = (tail - head).toNat - k := by
  have hlt := (tail - head).isLt
  have hk' : (BitVec.ofNat w k).toNat = k := by rw [BitVec.toNat_ofNat, Nat.mod_eq_of_lt (by omega)]
  have hcomm : tail - (head + BitVec.ofNat w k) = tail - head - BitVec.ofNat w k := by
    rw [BitVec.sub_eq_add_neg, BitVec.sub_eq_add_neg, BitVec.sub_eq_add_neg, BitVec.neg_add,
      BitVec.sub_eq_add_neg, BitVec.add_assoc]
  rw [hcomm, BitVec.toNat_sub_of_le, hk']
  rw [BitVec.le_def, hk']
  exact hk

theorem contents_drop {k : Nat} (h : (tail - head).toNat ≤ n.toNat) (hk : k ≤ (tail - head).toNat) :
    contents n places (head + BitVec.ofNat w k) tail = (contents n places head tail).drop k := by
  apply Holds.contents_eq
  apply (holds_contents h).drop
  rw [contents_length]
  exact hk

end contents
end TinyCoro.Words
