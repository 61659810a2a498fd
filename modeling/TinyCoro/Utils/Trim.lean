import Mathlib.Data.List.DropRight
import TinyCoro.Utils.CaseHash

/-! `trim`, on the operations of `std::string` that it calls. A position is a `size_t`, and
`npos` is its largest value. -/
namespace TinyCoro.Utils

def npos : BitVec 64 := BitVec.allOnes 64

def findFirstNotOf (s set : List Byte) : BitVec 64 :=
  let i := s.findIdx (!set.contains ·)
  if i < s.length then .ofNat 64 i else npos

def findLastNotOf (s set : List Byte) : BitVec 64 :=
  let i := s.reverse.findIdx (!set.contains ·)
  if i < s.length then .ofNat 64 (s.length - 1 - i) else npos

/-- `erase(pos, n)` throws if `pos` is past the end, and erases at most what is there. -/
def erase (s : List Byte) (pos n : BitVec 64) : Option (List Byte) :=
  if pos.toNat ≤ s.length then some (s.take pos.toNat ++ s.drop (pos.toNat + min n.toNat (s.length - pos.toNat)))
  else none

/-- `toTrim` are the bytes in front of the terminating zero. -/
def trim (s toTrim : List Byte) : Option (List Byte) :=
  if s.isEmpty then some s else do
    let s ← erase s 0 (findFirstNotOf s toTrim)
    erase s (findLastNotOf s toTrim + 1) npos

/-- What is left of a string when nothing of it is to be trimmed. -/
structure Trimmed (toTrim r : List Byte) : Prop where
  first : ∀ c ∈ r.head?, c ∉ toTrim
  last : ∀ c ∈ r.getLast?, c ∉ toTrim

variable {s set r : List Byte}

theorem npos_toNat : npos.toNat = 2 ^ 64 - 1 := by
  rw [npos, BitVec.toNat_allOnes]

/-- Erasing from the start on, and from a position to the end. -/
theorem erase_zero (n : BitVec 64) : erase s 0 n = some (s.drop (min n.toNat s.length)) := by
  simp [erase]

theorem erase_npos (hs : s.length < 2 ^ 64 - 1) {pos : BitVec 64} (hpos : pos.toNat ≤ s.length) :
    erase s pos npos = some (s.take pos.toNat) := by
  have hall : s.length ≤ pos.toNat + min npos.toNat (s.length - pos.toNat) := by
    rw [npos_toNat]
    omega
  rw [erase, if_pos hpos, List.drop_eq_nil_of_le hall, List.append_nil]

/-- The first call erases the leading bytes, all of them if there are no others. -/
theorem erase_first (hs : s.length < 2 ^ 64 - 1) :
    erase s 0 (findFirstNotOf s set) = some (s.dropWhile set.contains) := by
  have hle : s.findIdx (!set.contains ·) ≤ s.length := List.findIdx_le_length
  rw [erase_zero, List.dropWhile_eq_drop_findIdx_not]
  congr 2
  unfold findFirstNotOf
  simp only
  split
  · rw [BitVec.toNat_ofNat, Nat.mod_eq_of_lt (by omega)]
    omega
  · rw [npos_toNat]
    omega

/-- The second one erases the trailing bytes; where there are no others, `npos + 1` is 0. -/
theorem erase_last (hs : s.length < 2 ^ 64 - 1) :
    erase s (findLastNotOf s set + 1) npos = some (s.rdropWhile set.contains) := by
  have hle : s.reverse.findIdx (!set.contains ·) ≤ s.length := by
    rw [← List.length_reverse]
    exact List.findIdx_le_length
  have hone : (1 : BitVec 64).toNat = 1 := rfl
  have hpos : (findLastNotOf s set + 1).toNat = s.length - s.reverse.findIdx (!set.contains ·) := by
    unfold findLastNotOf
    simp only
    split
    · rw [BitVec.toNat_add, BitVec.toNat_ofNat, hone]
      omega
    · rw [BitVec.toNat_add, npos_toNat, hone]
      omega
  rw [erase_npos hs (by omega), hpos, List.rdropWhile, List.dropWhile_eq_drop_findIdx_not, List.drop_reverse,
    List.reverse_reverse]

/-- `trim` does not throw, and drops the bytes of the set at both ends. -/
theorem trim_eq (hs : s.length < 2 ^ 64 - 1) :
    trim s set = some ((s.dropWhile set.contains).rdropWhile set.contains) := by
  unfold trim
  split
  · rename_i he
    rw [List.isEmpty_iff.mp he]
    rfl
  · rw [erase_first hs]
    have hlen : (s.dropWhile set.contains).length < 2 ^ 64 - 1 :=
      Nat.lt_of_le_of_lt (List.dropWhile_sublist _).length_le hs
    exact erase_last hlen

/-- The string, with only bytes of the set in front of the result and behind it. -/
def Around (set s r : List Byte) : Prop :=
  ∃ pre post, s = pre ++ r ++ post ∧ (∀ c ∈ pre, c ∈ set) ∧ ∀ c ∈ post, c ∈ set

theorem dropWhile_trimmed (hr : Trimmed set r) (hne : r ≠ []) (post : List Byte) :
    (r ++ post).dropWhile set.contains = r ++ post := by
  cases r with
  | nil => exact absurd rfl hne
  | cons c r =>
    have hc : set.contains c = false := by simpa using hr.first c rfl
    rw [List.cons_append, List.dropWhile_cons, hc, if_neg Bool.false_ne_true]

theorem rdropWhile_trimmed (hr : Trimmed set r) {post : List Byte} (hp : ∀ c ∈ post, c ∈ set) :
    (r ++ post).rdropWhile set.contains = r := by
  have hpost : ∀ c ∈ post.reverse, set.contains c = true := by simpa using hp
  rw [List.rdropWhile, List.reverse_append, List.dropWhile_append_of_pos hpost]
  apply List.rdropWhile_eq_self_iff.mpr
  intro hne
  simpa using hr.last _ (List.getLast?_eq_some_getLast hne)

/-- Only one result has both properties. -/
theorem trimmed_unique (hr : Trimmed set r) (ha : Around set s r) :
    (s.dropWhile set.contains).rdropWhile set.contains = r := by
  obtain ⟨pre, post, rfl, hpre, hpost⟩ := ha
  rw [List.append_assoc, List.dropWhile_append_of_pos (by simpa using hpre)]
  by_cases hne : r = []
  · rw [hne, List.nil_append]
    apply List.rdropWhile_eq_nil_iff.mpr
    intro c hc
    simpa using hpost c ((List.dropWhile_sublist _).subset hc)
  · rw [dropWhile_trimmed hr hne]
    exact rdropWhile_trimmed hr hpost

theorem trimmed_trim : Trimmed set ((s.dropWhile set.contains).rdropWhile set.contains) where
  first c hc := by
    have hne := List.ne_nil_of_mem (List.mem_of_mem_head? hc)
    have hpre := List.rdropWhile_prefix set.contains (s.dropWhile set.contains)
    rw [List.head?_eq_some_head hne, hpre.head hne] at hc
    cases hc
    simpa using List.head_dropWhile_not set.contains (hpre.ne_nil hne)
  last c hc := by
    have hne := List.ne_nil_of_mem (List.mem_of_getLast? hc)
    rw [List.getLast?_eq_some_getLast hne] at hc
    cases hc
    simpa using List.rdropWhile_last_not _ _ hne

theorem around_trim : Around set s ((s.dropWhile set.contains).rdropWhile set.contains) := by
  refine ⟨s.takeWhile set.contains, (s.dropWhile set.contains).rtakeWhile set.contains, ?_, fun c hc => ?_, fun c hc => ?_⟩
  · rw [List.append_assoc, List.rdropWhile_append_rtakeWhile, List.takeWhile_append_dropWhile]
  · simpa using List.mem_takeWhile_imp hc
  · simpa using List.mem_rtakeWhile_imp hc

/-- For every string that a `std::string` can hold, `trim` does not throw. Its result neither
starts nor ends with a byte to be trimmed, only such bytes have been taken away at the ends,
no other string has these two properties, and it is its own result. -/
theorem trim_spec (s toTrim : List Byte) (hs : s.length < 2 ^ 64 - 1) :
    ∃ r, trim s toTrim = some r ∧ Trimmed toTrim r ∧ Around toTrim s r ∧
      (∀ r', Trimmed toTrim r' → Around toTrim s r' → r' = r) ∧ trim r toTrim = some r := by
  refine ⟨_, trim_eq hs, trimmed_trim, around_trim, fun r' hr' ha' => (trimmed_unique hr' ha').symm, ?_⟩
  have hsub := (List.rdropWhile_prefix toTrim.contains (s.dropWhile toTrim.contains)).length_le
  have hdrop := (List.dropWhile_sublist toTrim.contains (l := s)).length_le
  exact (trim_eq (by omega)).trans (congrArg some (trimmed_unique trimmed_trim ⟨[], [], by simp, by simp, by simp⟩))

/-- Nothing is left of two blanks, and what is between blanks stays. -/
theorem trim_spec_blanks : trim [32, 32] [32] = some [] ∧ ∃ r, trim [32, 65, 32, 66, 32] [32] = some r ∧ Trimmed [32] r := by
  obtain ⟨r, hr, ht, -⟩ := trim_spec [32, 65, 32, 66, 32] [32] (by decide)
  exact ⟨by decide, r, hr, ht⟩

end TinyCoro.Utils
