import Mathlib.Data.Nat.Bitwise

/-! The hash and the equality of strings up to case. A `char` is a byte that may be read as
signed or not; `signed` is what the platform does. -/
namespace TinyCoro.Utils

abbrev Byte := BitVec 8

set_option maxRecDepth 4000 in
def table : Vector Byte 256 := #v[
    0, 1, 2, 3, 4, 5, 6, 7, 8, 9, 10, 11, 12, 13, 14, 15, 16, 17, 18, 19, 20, 21, 22, 23, 24, 25, 26, 27, 28, 29, 30,
    31, 32, 33, 34, 35, 36, 37, 38, 39, 40, 41, 42, 43, 44, 45, 46, 47, 48, 49, 50, 51, 52, 53, 54, 55, 56, 57, 58,
    59, 60, 61, 62, 63, 64, 97, 98, 99, 100, 101, 102, 103, 104, 105, 106, 107, 108, 109, 110, 111, 112, 113, 114,
    115, 116, 117, 118, 119, 120, 121, 122, 91, 92, 93, 94, 95, 96, 97, 98, 99, 100, 101, 102, 103, 104, 105, 106,
    107, 108, 109, 110, 111, 112, 113, 114, 115, 116, 117, 118, 119, 120, 121, 122, 123, 124, 125, 126, 127, 128, 129,
    130, 131, 132, 133, 134, 135, 136, 137, 138, 139, 140, 141, 142, 143, 144, 145, 146, 147, 148, 149, 150, 151, 152,
    153, 154, 155, 156, 157, 158, 159, 160, 161, 162, 163, 164, 165, 166, 167, 168, 169, 170, 171, 172, 173, 174, 175,
    176, 177, 178, 179, 180, 181, 182, 183, 184, 185, 186, 187, 188, 189, 190, 191, 224, 225, 226, 227, 228, 229, 230,
    231, 232, 233, 234, 235, 236, 237, 238, 239, 240, 241, 242, 243, 244, 245, 246, 215, 248, 249, 250, 251, 252, 253,
    254, 223, 224, 225, 226, 227, 228, 229, 230, 231, 232, 233, 234, 235, 236, 237, 238, 239, 240, 241, 242, 243, 244,
    245, 246, 247, 248, 249, 250, 251, 252, 253, 254, 255]

/-- `to_lower`: the argument is an `int`, cut back to a `char` and read as a number from 0 on. -/
def toLower (c : BitVec 32) : Byte := table.get (c.setWidth 8).toFin

/-- A `char` that is passed as an `int`. -/
def promote (signed : Bool) (c : Byte) : BitVec 32 := if signed then c.signExtend 32 else c.setWidth 32

def lower (signed : Bool) (c : Byte) : Byte := toLower (promote signed c)

/-- The largest `size_t` without its 6 high bits. -/
def mask : BitVec 64 := BitVec.allOnes 64 >>> 6

def next (signed : Bool) (h : BitVec 64) (c : Byte) : BitVec 64 :=
  (mask &&& h * 33) ^^^ (lower signed c).setWidth 64

/-- `hash_core`; the list is what `s` and `l` describe. -/
def hashCore (signed : Bool) : List Byte → BitVec 64 → BitVec 64
  | [], h => h
  | c :: s, h => hashCore signed s (next signed h c)

def hash (signed : Bool) (key : List Byte) : BitVec 64 := hashCore signed key 0

def stdEqual {α β : Type} (p : α → β → Bool) : List α → List β → Option Bool
  | [], _ => some true
  | _ :: _, [] => none
  | a :: as, b :: bs => if p a b then stdEqual p as bs else some false

def equal (signed : Bool) (a b : List Byte) : Option Bool :=
  if a.length = b.length then stdEqual (fun ca cb => lower signed ca == lower signed cb) a b else some false

def upper (c : Byte) : Bool := (65 ≤ c && c ≤ 90) || (192 ≤ c && c ≤ 222 && c != 215)

theorem table_toList : table.toList =
    (List.range 256).map fun i => if upper (.ofNat 8 i) then .ofNat 8 i + 32 else .ofNat 8 i := by
  decide +kernel

theorem table_get (c : Byte) : table.get c.toFin = if upper c then c + 32 else c := by
  have hlen : c.toNat < table.toList.length := by
    rw [Vector.length_toList]
    exact c.isLt
  have hget : table.get c.toFin = table.toList[c.toNat] := (Vector.getElem_toList hlen).symm
  rw [hget, List.getElem_of_eq table_toList hlen, List.getElem_map, List.getElem_range, BitVec.ofNat_toNat,
    BitVec.setWidth_eq]

/-- Truncation undoes the promotion, whichever it is. -/
theorem lower_eq (signed : Bool) (c : Byte) : lower signed c = if upper c then c + 32 else c := by
  have hc : (promote signed c).setWidth 8 = c := by
    cases signed with
    | false => simp [promote]
    | true =>
      refine BitVec.eq_of_getLsbD_eq fun i hi => ?_
      have hi' : i < 32 := by omega
      simp [promote, BitVec.getElem_signExtend, hi, hi']
  rw [lower, toLower, hc, table_get]

/-- A capital letter has its small one 32 places on, where no capital letter stands. -/
theorem upper_add (c : Byte) (h : upper c = true) : upper (c + 32) = false := by
  revert c
  decide +kernel

@[simp] theorem lower_lower (signed : Bool) (c : Byte) : lower signed (lower signed c) = lower signed c := by
  rw [lower_eq, lower_eq]
  cases h : upper c with
  | false => simp [h]
  | true => simp only [if_true, upper_add c h, Bool.false_eq_true, if_false]

theorem map_lower_idem (signed : Bool) (a : List Byte) : (a.map (lower signed)).map (lower signed) = a.map
    (lower signed) := by
  rw [List.map_map]
  exact List.map_congr_left fun c _ => lower_lower signed c

/-- The hash reads only what `to_lower` leaves of the string. -/
theorem hashCore_congr {signed : Bool} {a b : List Byte} (hab : a.map (lower signed) = b.map (lower signed))
    (h : BitVec 64) : hashCore signed a h = hashCore signed b h := by
  induction a generalizing b h with
  | nil =>
    rw [List.map_nil, eq_comm, List.map_eq_nil_iff] at hab
    rw [hab]
  | cons c a ih =>
    obtain ⟨d, b, rfl, hd, hab⟩ := List.map_eq_cons_iff.mp hab.symm
    rw [hashCore, hashCore, next, next, hd]
    exact ih hab.symm _

theorem stdEqual_eq {α β γ : Type} [DecidableEq γ] (f : α → γ) (g : β → γ) {a : List α} {b : List β}
    (hlen : a.length = b.length) : stdEqual (fun x y => f x == g y) a b = some (decide (a.map f = b.map g)) := by
  induction a generalizing b with
  | nil =>
    obtain rfl := List.length_eq_zero_iff.mp hlen.symm
    rfl
  | cons x a ih =>
    cases b with
    | nil => cases hlen
    | cons y b =>
      rw [stdEqual, ih (Nat.succ.inj hlen)]
      by_cases hxy : f x = g y
      · simp [hxy]
      · simp [hxy]

/-- `equal` never reads past an end, and compares the small letters. -/
theorem equal_eq (signed : Bool) (a b : List Byte) :
    equal signed a b = some (decide (a.map (lower signed) = b.map (lower signed))) := by
  unfold equal
  split
  · rename_i hlen
    exact stdEqual_eq (lower signed) (lower signed) hlen
  · rename_i hlen
    have hne : a.map (lower signed) ≠ b.map (lower signed) := fun h => hlen (by simpa using congrArg List.length h)
    rw [decide_eq_false hne]

theorem equal_iff {signed : Bool} {a b : List Byte} :
    equal signed a b = some true ↔ a.map (lower signed) = b.map (lower signed) := by
  rw [equal_eq, Option.some.injEq, decide_eq_true_iff]

/-- `equal` is an equality up to `to_lower` that the hash respects. -/
theorem equal_hash_compatible (signed : Bool) :
    Equivalence (fun a b => equal signed a b = some true) ∧
    (∀ a b, equal signed a b = some true → hash signed a = hash signed b) ∧
    (∀ a b, equal signed a b = some true ↔ a.length = b.length ∧
      ∀ i (ha : i < a.length) (hb : i < b.length), lower signed a[i] = lower signed b[i]) ∧
    (∀ a b, equal signed a b ≠ none) ∧
    ∀ a, hash signed (a.map (lower signed)) = hash signed a := by
  refine ⟨⟨fun a => ?_, fun h => ?_, fun h h' => ?_⟩, fun a b h => ?_, fun a b => ?_, fun a b => ?_, fun a => ?_⟩
  · exact equal_iff.mpr rfl
  · exact equal_iff.mpr (equal_iff.mp h).symm
  · exact equal_iff.mpr ((equal_iff.mp h).trans (equal_iff.mp h'))
  · exact hashCore_congr (equal_iff.mp h) 0
  · rw [equal_iff, List.ext_getElem_iff]
    simp only [List.length_map, List.getElem_map]
  · rw [equal_eq]
    exact nofun
  · exact hashCore_congr (map_lower_idem signed a) 0

-- capital and small letters beyond ASCII, of a `char` that is negative
example : equal true [201, 65] [233, 97] = some true := by decide

/-- The arguments of the recursive calls that a call of `hash_core` comes to, its own first. -/
inductive Calls (signed : Bool) (s : List Byte) (h : BitVec 64) : List Byte → BitVec 64 → Prop
  | self : Calls signed s h s h
  | next {c : Byte} {s' : List Byte} {h' : BitVec 64} : Calls signed s h (c :: s') h' →
    Calls signed s h s' (Utils.next signed h' c)

def recurrence (signed : Bool) : List Byte → Nat → Nat
  | [], h => h
  | c :: s, h => recurrence signed s (h * 33 % 2 ^ 58 ^^^ (lower signed c).toNat)

/-- The 6 bits that are clear make room for the factor. -/
theorem mul_lt {h : BitVec 64} (hh : h.toNat < 2 ^ 58) : h.toNat * 33 < 2 ^ 64 := by omega

/-- The mask comes after the product, which therefore has to fit before it. -/
theorem next_toNat {signed : Bool} {h : BitVec 64} {c : Byte} (hh : h.toNat < 2 ^ 58) :
    (next signed h c).toNat = h.toNat * 33 % 2 ^ 58 ^^^ (lower signed c).toNat := by
  have hmask : mask.toNat = 2 ^ 58 - 1 := by decide
  have hmul : (h * 33).toNat = h.toNat * 33 := by
    rw [BitVec.toNat_mul]
    exact Nat.mod_eq_of_lt (mul_lt hh)
  have hbyte : ((lower signed c).setWidth 64).toNat = (lower signed c).toNat := by
    rw [BitVec.toNat_setWidth]
    exact Nat.mod_eq_of_lt (Nat.lt_trans (lower signed c).isLt (by decide))
  rw [next, BitVec.toNat_xor, BitVec.toNat_and, hmask, hmul, hbyte, Nat.and_comm, Nat.and_two_pow_sub_one_eq_mod]

/-- The byte stays below the bits that the mask has cleared. -/
theorem next_lt {signed : Bool} {h : BitVec 64} {c : Byte} (hh : h.toNat < 2 ^ 58) : (next signed h c).toNat < 2 ^ 58 := by
  rw [next_toNat hh]
  refine Nat.xor_lt_two_pow (Nat.mod_lt _ (by decide)) ?_
  exact Nat.lt_trans (lower signed c).isLt (by decide)

theorem calls_lt {signed : Bool} {s s' : List Byte} {h h' : BitVec 64} (hh : h.toNat < 2 ^ 58)
    (hc : Calls signed s h s' h') : h'.toNat < 2 ^ 58 := by
  induction hc with
  | self => exact hh
  | next _ ih => exact next_lt ih

/-- Each call returns what the calls inside it return. -/
theorem calls_result {signed : Bool} {s s' : List Byte} {h h' : BitVec 64} (hc : Calls signed s h s' h') :
    hashCore signed s' h' = hashCore signed s h := by
  induction hc with
  | self => rfl
  | next _ ih => exact ih

theorem hashCore_toNat {signed : Bool} (s : List Byte) {h : BitVec 64} (hh : h.toNat < 2 ^ 58) :
    (hashCore signed s h).toNat = recurrence signed s h.toNat := by
  induction s generalizing h with
  | nil => rfl
  | cons c s ih =>
    rw [hashCore, ih (next_lt hh), next_toNat hh]
    rfl

/-- No product in the computation of a hash overflows, so it is the recurrence of the numbers. -/
theorem hash_no_overflow (signed : Bool) (key : List Byte) :
    (∀ s h, Calls signed key 0 s h →
      h.toNat < 2 ^ 58 ∧ h.toNat * 33 < 2 ^ 64 ∧ hashCore signed s h = hash signed key) ∧
    (hash signed key).toNat = recurrence signed key 0 := by
  have h0 : (0 : BitVec 64).toNat < 2 ^ 58 := by decide
  refine ⟨fun s h hc => ?_, hashCore_toNat key h0⟩
  have hlt := calls_lt h0 hc
  exact ⟨hlt, mul_lt hlt, calls_result hc⟩

end TinyCoro.Utils
