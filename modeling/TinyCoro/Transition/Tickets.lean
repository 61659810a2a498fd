import Mathlib.Data.Multiset.Range
import Mathlib.Data.Multiset.Filter

/-! Numbered tickets that are issued, wander between places and are closed once,
and a counter that is kept beside them. -/
namespace TinyCoro.Transition

@[ext] structure Tickets where
  issued : Nat
  opened : Multiset Nat
  closed : Multiset Nat
  count : Int

namespace Tickets

def empty : Tickets := ⟨0, 0, 0, 0⟩

/-- Issuing a ticket raises the counter, closing an open one lowers it. -/
inductive Move : Tickets → Tickets → Prop
  | stay (T : Tickets) : Move T T
  | issue (n : Nat) (o c : Multiset Nat) (i : Int) : Move ⟨n, o, c, i⟩ ⟨n + 1, n ::ₘ o, c, i + 1⟩
  | close (n k : Nat) (o c : Multiset Nat) (i : Int) : Move ⟨n, k ::ₘ o, c, i⟩ ⟨n, o, k ::ₘ c, i - 1⟩

theorem Move.of_eq {T T' : Tickets} (h : T' = T) : Move T T' := h ▸ .stay T

section Lists
variable {n : Nat} {o o' c : List Nat} {i i' : Int}

/-! The moves when the open and the closed tickets are kept in lists. -/

theorem Move.keep (ho : o'.Perm o) (hi : i' = i) : Move ⟨n, o, c, i⟩ ⟨n, o', c, i'⟩ :=
  .of_eq (by rw [Multiset.coe_eq_coe.mpr ho, hi])

theorem Move.issued (ho : o'.Perm (n :: o)) (hi : i' = i + 1) : Move ⟨n, o, c, i⟩ ⟨n + 1, o', c, i'⟩ := by
  rw [Multiset.coe_eq_coe.mpr ho, hi, ← Multiset.cons_coe]
  exact .issue ..

theorem Move.closed {k : Nat} (ho : o.Perm (k :: o')) (hi : i' = i - 1) :
    Move ⟨n, o, c, i⟩ ⟨n, o', ↑(c ++ [k]), i'⟩ := by
  rw [Multiset.coe_eq_coe.mpr ho, Multiset.coe_eq_coe.mpr (List.perm_append_singleton k c), hi, ← Multiset.cons_coe,
    ← Multiset.cons_coe]
  exact .close ..

end Lists

/-- Every issued ticket is open or closed, once, and the counter tells how many are open. -/
structure Sound (T : Tickets) : Prop where
  split : T.closed + T.opened = Multiset.range T.issued
  count : T.count = T.opened.card

theorem sound_empty : Sound empty := ⟨rfl, rfl⟩

theorem Move.sound {T T' : Tickets} (h : Move T T') (hT : Sound T) : Sound T' := by
  cases h with
  | stay => exact hT
  | issue n o c i =>
    refine ⟨?_, ?_⟩
    · have hs : c + o = Multiset.range n := hT.split
      rw [Multiset.add_cons, hs, Multiset.range_succ]
    · have hc : i = o.card := hT.count
      simp [hc]
  | close n k o c i =>
    refine ⟨?_, ?_⟩
    · have hs : c + k ::ₘ o = Multiset.range n := hT.split
      rw [Multiset.cons_add, ← Multiset.add_cons, hs]
    · have hc : i = (k ::ₘ o).card := hT.count
      simp [hc]

/-- The open tickets are the issued ones that are not closed. -/
theorem Sound.opened_eq {T : Tickets} (hT : Sound T) :
    T.opened = (Multiset.range T.issued).filter (· ∉ T.closed) := by
  have hn : (T.closed + T.opened).Nodup := hT.split ▸ Multiset.nodup_range _
  have hd := (Multiset.nodup_add.mp hn).2.2
  rw [← hT.split, Multiset.filter_add, Multiset.filter_eq_nil.mpr fun _ hk => not_not.mpr hk, Multiset.zero_add]
  have hall : ∀ k ∈ T.opened, k ∉ T.closed := fun k hk hc => Multiset.disjoint_left.mp hd hc hk
  exact (Multiset.filter_eq_self.mpr hall).symm

/-- While the counter is zero, every issued ticket has been closed exactly once. -/
theorem Sound.count_closed {T : Tickets} (hT : Sound T) (h0 : T.count ≤ 0) {k : Nat} (hk : k < T.issued) :
    T.closed.count k = 1 := by
  have ho : T.opened = 0 := by
    rw [hT.count] at h0
    exact Multiset.card_eq_zero.mp (by omega)
  have hs := hT.split
  rw [ho, Multiset.add_zero] at hs
  rw [hs, Multiset.count_eq_one_of_mem (Multiset.nodup_range _) (Multiset.mem_range.mpr hk)]

end Tickets
end TinyCoro.Transition
