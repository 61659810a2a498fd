import Mathlib.Data.List.Nodup
import Mathlib.Logic.Function.Basic

/-! A pool of slots: the free ones are in a list, the others with their holders. Before it,
what a partial map says after a change at one place. -/
namespace TinyCoro.Transition
variable {α ι : Type}

section Maps
variable [DecidableEq ι] {f : ι → Option α} {c d : ι} {a b : α}

theorem update_some_eq (h : Function.update f c (some a) d = some b) : (d = c ∧ b = a) ∨ (d ≠ c ∧ f d = some b) := by
  by_cases hdc : d = c
  · subst hdc
    rw [Function.update_self, Option.some.injEq] at h
    exact .inl ⟨rfl, h.symm⟩
  · rw [Function.update_of_ne hdc] at h
    exact .inr ⟨hdc, h⟩

theorem update_none_eq (h : Function.update f c none d = some b) : d ≠ c ∧ f d = some b := by
  by_cases hdc : d = c
  · subst hdc
    rw [Function.update_self] at h
    cases h
  · rw [Function.update_of_ne hdc] at h
    exact ⟨hdc, h⟩

end Maps

/-- Every slot is either once in the free list or with exactly one holder. -/
structure Slots (slot : α → Prop) (free : List α) (held : ι → Option α) : Prop where
  nodup : free.Nodup
  isFree : ∀ a ∈ free, slot a
  isHeld : ∀ c a, held c = some a → slot a ∧ a ∉ free
  one : ∀ c d a, held c = some a → held d = some a → c = d
  kept : ∀ a, slot a → a ∈ free ∨ ∃ c, held c = some a

namespace Slots
variable {slot : α → Prop} {free : List α} {held : ι → Option α} {a : α} {c : ι} [DecidableEq ι]

theorem borrow (h : Slots slot (a :: free) held) (hc : held c = none) :
    Slots slot free (Function.update held c (some a)) := by
  refine ⟨h.nodup.of_cons, fun b hb => h.isFree b (List.mem_cons_of_mem a hb), fun d b hd => ?_, fun d e b hd he => ?_,
    fun b hb => ?_⟩
  · rcases update_some_eq hd with ⟨-, rfl⟩ | ⟨-, hd⟩
    · exact ⟨h.isFree b List.mem_cons_self, (List.nodup_cons.mp h.nodup).1⟩
    · exact ⟨(h.isHeld d b hd).1, fun hb => (h.isHeld d b hd).2 (List.mem_cons_of_mem a hb)⟩
  · have hout : ∀ f, held f ≠ some a := fun f hf => (h.isHeld f a hf).2 List.mem_cons_self
    rcases update_some_eq hd with ⟨hdc, hb⟩ | ⟨-, hd⟩ <;> rcases update_some_eq he with ⟨hec, hb'⟩ | ⟨-, he⟩
    · exact hdc.trans hec.symm
    · exact absurd (hb ▸ he) (hout e)
    · exact absurd (hb' ▸ hd) (hout d)
    · exact h.one d e b hd he
  · rcases h.kept b hb with hb | ⟨d, hd⟩
    · rcases List.mem_cons.mp hb with rfl | hb
      · exact .inr ⟨c, Function.update_self ..⟩
      · exact .inl hb
    · have hdc : d ≠ c := fun hdc => by simp [hdc ▸ hc] at hd
      exact .inr ⟨d, by rw [Function.update_of_ne hdc, hd]⟩

theorem giveBack (h : Slots slot free held) (hc : held c = some a) :
    Slots slot (free ++ [a]) (Function.update held c none) := by
  obtain ⟨ha, hfree⟩ := h.isHeld c a hc
  refine ⟨?_, fun b hb => ?_, fun d b hd => ?_, fun d e b hd he => ?_, fun b hb => ?_⟩
  · rw [List.nodup_append]
    refine ⟨h.nodup, List.nodup_singleton a, ?_⟩
    rintro b hb _ hb' rfl
    exact hfree (List.mem_singleton.mp hb' ▸ hb)
  · rcases List.mem_append.mp hb with hb | hb
    · exact h.isFree b hb
    · exact List.mem_singleton.mp hb ▸ ha
  · obtain ⟨hdc, hd⟩ := update_none_eq hd
    refine ⟨(h.isHeld d b hd).1, fun hb => ?_⟩
    rcases List.mem_append.mp hb with hb | hb
    · exact (h.isHeld d b hd).2 hb
    · exact hdc (h.one d c a (List.mem_singleton.mp hb ▸ hd) hc)
  · exact h.one d e b (update_none_eq hd).2 (update_none_eq he).2
  · rcases h.kept b hb with hb | ⟨d, hd⟩
    · exact .inl (List.mem_append_left _ hb)
    · by_cases hdc : d = c
      · subst hdc
        rw [hc, Option.some.injEq] at hd
        exact .inl (List.mem_append_right _ (List.mem_singleton.mpr hd.symm))
      · exact .inr ⟨d, by rw [Function.update_of_ne hdc, hd]⟩

omit [DecidableEq ι] in
/-- The free slots and those of the holders, in the order of a list of them, are a
rearrangement of all slots. -/
theorem perm (h : Slots slot free held) {all : List α} {holders : List ι} (hall : all.Nodup) (hmem : ∀ a, a ∈ all ↔ slot a)
    (hnodup : holders.Nodup) (hin : ∀ c a, held c = some a → c ∈ holders) : (free ++ holders.filterMap held).Perm all := by
  have hheld : (holders.filterMap held).Nodup := hnodup.filterMap fun c d a hc hd => h.one c d a hc hd
  have happ : (free ++ holders.filterMap held).Nodup := by
    refine List.nodup_append.mpr ⟨h.nodup, hheld, ?_⟩
    rintro a ha _ hb rfl
    obtain ⟨c, -, hc⟩ := List.mem_filterMap.mp hb
    exact (h.isHeld c a hc).2 ha
  refine (List.perm_ext_iff_of_nodup happ hall).mpr fun a => ?_
  rw [hmem, List.mem_append, List.mem_filterMap]
  constructor
  · rintro (ha | ⟨c, -, hc⟩)
    · exact h.isFree a ha
    · exact (h.isHeld c a hc).1
  · intro ha
    rcases h.kept a ha with hfree | ⟨c, hc⟩
    · exact .inl hfree
    · exact .inr ⟨c, hin c a hc, hc⟩

end Slots
end TinyCoro.Transition
