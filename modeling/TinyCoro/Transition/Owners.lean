import Mathlib.Logic.Function.Basic
import TinyCoro.Transition.Slots

/-! Resources with one owner each. An owner passes its resource on, spends it or lets it
go; `spent` counts how often a resource was spent. -/
namespace TinyCoro.Transition
variable {ρ ι : Type}

/-- What was made has one owner and is unspent, or was spent once, or was let go unspent. -/
structure Owned (made : ρ → Prop) (held : ι → Option ρ) (spent : ρ → Nat) (released : ρ → Bool) : Prop where
  one : ∀ c d r, held c = some r → held d = some r → c = d
  live : ∀ c r, held c = some r → made r ∧ spent r = 0 ∧ released r = false
  unmade : ∀ r, ¬ made r → spent r = 0 ∧ released r = false
  kept : ∀ r, made r →
    (∃ c, held c = some r) ∨ (spent r = 1 ∧ released r = false) ∨ (spent r = 0 ∧ released r = true)

namespace Owned
variable {made made' : ρ → Prop} {held : ι → Option ρ} {spent : ρ → Nat} {released : ρ → Bool} {c d : ι} {r : ρ}

theorem start (hm : ∀ r, ¬ made r) (hh : ∀ c, held c = none) (hs : ∀ r, spent r = 0) (hr : ∀ r, released r = false) :
    Owned made held spent released := by
  refine ⟨fun c _ _ h => ?_, fun c _ h => ?_, fun r _ => ⟨hs r, hr r⟩, fun r h => absurd h (hm r)⟩
  · rw [hh c] at h
    cases h
  · rw [hh c] at h
    cases h

theorem spent_le (h : Owned made held spent released) (r : ρ) : spent r ≤ 1 := by
  by_cases hm : made r
  · rcases h.kept r hm with ⟨c, hc⟩ | ⟨hs, -⟩ | ⟨hs, -⟩
    · rw [(h.live c r hc).2.1]
      exact Nat.zero_le 1
    · exact Nat.le_of_eq hs
    · rw [hs]
      exact Nat.zero_le 1
  · rw [(h.unmade r hm).1]
    exact Nat.zero_le 1

/-- With no owner left, everything was spent once or let go. -/
theorem settled (h : Owned made held spent released) (hh : ∀ c, held c = none) (hm : made r) :
    spent r = if released r then 0 else 1 := by
  rcases h.kept r hm with ⟨c, hc⟩ | ⟨hs, hr⟩ | ⟨hs, hr⟩
  · rw [hh c] at hc
    cases hc
  · rw [hs, hr]
    rfl
  · rw [hs, hr]
    rfl

variable [DecidableEq ι]

theorem make (h : Owned made held spent released) (hr : ¬ made r) (hc : held c = none)
    (hm : ∀ x, made' x ↔ made x ∨ x = r) : Owned made' (Function.update held c (some r)) spent released := by
  have hout : ∀ d, held d ≠ some r := fun d hd => hr (h.live d r hd).1
  refine ⟨fun d e x hd he => ?_, fun d x hd => ?_, fun x hx => h.unmade x fun hm' => hx ((hm x).mpr (.inl hm')),
    fun x hx => ?_⟩
  · rcases update_some_eq hd with ⟨hdc, hx⟩ | ⟨-, hd⟩ <;> rcases update_some_eq he with ⟨hec, hx'⟩ | ⟨-, he⟩
    · exact hdc.trans hec.symm
    · exact absurd (hx ▸ he) (hout e)
    · exact absurd (hx' ▸ hd) (hout d)
    · exact h.one d e x hd he
  · rcases update_some_eq hd with ⟨-, rfl⟩ | ⟨-, hd⟩
    · exact ⟨(hm x).mpr (.inr rfl), h.unmade x hr⟩
    · exact ⟨(hm x).mpr (.inl (h.live d x hd).1), (h.live d x hd).2⟩
  · rcases (hm x).mp hx with hx | rfl
    · rcases h.kept x hx with ⟨d, hd⟩ | hrest
      · have hdc : d ≠ c := fun hdc => by simp [hdc ▸ hc] at hd
        exact .inl ⟨d, by rw [Function.update_of_ne hdc, hd]⟩
      · exact .inr hrest
    · exact .inl ⟨c, Function.update_self ..⟩

/-- `c` gives what it has, if anything, to `d`, which has nothing. -/
theorem move (h : Owned made held spent released) (hd : held d = none) :
    Owned made (Function.update (Function.update held c none) d (held c)) spent released := by
  obtain hc | ⟨r, hc⟩ := Option.eq_none_or_eq_some (held c)
  · have hsame : Function.update (Function.update held c none) d (held c) = held := by
      rw [hc, ← hc, Function.update_eq_self, hc, ← hd, Function.update_eq_self]
    rw [hsame]
    exact h
  · rw [hc]
    have hcd : c ≠ d := fun hcd => by simp [hcd ▸ hc] at hd
    have hback : ∀ e x, Function.update (Function.update held c none) d (some r) e = some x →
        (e = d ∧ held c = some x) ∨ (e ≠ c ∧ held e = some x) := fun e x he => by
      rcases update_some_eq he with ⟨rfl, rfl⟩ | ⟨-, he⟩
      · exact .inl ⟨rfl, hc⟩
      · exact .inr (update_none_eq he)
    refine ⟨fun e f x he hf => ?_, fun e x he => ?_, h.unmade, fun x hx => ?_⟩
    · rcases hback e x he with ⟨hed, he⟩ | ⟨hec, he⟩ <;> rcases hback f x hf with ⟨hfd, hf⟩ | ⟨hfc, hf⟩
      · exact hed.trans hfd.symm
      · exact absurd (h.one f c x hf he) hfc
      · exact absurd (h.one e c x he hf) hec
      · exact h.one e f x he hf
    · rcases hback e x he with ⟨-, he⟩ | ⟨-, he⟩
      · exact h.live c x he
      · exact h.live e x he
    · rcases h.kept x hx with ⟨e, he⟩ | hrest
      · by_cases hec : e = c
        · rw [hec, hc] at he
          exact .inl ⟨d, by rw [Function.update_self, he]⟩
        · have hed : e ≠ d := fun hed => by simp [hed ▸ hd] at he
          exact .inl ⟨e, by rw [Function.update_of_ne hed, Function.update_of_ne hec, he]⟩
      · exact .inr hrest

variable [DecidableEq ρ]

/-- What `spend` and `release` have in common: the owner is left with nothing, and the
books change at its resource only. -/
private theorem drop (h : Owned made held spent released) (hc : held c = some r) {spent' : ρ → Nat} {released' : ρ → Bool}
    (hrest : ∀ x, x ≠ r → spent' x = spent x ∧ released' x = released x)
    (hr : (spent' r = 1 ∧ released' r = false) ∨ (spent' r = 0 ∧ released' r = true)) :
    Owned made (Function.update held c none) spent' released' := by
  have hne : ∀ d x, d ≠ c → held d = some x → x ≠ r := fun d x hdc hd hx => hdc (h.one d c r (hx ▸ hd) hc)
  refine ⟨fun d e x hd he => h.one d e x (update_none_eq hd).2 (update_none_eq he).2, fun d x hd => ?_, fun x hx => ?_,
    fun x hx => ?_⟩
  · obtain ⟨hdc, hd⟩ := update_none_eq hd
    obtain ⟨hs, hl⟩ := hrest x (hne d x hdc hd)
    rw [hs, hl]
    exact h.live d x hd
  · have hxr : x ≠ r := fun hxr => hx (hxr ▸ (h.live c r hc).1)
    obtain ⟨hs, hl⟩ := hrest x hxr
    rw [hs, hl]
    exact h.unmade x hx
  · by_cases hxr : x = r
    · rw [hxr]
      exact .inr hr
    · obtain ⟨hs, hl⟩ := hrest x hxr
      rw [hs, hl]
      rcases h.kept x hx with ⟨d, hd⟩ | hrest
      · have hdc : d ≠ c := fun hdc => hxr (Option.some.inj ((hdc ▸ hd).symm.trans hc))
        exact .inl ⟨d, by rw [Function.update_of_ne hdc, hd]⟩
      · exact .inr hrest

theorem spend (h : Owned made held spent released) (hc : held c = some r) :
    Owned made (Function.update held c none) (Function.update spent r (spent r + 1)) released := by
  obtain ⟨-, hs, hl⟩ := h.live c r hc
  refine h.drop hc (fun x hx => ⟨Function.update_of_ne hx .., rfl⟩) (.inl ⟨?_, hl⟩)
  rw [Function.update_self, hs]

theorem release (h : Owned made held spent released) (hc : held c = some r) :
    Owned made (Function.update held c none) spent (Function.update released r true) := by
  obtain ⟨-, hs, -⟩ := h.live c r hc
  exact h.drop hc (fun x hx => ⟨rfl, Function.update_of_ne hx ..⟩) (.inr ⟨hs, Function.update_self ..⟩)

end Owned
end TinyCoro.Transition
