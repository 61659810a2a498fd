import Mathlib.Data.List.Count
import TinyCoro.Queue.AtomicQueue

/-! Where the elements of the queue are. No condition is put on the calls: there may be more
of them than slots, and they may come in any order. -/
namespace TinyCoro.Queue
open Transition
variable {Θ α : Type}

def Pc.inside (g : Shape) : Pc α → Option Unsigned
  | .storeElement _ head | .storeEnd head => some (g.index head)
  | .loadElement tail | .loadEnd tail _ => some (g.index tail)
  | _ => none

def Pc.pushing : Pc α → Bool
  | .store .. | .storeElement .. | .storeEnd .. => true
  | _ => false

def Pc.popping : Pc α → Bool
  | .load .. | .loadElement .. | .loadEnd .. => true
  | _ => false

theorem idle_flags {p : Pc α} (hp : p.idle = true) : p.pushing = false ∧ p.popping = false := by
  cases p <;> first | exact ⟨rfl, rfl⟩ | cases hp

def Knows (g : Shape) (s : State Θ α) (θ : Θ) : Prop :=
  match s.pc θ with
  | .store _ a head => head = .ofNat 32 (s.ticket θ) ∧ s.pushed[s.ticket θ]? = some a
  | .storeElement a head => head = .ofNat 32 (s.ticket θ) ∧ s.pushed[s.ticket θ]? = some a ∧
    s.states (g.index head) = .storing ∧ s.source (g.index head) = s.ticket θ
  | .storeEnd head => head = .ofNat 32 (s.ticket θ) ∧ s.pushed[s.ticket θ]? = some (s.elements (g.index head)) ∧
    s.states (g.index head) = .storing ∧ s.source (g.index head) = s.ticket θ
  | .load _ tail => tail = .ofNat 32 (s.ticket θ) ∧ s.ticket θ < s.popped ∧ s.ticket θ ∉ s.given.map Prod.fst
  | .loadElement tail => tail = .ofNat 32 (s.ticket θ) ∧ s.ticket θ < s.popped ∧ s.states (g.index tail) = .loading ∧
    (s.ticket θ, s.source (g.index tail)) ∈ s.given ∧ s.pushed[s.source (g.index tail)]? = some (s.elements (g.index tail))
  | .loadEnd tail a => tail = .ofNat 32 (s.ticket θ) ∧ s.ticket θ < s.popped ∧ s.states (g.index tail) = .loading ∧
    (s.ticket θ, s.source (g.index tail)) ∈ s.given ∧ s.pushed[s.source (g.index tail)]? = some a
  | .out answer => ∀ a, answer = some (.popped a) → ∃ k, (s.ticket θ, k) ∈ s.given ∧ s.pushed[k]? = some a
  | _ => True

def holder (s : State Θ α) : Θ ⊕ Unsigned → Option Nat
  | .inl θ => if (s.pc θ).pushing then some (s.ticket θ) else none
  | .inr i => if s.states i = .stored then some (s.source i) else none

def taken (s : State Θ α) (k : Nat) : Nat := (s.given.map Prod.snd).count k

structure Inv (g : Shape) (s : State Θ α) : Prop where
  head : s.head = .ofNat 32 s.pushed.length
  tail : s.tail = .ofNat 32 s.popped
  knows : ∀ θ, Knows g s θ
  popOne : ∀ θ x, (s.pc θ).popping = true → (s.pc x).popping = true → s.ticket θ = s.ticket x → θ = x
  popLt : ∀ p ∈ s.given, p.1 < s.popped
  popNodup : (s.given.map Prod.fst).Nodup
  stored : ∀ i, s.states i = .stored → s.pushed[s.source i]? = some (s.elements i)
  owned : Owned (· < s.pushed.length) (holder s) (taken s) fun _ => false

section
variable {g : Shape} {s t : State Θ α} {θ x : Θ} {i : Unsigned}

/-- A thread keeps its knowledge while the others only go on, and stay out of its slot. -/
theorem Knows.frame (hx : Knows g s x) (hpc : t.pc x = s.pc x) (hticket : t.ticket x = s.ticket x)
    (hpushed : s.pushed <+: t.pushed) (hpopped : s.popped ≤ t.popped) (hgiven : s.given ⊆ t.given)
    (hnew : ∀ b tail, s.pc x = .load b tail → s.ticket x ∉ s.given.map Prod.fst → s.ticket x ∉ t.given.map Prod.fst)
    (hslot : ∀ i, (s.pc x).inside g = some i →
      t.states i = s.states i ∧ t.source i = s.source i ∧ t.elements i = s.elements i) : Knows g t x := by
  obtain ⟨rest, hrest⟩ := hpushed
  have hget : ∀ (k : Nat) (a : α), s.pushed[k]? = some a → t.pushed[k]? = some a := fun k a h => by
    rw [← hrest, List.getElem?_append_left (List.getElem?_eq_some_iff.mp h).1, h]
  cases hp : s.pc x with
  | store b a head =>
    simp only [Knows, hpc, hp, hticket] at hx ⊢
    exact ⟨hx.1, hget _ _ hx.2⟩
  | storeElement a head =>
    obtain ⟨hstates, hsource, -⟩ := hslot (g.index head) (by rw [hp]; rfl)
    simp only [Knows, hpc, hp, hticket, hstates, hsource] at hx ⊢
    exact ⟨hx.1, hget _ _ hx.2.1, hx.2.2⟩
  | storeEnd head =>
    obtain ⟨hstates, hsource, helements⟩ := hslot (g.index head) (by rw [hp]; rfl)
    simp only [Knows, hpc, hp, hticket, hstates, hsource, helements] at hx ⊢
    exact ⟨hx.1, hget _ _ hx.2.1, hx.2.2⟩
  | load b tail =>
    simp only [Knows, hpc, hp, hticket] at hx ⊢
    exact ⟨hx.1, Nat.lt_of_lt_of_le hx.2.1 hpopped, hnew b tail hp hx.2.2⟩
  | loadElement tail =>
    obtain ⟨hstates, hsource, helements⟩ := hslot (g.index tail) (by rw [hp]; rfl)
    simp only [Knows, hpc, hp, hticket, hstates, hsource, helements] at hx ⊢
    exact ⟨hx.1, Nat.lt_of_lt_of_le hx.2.1 hpopped, hx.2.2.1, hgiven hx.2.2.2.1, hget _ _ hx.2.2.2.2⟩
  | loadEnd tail a =>
    obtain ⟨hstates, hsource, -⟩ := hslot (g.index tail) (by rw [hp]; rfl)
    simp only [Knows, hpc, hp, hticket, hstates, hsource] at hx ⊢
    exact ⟨hx.1, Nat.lt_of_lt_of_le hx.2.1 hpopped, hx.2.2.1, hgiven hx.2.2.2.1, hget _ _ hx.2.2.2.2⟩
  | out answer =>
    simp only [Knows, hpc, hp, hticket] at hx ⊢
    intro a ha
    obtain ⟨k, hk, hka⟩ := hx a ha
    exact ⟨k, hgiven hk, hget _ _ hka⟩
  | _ =>
    simp only [Knows, hpc, hp]

/-- A thread in a slot either has the element still, or has taken it already. -/
theorem Knows.inside (hx : Knows g s x) (hi : (s.pc x).inside g = some i) :
    (s.states i = .storing ∧ (s.pc x).pushing = true ∧ s.source i = s.ticket x) ∨
    (s.states i = .loading ∧ (s.pc x).popping = true ∧ (s.ticket x, s.source i) ∈ s.given) := by
  cases hp : s.pc x with
  | storeElement a head | storeEnd head =>
    rw [hp, Pc.inside, Option.some.injEq] at hi
    simp only [Knows, hp, hi] at hx
    exact .inl ⟨hx.2.2.1, rfl, hx.2.2.2⟩
  | loadElement tail | loadEnd tail a =>
    rw [hp, Pc.inside, Option.some.injEq] at hi
    simp only [Knows, hp, hi] at hx
    exact .inr ⟨hx.2.2.1, rfl, hx.2.2.2.1⟩
  | _ =>
    rw [hp] at hi
    cases hi

theorem Inv.given_nodup (hs : Inv g s) : (s.given.map Prod.snd).Nodup :=
  List.nodup_iff_count_le_one.mpr hs.owned.spent_le

/-- A slot is for one thread at a time. -/
theorem Inv.inside_one (hs : Inv g s) (hθ : (s.pc θ).inside g = some i) (hx : (s.pc x).inside g = some i) : θ = x := by
  rcases (hs.knows θ).inside hθ with ⟨hstate, hpush, hsrc⟩ | ⟨hstate, hpop, hmem⟩ <;>
    rcases (hs.knows x).inside hx with ⟨hstate', hpush', hsrc'⟩ | ⟨hstate', hpop', hmem'⟩
  · have hone := hs.owned.one (.inl θ) (.inl x) (s.source i) (by simp [holder, hpush, hsrc])
      (by simp [holder, hpush', hsrc'])
    exact Sum.inl.inj hone
  · cases hstate.symm.trans hstate'
  · cases hstate.symm.trans hstate'
  · have hpair := List.inj_on_of_nodup_map hs.given_nodup hmem hmem' rfl
    exact hs.popOne θ x hpop hpop' (congrArg Prod.fst hpair)

/-- The other threads are in other slots than the one that `θ` changes. -/
theorem Inv.outside (hs : Inv g s) (hx : x ≠ θ)
    (hθ : (s.pc θ).inside g = some i ∨ (s.states i ≠ .storing ∧ s.states i ≠ .loading))
    {j : Unsigned} (hj : (s.pc x).inside g = some j) : j ≠ i := by
  rintro rfl
  rcases hθ with hθ | ⟨hstore, hload⟩
  · exact hx (hs.inside_one hj hθ)
  · rcases (hs.knows x).inside hj with ⟨h, -⟩ | ⟨h, -⟩
    · exact hstore h
    · exact hload h

/-- The books are the same when the same pushes are under way and the same elements stored. -/
theorem holder_congr (hpc : ∀ x, (t.pc x).pushing = (s.pc x).pushing)
    (hticket : ∀ x, (s.pc x).pushing = true → t.ticket x = s.ticket x)
    (hstates : ∀ i, t.states i = .stored ↔ s.states i = .stored)
    (hsource : ∀ i, s.states i = .stored → t.source i = s.source i) : holder t = holder s := by
  funext o
  cases o with
  | inl x =>
    simp only [holder, hpc]
    split
    · rw [hticket x ‹_›]
    · rfl
  | inr i =>
    simp only [holder, hstates]
    split
    · rw [hsource i ‹_›]
    · rfl

variable [DecidableEq Θ]

theorem update_pc_pushing {p : Pc α} (hp : p.pushing = (s.pc θ).pushing) (x : Θ) :
    (Function.update s.pc θ p x).pushing = (s.pc x).pushing := by
  by_cases hx : x = θ
  · rw [hx, Function.update_self, hp]
  · rw [Function.update_of_ne hx]

theorem update_pc_popping {p : Pc α} (hp : p.popping = true → (s.pc θ).popping = true)
    (hx : (Function.update s.pc θ p x).popping = true) : (s.pc x).popping = true := by
  by_cases hxθ : x = θ
  · subst hxθ
    rw [Function.update_self] at hx
    exact hp hx
  · rwa [Function.update_of_ne hxθ] at hx

/-- The thread moves on without touching the queue. -/
theorem inv_goto {p : Pc α} (hs : Inv g s) (hknows : Knows g (s.goto θ p) θ) (hpush : p.pushing = (s.pc θ).pushing)
    (hpop : p.popping = true → (s.pc θ).popping = true) : Inv g (s.goto θ p) := by
  have hholder : holder (s.goto θ p) = holder s :=
    holder_congr (update_pc_pushing hpush) (fun _ _ => rfl) (fun _ => Iff.rfl) fun _ _ => rfl
  refine ⟨hs.head, hs.tail, fun x => ?_, fun x y hx hy => ?_, hs.popLt, hs.popNodup, hs.stored, ?_⟩
  · by_cases hx : x = θ
    · rw [hx]
      exact hknows
    · exact (hs.knows x).frame (Function.update_of_ne hx ..) rfl (List.prefix_refl _) (Nat.le_refl _) (List.Subset.refl _)
        (fun _ _ _ h => h) fun _ _ => ⟨rfl, rfl, rfl⟩
  · exact hs.popOne x y (update_pc_popping hpop hx) (update_pc_popping hpop hy)
  · rw [hholder]
    exact hs.owned

theorem inv_takeHead (hs : Inv g s) (a : α) (hp : (s.pc θ).idle = true) : Inv g (s.takeHead θ a) := by
  have hidle := (idle_flags hp).1
  have hholder : holder (s.takeHead θ a) = Function.update (holder s) (.inl θ) (some s.pushed.length) := by
    funext o
    cases o with
    | inl x =>
      by_cases hx : x = θ
      · simp [holder, State.takeHead, State.goto, hx, Pc.pushing]
      · simp [holder, State.takeHead, State.goto, hx]
    | inr i => rfl
  refine ⟨?_, hs.tail, fun x => ?_, fun x y hx hy => ?_, hs.popLt, hs.popNodup, fun i hi => ?_, ?_⟩
  · simp [State.takeHead, State.goto, hs.head, BitVec.ofNat_add]
  · by_cases hx : x = θ
    · subst hx
      simp [Knows, State.takeHead, State.goto, hs.head]
    · exact (hs.knows x).frame (Function.update_of_ne hx ..) (Function.update_of_ne hx ..) (List.prefix_append _ _)
        (Nat.le_refl _) (List.Subset.refl _) (fun _ _ _ h => h) fun _ _ => ⟨rfl, rfl, rfl⟩
  · have hne : ∀ z, (Function.update s.pc θ (.store false a s.head) z).popping = true → z ≠ θ := fun z hz hzθ => by
      rw [hzθ, Function.update_self] at hz
      cases hz
    have hxθ := hne x hx
    have hyθ := hne y hy
    simp only [State.takeHead, State.goto, Function.update_of_ne hxθ, Function.update_of_ne hyθ] at hx hy ⊢
    exact hs.popOne x y hx hy
  · have hget := hs.stored i hi
    have hlt := (List.getElem?_eq_some_iff.mp hget).1
    exact (List.getElem?_append_left hlt).trans hget
  · rw [hholder]
    exact hs.owned.make (Nat.lt_irrefl _) (by simp [holder, hidle]) fun k => by simp [State.takeHead, State.goto]; omega

theorem inv_takeTail (hs : Inv g s) (hp : (s.pc θ).idle = true) : Inv g (s.takeTail θ) := by
  have hidle := (idle_flags hp).1
  have hholder : holder (s.takeTail θ) = holder s := by
    refine holder_congr (update_pc_pushing hidle.symm) (fun x hx => ?_) (fun _ => Iff.rfl) fun _ _ => rfl
    have hxθ : x ≠ θ := fun h => by simp [h, hidle] at hx
    exact Function.update_of_ne hxθ ..
  have hlt : ∀ x, (s.pc x).popping = true → s.ticket x < s.popped := fun x hx => by
    have hknows := hs.knows x
    cases h : s.pc x with
    | load b tail | loadElement tail | loadEnd tail a =>
      simp only [Knows, h] at hknows
      exact hknows.2.1
    | _ =>
      rw [h] at hx
      cases hx
  have hfresh : s.popped ∉ s.given.map Prod.fst := fun h => by
    obtain ⟨p, hp, hpk⟩ := List.mem_map.mp h
    exact Nat.lt_irrefl _ (hpk ▸ hs.popLt p hp)
  refine ⟨hs.head, ?_, fun x => ?_, fun x y hx hy => ?_, fun p hp => Nat.lt_succ_of_lt (hs.popLt p hp),
    hs.popNodup, hs.stored, ?_⟩
  · simp [State.takeTail, State.goto, hs.tail, BitVec.ofNat_add]
  · by_cases hx : x = θ
    · subst hx
      simpa [Knows, State.takeTail, State.goto, hs.tail] using hfresh
    · exact (hs.knows x).frame (Function.update_of_ne hx ..) (Function.update_of_ne hx ..) (List.prefix_refl _)
        (Nat.le_succ _) (List.Subset.refl _) (fun _ _ _ h => h) fun _ _ => ⟨rfl, rfl, rfl⟩
  · by_cases hxθ : x = θ <;> by_cases hyθ : y = θ
    · exact fun _ => hxθ.trans hyθ.symm
    · subst hxθ
      simp only [State.takeTail, State.goto, Function.update_self, Function.update_of_ne hyθ] at hy ⊢
      exact fun h => absurd (hlt y hy) (by omega)
    · subst hyθ
      simp only [State.takeTail, State.goto, Function.update_self, Function.update_of_ne hxθ] at hx ⊢
      exact fun h => absurd (hlt x hx) (by omega)
    · simp only [State.takeTail, State.goto, Function.update_of_ne hxθ, Function.update_of_ne hyθ] at hx hy ⊢
      exact hs.popOne x y hx hy
  · rw [hholder]
    exact hs.owned

theorem inv_claim (hs : Inv g s) {a : α} {head : Unsigned} (hp : s.pc θ = .store false a head)
    (he : s.states (g.index head) = .empty) : Inv g (s.claim (g.index head) θ a head) := by
  have hknows := hs.knows θ
  simp only [Knows, hp] at hknows
  have hholder : holder (s.claim (g.index head) θ a head) = holder s := by
    refine holder_congr (update_pc_pushing (by rw [hp]; rfl)) (fun _ _ => rfl) (fun i => ?_) fun i hi => ?_
    · by_cases hi : i = g.index head
      · simp [State.claim, State.goto, hi, he]
      · simp [State.claim, State.goto, hi]
    · have hi' : i ≠ g.index head := fun h => by simp [h, he] at hi
      exact Function.update_of_ne hi' ..
  refine ⟨hs.head, hs.tail, fun x => ?_, fun x y hx hy => ?_, hs.popLt, hs.popNodup, fun i hi => ?_, ?_⟩
  · by_cases hx : x = θ
    · subst hx
      simp [Knows, State.claim, State.goto, hknows]
    · refine (hs.knows x).frame (Function.update_of_ne hx ..) rfl (List.prefix_refl _) (Nat.le_refl _) (List.Subset.refl _)
        (fun _ _ _ h => h) fun j hj => ?_
      have hne := hs.outside (i := g.index head) hx (.inr (by simp [he])) hj
      exact ⟨Function.update_of_ne hne .., Function.update_of_ne hne .., rfl⟩
  · have hpop : (Pc.storeElement a head : Pc α).popping = true → (s.pc θ).popping = true := by simp [Pc.popping]
    exact hs.popOne x y (update_pc_popping hpop hx) (update_pc_popping hpop hy)
  · by_cases hi' : i = g.index head
    · simp [State.claim, State.goto, hi'] at hi
    · simp only [State.claim, State.goto, Function.update_of_ne hi'] at hi ⊢
      exact hs.stored i hi
  · rw [hholder]
    exact hs.owned

theorem inv_write (hs : Inv g s) {a : α} {head : Unsigned} (hp : s.pc θ = .storeElement a head) :
    Inv g (s.write (g.index head) θ a head) := by
  have hknows := hs.knows θ
  simp only [Knows, hp] at hknows
  have hholder : holder (s.write (g.index head) θ a head) = holder s :=
    holder_congr (update_pc_pushing (by rw [hp]; rfl)) (fun _ _ => rfl) (fun _ => Iff.rfl) fun _ _ => rfl
  refine ⟨hs.head, hs.tail, fun x => ?_, fun x y hx hy => ?_, hs.popLt, hs.popNodup, fun i hi => ?_, ?_⟩
  · by_cases hx : x = θ
    · subst hx
      simp only [Knows, State.write, State.goto, Function.update_self]
      exact hknows
    · refine (hs.knows x).frame (Function.update_of_ne hx ..) rfl (List.prefix_refl _) (Nat.le_refl _) (List.Subset.refl _)
        (fun _ _ _ h => h) fun j hj => ?_
      have hne := hs.outside hx (.inl (by rw [hp]; rfl)) hj
      exact ⟨rfl, rfl, Function.update_of_ne hne ..⟩
  · have hpop : (Pc.storeEnd head : Pc α).popping = true → (s.pc θ).popping = true := by simp [Pc.popping]
    exact hs.popOne x y (update_pc_popping hpop hx) (update_pc_popping hpop hy)
  · have hi' : i ≠ g.index head := by
      rintro rfl
      cases hi.symm.trans hknows.2.2.1
    simp only [State.write, State.goto, Function.update_of_ne hi']
    exact hs.stored i hi
  · rw [hholder]
    exact hs.owned

theorem inv_publish (hs : Inv g s) {head : Unsigned} (hp : s.pc θ = .storeEnd head) :
    Inv g (s.publish (g.index head) θ) := by
  have hknows := hs.knows θ
  simp only [Knows, hp] at hknows
  obtain ⟨-, hget, hstate, hsrc⟩ := hknows
  have hθ : holder s (.inl θ) = some (s.ticket θ) := by simp [holder, hp, Pc.pushing]
  -- the element goes over from the thread to the slot
  have hholder : holder (s.publish (g.index head) θ) =
      Function.update (Function.update (holder s) (.inl θ) none) (.inr (g.index head)) (holder s (.inl θ)) := by
    funext o
    cases o with
    | inl x =>
      by_cases hx : x = θ
      · simp [holder, State.publish, State.goto, hx, Pc.pushing]
      · simp [holder, State.publish, State.goto, hx]
    | inr i =>
      by_cases hi : i = g.index head
      · rw [hi, Function.update_self, hθ]
        simp [holder, State.publish, State.goto, hsrc]
      · simp [holder, State.publish, State.goto, hi]
  refine ⟨hs.head, hs.tail, fun x => ?_, fun x y hx hy => ?_, hs.popLt, hs.popNodup, fun i hi => ?_, ?_⟩
  · by_cases hx : x = θ
    · subst hx
      simp [Knows, State.publish, State.goto]
    · refine (hs.knows x).frame (Function.update_of_ne hx ..) rfl (List.prefix_refl _) (Nat.le_refl _) (List.Subset.refl _)
        (fun _ _ _ h => h) fun j hj => ?_
      have hne := hs.outside hx (.inl (by rw [hp]; rfl)) hj
      exact ⟨Function.update_of_ne hne .., rfl, rfl⟩
  · have hpop : (Pc.out (some .pushed) : Pc α).popping = true → (s.pc θ).popping = true := by simp [Pc.popping]
    exact hs.popOne x y (update_pc_popping hpop hx) (update_pc_popping hpop hy)
  · by_cases hi' : i = g.index head
    · rw [hi']
      simp only [State.publish, State.goto, hsrc]
      exact hget
    · simp only [State.publish, State.goto, Function.update_of_ne hi'] at hi ⊢
      exact hs.stored i hi
  · rw [hholder]
    exact hs.owned.move (by simp [holder, hstate])

theorem inv_grab (hs : Inv g s) {tail : Unsigned} (hp : s.pc θ = .load false tail)
    (he : s.states (g.index tail) = .stored) : Inv g (s.grab (g.index tail) θ tail) := by
  have hknows := hs.knows θ
  simp only [Knows, hp] at hknows
  obtain ⟨htail, hlt, hfresh⟩ := hknows
  have hholder : holder (s.grab (g.index tail) θ tail) = Function.update (holder s) (.inr (g.index tail)) none := by
    funext o
    cases o with
    | inl x =>
      by_cases hx : x = θ
      · simp [holder, State.grab, State.goto, hx, Pc.pushing, hp]
      · simp [holder, State.grab, State.goto, hx]
    | inr i =>
      by_cases hi : i = g.index tail
      · simp [holder, State.grab, State.goto, hi]
      · simp [holder, State.grab, State.goto, hi]
  have htaken : taken (s.grab (g.index tail) θ tail) =
      Function.update (taken s) (s.source (g.index tail)) (taken s (s.source (g.index tail)) + 1) := by
    funext k
    by_cases hk : k = s.source (g.index tail)
    · simp [taken, State.grab, State.goto, hk]
    · simp [taken, State.grab, State.goto, hk, Ne.symm hk]
  refine ⟨hs.head, hs.tail, fun x => ?_, fun x y hx hy => ?_, fun p hp => ?_, ?_, fun i hi => ?_, ?_⟩
  · by_cases hx : x = θ
    · subst hx
      simp only [Knows, State.grab, State.goto, Function.update_self]
      exact ⟨htail, hlt, trivial, by simp, hs.stored _ he⟩
    · refine (hs.knows x).frame (Function.update_of_ne hx ..) rfl (List.prefix_refl _) (Nat.le_refl _)
        (List.subset_append_left _ _) (fun b u hu hnew => ?_) fun j hj => ?_
      · have hne : s.ticket x ≠ s.ticket θ := fun h => hx (hs.popOne x θ (by rw [hu]; rfl) (by rw [hp]; rfl) h)
        simpa [State.grab, State.goto, hne] using hnew
      · have hne := hs.outside (i := g.index tail) hx (.inr (by simp [he])) hj
        exact ⟨Function.update_of_ne hne .., rfl, rfl⟩
  · have hpop : (Pc.loadElement tail : Pc α).popping = true → (s.pc θ).popping = true := fun _ => by rw [hp]; rfl
    exact hs.popOne x y (update_pc_popping hpop hx) (update_pc_popping hpop hy)
  · rcases List.mem_append.mp hp with hp | hp
    · exact hs.popLt p hp
    · rw [List.mem_singleton.mp hp]
      exact hlt
  · have hnodup := hs.popNodup.append (List.nodup_singleton (s.ticket θ)) (by simpa using hfresh)
    simpa [State.grab, State.goto] using hnodup
  · have hi' : i ≠ g.index tail := by
      rintro rfl
      simp [State.grab, State.goto] at hi
    simp only [State.grab, State.goto, Function.update_of_ne hi'] at hi ⊢
    exact hs.stored i hi
  · rw [hholder, htaken]
    exact hs.owned.spend (by simp [holder, he])

theorem inv_release (hs : Inv g s) {tail : Unsigned} {a : α} (hp : s.pc θ = .loadEnd tail a) :
    Inv g (s.release (g.index tail) θ a) := by
  have hknows := hs.knows θ
  simp only [Knows, hp] at hknows
  obtain ⟨-, -, hstate, hmem, hget⟩ := hknows
  have hholder : holder (s.release (g.index tail) θ a) = holder s := by
    refine holder_congr (update_pc_pushing (by rw [hp]; rfl)) (fun _ _ => rfl) (fun i => ?_) fun _ _ => rfl
    by_cases hi : i = g.index tail
    · simp [State.release, State.goto, hi, hstate]
    · simp [State.release, State.goto, hi]
  refine ⟨hs.head, hs.tail, fun x => ?_, fun x y hx hy => ?_, hs.popLt, hs.popNodup, fun i hi => ?_, ?_⟩
  · by_cases hx : x = θ
    · subst hx
      simp only [Knows, State.release, State.goto, Function.update_self]
      rintro b hb
      cases hb
      exact ⟨_, hmem, hget⟩
    · refine (hs.knows x).frame (Function.update_of_ne hx ..) rfl (List.prefix_refl _) (Nat.le_refl _) (List.Subset.refl _)
        (fun _ _ _ h => h) fun j hj => ?_
      have hne := hs.outside hx (.inl (by rw [hp]; rfl)) hj
      exact ⟨Function.update_of_ne hne .., rfl, rfl⟩
  · have hpop : (Pc.out (some (.popped a)) : Pc α).popping = true → (s.pc θ).popping = true := by simp [Pc.popping]
    exact hs.popOne x y (update_pc_popping hpop hx) (update_pc_popping hpop hy)
  · have hi' : i ≠ g.index tail := by
      rintro rfl
      simp [State.release, State.goto] at hi
    simp only [State.release, State.goto, Function.update_of_ne hi'] at hi ⊢
    exact hs.stored i hi
  · rw [hholder]
    exact hs.owned

theorem attempt_idle {p : Pc α} {b : Bool} (h : p.attempt = some b) : p.idle = true ∧ ∀ a, p ≠ .out a := by
  cases p <;> first | cases h; done | exact ⟨rfl, by simp⟩

theorem entry_idle {p : Pc α} {op : Op α} (h : op.entry = some p) : p.idle = true ∧ ∀ a, p ≠ .out a := by
  cases op <;> simp only [Op.entry, Option.some.injEq, reduceCtorEq] at h <;> subst h <;> simp [Pc.idle]

omit [DecidableEq Θ] in
theorem Idles.flags {op : Op α} {p : Pc α} (h : Idles s θ op p) :
    (s.pc θ).idle = true ∧ p.idle = true ∧ ∀ a, p ≠ .out (some (.popped a)) := by
  cases h with
  | enter _ _ a h hp => exact ⟨by rw [h]; rfl, (entry_idle hp).1, fun a => (entry_idle hp).2 _⟩
  | attempt _ _ b h hp =>
    refine ⟨(attempt_idle h).1, ?_⟩
    rcases hp with hp | rfl
    · exact ⟨(attempt_idle hp).1, fun a => (attempt_idle hp).2 _⟩
    · exact ⟨rfl, by simp⟩
  | sizeFirst b h => exact ⟨by rw [h]; rfl, rfl, by simp⟩
  | sizeSecond b first h => exact ⟨by rw [h]; rfl, rfl, by simp⟩

theorem inv_idle {op : Op α} {p : Pc α} (hs : Inv g s) (h : Idles s θ op p) : Inv g (s.goto θ p) := by
  obtain ⟨hidle, hp, hout⟩ := h.flags
  refine inv_goto hs ?_ ((idle_flags hp).1.trans (idle_flags hidle).1.symm) fun hpop => ?_
  · cases p with
    | store | storeElement | storeEnd | load | loadElement | loadEnd => cases hp
    | out answer =>
      simp only [Knows, State.goto, Function.update_self]
      rintro a rfl
      exact absurd rfl (hout a)
    | _ => simp [Knows, State.goto]
  · rw [(idle_flags hp).2] at hpop
    cases hpop

theorem inv_steps {op : Op α} (hs : Inv g s) (h : Steps g s θ op t) : Inv g t := by
  have hknows := hs.knows θ
  cases h with
  | idle _ p h => exact inv_idle hs h
  | spinStore _ b b' a head hp =>
    simp only [Knows, hp] at hknows
    exact inv_goto hs (by simpa [Knows, State.goto] using hknows) (by rw [hp]; rfl) (by simp [Pc.popping])
  | spinLoad _ b b' tail hp =>
    simp only [Knows, hp] at hknows
    exact inv_goto hs (by simpa [Knows, State.goto] using hknows) (by rw [hp]; rfl) fun _ => by rw [hp]; rfl
  | takeHead a hp => exact inv_takeHead hs a (by rcases hp with hp | hp <;> rw [hp] <;> rfl)
  | takeTail hp => exact inv_takeTail hs (by rcases hp with hp | hp <;> rw [hp] <;> rfl)
  | claim a head hp he => exact inv_claim hs hp he
  | write a head hp => exact inv_write hs hp
  | publish head hp => exact inv_publish hs hp
  | grab tail hp he => exact inv_grab hs hp he
  | read tail hp =>
    simp only [Knows, hp] at hknows
    exact inv_goto hs (by simpa only [Knows, State.goto, Function.update_self] using hknows) (by rw [hp]; rfl)
      fun _ => by rw [hp]; rfl
  | release tail a hp => exact inv_release hs hp

omit [DecidableEq Θ] in
theorem inv_init (a : α) : Inv g (init a : State Θ α) := by
  refine ⟨rfl, rfl, fun x => by simp [Knows, init], by simp [init, Pc.popping], by simp [init], by simp [init],
    by simp [init], ?_⟩
  refine Owned.start (by simp [init]) (fun o => ?_) (by simp [taken, init]) fun _ => rfl
  cases o <;> simp [holder, init, Pc.pushing]

theorem inv_reachable {a : α} (h : Reachable (step g) (init a) s) : Inv g s := by
  refine h.invariant (Inv g) (inv_init a) ?_
  rintro ⟨θ, op⟩ s t - hs ht
  exact inv_steps hs (step_cases ht)

/-- However many calls there are: a slot is for one thread at a time, the element of a push is
taken by one pop at most, each pop takes one at most and returns it as it was pushed, and what
is not taken is in a slot or with the thread that pushes it. -/
theorem elements_exactly_once {a : α} (h : Reachable (step g) (init a) s) :
    (∀ θ x i, (s.pc θ).inside g = some i → (s.pc x).inside g = some i → θ = x) ∧
    (s.given.map Prod.fst).Nodup ∧ (s.given.map Prod.snd).Nodup ∧
    (∀ θ b, s.pc θ = .out (some (.popped b)) → ∃ k, (s.ticket θ, k) ∈ s.given ∧ s.pushed[k]? = some b) ∧
    ∀ k < s.pushed.length, (∃ θ, (s.pc θ).pushing = true ∧ s.ticket θ = k) ∨
      (∃ i, s.states i = .stored ∧ s.source i = k ∧ s.pushed[k]? = some (s.elements i)) ∨ ∃ j, (j, k) ∈ s.given := by
  have hs := inv_reachable h
  refine ⟨fun θ x i => hs.inside_one, hs.popNodup, hs.given_nodup, fun θ b hb => ?_, fun k hk => ?_⟩
  · have hknows := hs.knows θ
    simp only [Knows, hb] at hknows
    exact hknows b rfl
  · rcases hs.owned.kept k hk with ⟨o, ho⟩ | ⟨htaken, -⟩ | ⟨-, hfalse⟩
    · cases o with
      | inl θ =>
        obtain ⟨hpush, hticket⟩ := Option.ite_none_right_eq_some.mp ho
        exact .inl ⟨θ, hpush, Option.some.inj hticket⟩
      | inr i =>
        obtain ⟨hstate, hsrc⟩ := Option.ite_none_right_eq_some.mp ho
        cases hsrc
        exact .inr (.inl ⟨i, hstate, rfl, hs.stored i hstate⟩)
    · have hmem : k ∈ s.given.map Prod.snd := List.count_pos_iff.mp (by rw [← taken, htaken]; exact Nat.one_pos)
      obtain ⟨p, hp, rfl⟩ := List.mem_map.mp hmem
      exact .inr (.inr ⟨p.1, hp⟩)
    · cases hfalse

def oneSlot : Shape := ⟨0, 1, 0, rfl, Nat.le_refl 0⟩

/-- Thread 1 overtakes thread 0 on the way to the slot: the first pop takes the second element. -/
theorem elements_exactly_once_overtaken : ∃ s : State (Fin 3) Nat,
    exec (step oneSlot) [(0, .push 5), (0, .work), (1, .push 7), (1, .work), (1, .work), (1, .work), (1, .work),
      (2, .pop), (2, .work), (2, .work), (2, .work), (2, .work)] (init 0) = some s ∧
    s.given = [(0, 1)] ∧ s.pc 2 = .out (some (.popped 7)) ∧ (s.given.map Prod.snd).Nodup := by
  have hs : exec (step oneSlot) [(0, .push 5), (0, .work), (1, .push 7), (1, .work), (1, .work), (1, .work),
      (1, .work), (2, .pop), (2, .work), (2, .work), (2, .work), (2, .work)] (init 0 : State (Fin 3) Nat) = some _ := rfl
  exact ⟨_, rfl, rfl, rfl, (elements_exactly_once (Reachable.of_exec _ hs)).2.2.1⟩

end
end TinyCoro.Queue
