import Mathlib.Data.Fintype.Basic
import TinyCoro.Queue.Elements
import TinyCoro.Transition.Turns

/-! The order of the elements. A call that waits for its slot can be overtaken by the one that
has the slot a round later; as long as no ticket is given out that would allow it, the pops get
the elements in the order of the tickets. -/
namespace TinyCoro.Queue
open Transition
variable {Θ α : Type}

def Pc.storeWaits : Pc α → Bool
  | .store .. => true
  | _ => false

def Pc.loadWaits : Pc α → Bool
  | .load .. => true
  | _ => false

theorem storeWaits_pushing {p : Pc α} (hp : p.storeWaits = true) : p.pushing = true := by
  cases p <;> first | exact rfl | cases hp

theorem loadWaits_popping {p : Pc α} (hp : p.loadWaits = true) : p.popping = true := by
  cases p <;> first | exact rfl | cases hp

def takesHead (l : Θ × Op α) (s : State Θ α) : Bool :=
  match l.2, s.pc l.1 with
  | .work, .pushHead _ => true
  | .work, .tryPushExchange _ head => s.head == head
  | _, _ => false

def takesTail (l : Θ × Op α) (s : State Θ α) : Bool :=
  match l.2, s.pc l.1 with
  | .work, .popTail => true
  | .work, .tryPopExchange tail => s.tail == tail
  | _, _ => false

/-- No call still waits for the slot with the ticket of a round ago. -/
def InTurn (g : Shape) (l : Θ × Op α) (s : State Θ α) : Prop :=
  (takesHead l s = true → ∀ x, (s.pc x).storeWaits = true → s.ticket x + g.size.toNat ≠ s.pushed.length) ∧
  (takesTail l s = true → ∀ x, (s.pc x).loadWaits = true → s.ticket x + g.size.toNat ≠ s.popped)

instance InTurn.decidable [Fintype Θ] (g : Shape) (l : Θ × Op α) (s : State Θ α) : Decidable (InTurn g l s) :=
  inferInstanceAs (Decidable ((_ → ∀ _, _ → _) ∧ (_ → ∀ _, _ → _)))

namespace Shape

def slot (g : Shape) (k : Nat) : Unsigned := g.index (.ofNat 32 k)

theorem slot_mod (g : Shape) (k : Nat) : g.slot (k % g.size.toNat) = g.slot k :=
  (g.index_eq_iff _ _).mpr (Nat.mod_mod _ _)

theorem slot_eq_iff (g : Shape) {j k : Nat} (hj : j < g.size.toNat) : g.slot j = g.slot k ↔ j = k % g.size.toNat := by
  rw [slot, slot, g.index_eq_iff, Nat.mod_eq_of_lt hj]

end Shape

def SlotState.filled : SlotState → Nat
  | .empty => 0
  | _ => 1

def SlotState.emptied : SlotState → Nat
  | .loading => 1
  | _ => 0

structure Ordered (g : Shape) (s : State Θ α) : Prop where
  pushes : Turns g.size.toNat (fun r => s.rounds (g.slot r) + (s.states (g.slot r)).filled) s.pushed.length
    fun k => ∃ x, (s.pc x).storeWaits = true ∧ s.ticket x = k
  pops : Turns g.size.toNat (fun r => s.rounds (g.slot r) + (s.states (g.slot r)).emptied) s.popped
    fun k => ∃ x, (s.pc x).loadWaits = true ∧ s.ticket x = k
  source : ∀ i, s.states i ≠ .empty → s.source i / g.size.toNat = s.rounds i ∧ g.slot (s.source i) = i
  same : ∀ p ∈ s.given, p.2 = p.1

section
variable {g : Shape} {s t : State Θ α} {θ x : Θ}

/-- Nothing about the order changes when the same calls wait and the slots are as far as before. -/
theorem Ordered.congr (hs : Ordered g s) (hpushed : t.pushed = s.pushed) (hpopped : t.popped = s.popped)
    (hstore : ∀ x k, (t.pc x).storeWaits = true ∧ t.ticket x = k ↔ (s.pc x).storeWaits = true ∧ s.ticket x = k)
    (hload : ∀ x k, (t.pc x).loadWaits = true ∧ t.ticket x = k ↔ (s.pc x).loadWaits = true ∧ s.ticket x = k)
    (hfilled : ∀ i, t.rounds i + (t.states i).filled = s.rounds i + (s.states i).filled)
    (hemptied : ∀ i, t.rounds i + (t.states i).emptied = s.rounds i + (s.states i).emptied)
    (hsource : ∀ i, t.states i ≠ .empty → s.states i ≠ .empty ∧ t.source i = s.source i ∧ t.rounds i = s.rounds i)
    (hgiven : t.given = s.given) : Ordered g t := by
  refine ⟨?_, ?_, fun i hi => ?_, fun p hp => hs.same p (hgiven ▸ hp)⟩
  · rw [hpushed]
    exact hs.pushes.congr g.size_pos (fun r _ => hfilled _) fun k => exists_congr fun x => hstore x k
  · rw [hpopped]
    exact hs.pops.congr g.size_pos (fun r _ => hemptied _) fun k => exists_congr fun x => hload x k
  · obtain ⟨hne, hsrc, hrounds⟩ := hsource i hi
    rw [hsrc, hrounds]
    exact hs.source i hne

theorem takesHead_of {a : α} (hp : s.pc θ = .pushHead a ∨ s.pc θ = .tryPushExchange a s.head) :
    takesHead (θ, .work) s = true := by
  rcases hp with hp | hp <;> simp [takesHead, hp]

theorem takesTail_of (hp : s.pc θ = .popTail ∨ s.pc θ = .tryPopExchange s.tail) : takesTail (θ, .work) s = true := by
  rcases hp with hp | hp <;> simp [takesTail, hp]

variable [DecidableEq Θ]

theorem update_waits {f : Pc α → Bool} {p : Pc α} (hp : f p = f (s.pc θ)) (x : Θ) :
    f (Function.update s.pc θ p x) = f (s.pc x) := by
  by_cases hx : x = θ
  · rw [hx, Function.update_self, hp]
  · rw [Function.update_of_ne hx]

/-- The thread goes from one access to the next without coming to its slot. -/
theorem ordered_goto {p : Pc α} (hs : Ordered g s) (hstore : p.storeWaits = (s.pc θ).storeWaits)
    (hload : p.loadWaits = (s.pc θ).loadWaits) : Ordered g (s.goto θ p) := by
  refine hs.congr rfl rfl (fun x k => ?_) (fun x k => ?_) (fun _ => rfl) (fun _ => rfl) (fun _ hi => ⟨hi, rfl, rfl⟩) rfl
  · rw [State.goto, update_waits hstore]
  · rw [State.goto, update_waits hload]

/-- A thread that does not wait takes a ticket, and waits with it if `p` does. -/
theorem waits_ticket {f : Pc α → Bool} {p : Pc α} (hθ : f (s.pc θ) = false) {m k : Nat} :
    (∃ x, f (Function.update s.pc θ p x) = true ∧ Function.update s.ticket θ m x = k) ↔
    (∃ x, f (s.pc x) = true ∧ s.ticket x = k) ∨ (f p = true ∧ k = m) := by
  constructor
  · rintro ⟨x, hx, hk⟩
    by_cases hxθ : x = θ
    · subst hxθ
      rw [Function.update_self] at hx hk
      exact .inr ⟨hx, hk.symm⟩
    · rw [Function.update_of_ne hxθ] at hx hk
      exact .inl ⟨x, hx, hk⟩
  · rintro (⟨x, hx, hk⟩ | ⟨hp, rfl⟩)
    · have hxθ : x ≠ θ := fun h => by simp [h, hθ] at hx
      exact ⟨x, by rwa [Function.update_of_ne hxθ], by rwa [Function.update_of_ne hxθ]⟩
    · exact ⟨θ, by rwa [Function.update_self], Function.update_self ..⟩

theorem waits_join {f : Pc α → Bool} {p : Pc α} (hp : f p = true) (hθ : f (s.pc θ) = false) {m k : Nat} :
    (∃ x, f (Function.update s.pc θ p x) = true ∧ Function.update s.ticket θ m x = k) ↔
    (∃ x, f (s.pc x) = true ∧ s.ticket x = k) ∨ k = m := by
  rw [waits_ticket hθ, and_iff_right hp]

theorem waits_stay {f : Pc α → Bool} {p : Pc α} (hp : f p = false) (hθ : f (s.pc θ) = false) {m k : Nat} :
    (∃ x, f (Function.update s.pc θ p x) = true ∧ Function.update s.ticket θ m x = k) ↔
    ∃ x, f (s.pc x) = true ∧ s.ticket x = k := by
  rw [waits_ticket hθ]
  simp [hp]

/-- A thread that waits gets its slot. -/
theorem waits_leave {f : Pc α → Bool} {p : Pc α} (hp : f p = false)
    (hone : ∀ x, f (s.pc x) = true → s.ticket x = s.ticket θ → x = θ) {k : Nat} :
    (∃ x, f (Function.update s.pc θ p x) = true ∧ s.ticket x = k) ↔
    (∃ x, f (s.pc x) = true ∧ s.ticket x = k) ∧ k ≠ s.ticket θ := by
  constructor
  · rintro ⟨x, hx, rfl⟩
    have hxθ : x ≠ θ := fun h => by simp [h, hp] at hx
    rw [Function.update_of_ne hxθ] at hx
    exact ⟨⟨x, hx, rfl⟩, fun h => hxθ (hone x hx h)⟩
  · rintro ⟨⟨x, hx, rfl⟩, hne⟩
    have hxθ : x ≠ θ := fun h => hne (by rw [h])
    exact ⟨x, by rwa [Function.update_of_ne hxθ], rfl⟩

theorem idle_waits {p : Pc α} (hp : p.idle = true) : p.storeWaits = false ∧ p.loadWaits = false := by
  cases p <;> first | exact ⟨rfl, rfl⟩ | cases hp

theorem ordered_takeHead (hs : Ordered g s) (a : α) (hp : (s.pc θ).idle = true)
    (hok : ∀ x, (s.pc x).storeWaits = true → s.ticket x + g.size.toNat ≠ s.pushed.length) : Ordered g (s.takeHead θ a) := by
  obtain ⟨hstore, hload⟩ := idle_waits hp
  refine ⟨?_, ?_, hs.source, hs.same⟩
  · have hlen : (s.takeHead θ a).pushed.length = s.pushed.length + 1 := List.length_append
    rw [hlen]
    refine hs.pushes.issue g.size_pos ?_ fun k => ?_
    · rintro k ⟨x, hx, rfl⟩
      exact hok x hx
    · exact waits_join rfl hstore
  · refine hs.pops.congr g.size_pos (fun _ _ => rfl) fun k => ?_
    exact waits_stay rfl hload

theorem ordered_takeTail (hs : Ordered g s) (hp : (s.pc θ).idle = true)
    (hok : ∀ x, (s.pc x).loadWaits = true → s.ticket x + g.size.toNat ≠ s.popped) : Ordered g (s.takeTail θ) := by
  obtain ⟨hstore, hload⟩ := idle_waits hp
  refine ⟨?_, ?_, hs.source, hs.same⟩
  · refine hs.pushes.congr g.size_pos (fun _ _ => rfl) fun k => ?_
    exact waits_stay rfl hstore
  · refine hs.pops.issue g.size_pos ?_ fun k => ?_
    · rintro k ⟨x, hx, rfl⟩
      exact hok x hx
    · exact waits_join rfl hload

/-- The slot that a push gets is in the round of its ticket. -/
theorem ordered_claim (hs : Ordered g s) (hinv : Inv g s) {a : α} {head : Unsigned} (hp : s.pc θ = .store false a head)
    (he : s.states (g.index head) = .empty) : Ordered g (s.claim (g.index head) θ a head) := by
  have hknows := hinv.knows θ
  simp only [Knows, hp] at hknows
  have hhead : g.index head = g.slot (s.ticket θ) := by rw [hknows.1, Shape.slot]
  have hwait : ∃ x, (s.pc x).storeWaits = true ∧ s.ticket x = s.ticket θ := ⟨θ, by rw [hp]; rfl, rfl⟩
  have hturn := hs.pushes.next g.size_pos hwait
  rw [g.slot_mod, ← hhead, he] at hturn
  have hone : ∀ x, (s.pc x).storeWaits = true → s.ticket x = s.ticket θ → x = θ := fun x hx hk => by
    have hpush := storeWaits_pushing hx
    have hsum := hinv.owned.one (.inl x) (.inl θ) (s.ticket θ) (by simp [holder, hpush, hk])
        (by simp [holder, hp, Pc.pushing])
    exact Sum.inl.inj hsum
  refine ⟨?_, ?_, fun i hi => ?_, hs.same⟩
  · refine hs.pushes.begins g.size_pos hwait (fun r hr => ?_) fun k => waits_leave rfl hone
    by_cases hslot : r = s.ticket θ % g.size.toNat
    · have hr' : g.slot r = g.index head := by rw [hslot, g.slot_mod, hhead]
      simp [State.claim, State.goto, hr', he, SlotState.filled, ← hslot]
    · have hr' : g.slot r ≠ g.index head := fun h => hslot ((g.slot_eq_iff hr).mp (h.trans hhead))
      simp [State.claim, State.goto, hr', hslot]
  · refine hs.pops.congr g.size_pos (fun r _ => ?_) fun k => ?_
    · by_cases hr : g.slot r = g.index head
      · simp [State.claim, State.goto, hr, he, SlotState.emptied]
      · simp [State.claim, State.goto, hr]
    · exact exists_congr fun x => by rw [State.claim, State.goto, update_waits (f := Pc.loadWaits) (by rw [hp]; rfl)]
  · by_cases hi' : i = g.index head
    · rw [hi']
      simp only [State.claim, State.goto, Function.update_self]
      exact ⟨hturn, hhead.symm⟩
    · simp only [State.claim, State.goto, Function.update_of_ne hi'] at hi ⊢
      exact hs.source i hi

/-- The element that a pop finds in its slot has its ticket. -/
theorem ordered_grab (hs : Ordered g s) (hinv : Inv g s) {tail : Unsigned} (hp : s.pc θ = .load false tail)
    (he : s.states (g.index tail) = .stored) : Ordered g (s.grab (g.index tail) θ tail) := by
  have hknows := hinv.knows θ
  simp only [Knows, hp] at hknows
  have htail : g.index tail = g.slot (s.ticket θ) := by rw [hknows.1, Shape.slot]
  have hwait : ∃ x, (s.pc x).loadWaits = true ∧ s.ticket x = s.ticket θ := ⟨θ, by rw [hp]; rfl, rfl⟩
  have hturn := hs.pops.next g.size_pos hwait
  rw [g.slot_mod, ← htail, he] at hturn
  have hone : ∀ x, (s.pc x).loadWaits = true → s.ticket x = s.ticket θ → x = θ := fun x hx hk => by
    have hpop := loadWaits_popping hx
    exact hinv.popOne x θ hpop (by rw [hp]; rfl) hk
  refine ⟨?_, ?_, fun i hi => ?_, fun p hp => ?_⟩
  · refine hs.pushes.congr g.size_pos (fun r _ => ?_) fun k => ?_
    · by_cases hr : g.slot r = g.index tail
      · simp [State.grab, State.goto, hr, he, SlotState.filled]
      · simp [State.grab, State.goto, hr]
    · exact exists_congr fun x => by rw [State.grab, State.goto, update_waits (f := Pc.storeWaits) (by rw [hp]; rfl)]
  · refine hs.pops.begins g.size_pos hwait (fun r hr => ?_) fun k => waits_leave rfl hone
    by_cases hslot : r = s.ticket θ % g.size.toNat
    · have hr' : g.slot r = g.index tail := by rw [hslot, g.slot_mod, htail]
      simp [State.grab, State.goto, hr', he, SlotState.emptied, ← hslot]
    · have hr' : g.slot r ≠ g.index tail := fun h => hslot ((g.slot_eq_iff hr).mp (h.trans htail))
      simp [State.grab, State.goto, hr', hslot]
  · by_cases hi' : i = g.index tail
    · rw [hi']
      exact hs.source _ (by rw [he]; decide)
    · simp only [State.grab, State.goto, Function.update_of_ne hi'] at hi
      exact hs.source i hi
  · rcases List.mem_append.mp hp with hp | hp
    · exact hs.same p hp
    · rw [List.mem_singleton.mp hp]
      obtain ⟨hdiv, hslot⟩ := hs.source _ (by rw [he]; decide)
      have hmod := (g.index_eq_iff _ _).mp (hslot.trans htail)
      change s.source (g.index tail) = s.ticket θ
      exact eq_of_place_round hmod (hdiv.trans hturn.symm)

/-- The thread in a slot changes its state without ending or beginning a turn. -/
theorem ordered_slot (hs : Ordered g s) {i : Unsigned} {p : Pc α} {v : SlotState} {n : Nat}
    (hstore : p.storeWaits = (s.pc θ).storeWaits) (hload : p.loadWaits = (s.pc θ).loadWaits)
    (hfilled : n + v.filled = s.rounds i + (s.states i).filled)
    (hemptied : n + v.emptied = s.rounds i + (s.states i).emptied)
    (hv : v ≠ .empty → s.states i ≠ .empty ∧ n = s.rounds i) : Ordered g
      ({ s with states := Function.update s.states i v, rounds := Function.update s.rounds i n }.goto θ p) := by
  refine hs.congr rfl rfl (fun x k => ?_) (fun x k => ?_) (fun j => ?_) (fun j => ?_) (fun j hj => ?_) rfl
  · rw [State.goto, update_waits (f := Pc.storeWaits) hstore]
  · rw [State.goto, update_waits (f := Pc.loadWaits) hload]
  · by_cases hj : j = i
    · simpa [State.goto, hj] using hfilled
    · simp [State.goto, hj]
  · by_cases hj : j = i
    · simpa [State.goto, hj] using hemptied
    · simp [State.goto, hj]
  · by_cases hj' : j = i
    · simp only [State.goto, hj', Function.update_self] at hj ⊢
      exact ⟨(hv hj).1, trivial, (hv hj).2⟩
    · simp only [State.goto, Function.update_of_ne hj'] at hj ⊢
      exact ⟨hj, trivial, trivial⟩

theorem ordered_steps {op : Op α} (hs : Ordered g s) (hinv : Inv g s) (hok : InTurn g (θ, op) s) (h : Steps g s θ op t) :
    Ordered g t := by
  have hknows := hinv.knows θ
  cases h with
  | idle _ p h =>
    obtain ⟨hidle, hp, -⟩ := h.flags
    have hwas := idle_waits hidle
    have hnow := idle_waits hp
    exact ordered_goto hs (hnow.1.trans hwas.1.symm) (hnow.2.trans hwas.2.symm)
  | spinStore _ b b' a head hp => exact ordered_goto hs (by rw [hp]; rfl) (by rw [hp]; rfl)
  | spinLoad _ b b' tail hp => exact ordered_goto hs (by rw [hp]; rfl) (by rw [hp]; rfl)
  | takeHead a hp =>
    exact ordered_takeHead hs a (by rcases hp with hp | hp <;> rw [hp] <;> rfl) (hok.1 (takesHead_of hp))
  | takeTail hp => exact ordered_takeTail hs (by rcases hp with hp | hp <;> rw [hp] <;> rfl) (hok.2 (takesTail_of hp))
  | claim a head hp he => exact ordered_claim hs hinv hp he
  | write a head hp =>
    have hgoto := ordered_goto (p := .storeEnd head) (θ := θ) hs (by rw [hp]; rfl) (by rw [hp]; rfl)
    exact ⟨hgoto.pushes, hgoto.pops, hgoto.source, hgoto.same⟩
  | publish head hp =>
    simp only [Knows, hp] at hknows
    obtain ⟨-, -, hstate, -⟩ := hknows
    have hslot := ordered_slot (θ := θ) (i := g.index head) (p := .out (some .pushed)) (v := .stored) hs (by rw [hp]; rfl)
      (by rw [hp]; rfl) (n := s.rounds (g.index head)) (by rw [hstate]; rfl) (by rw [hstate]; rfl)
      fun _ => ⟨by rw [hstate]; decide, rfl⟩
    rwa [Function.update_eq_self] at hslot
  | grab tail hp he => exact ordered_grab hs hinv hp he
  | read tail hp => exact ordered_goto hs (by rw [hp]; rfl) (by rw [hp]; rfl)
  | release tail a hp =>
    simp only [Knows, hp] at hknows
    obtain ⟨-, -, hstate, -⟩ := hknows
    exact ordered_slot hs (by rw [hp]; rfl) (by rw [hp]; rfl) (by rw [hstate]; rfl) (by rw [hstate]; rfl) fun h =>
      absurd rfl h

omit [DecidableEq Θ] in
theorem ordered_init (a : α) : Ordered g (init a : State Θ α) := by
  refine ⟨?_, ?_, fun i hi => absurd rfl hi, by simp [init]⟩
  · exact .start (fun _ => rfl) (by simp [init, Pc.storeWaits])
  · exact .start (fun _ => rfl) (by simp [init, Pc.loadWaits])

theorem ordered_reach {a : α} (h : Reach (step g) (InTurn g) (init a) s) : Ordered g s ∧ Inv g s := by
  refine h.invariant (fun s => Ordered g s ∧ Inv g s) ⟨ordered_init a, inv_init a⟩ ?_
  rintro ⟨θ, op⟩ s t hok ⟨hs, hinv⟩ ht
  exact ⟨ordered_steps hs hinv hok (step_cases ht), inv_steps hinv (step_cases ht)⟩

/-- The pop with a ticket returns the element of the push with the same ticket. -/
theorem pops_in_order {a : α} (h : Reach (step g) (InTurn g) (init a) s) :
    (∀ p ∈ s.given, p.2 = p.1) ∧ ∀ θ b, s.pc θ = .out (some (.popped b)) → s.pushed[s.ticket θ]? = some b := by
  obtain ⟨hs, hinv⟩ := ordered_reach h
  refine ⟨hs.same, fun θ b hb => ?_⟩
  have hknows := hinv.knows θ
  simp only [Knows, hb] at hknows
  obtain ⟨k, hk, hget⟩ := hknows b rfl
  have hsame : k = s.ticket θ := hs.same _ hk
  rw [← hsame]
  exact hget

/-- Threads 0 and 1 use the one slot one after the other. -/
theorem pops_in_order_oneSlot : ∃ s : State (Fin 3) Nat,
    exec (step oneSlot) [(0, .push 5), (0, .work), (0, .work), (1, .push 7), (1, .work), (1, .work), (2, .pop),
      (2, .work), (0, .work), (0, .work), (2, .work), (2, .work), (2, .work)] (init 0) = some s ∧
    s.pc 2 = .out (some (.popped 5)) ∧ s.pc 1 = .store true 7 1 ∧ s.pushed[s.ticket 2]? = some 5 := by
  have ha : Along (step oneSlot) (InTurn oneSlot) [(0, .push 5), (0, .work), (0, .work), (1, .push 7), (1, .work),
      (1, .work), (2, .pop), (2, .work), (0, .work), (0, .work), (2, .work), (2, .work),
      (2, .work)] (init 0 : State (Fin 3) Nat) := by decide
  exact ⟨_, rfl, rfl, rfl, (pops_in_order (Reach.exec .start ha rfl)).2 2 5 rfl⟩

end
end TinyCoro.Queue
