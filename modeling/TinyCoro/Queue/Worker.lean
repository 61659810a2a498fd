import Mathlib.Tactic.ByContra
import TinyCoro.Queue.Order
import TinyCoro.Transition.Ledger

/-! The queue as an engine uses it: any thread pushes, the worker alone pops, and only after
`ready()`. While it is not filled beyond its size it is a first-in-first-out queue in which a
push takes effect with its ticket, and so does a pop. -/
namespace TinyCoro.Queue
open Transition
variable {Θ α : Type}

def Pc.popSide : Pc α → Bool
  | .popTail | .tryPopTail | .tryPopHead _ | .tryPopExchange _ | .load .. | .loadElement _ | .loadEnd .. => true
  | _ => false

def Pc.isReady : Pc α → Bool
  | .out (some (.size n)) => n != 0
  | _ => false

def finished (c : Θ) (s : State Θ α) : Nat := s.popped - if (s.pc c).popping then 1 else 0

/-- `while (ready()) exec_one_task()` of the worker, and pushes that find room. -/
def Serves (g : Shape) (c : Θ) (l : Θ × Op α) (s : State Θ α) : Prop :=
  (l.2 ≠ .tryPop) ∧ (l.2 = .pop → l.1 = c ∧ (s.pc c).isReady = true) ∧
  (takesHead l s = true → s.pushed.length < finished c s + g.size.toNat)

instance Serves.decidable [DecidableEq Θ] [DecidableEq α] (g : Shape) (c : Θ) (l : Θ × Op α) (s : State Θ α) :
    Decidable (Serves g c l s) :=
  inferInstanceAs (Decidable (_ ∧ (_ → _) ∧ (_ → _)))

/-- From the ticket of a pop until the next call. -/
def Pc.hasTicket : Pc α → Bool
  | .load .. | .loadElement .. | .loadEnd .. | .out (some (.popped _)) => true
  | _ => false

def Occupied (g : Shape) (s : State Θ α) : Prop :=
  ∀ i, s.states i = .storing ∨ s.states i = .loading → ∃ x, (s.pc x).inside g = some i

def Foresees (c : Θ) (s : State Θ α) : Prop :=
  match s.pc c with
  | .out (some (.size n)) => n.toNat ≤ s.pushed.length - s.popped
  | .popTail => s.popped < s.pushed.length
  | .sizeSecond true head => ∃ m, head = .ofNat 32 m ∧ s.popped ≤ m ∧ m ≤ s.pushed.length
  | .sizeSecond false tail => tail = s.tail
  | _ => True

structure Served (g : Shape) (c : Θ) (s : State Θ α) : Prop where
  others : ∀ x, (s.pc x).popSide = true → x = c ∧ (s.pc x).attempt = none
  foresees : Foresees c s
  behind : s.popped ≤ s.pushed.length
  ticket : (s.pc c).hasTicket = true → s.ticket c + 1 = s.popped
  room : s.pushed.length ≤ finished c s + g.size.toNat
  occupied : Occupied g s

section
variable {g : Shape} {s t : State Θ α} {θ c x : Θ} {op : Op α}

theorem popping_popSide {p : Pc α} (h : p.popping = true) : p.popSide = true := by
  cases p <;> first | exact rfl | cases h

theorem idle_inside {p : Pc α} (h : p.idle = true) : p.inside g = none := by
  cases p <;> first | exact rfl | cases h

theorem loadWaits_inside {p : Pc α} (h : p.loadWaits = true) : p.inside g = none := by
  cases p <;> first | exact rfl | cases h

theorem attempt_popSide {p : Pc α} {b : Bool} (h : p.attempt = some b) : p.popSide = !b := by
  cases p <;> cases b <;> first | exact rfl | cases h

theorem popping_hasTicket {p : Pc α} (h : p.popping = true) : p.hasTicket = true := by
  cases p <;> first | exact rfl | cases h

variable [DecidableEq Θ]

/-- A step moves one thread. -/
theorem Steps.pc_other (h : Steps g s θ op t) (hx : x ≠ θ) : t.pc x = s.pc x := by
  cases h <;> exact Function.update_of_ne hx ..

/-- A slot stays occupied unless the thread in it leaves it. -/
theorem Occupied.update (hs : Occupied g s) {p : Pc α} (hpc : t.pc = Function.update s.pc θ p)
    (hstates : ∀ i, t.states i = .storing ∨ t.states i = .loading →
      p.inside g = some i ∨ ((s.states i = .storing ∨ s.states i = .loading) ∧ (s.pc θ).inside g ≠ some i)) :
      Occupied g t := by
  intro i hi
  rw [hpc]
  rcases hstates i hi with hp | ⟨hbusy, hout⟩
  · exact ⟨θ, by rw [Function.update_self, hp]⟩
  · obtain ⟨x, hx⟩ := hs i hbusy
    have hxθ : x ≠ θ := fun h => hout (h ▸ hx)
    exact ⟨x, by rw [Function.update_of_ne hxθ, hx]⟩

theorem occupied_steps (hs : Occupied g s) (h : Steps g s θ op t) : Occupied g t := by
  cases h with
  | idle _ p h =>
    obtain ⟨hidle, -, -⟩ := h.flags
    exact hs.update rfl fun i hi => .inr ⟨hi, by simp [idle_inside hidle]⟩
  | spinStore _ b b' a head hp => exact hs.update rfl fun i hi => .inr ⟨hi, by simp [hp, Pc.inside]⟩
  | spinLoad _ b b' tail hp => exact hs.update rfl fun i hi => .inr ⟨hi, by simp [hp, Pc.inside]⟩
  | takeHead a hp => exact hs.update rfl fun i hi => .inr ⟨hi, by rcases hp with hp | hp <;> simp [hp, Pc.inside]⟩
  | takeTail hp => exact hs.update rfl fun i hi => .inr ⟨hi, by rcases hp with hp | hp <;> simp [hp, Pc.inside]⟩
  | claim a head hp he =>
    refine hs.update rfl fun i hi => ?_
    by_cases hi' : i = g.index head
    · exact .inl (by rw [hi']; rfl)
    · simp only [State.claim, State.goto, Function.update_of_ne hi'] at hi
      exact .inr ⟨hi, by simp [hp, Pc.inside]⟩
  | write a head hp =>
    refine hs.update rfl fun i hi => ?_
    by_cases hi' : i = g.index head
    · exact .inl (by rw [hi']; rfl)
    · exact .inr ⟨hi, by simp [hp, Pc.inside, Ne.symm hi']⟩
  | publish head hp =>
    refine hs.update rfl fun i hi => ?_
    have hi' : i ≠ g.index head := by
      rintro rfl
      simp [State.publish, State.goto] at hi
    simp only [State.publish, State.goto, Function.update_of_ne hi'] at hi
    exact .inr ⟨hi, by simp [hp, Pc.inside, Ne.symm hi']⟩
  | grab tail hp he =>
    refine hs.update rfl fun i hi => ?_
    by_cases hi' : i = g.index tail
    · exact .inl (by rw [hi']; rfl)
    · simp only [State.grab, State.goto, Function.update_of_ne hi'] at hi
      exact .inr ⟨hi, by simp [hp, Pc.inside]⟩
  | read tail hp =>
    refine hs.update rfl fun i hi => ?_
    by_cases hi' : i = g.index tail
    · exact .inl (by rw [hi']; rfl)
    · exact .inr ⟨hi, by simp [hp, Pc.inside, Ne.symm hi']⟩
  | release tail a hp =>
    refine hs.update rfl fun i hi => ?_
    have hi' : i ≠ g.index tail := by
      rintro rfl
      simp [State.release, State.goto] at hi
    simp only [State.release, State.goto, Function.update_of_ne hi'] at hi
    exact .inr ⟨hi, by simp [hp, Pc.inside, Ne.symm hi']⟩

/-- Nobody but the worker comes into a pop. -/
theorem others_steps (hs : ∀ x, (s.pc x).popSide = true → x = c ∧ (s.pc x).attempt = none) (hok : Serves g c (θ, op) s)
    (h : Steps g s θ op t) : ∀ x, (t.pc x).popSide = true → x = c ∧ (t.pc x).attempt = none := by
  intro x hx
  by_cases hxθ : x = θ
  · subst hxθ
    have hstay : (s.pc x).popSide = true → x = c := fun h => (hs x h).1
    cases h with
    | idle _ p h =>
      simp only [State.goto, Function.update_self] at hx ⊢
      cases h with
      | enter _ _ a h hp =>
        cases op with
        | pop =>
          cases hp
          exact ⟨(hok.2.1 rfl).1, rfl⟩
        | tryPop => exact absurd rfl hok.1
        | push | tryPush | wasSize =>
          cases hp
          cases hx
        | work | spurious => cases hp
      | attempt _ _ b h hp =>
        have hb : b = true := by
          cases b with
          | true => rfl
          | false =>
            rw [(hs x (attempt_popSide h)).2] at h
            cases h
        subst hb
        rcases hp with hp | rfl
        · rw [attempt_popSide hp] at hx
          cases hx
        · cases hx
      | sizeFirst | sizeSecond => cases hx
    | spinLoad _ b b' tail hp =>
      refine ⟨hstay (by rw [hp]; rfl), ?_⟩
      simp [State.goto, Pc.attempt]
    | takeTail hp =>
      refine ⟨hstay (by rcases hp with hp | hp <;> rw [hp] <;> rfl), ?_⟩
      simp [State.takeTail, State.goto, Pc.attempt]
    | grab tail hp he =>
      refine ⟨hstay (by rw [hp]; rfl), ?_⟩
      simp [State.grab, State.goto, Pc.attempt]
    | read tail hp =>
      refine ⟨hstay (by rw [hp]; rfl), ?_⟩
      simp [State.goto, Pc.attempt]
    | spinStore | takeHead | claim | write | publish | release =>
      simp [State.goto, State.takeHead, State.claim, State.write, State.publish, State.release, Pc.popSide] at hx
  · rw [h.pc_other hxθ] at hx ⊢
    exact hs x hx

/-- The difference of two counters, unless it is too large for an `int`. -/
theorem wasSize_ofNat {m n : Nat} (h : n ≤ m) : (wasSize (.ofNat 32 m) (.ofNat 32 n)).toNat ≤ m - n ∧
    (m - n < 2 ^ 31 → (wasSize (.ofNat 32 m) (.ofNat 32 n)).toNat = m - n) := by
  have hsub : BitVec.ofNat 32 m - BitVec.ofNat 32 n = BitVec.ofNat 32 (m - n) := by
    refine BitVec.eq_of_toNat_eq ?_
    rw [BitVec.toNat_sub, BitVec.toNat_ofNat, BitVec.toNat_ofNat, BitVec.toNat_ofNat]
    omega
  have hle := Nat.mod_le (m - n) (2 ^ 32)
  rw [wasSize, hsub, BitVec.toInt_eq_toNat_cond, BitVec.toNat_ofNat, BitVec.toNat_ofInt]
  split
  · rename_i hlt
    rw [Int.max_eq_left (by omega)]
    omega
  · rename_i hlt
    rw [Int.max_eq_right (by omega)]
    omega

omit [DecidableEq Θ] in
/-- What the worker has seen stays true while the others push. -/
theorem Foresees.frame (hs : Foresees c s) (hpc : t.pc c = s.pc c) (hpopped : t.popped = s.popped) (htail : t.tail = s.tail)
    (hlen : s.pushed.length ≤ t.pushed.length) : Foresees c t := by
  unfold Foresees at hs ⊢
  rw [hpc, hpopped, htail]
  split
  · rename_i n hp
    rw [hp] at hs
    exact Nat.le_trans hs (Nat.sub_le_sub_right hlen _)
  · rename_i hp
    rw [hp] at hs
    exact Nat.lt_of_lt_of_le hs hlen
  · rename_i head hp
    rw [hp] at hs
    obtain ⟨m, hm, hle, hle'⟩ := hs
    exact ⟨m, hm, hle, Nat.le_trans hle' hlen⟩
  · rename_i tail hp
    rw [hp] at hs
    exact hs
  · trivial

/-- The worker's own steps before a pop. -/
theorem foresees_idle {p : Pc α} (hs : Served g c s) (hinv : Inv g s) (hok : Serves g c (c, op) s) (h : Idles s c op p) :
    Foresees c (s.goto c p) := by
  have hfore := hs.foresees
  cases h with
  | enter _ _ a h hp =>
    cases op with
    | pop =>
      cases hp
      have hready := (hok.2.1 rfl).2
      rw [h] at hready
      simp only [Foresees, h] at hfore
      simp only [Foresees, State.goto, Function.update_self]
      unfold Pc.isReady at hready
      split at hready
      · rename_i n hn
        cases hn
        have hpos : n.toNat ≠ 0 := fun h0 => by simp [BitVec.eq_of_toNat_eq (y := 0#32) h0] at hready
        omega
      · cases hready
    | push | tryPush | tryPop | wasSize =>
      cases hp
      simp [Foresees, State.goto]
    | work | spurious => cases hp
  | attempt _ _ b h hp =>
    rcases hp with hp | rfl
    · simp only [Foresees, State.goto, Function.update_self]
      cases p <;> trivial
    · simp [Foresees, State.goto]
  | sizeFirst b h =>
    cases b with
    | true =>
      simp only [Foresees, State.goto, Function.update_self, if_true]
      exact ⟨_, hinv.head, hs.behind, Nat.le_refl _⟩
    | false => simp [Foresees, State.goto]
  | sizeSecond b first h =>
    simp only [Foresees, State.goto, Function.update_self]
    cases b with
    | true =>
      simp only [Foresees, h] at hfore
      obtain ⟨m, rfl, hle, hle'⟩ := hfore
      have hsize := (wasSize_ofNat hle).1
      rw [if_pos rfl, hinv.tail]
      omega
    | false =>
      simp only [Foresees, h] at hfore
      rw [if_neg (by decide), hfore, hinv.tail, hinv.head]
      exact (wasSize_ofNat hs.behind).1

theorem foresees_steps (hs : Served g c s) (hinv : Inv g s) (hok : Serves g c (θ, op) s) (h : Steps g s θ op t) :
    Foresees c t := by
  by_cases hθ : θ = c
  · subst hθ
    cases h with
    | idle _ p h => exact foresees_idle hs hinv hok h
    | _ => simp [Foresees, State.goto, State.takeHead, State.takeTail, State.claim, State.write, State.publish, State.grab,
        State.release]
  · have hother := h.pc_other (x := c) (Ne.symm hθ)
    cases h with
    | takeTail hp => exact absurd (hs.others θ (by rcases hp with hp | hp <;> rw [hp] <;> rfl)).1 hθ
    | takeHead a hp => exact hs.foresees.frame hother rfl rfl (by simp [State.takeHead, State.goto])
    | _ => exact hs.foresees.frame hother rfl rfl (Nat.le_refl _)

theorem behind_steps (hs : Served g c s) (h : Steps g s θ op t) : t.popped ≤ t.pushed.length := by
  have hle := hs.behind
  cases h with
  | takeTail hp =>
    obtain ⟨rfl, htry⟩ := hs.others θ (by rcases hp with hp | hp <;> rw [hp] <;> rfl)
    have hfore := hs.foresees
    rcases hp with hp | hp
    · simp only [Foresees, hp] at hfore
      exact hfore
    · rw [hp] at htry
      cases htry
  | takeHead a hp =>
    simp only [State.takeHead, State.goto, List.length_append, List.length_singleton]
    omega
  | _ => exact hle

theorem idle_hasTicket {p : Pc α} (hp : p.idle = true) (hout : ∀ a, p ≠ .out (some (.popped a))) : p.hasTicket = false := by
  unfold Pc.hasTicket
  split
  · cases hp
  · cases hp
  · cases hp
  · exact absurd rfl (hout _)
  · rfl

theorem ticket_steps (hs : Served g c s) (h : Steps g s θ op t) : (t.pc c).hasTicket = true → t.ticket c + 1 = t.popped := by
  by_cases hθ : θ = c
  · subst hθ
    cases h with
    | idle _ p h =>
      obtain ⟨-, hp, hout⟩ := h.flags
      simp [State.goto, idle_hasTicket hp hout]
    | spinLoad _ b b' tail hp => exact fun _ => hs.ticket (by rw [hp]; rfl)
    | takeTail hp => simp [State.takeTail, State.goto]
    | grab tail hp he => exact fun _ => hs.ticket (by rw [hp]; rfl)
    | read tail hp => exact fun _ => hs.ticket (by rw [hp]; rfl)
    | release tail a hp => exact fun _ => hs.ticket (by rw [hp]; rfl)
    | _ => simp [State.goto, State.takeHead, State.claim, State.write, State.publish, Pc.hasTicket]
  · have hother := h.pc_other (x := c) (Ne.symm hθ)
    rw [hother]
    cases h with
    | takeTail hp => exact absurd (hs.others θ (by rcases hp with hp | hp <;> rw [hp] <;> rfl)).1 hθ
    | takeHead a hp =>
      simp only [State.takeHead, State.goto, Function.update_of_ne (Ne.symm hθ)]
      exact hs.ticket
    | _ => exact hs.ticket

omit [DecidableEq Θ] in
theorem finished_le (c : Θ) (s : State Θ α) : finished c s ≤ s.popped := Nat.sub_le _ _

theorem finished_goto {p : Pc α} (hp : p.popping = (s.pc θ).popping) : finished c (s.goto θ p) = finished c s := by
  rw [finished, finished, State.goto, update_waits (f := Pc.popping) hp]

theorem room_steps (hs : Served g c s) (hok : Serves g c (θ, op) s) (h : Steps g s θ op t) :
    t.pushed.length ≤ finished c t + g.size.toNat := by
  have hroom := hs.room
  cases h with
  | idle _ p h =>
    obtain ⟨hidle, hp, -⟩ := h.flags
    rw [finished_goto ((idle_flags hp).2.trans (idle_flags hidle).2.symm)]
    exact hroom
  | spinStore _ b b' a head hp =>
    rw [finished_goto (by rw [hp]; rfl)]
    exact hroom
  | spinLoad _ b b' tail hp =>
    rw [finished_goto (by rw [hp]; rfl)]
    exact hroom
  | read tail hp =>
    rw [finished_goto (by rw [hp]; rfl)]
    exact hroom
  | takeHead a hp =>
    have hlt := hok.2.2 (takesHead_of hp)
    have hfin : finished c (s.takeHead θ a) = finished c s :=
      finished_goto (s := { s with head := _, pushed := _, ticket := _ }) (by rcases hp with hp | hp <;> rw [hp] <;> rfl)
    rw [hfin, State.takeHead, State.goto, List.length_append, List.length_singleton]
    exact hlt
  | takeTail hp =>
    obtain ⟨rfl, -⟩ := hs.others θ (by rcases hp with hp | hp <;> rw [hp] <;> rfl)
    have hbefore := finished_le θ s
    have hafter : finished θ (s.takeTail θ) = s.popped := by simp [finished, State.takeTail, State.goto, Pc.popping]
    rw [hafter]
    exact Nat.le_trans hroom (Nat.add_le_add_right hbefore _)
  | claim a head hp he =>
    have hfin : finished c (s.claim (g.index head) θ a head) = finished c s :=
      finished_goto (s := { s with states := _, source := _ }) (by rw [hp]; rfl)
    rw [hfin]
    exact hroom
  | write a head hp =>
    have hfin : finished c (s.write (g.index head) θ a head) = finished c s :=
      finished_goto (s := { s with elements := _ }) (by rw [hp]; rfl)
    rw [hfin]
    exact hroom
  | publish head hp =>
    have hfin : finished c (s.publish (g.index head) θ) = finished c s :=
      finished_goto (s := { s with states := _ }) (by rw [hp]; rfl)
    rw [hfin]
    exact hroom
  | grab tail hp he =>
    have hfin : finished c (s.grab (g.index tail) θ tail) = finished c s :=
      finished_goto (s := { s with states := _, given := _ }) (by rw [hp]; rfl)
    rw [hfin]
    exact hroom
  | release tail a hp =>
    obtain ⟨rfl, -⟩ := hs.others θ (by rw [hp]; rfl)
    have hbefore := finished_le θ s
    have hafter : finished θ (s.release (g.index tail) θ a) = s.popped := by
      simp [finished, State.release, State.goto, Pc.popping]
    rw [hafter]
    exact Nat.le_trans hroom (Nat.add_le_add_right hbefore _)

theorem served_steps (hs : Served g c s) (hinv : Inv g s) (hok : Serves g c (θ, op) s) (h : Steps g s θ op t) :
    Served g c t :=
  ⟨others_steps hs.others hok h, foresees_steps hs hinv hok h, behind_steps hs h, ticket_steps hs h, room_steps hs hok h,
    occupied_steps hs.occupied h⟩

omit [DecidableEq Θ] in
/-- A pop that is under way is the last one. -/
theorem Served.ticket_of_popping (hs : Served g c s) (hx : (s.pc x).popping = true) : x = c ∧ s.ticket x = finished c s := by
  obtain ⟨rfl, -⟩ := hs.others x (popping_popSide hx)
  have hticket := hs.ticket (popping_hasTicket hx)
  rw [finished, if_pos hx]
  exact ⟨rfl, by omega⟩

omit [DecidableEq Θ] in
/-- A pop that has returned has had its turn. -/
theorem load_before_finished (hs : Served g c s) (hord : Ordered g s) {k : Nat} (hk : k < finished c s) :
    k / g.size.toNat < s.rounds (g.slot k) + (s.states (g.slot k)).emptied := by
  have hle := finished_le c s
  have hnot : ¬ ∃ x, (s.pc x).loadWaits = true ∧ s.ticket x = k := by
    rintro ⟨x, hx, rfl⟩
    have hpop := loadWaits_popping hx
    rw [(hs.ticket_of_popping hpop).2] at hk
    exact Nat.lt_irrefl _ hk
  have hpops := (hord.pops.begun_iff k).mpr ⟨by omega, hnot⟩
  rwa [g.slot_mod] at hpops

omit [DecidableEq Θ] in
/-- A pop that has returned was preceded by its push. -/
theorem store_before_finished (hs : Served g c s) (hord : Ordered g s) {k : Nat} (hk : k < finished c s) :
    ¬ ∃ x, (s.pc x).storeWaits = true ∧ s.ticket x = k := by
  have hpops := load_before_finished hs hord hk
  rw [← g.slot_mod] at hpops
  have hfill : ∀ v : SlotState, v.emptied ≤ v.filled := fun v => by cases v <;> decide
  refine ((hord.pushes.begun_iff k).mp (Nat.lt_of_lt_of_le hpops ?_)).2
  exact Nat.add_le_add_left (hfill _) _

omit [DecidableEq Θ] in
/-- The use that the engine makes of the queue lets nobody be overtaken. -/
theorem serves_inTurn {l : Θ × Op α} (hs : Served g c s) (hord : Ordered g s) (hok : Serves g c l s) : InTurn g l s := by
  refine ⟨fun hl x hx heq => ?_, fun hl x hx => ?_⟩
  · have hlt := hok.2.2 hl
    exact store_before_finished hs hord (k := s.ticket x) (by omega) ⟨x, hx, rfl⟩
  · -- the worker is at the beginning of its pop, and nobody else is in one
    have hside : (s.pc l.1).popSide = true ∧ (s.pc l.1).loadWaits = false := by
      unfold takesTail at hl
      split at hl
      · rename_i hp
        rw [hp]
        exact ⟨rfl, rfl⟩
      · rename_i hp
        rw [hp]
        exact ⟨rfl, rfl⟩
      · cases hl
    have hpop := popping_popSide (loadWaits_popping hx)
    have hx' : x = l.1 := (hs.others x hpop).1.trans (hs.others l.1 hside.1).1.symm
    rw [hx', hside.2] at hx
    cases hx

omit [DecidableEq Θ] in
theorem served_init (a : α) : Served g c (init a : State Θ α) := by
  refine ⟨by simp [init, Pc.popSide], by simp [init, Foresees], Nat.le_refl _, by simp [init, Pc.hasTicket], ?_,
    by simp [init, Occupied]⟩
  simp [init]

theorem served_reach {a : α} (h : Reach (step g) (Serves g c) (init a) s) : Served g c s ∧ Ordered g s ∧ Inv g s := by
  refine h.invariant (fun s => Served g c s ∧ Ordered g s ∧ Inv g s) ⟨served_init a, ordered_init a, inv_init a⟩ ?_
  rintro ⟨θ, op⟩ s t hok ⟨hs, hord, hinv⟩ ht
  have hsteps := step_cases ht
  exact ⟨served_steps hs hinv hok hsteps, ordered_steps hord hinv (serves_inTurn hs hord hok) hsteps, inv_steps hinv hsteps⟩

end

def ledger (s : State Θ α) : Ledger α := ⟨s.pushed, s.pushed.take s.popped, s.pushed.drop s.popped,
    List.take_append_drop _ _⟩

section
variable {g : Shape} {s t : State Θ α} {θ c x : Θ} {op : Op α} [DecidableEq Θ]

theorem ledger_takeHead (a : α) (h : s.popped ≤ s.pushed.length) : ledger (s.takeHead θ a) = (ledger s).offer a := by
  refine Ledger.ext rfl ?_ ?_
  · exact List.take_append_of_le_length h
  · exact List.drop_append_of_le_length h

theorem ledger_takeTail (h : s.popped < s.pushed.length) : Ledger.Move (ledger s) (ledger (s.takeTail θ)) := by
  have hdrop : (ledger s).transit = s.pushed.get ⟨s.popped, h⟩ :: s.pushed.drop (s.popped + 1) := List.drop_eq_getElem_cons h
  have hledger : ledger (s.takeTail θ) = (ledger s).take _ _ hdrop := by
    refine Ledger.ext rfl ?_ rfl
    exact List.take_succ_eq_append_getElem h
  rw [hledger]
  exact .take ..

theorem ledger_steps (hs : Served g c s) (h : Steps g s θ op t) : Ledger.Move (ledger s) (ledger t) := by
  have hle := hs.behind
  have hlt := behind_steps hs h
  cases h with
  | takeHead a hp =>
    rw [ledger_takeHead a hle]
    exact .offer ..
  | takeTail hp => exact ledger_takeTail hlt
  | _ => exact .stay _

def Pc.storeRank : Pc α → Nat
  | .store true .. => 4
  | .store false .. => 3
  | .storeElement .. => 2
  | .storeEnd _ => 1
  | _ => 0

omit [DecidableEq Θ] in
/-- Whoever is in a slot has the ticket of its element. -/
theorem inside_source (hord : Ordered g s) (hinv : Inv g s) {i : Unsigned} (hx : (s.pc x).inside g = some i) :
    s.source i = s.ticket x := by
  rcases (hinv.knows x).inside hx with ⟨-, -, hsrc⟩ | ⟨-, -, hmem⟩
  · exact hsrc
  · exact hord.same _ hmem

omit [DecidableEq Θ] in
theorem slot_empty (hs : Served g c s) (hord : Ordered g s) (hinv : Inv g s) (hx : (s.pc x).storeWaits = true) :
    s.states (g.slot (s.ticket x)) = .empty := by
  by_contra hne
  have hwait : ∃ y, (s.pc y).storeWaits = true ∧ s.ticket y = s.ticket x := ⟨x, hx, rfl⟩
  have hnext := hord.pushes.next g.size_pos hwait
  have hwin := hord.pushes.window _ hwait
  obtain ⟨hdiv, hslot⟩ := hord.source _ hne
  have hmod := (g.index_eq_iff _ _).mp hslot
  have hfilled : (s.states (g.slot (s.ticket x))).filled = 1 := by
    cases h : s.states (g.slot (s.ticket x)) with
    | empty => exact absurd h hne
    | _ => rfl
  rw [g.slot_mod, hfilled] at hnext
  -- the slot has the element of a round ago, whose pop must have returned
  have hround : s.source (g.slot (s.ticket x)) + g.size.toNat = s.ticket x := by
    refine eq_of_place_round (n := g.size.toNat) ?_ ?_
    · rw [Nat.add_mod_right, hmod]
    · rw [Nat.add_div_right _ g.size_pos, hdiv, hnext]
  have hroom := hs.room
  have hfin : s.source (g.slot (s.ticket x)) < finished c s := by omega
  have hpop := load_before_finished hs hord hfin
  rw [hslot, hdiv] at hpop
  have hload : s.states (g.slot (s.ticket x)) = .loading := by
    cases h : s.states (g.slot (s.ticket x)) with
    | loading => rfl
    | _ => simp [h, SlotState.emptied] at hpop
  obtain ⟨y, hy⟩ := hs.occupied _ (.inr hload)
  have hsrc := inside_source hord hinv hy
  rcases (hinv.knows y).inside hy with ⟨hstore, -⟩ | ⟨-, hypop, -⟩
  · cases hstore.symm.trans hload
  · rw [hsrc, (hs.ticket_of_popping hypop).2] at hfin
    exact Nat.lt_irrefl _ hfin

omit [DecidableEq Θ] in
theorem slot_promised (hs : Served g c s) (hord : Ordered g s) (hinv : Inv g s) (hc : (s.pc c).loadWaits = true) :
    s.states (g.slot (s.ticket c)) = .stored ∨ ∃ x, (s.pc x).pushing = true ∧ s.ticket x = s.ticket c := by
  have hwait : ∃ y, (s.pc y).loadWaits = true ∧ s.ticket y = s.ticket c := ⟨c, hc, rfl⟩
  have hnext := hord.pops.next g.size_pos hwait
  have hlt := (hord.pops.window _ hwait).1
  have hle := hs.behind
  rw [g.slot_mod] at hnext
  cases hstate : s.states (g.slot (s.ticket c)) with
  | stored => exact .inl rfl
  | empty =>
    rw [hstate] at hnext
    have hnot : ¬ s.ticket c / g.size.toNat < s.rounds (g.slot (s.ticket c)) + (s.states (g.slot (s.ticket c))).filled := by
      rw [hstate, hnext]
      exact Nat.lt_irrefl _
    have hiff := hord.pushes.begun_iff (s.ticket c)
    rw [g.slot_mod] at hiff
    by_contra hnone
    refine hnot (hiff.mpr ⟨by omega, ?_⟩)
    rintro ⟨x, hx, hxc⟩
    exact hnone (.inr ⟨x, storeWaits_pushing hx, hxc⟩)
  | storing =>
    obtain ⟨y, hy⟩ := hs.occupied _ (.inl hstate)
    rcases (hinv.knows y).inside hy with ⟨-, hpush, hsrc⟩ | ⟨hload, -⟩
    · obtain ⟨hdiv, hslot⟩ := hord.source _ (by rw [hstate]; decide)
      have hmod := (g.index_eq_iff _ _).mp hslot
      rw [hstate] at hnext
      refine .inr ⟨y, hpush, ?_⟩
      rw [← hsrc]
      exact eq_of_place_round hmod (hdiv.trans hnext.symm)
    · cases hstate.symm.trans hload
  | loading =>
    obtain ⟨y, hy⟩ := hs.occupied _ (.inr hstate)
    rcases (hinv.knows y).inside hy with ⟨hstore, -⟩ | ⟨-, hpop, -⟩
    · cases hstate.symm.trans hstore
    · rw [(hs.ticket_of_popping hpop).1] at hy
      rw [loadWaits_inside hc] at hy
      cases hy

/-- The slot of a push is empty, so its next access does not have it wait. -/
theorem push_works (hs : Served g c s) (hord : Ordered g s) (hinv : Inv g s) (hx : (s.pc x).pushing = true) :
    ∃ t, step g (x, .work) s = some t ∧ (t.pc x).storeRank < (s.pc x).storeRank := by
  cases hp : s.pc x with
  | store spin a head =>
    have hempty := slot_empty hs hord hinv (x := x) (by rw [hp]; rfl)
    have hknows := hinv.knows x
    simp only [Knows, hp] at hknows
    have hhead : s.states (g.index head) = .empty := by rw [hknows.1]; exact hempty
    cases spin with
    | true =>
      refine ⟨s.goto x (.store false a head), by simp [step, work, hp, hhead], ?_⟩
      simp [State.goto, Pc.storeRank]
    | false =>
      refine ⟨s.claim (g.index head) x a head, by simp [step, work, hp, hhead], ?_⟩
      simp [State.claim, State.goto, Pc.storeRank]
  | storeElement a head =>
    refine ⟨s.write (g.index head) x a head, by simp [step, work, hp], ?_⟩
    simp [State.write, State.goto, Pc.storeRank]
  | storeEnd head =>
    refine ⟨s.publish (g.index head) x, by simp [step, work, hp], ?_⟩
    simp [State.publish, State.goto, Pc.storeRank]
  | _ =>
    rw [hp] at hx
    cases hx

/-- A weak exchange that fails although it need not sends the push back to its load. -/
theorem push_spurious (hx : (s.pc x).pushing = true) (h : step g (x, .spurious) s = some t) :
    (s.pc x).storeRank = 3 ∧ (t.pc x).storeRank = 4 := by
  simp only [step, spurious] at h
  split at h
  · rw [‹s.pc x = _›] at hx
    cases hx
  · rw [‹s.pc x = _›] at hx
    cases hx
  · rename_i hp
    cases h
    exact ⟨by rw [hp]; rfl, by simp [State.goto, Pc.storeRank]⟩
  · rw [‹s.pc x = _›] at hx
    cases hx
  · cases h

/-- A push that has its ticket is at most four accesses of its own away from its return,
whatever the others do. Only where its weak exchange fails although it need not does it load
once more. The pop of the worker waits for nothing but a push that is under way. -/
theorem worker_queue_progress {a : α} (h : Reach (step g) (Serves g c) (init a) s) :
    (∀ x, (s.pc x).pushing = true → (s.pc x).storeRank ≤ 4 ∧
      (∃ t, step g (x, .work) s = some t ∧ (t.pc x).storeRank < (s.pc x).storeRank) ∧
      (∀ t, step g (x, .spurious) s = some t → (s.pc x).storeRank = 3 ∧ (t.pc x).storeRank = 4) ∧
      ∀ y op t, y ≠ x → step g (y, op) s = some t → t.pc x = s.pc x) ∧
    ((s.pc c).loadWaits = true →
      s.states (g.slot (s.ticket c)) = .stored ∨ ∃ x, (s.pc x).pushing = true ∧ s.ticket x = s.ticket c) := by
  obtain ⟨hs, hord, hinv⟩ := served_reach h
  refine ⟨fun x hx => ⟨?_, push_works hs hord hinv hx, fun t ht => push_spurious hx ht, fun y op t hy ht => ?_⟩,
    slot_promised hs hord hinv⟩
  · unfold Pc.storeRank
    split <;> simp
  · exact (step_cases ht).pc_other hy.symm

/-- The worker has a ticket for an element that thread 0 has not stored yet. -/
theorem worker_queue_progress_slowPush : ∃ s : State (Fin 2) Nat,
    exec (step oneSlot) [(0, .push 5), (0, .work), (1, .wasSize false), (1, .work), (1, .work), (1, .pop),
      (1, .work), (1, .work)] (init 0) = some s ∧
    s.pc 1 = .load true 0 ∧ s.states (oneSlot.slot (s.ticket 1)) = .empty ∧
    ∃ x, (s.pc x).pushing = true ∧ s.ticket x = s.ticket 1 := by
  have ha : Along (step oneSlot) (Serves oneSlot 1) [(0, .push 5), (0, .work), (1, .wasSize false), (1, .work),
      (1, .work), (1, .pop), (1, .work), (1, .work)] (init 0 : State (Fin 2) Nat) := by decide
  refine ⟨_, rfl, rfl, rfl, ((worker_queue_progress (Reach.exec .start ha rfl)).2 rfl).resolve_left ?_⟩
  decide

end
end TinyCoro.Queue
