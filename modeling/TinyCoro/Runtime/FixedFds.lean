import TinyCoro.Transition.Runs
import TinyCoro.Transition.Slots

/-! The fixed file slots of the rings, with `kEnableFixfd` set. A `tcp_connector` borrows a
slot of the engine it is created on, and every later call goes through the engine its
coroutine runs on at that moment. -/
namespace TinyCoro.Runtime.FixedFds
open Transition

/-- `marked_buffer::item`: `ptr` points to `data[idx]` of the engine it was borrowed from. -/
structure Item (E : Type) where
  idx : Nat
  engine : E
  deriving DecidableEq, Repr

inductive Op
  | read
  | write
  | close
  deriving DecidableEq, Repr

/-- A prepared entry of the ring `ring`; `fixed` is `IOSQE_FIXED_FILE`. -/
structure Sqe (E : Type) where
  ring : E
  op : Op
  fd : Int
  fixed : Bool
  deriving DecidableEq, Repr

/-- `tcp_connector`; no `item` is the invalid one. `sqe` is the entry its coroutine has
prepared and awaits, as long as the kernel has not accepted it. -/
structure Connector (E : Type) where
  sockfd : Int
  originalFd : Int
  item : Option (Item E)
  sqeFlag : Bool
  live : Bool
  sqe : Option (Sqe E)
  deriving DecidableEq, Repr

structure Uring where
  que : List Nat
  data : Nat → Int
  registered : Nat → Int

namespace Uring

def borrow (u : Uring) : Option Nat × Uring :=
  match u.que with
  | [] => (none, u)
  | idx :: que => (some idx, { u with que := que })

/-- `update_register_fixed_fds`: the whole array is registered again. -/
def updateRegisterFixedFds (u : Uring) : Uring := { u with registered := u.data }

/-- `back_fixed_fd`; `null` are the `m_null_fds`. -/
def backFixedFd (null : Nat → Int) (idx : Nat) (u : Uring) : Uring :=
  let u := updateRegisterFixedFds { u with data := Function.update u.data idx (null idx) }
  { u with que := u.que ++ [idx] }

def assign (idx : Nat) (fd : Int) (u : Uring) : Uring :=
  updateRegisterFixedFds { u with data := Function.update u.data idx fd }

end Uring

structure Accepted (E : Type) where
  connector : Nat
  sqe : Sqe E
  file : Int
  deriving DecidableEq, Repr

/-- `returned` and `accepted` are history: the items given back with the engine that took
them, and what the kernel was given. -/
structure State (E : Type) where
  uring : E → Uring
  next : Nat
  conn : Nat → Connector E
  returned : List (Item E × E)
  accepted : List (Accepted E)

structure Config (E : Type) where
  size : Nat
  null : E → Nat → Int

def init {E : Type} (cfg : Config E) : State E where
  uring e := ⟨List.range cfg.size, cfg.null e, cfg.null e⟩
  next := 0
  conn _ := ⟨0, 0, none, false, false, none⟩
  returned := []
  accepted := []

/-- The engine in a label is `local_engine()` of the thread that makes the call; `accept c`
gives the entry of connector `c` to the kernel. -/
inductive Label (E : Type)
  | create (e : E) (fd : Int)
  | read (c : Nat) (e : E)
  | write (c : Nat) (e : E)
  | close (c : Nat) (e : E)
  | destroy (c : Nat) (e : E)
  | accept (c : Nat)
  deriving DecidableEq, Repr

namespace State
variable {E : Type} [DecidableEq E]

def setConn (c : Nat) (k : Connector E) (s : State E) : State E := { s with conn := Function.update s.conn c k }

def create (e : E) (fd : Int) (s : State E) : State E :=
  match (s.uring e).borrow with
  | (none, _) => { s with
    next := s.next + 1
    conn := Function.update s.conn s.next ⟨fd, fd, none, false, true, none⟩ }
  | (some idx, u) => { s with
    uring := Function.update s.uring e (u.assign idx fd)
    next := s.next + 1
    conn := Function.update s.conn s.next ⟨idx, fd, some ⟨idx, e⟩, true, true, none⟩ }

def returnBack (cfg : Config E) (c : Nat) (e : E) (s : State E) : State E :=
  match (s.conn c).item with
  | none => s
  | some i => { s with
    uring := Function.update s.uring e ((s.uring e).backFixedFd (cfg.null e) i.idx)
    conn := Function.update s.conn c { s.conn c with item := none }
    returned := s.returned ++ [(i, e)] }

def prepare (c : Nat) (e : E) (op : Op) (fd : Int) (fixed : Bool) (s : State E) : State E :=
  s.setConn c { s.conn c with sqe := some ⟨e, op, fd, fixed⟩ }

def accept (c : Nat) (q : Sqe E) (s : State E) : State E :=
  let file := if q.fixed then (s.uring q.ring).registered q.fd.toNat else q.fd
  { s.setConn c { s.conn c with sqe := none } with accepted := s.accepted ++ [⟨c, q, file⟩] }

def running (c : Nat) (s : State E) : Bool := (s.conn c).live && (s.conn c).sqe.isNone

end State

open State in
def step {E : Type} [DecidableEq E] (cfg : Config E) (l : Label E) (s : State E) : Option (State E) :=
  match l with
  | .create e fd => some (s.create e fd)
  | .read c e => if s.running c then some (s.prepare c e .read (s.conn c).sockfd (s.conn c).sqeFlag) else none
  | .write c e => if s.running c then some (s.prepare c e .write (s.conn c).sockfd (s.conn c).sqeFlag) else none
  | .close c e =>
    if s.running c then some ((s.returnBack cfg c e).prepare c e .close (s.conn c).originalFd false) else none
  | .destroy c e => if s.running c then
      let s := s.returnBack cfg c e
      some (s.setConn c { s.conn c with live := false })
    else none
  | .accept c => (s.conn c).sqe.map fun q => s.accept c q

variable {E : Type} [DecidableEq E]

def Connector.slotOn (e : E) (k : Connector E) : Option Nat :=
  k.item.bind fun i => if i.engine = e then some i.idx else none

/-- Slots are exclusive: on every engine each slot is either once in the free queue or held
by one live connector, no item was returned to an engine other than its own, and every
fixed entry stood for the socket of its connector. -/
structure Exclusive (cfg : Config E) (s : State E) : Prop where
  slots : ∀ e, Slots (· < cfg.size) (s.uring e).que fun c => (s.conn c).slotOn e
  live : ∀ c i, (s.conn c).item = some i → (s.conn c).live = true
  returned : ∀ x ∈ s.returned, x.1.engine = x.2
  own : ∀ a ∈ s.accepted, a.sqe.fixed = true → a.file = (s.conn a.connector).originalFd

/-- A connector that was given a slot is read and written only while it holds the slot, and
read, written, closed and destroyed only on the engine of the slot. -/
def AtHome (l : Label E) (s : State E) : Prop :=
  match l with
  | .read c e | .write c e => (s.conn c).sqeFlag = true → (s.conn c).item.any (·.engine = e) = true
  | .close c e | .destroy c e => (s.conn c).item.all (·.engine = e) = true
  | _ => True

instance (l : Label E) (s : State E) : Decidable (AtHome l s) :=
  match l with
  | .read c e | .write c e =>
    inferInstanceAs (Decidable ((s.conn c).sqeFlag = true → (s.conn c).item.any (·.engine = e) = true))
  | .close c e | .destroy c e => inferInstanceAs (Decidable ((s.conn c).item.all (·.engine = e) = true))
  | .create _ _ | .accept _ => isTrue trivial

structure Inv (cfg : Config E) (s : State E) : Prop extends Exclusive cfg s where
  table : ∀ e, (s.uring e).registered = (s.uring e).data
  socket : ∀ c i, (s.conn c).item = some i →
    (s.conn c).sockfd = i.idx ∧ (s.uring i.engine).data i.idx = (s.conn c).originalFd
  sqe : ∀ c q, (s.conn c).sqe = some q → q.fixed = true →
    ∃ i, (s.conn c).item = some i ∧ i.engine = q.ring ∧ q.fd = i.idx
  fresh : ∀ c, s.next ≤ c → (s.conn c).live = false ∧ (s.conn c).sqe = none
  known : ∀ a ∈ s.accepted, a.connector < s.next

theorem inv_init (cfg : Config E) : Inv cfg (init cfg) where
  slots _ := ⟨List.nodup_range, fun _ h => List.mem_range.mp h, nofun, nofun, fun _ h => .inl (List.mem_range.mpr h)⟩
  live := nofun
  returned := nofun
  own := nofun
  table _ := rfl
  socket := nofun
  sqe := nofun
  fresh _ _ := ⟨rfl, rfl⟩
  known := nofun

section Step
variable {cfg : Config E} {s : State E} {c : Nat}

theorem Inv.lt_next (hs : Inv cfg s) (h : (s.conn c).live = true) : c < s.next := by
  by_contra hc
  have hdead := (hs.fresh c (by omega)).1
  rw [h] at hdead
  cases hdead

theorem slotOn_self {k : Connector E} {i : Item E} (h : k.item = some i) : k.slotOn i.engine = some i.idx := by
  simp [Connector.slotOn, h]

theorem slotOn_ne {k : Connector E} {i : Item E} {e : E} (h : k.item = some i) (he : i.engine ≠ e) :
    k.slotOn e = none := by
  simp [Connector.slotOn, h, he]

theorem slotOn_none {k : Connector E} {e : E} (h : k.item = none) : k.slotOn e = none := by
  simp [Connector.slotOn, h]

theorem slotOn_update (k : Connector E) (e : E) : (fun d => (Function.update s.conn c k d).slotOn e) =
    Function.update (fun d => (s.conn d).slotOn e) c (k.slotOn e) :=
  Function.comp_update (Connector.slotOn e) s.conn c k

omit [DecidableEq E] in
theorem originalFd_update {k : Connector E} (hfd : k.originalFd = (s.conn c).originalFd) (d : Nat) :
    (Function.update s.conn c k d).originalFd = (s.conn d).originalFd := by
  by_cases hd : d = c
  · rw [hd, Function.update_self, hfd]
  · rw [Function.update_of_ne hd]

omit [DecidableEq E] in
theorem live_update (hs : ∀ d i, (s.conn d).item = some i → (s.conn d).live = true) {k : Connector E}
    (hk : ∀ i, k.item = some i → k.live = true) :
    ∀ d i, (Function.update s.conn c k d).item = some i → (Function.update s.conn c k d).live = true :=
  (Function.forall_update_iff s.conn fun _ k => ∀ i, k.item = some i → k.live = true).mpr ⟨hk, fun d _ => hs d⟩

omit [DecidableEq E] in
theorem socket_update {uring : E → Uring} {k : Connector E}
    (hk : ∀ i, k.item = some i → k.sockfd = i.idx ∧ (uring i.engine).data i.idx = k.originalFd)
    (hother : ∀ d, d ≠ c → ∀ i, (s.conn d).item = some i →
      (s.conn d).sockfd = i.idx ∧ (uring i.engine).data i.idx = (s.conn d).originalFd) :
    ∀ d i, (Function.update s.conn c k d).item = some i → (Function.update s.conn c k d).sockfd = i.idx ∧
      (uring i.engine).data i.idx = (Function.update s.conn c k d).originalFd :=
  (Function.forall_update_iff s.conn fun _ k => ∀ i, k.item = some i →
    k.sockfd = i.idx ∧ (uring i.engine).data i.idx = k.originalFd).mpr ⟨hk, hother⟩

theorem sqe_update (hs : Inv cfg s) {k : Connector E}
    (hk : ∀ q, k.sqe = some q → q.fixed = true → ∃ i, k.item = some i ∧ i.engine = q.ring ∧ q.fd = i.idx) :
    ∀ d q, (Function.update s.conn c k d).sqe = some q → q.fixed = true →
      ∃ i, (Function.update s.conn c k d).item = some i ∧ i.engine = q.ring ∧ q.fd = i.idx :=
  (Function.forall_update_iff s.conn fun _ k => ∀ q, k.sqe = some q → q.fixed = true →
    ∃ i, k.item = some i ∧ i.engine = q.ring ∧ q.fd = i.idx).mpr ⟨hk, fun d _ => hs.sqe d⟩

/-- Changes of a connector that leave its sockets and its slot alone. -/
theorem inv_setConn (hs : Inv cfg s) {k : Connector E} (hc : c < s.next) (hitem : k.item = (s.conn c).item)
    (hfd : k.originalFd = (s.conn c).originalFd) (hsock : k.sockfd = (s.conn c).sockfd)
    (hlive : ∀ i, k.item = some i → k.live = true)
    (hsqe : ∀ q, k.sqe = some q → q.fixed = true → ∃ i, k.item = some i ∧ i.engine = q.ring ∧ q.fd = i.idx) :
    Inv cfg (s.setConn c k) where
  slots e := by
    have hslot : k.slotOn e = (s.conn c).slotOn e := by rw [Connector.slotOn, Connector.slotOn, hitem]
    simp only [State.setConn, slotOn_update, hslot, Function.update_eq_self]
    exact hs.slots e
  live := live_update hs.live hlive
  returned := hs.returned
  own a ha hfix := by
    rw [hs.own a ha hfix]
    exact (originalFd_update hfd a.connector).symm
  table := hs.table
  socket := by
    refine socket_update (fun i hi => ?_) fun d _ => hs.socket d
    rw [hsock, hfd]
    exact hs.socket c i (hitem ▸ hi)
  sqe := sqe_update hs hsqe
  fresh d hd := by
    change s.next ≤ d at hd
    simp only [State.setConn, Function.update_of_ne (by omega : d ≠ c)]
    exact hs.fresh d hd
  known := hs.known

/-- A ring whose slot `idx` changes keeps the data of every other item. -/
theorem data_update {e : E} {u : Uring} {idx : Nat} {fd : Int} {i : Item E}
    (hu : u.data = Function.update (s.uring e).data idx fd) (hi : i ≠ ⟨idx, e⟩) :
    (Function.update s.uring e u i.engine).data i.idx = (s.uring i.engine).data i.idx := by
  obtain ⟨j, f⟩ := i
  by_cases hf : f = e
  · subst hf
    have hj : j ≠ idx := fun hj => hi (hj ▸ rfl)
    simp only [Function.update_self, hu, Function.update_of_ne hj]
  · simp only [Function.update_of_ne hf]

theorem table_update (hs : Inv cfg s) {e : E} {u : Uring} (hu : u.registered = u.data) (f : E) :
    (Function.update s.uring e u f).registered = (Function.update s.uring e u f).data := by
  by_cases hf : f = e
  · rw [hf, Function.update_self, hu]
  · rw [Function.update_of_ne hf, hs.table f]

theorem inv_returnBack (hs : Inv cfg s) {e : E} (hq : (s.conn c).sqe = none)
    (ho : (s.conn c).item.all (·.engine = e) = true) : Inv cfg (s.returnBack cfg c e) := by
  unfold State.returnBack
  split
  · exact hs
  · rename_i i hi
    obtain ⟨idx, e'⟩ := i
    obtain rfl : e' = e := by simpa [hi] using ho
    have hheld : (s.conn c).slotOn e' = some idx := slotOn_self hi
    have hother : ∀ d i, d ≠ c → (s.conn d).item = some i → i ≠ ⟨idx, e'⟩ := by
      rintro d i hdc hd rfl
      exact hdc ((hs.slots e').one d c idx (slotOn_self hd) hheld)
    refine ⟨⟨fun f => ?_, ?_, fun x hx => ?_, fun a ha hfix => ?_⟩, table_update hs rfl, ?_, ?_, fun d hd => ?_,
      hs.known⟩
    · simp only [slotOn_update]
      by_cases hf : f = e'
      · subst hf
        simp only [Function.update_self, Uring.backFixedFd, Uring.updateRegisterFixedFds]
        exact (hs.slots f).giveBack hheld
      · have hsame : Connector.slotOn f { s.conn c with item := none } = (s.conn c).slotOn f :=
          (slotOn_ne hi (Ne.symm hf)).symm
        simp only [Function.update_of_ne hf, hsame, Function.update_eq_self]
        exact hs.slots f
    · exact live_update hs.live nofun
    · rcases List.mem_append.mp hx with hx | hx
      · exact hs.returned x hx
      · rw [List.mem_singleton.mp hx]
    · rw [hs.own a ha hfix]
      exact (originalFd_update (by rfl) a.connector).symm
    · refine socket_update nofun fun d hdc i hd => ?_
      rw [data_update (by rfl) (hother d i hdc hd)]
      exact hs.socket d i hd
    · refine sqe_update hs fun q hsome => ?_
      rw [hq] at hsome
      cases hsome
    · have hlt : c < s.next := hs.lt_next (hs.live c _ hi)
      change s.next ≤ d at hd
      simp only [Function.update_of_ne (by omega : d ≠ c)]
      exact hs.fresh d hd

theorem inv_create (hs : Inv cfg s) (e : E) (fd : Int) : Inv cfg (s.create e fd) := by
  have hdead := hs.fresh s.next (Nat.le_refl _)
  have hitem : (s.conn s.next).item = none := by
    cases hi : (s.conn s.next).item with
    | none => rfl
    | some i =>
      have hlive := hs.live s.next i hi
      rw [hdead.1] at hlive
      cases hlive
  have hown : ∀ k, ∀ a ∈ s.accepted, a.sqe.fixed = true →
      a.file = (Function.update s.conn s.next k a.connector).originalFd := by
    intro k a ha hfix
    rw [Function.update_of_ne (Nat.ne_of_lt (hs.known a ha))]
    exact hs.own a ha hfix
  have hfresh : ∀ k d, s.next + 1 ≤ d → (Function.update s.conn s.next k d).live = false ∧
      (Function.update s.conn s.next k d).sqe = none := by
    intro k d hd
    rw [Function.update_of_ne (by omega)]
    exact hs.fresh d (by omega)
  unfold State.create Uring.borrow
  cases hque : (s.uring e).que with
  | nil =>
    refine ⟨⟨fun f => ?_, live_update hs.live fun _ _ => rfl, hs.returned, hown _⟩, hs.table, ?_, sqe_update hs nofun,
      hfresh _, fun a ha => Nat.lt_succ_of_lt (hs.known a ha)⟩
    · have hsame : Connector.slotOn f ⟨fd, fd, none, false, true, none⟩ = (s.conn s.next).slotOn f :=
        (slotOn_none hitem).symm
      simp only [slotOn_update, hsame, Function.update_eq_self]
      exact hs.slots f
    · exact socket_update nofun fun d _ => hs.socket d
  | cons idx que =>
    have hslots := hs.slots e
    rw [hque] at hslots
    have hother : ∀ d i, (s.conn d).item = some i → i ≠ ⟨idx, e⟩ := by
      rintro d i hd rfl
      exact (hslots.isHeld d idx (slotOn_self hd)).2 List.mem_cons_self
    refine ⟨⟨fun f => ?_, live_update hs.live fun _ _ => rfl, hs.returned, hown _⟩, table_update hs rfl, ?_,
      sqe_update hs nofun, hfresh _, fun a ha => Nat.lt_succ_of_lt (hs.known a ha)⟩
    · simp only [slotOn_update]
      by_cases hf : f = e
      · subst hf
        have hnew : Connector.slotOn f ⟨idx, fd, some ⟨idx, f⟩, true, true, none⟩ = some idx :=
          slotOn_self (i := ⟨idx, f⟩) rfl
        simp only [Function.update_self, hnew, Uring.assign, Uring.updateRegisterFixedFds]
        exact hslots.borrow (slotOn_none hitem)
      · have hsame : Connector.slotOn f ⟨idx, fd, some ⟨idx, e⟩, true, true, none⟩ = (s.conn s.next).slotOn f := by
          rw [slotOn_none hitem, slotOn_ne rfl (Ne.symm hf)]
        simp only [Function.update_of_ne hf, hsame, Function.update_eq_self]
        exact hs.slots f
    · refine socket_update ?_ fun d _ i hd => ?_
      · rintro _ ⟨⟩
        simp [Uring.assign, Uring.updateRegisterFixedFds]
      · rw [data_update (by rfl) (hother d i hd)]
        exact hs.socket d i hd

omit [DecidableEq E] in
theorem running_iff : s.running c = true ↔ (s.conn c).live = true ∧ (s.conn c).sqe = none := by
  simp [State.running]

theorem returnBack_conn (e : E) :
    (s.returnBack cfg c e).conn = Function.update s.conn c { s.conn c with item := none } := by
  unfold State.returnBack
  split
  · rename_i hi
    rw [← hi, Function.update_eq_self]
  · rfl

theorem inv_destroy (hs : Inv cfg s) (hlive : (s.conn c).live = true) (hq : (s.conn c).sqe = none) {e : E}
    (ho : (s.conn c).item.all (·.engine = e) = true) :
    Inv cfg ((s.returnBack cfg c e).setConn c { (s.returnBack cfg c e).conn c with live := false }) := by
  have hback := inv_returnBack hs hq ho
  have hconn : (s.returnBack cfg c e).conn c = { s.conn c with item := none } := by
    rw [returnBack_conn, Function.update_self]
  refine inv_setConn hback (hback.lt_next (by rw [hconn, hlive])) rfl rfl rfl ?_ ?_
  · intro i hi
    rw [hconn] at hi
    cases hi
  · intro q hsome
    rw [hconn] at hsome
    exact absurd (hq ▸ hsome) nofun

/-- An entry with a fixed file is prepared only at home. -/
theorem inv_prepare (hs : Inv cfg s) (hlive : (s.conn c).live = true) {e : E} {op : Op} {fd : Int} {fixed : Bool}
    (h : fixed = true → ∃ i, (s.conn c).item = some i ∧ i.engine = e ∧ fd = i.idx) :
    Inv cfg (s.prepare c e op fd fixed) := by
  refine inv_setConn hs (hs.lt_next hlive) rfl rfl rfl (fun _ _ => hlive) ?_
  rintro q ⟨⟩ hfix
  exact h hfix

theorem inv_use (hs : Inv cfg s) (hlive : (s.conn c).live = true) {e : E} (op : Op)
    (ho : (s.conn c).sqeFlag = true → (s.conn c).item.any (·.engine = e) = true) :
    Inv cfg (s.prepare c e op (s.conn c).sockfd (s.conn c).sqeFlag) := by
  refine inv_prepare hs hlive fun hflag => ?_
  obtain ⟨i, hi, he⟩ := (Option.any_eq_true _ _).mp (ho hflag)
  exact ⟨i, hi, of_decide_eq_true he, (hs.socket c i hi).1⟩

theorem inv_accept (hs : Inv cfg s) {q : Sqe E} (hq : (s.conn c).sqe = some q) : Inv cfg (s.accept c q) := by
  have hc : c < s.next := by
    by_contra hc
    have hnone := (hs.fresh c (by omega)).2
    rw [hq] at hnone
    cases hnone
  have hset : Inv cfg (s.setConn c { s.conn c with sqe := none }) :=
    inv_setConn hs hc rfl rfl rfl (hs.live c) nofun
  refine ⟨⟨hset.slots, hset.live, hset.returned, fun a ha hfix => ?_⟩, hset.table, hset.socket, hset.sqe, hset.fresh,
    fun a ha => ?_⟩
  · rcases List.mem_append.mp ha with ha | ha
    · exact hset.own a ha hfix
    · obtain rfl := List.mem_singleton.mp ha
      obtain ⟨i, hi, hring, hfd⟩ := hs.sqe c q hq hfix
      have hsock := (hs.socket c i hi).2
      change (if q.fixed = true then _ else _) = (Function.update s.conn c _ c).originalFd
      rw [if_pos hfix, Function.update_self, hs.table, ← hring, hfd, Int.toNat_natCast, hsock]
  · rcases List.mem_append.mp ha with ha | ha
    · exact hset.known a ha
    · rw [List.mem_singleton.mp ha]
      exact hc

theorem inv_step {l : Label E} {t : State E} (hs : Inv cfg s) (ho : AtHome l s) (h : step cfg l s = some t) :
    Inv cfg t := by
  cases l with
  | create e fd =>
    cases h
    exact inv_create hs e fd
  | read c e =>
    simp only [step, Option.ite_none_right_eq_some, running_iff, Option.some.injEq] at h
    obtain ⟨⟨hlive, -⟩, rfl⟩ := h
    exact inv_use hs hlive .read ho
  | write c e =>
    simp only [step, Option.ite_none_right_eq_some, running_iff, Option.some.injEq] at h
    obtain ⟨⟨hlive, -⟩, rfl⟩ := h
    exact inv_use hs hlive .write ho
  | close c e =>
    simp only [step, Option.ite_none_right_eq_some, running_iff, Option.some.injEq] at h
    obtain ⟨⟨hlive, hq⟩, rfl⟩ := h
    refine inv_prepare (inv_returnBack hs hq ho) ?_ nofun
    rw [returnBack_conn, Function.update_self, hlive]
  | destroy c e =>
    simp only [step, Option.ite_none_right_eq_some, running_iff, Option.some.injEq] at h
    obtain ⟨⟨hlive, hq⟩, rfl⟩ := h
    exact inv_destroy hs hlive hq ho
  | accept c =>
    obtain ⟨q, hq, rfl⟩ := Option.map_eq_some_iff.mp h
    exact inv_accept hs hq

/-- A slot that is returned elsewhere leaves a trace. -/
theorem returnBack_away (cfg : Config E) {e : E} (ho : ¬ (s.conn c).item.all (·.engine = e) = true) :
    ∃ x ∈ (s.returnBack cfg c e).returned, x.1.engine ≠ x.2 := by
  unfold State.returnBack
  split
  · rename_i hi
    simp [hi] at ho
  · rename_i i hi
    exact ⟨(i, e), List.mem_append_right _ (List.mem_singleton.mpr rfl), by simpa [hi] using ho⟩

end Step

/-- In every run in which each connector is used, closed and destroyed at home, the slots
are exclusive. Closing or destroying one elsewhere ends that. -/
theorem fixed_slots_exclusive (cfg : Config E) :
    (∀ s, Reach (step cfg) AtHome (init cfg) s → Exclusive cfg s) ∧
    (∀ s c e l t, l = .close c e ∨ l = .destroy c e → ¬ AtHome l s → step cfg l s = some t → ¬ Exclusive cfg t) := by
  refine ⟨fun s h => ?_, ?_⟩
  · exact (h.invariant (Inv cfg) (inv_init cfg) fun _ _ _ ho hs ht => inv_step hs ho ht).toExclusive
  · rintro s c e l t (rfl | rfl) ho h ht
    all_goals
      simp only [step, Option.ite_none_right_eq_some, Option.some.injEq] at h
      obtain ⟨-, rfl⟩ := h
      obtain ⟨x, hx, hne⟩ := returnBack_away cfg ho
      exact hne (ht.returned x hx)

/-- Two engines with the eight slots of `kFixFdArraySize`. -/
def twoEngines : Config Bool := ⟨8, fun e i => if e then 200 + i else 100 + i⟩

def oneEngine : List (Label Bool) :=
  [.create false 5, .create true 6, .read 0 false, .accept 0, .write 1 true, .close 0 false, .accept 1, .accept 0,
    .destroy 0 false, .create false 7]

theorem fixed_slots_exclusive_oneEngine : ∃ s, Reach (step twoEngines) AtHome (init twoEngines) s ∧
    (s.uring false).que = [2, 3, 4, 5, 6, 7, 0] ∧ s.accepted.map Accepted.file = [5, 6, 5] ∧ Exclusive twoEngines s := by
  obtain ⟨s, hs⟩ : ∃ s, s ∈ exec (step twoEngines) oneEngine (init twoEngines) := ⟨_, rfl⟩
  have hr := Reach.exec .start (by decide : Along (step twoEngines) AtHome oneEngine (init twoEngines)) hs
  have hexcl := (fixed_slots_exclusive twoEngines).1 s hr
  cases hs
  exact ⟨_, hr, by decide, by decide, hexcl⟩

/-- The coroutine of connector 0 has moved to the other engine, where its slot number is
that of connector 1. -/
theorem fixed_slots_shared_migration :
    ¬ ∀ s, Reachable (step twoEngines) (init twoEngines) s → Exclusive twoEngines s := by
  intro h
  have hp : exec (step twoEngines) [.create false 5, .create true 6, .write 0 true, .accept 0] (init twoEngines) =
      some _ := rfl
  have hown := (h _ (Reachable.of_exec _ hp)).own ⟨0, ⟨true, .write, 0, true⟩, 6⟩ (by decide) rfl
  exact absurd hown (by decide)

end TinyCoro.Runtime.FixedFds
