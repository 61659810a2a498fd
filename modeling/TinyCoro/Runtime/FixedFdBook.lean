import TinyCoro.Runtime.FixedFds

/-! The fixed file slots of one engine as a book: connectors are constructed, closed and
destroyed on it in any order, and there may be more of them than slots. -/
namespace TinyCoro.Runtime.FixedFdBook
open Transition FixedFds

/-- The calls on connectors; `close` is `tcp_connector::close()` up to the awaiter it returns,
which nobody has to await. -/
inductive Call
  | create (fd : Int)
  | close (c : Nat)
  | destroy (c : Nat)
  deriving DecidableEq, Repr

def call (cfg : FixedFds.Config Unit) (l : Call) (s : State Unit) : Option (State Unit) :=
  match l with
  | .create fd => some (s.create () fd)
  | .close c => if (s.conn c).live then some (s.returnBack cfg c ()) else none
  | .destroy c => if (s.conn c).live then
      let s := s.returnBack cfg c ()
      some (s.setConn c { s.conn c with live := false })
    else none

def held (s : State Unit) : List Nat := (List.range s.next).filterMap fun c => (s.conn c).item.map Item.idx

structure Book (cfg : FixedFds.Config Unit) (s : State Unit) : Prop where
  perm : ((s.uring ()).que ++ held s).Perm (List.range cfg.size)
  free : ∀ i ∈ (s.uring ()).que, (s.uring ()).data i = cfg.null () i
  owned : ∀ c i, (s.conn c).item = some i → (s.conn c).live = true ∧ (s.uring ()).data i.idx = (s.conn c).originalFd

/-- No entry is awaited here, so a slot comes back at any call. -/
structure Inv (cfg : FixedFds.Config Unit) (s : State Unit) : Prop extends FixedFds.Inv cfg s where
  idle : ∀ c, (s.conn c).sqe = none
  free : ∀ i ∈ (s.uring ()).que, (s.uring ()).data i = cfg.null () i

section Step
variable {cfg : FixedFds.Config Unit} {s t : State Unit} {c : Nat} {l : Call}

theorem call_cases (h : call cfg l s = some t) : (∃ fd, l = .create fd ∧ t = s.create () fd) ∨
    (∃ c, l = .close c ∧ (s.conn c).live = true ∧ t = s.returnBack cfg c ()) ∨
    (∃ c, l = .destroy c ∧ (s.conn c).live = true ∧
      t = (s.returnBack cfg c ()).setConn c { (s.returnBack cfg c ()).conn c with live := false }) := by
  cases l with
  | create fd => exact .inl ⟨fd, rfl, (Option.some.inj h).symm⟩
  | close c =>
    simp only [call, Option.ite_none_right_eq_some, Option.some.injEq] at h
    exact .inr (.inl ⟨c, rfl, h.1, h.2.symm⟩)
  | destroy c =>
    simp only [call, Option.ite_none_right_eq_some, Option.some.injEq] at h
    exact .inr (.inr ⟨c, rfl, h.1, h.2.symm⟩)

/-- There is no other engine to return a slot to. -/
theorem at_home (k : Connector Unit) : k.item.all (·.engine = ()) = true := by
  cases h : k.item <;> simp

theorem slotOn_unit (k : Connector Unit) : k.slotOn () = k.item.map Item.idx := by
  cases h : k.item <;> simp [Connector.slotOn, h]

theorem Inv.book (hs : Inv cfg s) : Book cfg s where
  perm := by
    have hslots := hs.slots ()
    simp only [slotOn_unit] at hslots
    refine hslots.perm List.nodup_range (fun i => List.mem_range) List.nodup_range fun c i hc => List.mem_range.mpr ?_
    obtain ⟨it, hit, -⟩ := Option.map_eq_some_iff.mp hc
    exact hs.lt_next (hs.live c it hit)
  free := hs.free
  owned c i hi := ⟨hs.live c i hi, (hs.socket c i hi).2⟩

theorem idle_update {k : Connector Unit} (hs : ∀ d, (s.conn d).sqe = none) (hk : k.sqe = none) (d : Nat) :
    (Function.update s.conn c k d).sqe = none :=
  (Function.forall_update_iff s.conn fun _ k => k.sqe = none).mpr ⟨hk, fun d _ => hs d⟩ d

theorem returnBack_idle (hs : ∀ d, (s.conn d).sqe = none) (d : Nat) : ((s.returnBack cfg c ()).conn d).sqe = none := by
  rw [returnBack_conn]
  refine idle_update hs ?_ d
  exact hs c

/-- The null descriptor is put back before the slot is free. -/
theorem returnBack_free (hs : ∀ i ∈ (s.uring ()).que, (s.uring ()).data i = cfg.null () i) :
    ∀ i ∈ ((s.returnBack cfg c ()).uring ()).que, ((s.returnBack cfg c ()).uring ()).data i = cfg.null () i := by
  unfold State.returnBack
  split
  · exact hs
  · rename_i it _
    intro i hi
    simp only [Function.update_self, Uring.backFixedFd, Uring.updateRegisterFixedFds] at hi ⊢
    by_cases hidx : i = it.idx
    · rw [hidx, Function.update_self]
    · rw [Function.update_of_ne hidx]
      rcases List.mem_append.mp hi with hi | hi
      · exact hs i hi
      · exact absurd (List.mem_singleton.mp hi) hidx

/-- The borrowed slot is the only one whose descriptor changes, and it is not free any more. -/
theorem create_free (hs : Inv cfg s) (fd : Int) :
    ∀ i ∈ ((s.create () fd).uring ()).que, ((s.create () fd).uring ()).data i = cfg.null () i := by
  have hfree := hs.free
  have hnodup := (hs.slots ()).nodup
  unfold State.create Uring.borrow
  cases hque : (s.uring ()).que with
  | nil =>
    intro i hi
    rw [hque] at hi
    cases hi
  | cons idx que =>
    rw [hque] at hfree hnodup
    intro i hi
    simp only [Function.update_self, Uring.assign, Uring.updateRegisterFixedFds] at hi ⊢
    have hne : i ≠ idx := fun h => (List.nodup_cons.mp hnodup).1 (h ▸ hi)
    rw [Function.update_of_ne hne]
    exact hfree i (List.mem_cons_of_mem idx hi)

theorem create_next (fd : Int) : (s.create () fd).next = s.next + 1 := by
  unfold State.create
  split <;> rfl

theorem create_conn (fd : Int) : ∃ k : Connector Unit, (s.create () fd).conn = Function.update s.conn s.next k ∧
    k.sqe = none ∧ k.originalFd = fd ∧
    ((s.uring ()).que = [] → k.item = none ∧ k.sockfd = fd ∧ k.sqeFlag = false) := by
  unfold State.create Uring.borrow
  cases hque : (s.uring ()).que with
  | nil => exact ⟨_, rfl, rfl, rfl, fun _ => ⟨rfl, rfl, rfl⟩⟩
  | cons idx que => exact ⟨_, rfl, rfl, rfl, nofun⟩

theorem inv_call (hs : Inv cfg s) (h : call cfg l s = some t) : Inv cfg t := by
  rcases call_cases h with ⟨fd, -, rfl⟩ | ⟨c, -, hlive, rfl⟩ | ⟨c, -, hlive, rfl⟩
  · refine ⟨inv_create hs.toInv () fd, fun d => ?_, create_free hs fd⟩
    obtain ⟨k, hconn, hsqe, -⟩ := create_conn (s := s) fd
    rw [hconn]
    exact idle_update hs.idle hsqe d
  · exact ⟨inv_returnBack hs.toInv (hs.idle c) (at_home _), returnBack_idle hs.idle, returnBack_free hs.free⟩
  · have hidle : ∀ d, ((s.returnBack cfg c ()).conn d).sqe = none := returnBack_idle hs.idle
    exact ⟨inv_destroy hs.toInv hlive (hs.idle c) (at_home _), idle_update hidle (hidle c), returnBack_free hs.free⟩

theorem inv_run (h : Reachable (call cfg) (init cfg) s) : Inv cfg s :=
  h.invariant (Inv cfg) ⟨inv_init cfg, fun _ => rfl, fun _ _ => rfl⟩ fun _ _ _ _ hs ht => inv_call hs ht

structure Kept (k k' : Connector Unit) : Prop where
  sockfd : k'.sockfd = k.sockfd
  originalFd : k'.originalFd = k.originalFd
  sqeFlag : k'.sqeFlag = k.sqeFlag
  item : k.item = none → k'.item = none

theorem Kept.refl (k : Connector Unit) : Kept k k := ⟨rfl, rfl, rfl, id⟩

theorem kept_update {k : Connector Unit} (hk : Kept (s.conn c) k) (d : Nat) :
    Kept (s.conn d) (Function.update s.conn c k d) := by
  by_cases hd : d = c
  · rw [hd, Function.update_self]
    exact hk
  · rw [Function.update_of_ne hd]
    exact .refl _

theorem returnBack_next (e : Unit) : (s.returnBack cfg c e).next = s.next := by
  unfold State.returnBack
  split <;> rfl

theorem call_kept (hc : c < s.next) (h : call cfg l s = some t) : c < t.next ∧ Kept (s.conn c) (t.conn c) := by
  rcases call_cases h with ⟨fd, -, rfl⟩ | ⟨d, -, -, rfl⟩ | ⟨d, -, -, rfl⟩
  · obtain ⟨k, hconn, -⟩ := create_conn (s := s) fd
    rw [hconn, Function.update_of_ne (Nat.ne_of_lt hc), create_next]
    exact ⟨Nat.lt_succ_of_lt hc, .refl _⟩
  · rw [returnBack_conn, returnBack_next]
    refine ⟨hc, kept_update ?_ c⟩
    exact ⟨rfl, rfl, rfl, fun _ => rfl⟩
  · simp only [State.setConn, returnBack_conn, Function.update_self, Function.update_idem]
    rw [returnBack_next]
    refine ⟨hc, kept_update ?_ c⟩
    exact ⟨rfl, rfl, rfl, fun _ => rfl⟩

theorem kept_run (hc : c < s.next) (h : Reachable (call cfg) s t) : Kept (s.conn c) (t.conn c) := by
  refine (h.invariant (fun t => c < t.next ∧ Kept (s.conn c) (t.conn c)) ⟨hc, .refl _⟩ fun l t u _ ht hu => ?_).2
  obtain ⟨hlt, hk⟩ := call_kept ht.1 hu
  exact ⟨hlt, hk.sockfd.trans ht.2.sockfd, hk.originalFd.trans ht.2.originalFd, hk.sqeFlag.trans ht.2.sqeFlag,
    fun hi => hk.item (ht.2.item hi)⟩

/-- A connector without a slot returns none. -/
theorem call_returned (hi : (s.conn c).item = none) (hl : l = .close c ∨ l = .destroy c) (h : call cfg l s = some t) :
    t.uring = s.uring ∧ t.returned = s.returned := by
  have hback : s.returnBack cfg c () = s := by rw [State.returnBack, hi]
  rcases hl with rfl | rfl
  · rcases call_cases h with ⟨_, ⟨⟩, -⟩ | ⟨_, ⟨⟩, -, rfl⟩ | ⟨_, ⟨⟩, -⟩
    rw [hback]
    exact ⟨rfl, rfl⟩
  · rcases call_cases h with ⟨_, ⟨⟩, -⟩ | ⟨_, ⟨⟩, -⟩ | ⟨_, ⟨⟩, -, rfl⟩
    rw [hback]
    exact ⟨rfl, rfl⟩

end Step

/-- The book is right in every run. A connector that finds the queue empty stays with the
socket it was given, without the flag. After `close()` a connector has returned the slot
that it held, and neither another `close()` nor the destructor returns one. -/
theorem fixed_fds_book (cfg : FixedFds.Config Unit) :
    (∀ s, Reachable (call cfg) (init cfg) s → Book cfg s) ∧
    (∀ s fd t u, Reachable (call cfg) (init cfg) s → call cfg (.create fd) s = some t → Reachable (call cfg) t u →
      (u.conn s.next).originalFd = fd ∧ ((s.uring ()).que = [] →
        t.uring = s.uring ∧ (u.conn s.next).item = none ∧ (u.conn s.next).sockfd = fd ∧ (u.conn s.next).sqeFlag = false)) ∧
    (∀ s c t u l v, Reachable (call cfg) (init cfg) s → call cfg (.close c) s = some t → Reachable (call cfg) t u →
      l = .close c ∨ l = .destroy c → call cfg l u = some v →
      t.returned = s.returned ++ ((s.conn c).item.map (·, ())).toList ∧ v.uring = u.uring ∧ v.returned = u.returned) := by
  refine ⟨fun s h => (inv_run h).book, fun s fd t u _ ht hu => ?_, fun s c t u l v hs ht hu hl hv => ?_⟩
  · cases ht
    obtain ⟨k, hconn, -, hfd, hempty⟩ := create_conn (s := s) fd
    have hlt : s.next < (s.create () fd).next := by
      rw [create_next]
      exact Nat.lt_succ_self _
    have hk := kept_run hlt hu
    rw [hconn, Function.update_self] at hk
    refine ⟨hk.originalFd.trans hfd, fun hque => ?_⟩
    obtain ⟨hitem, hsock, hflag⟩ := hempty hque
    refine ⟨?_, hk.item hitem, hk.sockfd.trans hsock, hk.sqeFlag.trans hflag⟩
    rw [State.create, Uring.borrow, hque]
  · rcases call_cases ht with ⟨_, ⟨⟩, -⟩ | ⟨_, ⟨⟩, hlive, rfl⟩ | ⟨_, ⟨⟩, -⟩
    have hlt : c < (s.returnBack cfg c ()).next := by
      rw [returnBack_next]
      exact (inv_run hs).lt_next hlive
    have hnone : ((s.returnBack cfg c ()).conn c).item = none := by rw [returnBack_conn, Function.update_self]
    refine ⟨?_, call_returned ((kept_run hlt hu).item hnone) hl hv⟩
    cases hi : (s.conn c).item with
    | none => simp [State.returnBack, hi]
    | some i => simp [State.returnBack, hi]

def twoSlots : FixedFds.Config Unit := ⟨2, fun _ i => 100 + i⟩

/-- The third connector finds the queue empty. The first is closed, its slot goes to a
fourth, and then the first is destroyed. -/
theorem fixed_fds_book_twoSlots : ∃ s t u v, Reachable (call twoSlots) (init twoSlots) s ∧ (s.uring ()).que = [] ∧
    call twoSlots (.create 7) s = some t ∧ exec (call twoSlots) [.close 0, .create 8] t = some u ∧
    (u.conn 2).sockfd = 7 ∧ (u.conn 2).sqeFlag = false ∧
    call twoSlots (.destroy 0) u = some v ∧ v.returned = u.returned ∧ held v = [1, 0] ∧ Book twoSlots v := by
  obtain ⟨hbook, hraw, honce⟩ := fixed_fds_book twoSlots
  have hs : exec (call twoSlots) [.create 5, .create 6] (init twoSlots) = some _ := rfl
  have ht : exec (call twoSlots) [.create 5, .create 6, .create 7] (init twoSlots) = some _ := rfl
  have hv : exec (call twoSlots) [.create 5, .create 6, .create 7, .close 0, .create 8, .destroy 0] (init twoSlots) =
    some _ := rfl
  obtain ⟨-, hempty⟩ := hraw _ 7 _ _ (Reachable.of_exec _ hs) rfl (Reachable.of_exec [.close 0, .create 8] rfl)
  obtain ⟨-, -, hsock, hflag⟩ := hempty (by decide)
  obtain ⟨-, -, hreturned⟩ := honce _ 0 _ _ (.destroy 0) _ (Reachable.of_exec _ ht) rfl
    (Reachable.of_exec [.create 8] rfl) (.inr rfl) rfl
  exact ⟨_, _, _, _, Reachable.of_exec _ hs, by decide, rfl, rfl, hsock, hflag, rfl, hreturned, by decide,
    hbook _ (Reachable.of_exec _ hv)⟩

end TinyCoro.Runtime.FixedFdBook
