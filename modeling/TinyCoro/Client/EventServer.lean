import Mathlib.Data.List.Basic
import Mathlib.Logic.Function.Basic
import TinyCoro.Transition.Runs

/-! The echo server without coroutines: one loop over the completions of a ring, with the
connection and the kind of a request in its user data, and one buffer for all connections. -/
namespace TinyCoro.Client.EventServer
open Transition

abbrev Byte := BitVec 8

def entriesLength : Nat := 1024

def bufferLength : Nat := 1024

inductive Event
  | accept
  | read
  | write
  deriving DecidableEq, Repr

structure ConnInfo where
  fd : Int
  event : Event
  deriving DecidableEq, Repr

/-- The kind of the request, its descriptor and its user data are those of `info`. -/
structure Sqe where
  info : ConnInfo
  len : Nat
  deriving DecidableEq, Repr

structure Cqe where
  info : ConnInfo
  res : Int
  deriving DecidableEq, Repr

/-- Where the loop of `main` stands; `handle n` has `n` completions of the batch left. -/
inductive Pc
  | submit
  | wait
  | handle (n : Nat)
  deriving DecidableEq, Repr

/-- `table` is the open connection of each descriptor, `made` how many there have been. A
connection whose `recv` has failed is abandoned; that, what was received and what was sent
are history. -/
structure State where
  pc : Pc
  sq : List Sqe
  flight : List Sqe
  cq : List Cqe
  buffer : List Byte
  table : Int → Option Nat
  made : Nat
  abandoned : Nat → Bool
  received : Nat → List Byte
  sent : Nat → List Byte

inductive Outcome
  | accepted (fd : Int)
  | received (chunk : List Byte)
  | sent (n : Nat)
  | failed (res : Int)

/-- `io_uring_submit` takes the first entries, the kernel completes the `i`-th request that
it has, and the other steps are those of the loop. The result of `io_uring_wait_cqe` is not
looked at, so `wait` may end without a completion. -/
inductive Label
  | submit (n : Nat)
  | wait
  | handle
  | advance
  | complete (i : Nat) (o : Outcome)

/-- Fills the entry that `io_uring_get_sqe` gives. If there is none, the code writes through a
null pointer. -/
def put (r : Sqe) (s : State) : Option State :=
  if s.sq.length < entriesLength then some { s with sq := s.sq ++ [r] } else none

def setEventAccept (sockfd : Int) (s : State) : Option State := put ⟨⟨sockfd, .accept⟩, 0⟩ s

def setEventRecv (fd : Int) (s : State) : Option State := put ⟨⟨fd, .read⟩, bufferLength⟩ s

def setEventSend (fd : Int) (len : Nat) (s : State) : Option State := put ⟨⟨fd, .write⟩, len⟩ s

/-- `main` has set the first accept. -/
def init (sockfd : Int) : State :=
  ⟨.submit, [⟨⟨sockfd, .accept⟩, 0⟩], [], [], List.replicate bufferLength 0, fun _ => none, 0, fun _ => false,
    fun _ => [], fun _ => []⟩

def close (fd : Int) (s : State) : State := { s with table := Function.update s.table fd none }

/-- The branch for a failed `recv` does nothing. -/
def abandon (fd : Int) (s : State) : State :=
  match s.table fd with
  | some c => { s with abandoned := Function.update s.abandoned c true }
  | none => s

def handle (sockfd : Int) (e : Cqe) (s : State) : Option State :=
  match e.info.event with
  | .accept => (setEventAccept sockfd s).bind (setEventRecv e.res)
  | .read =>
    if e.res = 0 then some (close e.info.fd s)
    else if 0 < e.res then setEventSend e.info.fd e.res.toNat s
    else some (abandon e.info.fd s)
  | .write => setEventRecv e.info.fd s

def post (r : Sqe) (res : Int) (s : State) : State := { s with cq := s.cq ++ [⟨r.info, res⟩] }

/-- The listening socket and the open connections keep their descriptors, and a request on any
other one fails. -/
def complete (sockfd : Int) (r : Sqe) (o : Outcome) (s : State) : Option State :=
  match r.info.event, o with
  | .accept, .accepted fd =>
    if 0 ≤ fd ∧ fd ≠ sockfd ∧ s.table fd = none then
      some (post r fd { s with table := Function.update s.table fd (some s.made), made := s.made + 1 })
    else none
  | .read, .received chunk => match s.table r.info.fd with
    | some c => if chunk.length ≤ r.len then
        some (post r chunk.length { s with
          buffer := chunk ++ s.buffer.drop chunk.length
          received := Function.update s.received c (s.received c ++ chunk) })
      else none
    | none => none
  | .write, .sent n => match s.table r.info.fd with
    | some c => if n ≤ r.len then
        some (post r n { s with sent := Function.update s.sent c (s.sent c ++ s.buffer.take n) })
      else none
    | none => none
  | _, .failed res => if res < 0 then some (post r res s) else none
  | _, _ => none

def step (sockfd : Int) (l : Label) (s : State) : Option State :=
  match l with
  | .submit n =>
    if s.pc = .submit ∧ n ≤ s.sq.length then
      some { s with pc := .wait, sq := s.sq.drop n, flight := s.flight ++ s.sq.take n }
    else none
  | .wait => if s.pc = .wait then some { s with pc := .handle (min 128 s.cq.length) } else none
  | .handle => match s.pc, s.cq with
    | .handle (n + 1), e :: rest => handle sockfd e { s with pc := .handle n, cq := rest }
    | _, _ => none
  | .advance => if s.pc = .handle 0 then some { s with pc := .submit } else none
  | .complete i o => match s.flight.drop i with
    | r :: rest => complete sockfd r o { s with flight := s.flight.take i ++ rest }
    | [] => none

def Sqe.on (fd : Int) (r : Sqe) : Bool := r.info.event != .accept && r.info.fd == fd

/-- The completion of one, or of the `accept` that gave the descriptor. -/
def Cqe.on (fd : Int) (e : Cqe) : Bool := if e.info.event = .accept then e.res == fd else e.info.fd == fd

/-- The requests for a descriptor that have not been handled. -/
def requests (s : State) (fd : Int) : Nat := s.sq.countP (·.on fd) + s.flight.countP (·.on fd) + s.cq.countP (·.on fd)

def accepts (s : State) : Nat :=
  s.sq.countP (·.info.event == .accept) + s.flight.countP (·.info.event == .accept) +
    s.cq.countP (·.info.event == .accept)

def owed (s : State) (fd : Int) : Nat :=
  match s.table fd with
  | some c => if s.abandoned c then 0 else 1
  | none => 0

structure Inv (s : State) : Prop where
  accepts : accepts s = 1
  requests : ∀ fd, 0 ≤ fd → requests s fd = owed s fd
  bound : ∀ fd c, s.table fd = some c → 0 ≤ fd ∧ c < s.made
  inj : ∀ fd fd' c, s.table fd = some c → s.table fd' = some c → fd = fd'
  fresh : ∀ c, s.made ≤ c → s.abandoned c = false

theorem inv_init (sockfd : Int) : Inv (init sockfd) where
  accepts := rfl
  requests fd _ := rfl
  bound fd c h := by cases h
  inj fd fd' c h := by cases h
  fresh c _ := rfl

variable {sockfd fd : Int} {s t : State} {r : Sqe} {e : Cqe} {o : Outcome}

inductive Handles (sockfd : Int) (e : Cqe) (s : State) : State → Prop
  | accept {m t : State} (hev : e.info.event = .accept) (hm : setEventAccept sockfd s = some m)
      (ht : setEventRecv e.res m = some t) : Handles sockfd e s t
  | close (hev : e.info.event = .read) (hres : e.res = 0) : Handles sockfd e s (close e.info.fd s)
  | send {t : State} (hev : e.info.event = .read) (hres : 0 < e.res)
      (ht : setEventSend e.info.fd e.res.toNat s = some t) : Handles sockfd e s t
  | abandon (hev : e.info.event = .read) (hres : e.res < 0) : Handles sockfd e s (abandon e.info.fd s)
  | write {t : State} (hev : e.info.event = .write) (ht : setEventRecv e.info.fd s = some t) : Handles sockfd e s t

theorem handle_cases (h : handle sockfd e s = some t) : Handles sockfd e s t := by
  unfold handle at h
  split at h
  · obtain ⟨m, hm, ht⟩ := Option.bind_eq_some_iff.mp h
    exact .accept ‹_› hm ht
  · split at h
    · cases h
      exact .close ‹_› ‹_›
    · split at h
      · exact .send ‹_› ‹_› h
      · cases h
        exact .abandon ‹_› (by omega)
  · exact .write ‹_› h

inductive Completes (r : Sqe) (s : State) : Outcome → State → Prop
  | accepted {fd : Int} (hev : r.info.event = .accept) (hfd : 0 ≤ fd) (hfree : s.table fd = none) :
      Completes r s (.accepted fd)
        (post r fd { s with table := Function.update s.table fd (some s.made), made := s.made + 1 })
  | received {chunk : List Byte} {c : Nat} (hev : r.info.event = .read) (hc : s.table r.info.fd = some c) :
      Completes r s (.received chunk) (post r chunk.length { s with
        buffer := chunk ++ s.buffer.drop chunk.length
        received := Function.update s.received c (s.received c ++ chunk) })
  | sent {n c : Nat} (hev : r.info.event = .write) (hc : s.table r.info.fd = some c) (hn : n ≤ r.len) :
      Completes r s (.sent n) (post r n { s with sent := Function.update s.sent c (s.sent c ++ s.buffer.take n) })
  | failed {res : Int} (hres : res < 0) : Completes r s (.failed res) (post r res s)

theorem complete_cases (h : complete sockfd r o s = some t) : Completes r s o t := by
  unfold complete at h
  split at h
  · obtain ⟨⟨hfd, -, hfree⟩, h⟩ := Option.ite_none_right_eq_some.mp h
    cases h
    exact .accepted ‹_› hfd hfree
  · split at h
    · obtain ⟨-, h⟩ := Option.ite_none_right_eq_some.mp h
      cases h
      exact .received ‹_› ‹_›
    · cases h
  · split at h
    · obtain ⟨hn, h⟩ := Option.ite_none_right_eq_some.mp h
      cases h
      exact .sent ‹_› ‹_› hn
    · cases h
  · obtain ⟨hres, h⟩ := Option.ite_none_right_eq_some.mp h
    cases h
    exact .failed hres
  · cases h

inductive Steps (sockfd : Int) (s : State) : Label → State → Prop
  | submit {n : Nat} (hpc : s.pc = .submit) (hn : n ≤ s.sq.length) :
      Steps sockfd s (.submit n) { s with pc := .wait, sq := s.sq.drop n, flight := s.flight ++ s.sq.take n }
  | wait (hpc : s.pc = .wait) : Steps sockfd s .wait { s with pc := .handle (min 128 s.cq.length) }
  | handle {n : Nat} {e : Cqe} {rest : List Cqe} {t : State} (hpc : s.pc = .handle (n + 1)) (hq : s.cq = e :: rest)
      (h : handle sockfd e { s with pc := .handle n, cq := rest } = some t) : Steps sockfd s .handle t
  | advance (hpc : s.pc = .handle 0) : Steps sockfd s .advance { s with pc := .submit }
  | complete {i : Nat} {o : Outcome} {r : Sqe} {rest : List Sqe} {t : State} (hf : s.flight.drop i = r :: rest)
      (h : Completes r { s with flight := s.flight.take i ++ rest } o t) : Steps sockfd s (.complete i o) t

theorem step_cases {l : Label} (h : step sockfd l s = some t) : Steps sockfd s l t := by
  unfold step at h
  split at h
  · obtain ⟨⟨hpc, hn⟩, h⟩ := Option.ite_none_right_eq_some.mp h
    cases h
    exact .submit hpc hn
  · obtain ⟨hpc, h⟩ := Option.ite_none_right_eq_some.mp h
    cases h
    exact .wait hpc
  · split at h
    · exact .handle ‹_› ‹_› h
    · cases h
  · obtain ⟨hpc, h⟩ := Option.ite_none_right_eq_some.mp h
    cases h
    exact .advance hpc
  · split at h
    · exact .complete ‹_› (complete_cases h)
    · cases h

/-- Only the requests change. -/
theorem Inv.move (hs : Inv s) (ha : EventServer.accepts t = EventServer.accepts s)
    (hr : ∀ fd, 0 ≤ fd → EventServer.requests t fd = EventServer.requests s fd) (ht : t.table = s.table)
    (hm : t.made = s.made) (hd : t.abandoned = s.abandoned) : Inv t where
  accepts := ha.trans hs.accepts
  requests fd hfd := by
    rw [hr fd hfd, hs.requests fd hfd, owed, owed, ht, hd]
  bound := by
    rw [ht, hm]
    exact hs.bound
  inj := by
    rw [ht]
    exact hs.inj
  fresh := by
    rw [hm, hd]
    exact hs.fresh

theorem put_eq (h : put r s = some t) : t = { s with sq := s.sq ++ [r] } := by
  unfold put at h
  split at h
  · cases h
    rfl
  · cases h

theorem requests_put (h : put r s = some t) (fd : Int) : requests t fd = requests s fd + if r.on fd then 1 else 0 := by
  rw [put_eq h]
  simp only [requests, List.countP_append, List.countP_singleton]
  omega

theorem accepts_put (h : put r s = some t) : accepts t = accepts s + if r.info.event = .accept then 1 else 0 := by
  rw [put_eq h]
  simp only [accepts, List.countP_append, List.countP_singleton, beq_iff_eq]
  omega

/-- The completion `e` is the next to be handled. -/
theorem requests_cons {rest : List Cqe} (n : Pc) (h : s.cq = e :: rest) (fd : Int) :
    requests s fd = requests { s with pc := n, cq := rest } fd + if e.on fd then 1 else 0 := by
  simp only [requests, h, List.countP_cons]
  omega

theorem accepts_cons {rest : List Cqe} (n : Pc) (h : s.cq = e :: rest) :
    accepts s = accepts { s with pc := n, cq := rest } + if e.info.event = .accept then 1 else 0 := by
  simp only [accepts, h, List.countP_cons, beq_iff_eq]
  omega

/-- The request `r` is taken out of the kernel. -/
theorem requests_drop {i : Nat} {rest : List Sqe} (h : s.flight.drop i = r :: rest) (fd : Int) :
    requests s fd = requests { s with flight := s.flight.take i ++ rest } fd + if r.on fd then 1 else 0 := by
  have hf := List.take_append_drop i s.flight
  rw [h] at hf
  have hc := congrArg (List.countP (·.on fd)) hf
  simp only [List.countP_append, List.countP_cons] at hc
  simp only [requests, List.countP_append]
  omega

theorem accepts_drop {i : Nat} {rest : List Sqe} (h : s.flight.drop i = r :: rest) :
    accepts s = accepts { s with flight := s.flight.take i ++ rest } + if r.info.event = .accept then 1 else 0 := by
  have hf := List.take_append_drop i s.flight
  rw [h] at hf
  have hc := congrArg (List.countP (·.info.event == .accept)) hf
  simp only [List.countP_append, List.countP_cons, beq_iff_eq] at hc
  simp only [accepts, List.countP_append]
  omega

theorem requests_post (r : Sqe) (res : Int) (s : State) (fd : Int) :
    requests (post r res s) fd = requests s fd + if Cqe.on fd ⟨r.info, res⟩ then 1 else 0 := by
  simp only [requests, post, List.countP_append, List.countP_singleton]
  omega

theorem accepts_post (r : Sqe) (res : Int) (s : State) :
    accepts (post r res s) = accepts s + if r.info.event = .accept then 1 else 0 := by
  simp only [accepts, post, List.countP_append, List.countP_singleton, beq_iff_eq]
  omega

theorem owed_none (h : s.table fd = none) : owed s fd = 0 := by rw [owed, h]

theorem owed_some {c : Nat} (h : s.table fd = some c) : owed s fd = if s.abandoned c then 0 else 1 := by rw [owed, h]

theorem owed_congr (ht : t.table fd = s.table fd) (hd : ∀ c, s.table fd = some c → t.abandoned c = s.abandoned c) :
    owed s fd = owed t fd := by
  cases hc : s.table fd with
  | none => rw [owed_none hc, owed_none (ht.trans hc)]
  | some c => rw [owed_some hc, owed_some (ht.trans hc), hd c hc]

theorem owed_pos (h : 0 < owed s fd) : owed s fd = 1 ∧ ∃ c, s.table fd = some c ∧ s.abandoned c = false := by
  unfold owed at h ⊢
  split at h
  · rename_i c hc
    split at h
    · cases h
    · rename_i ha
      exact ⟨if_neg ha, c, hc, by simpa using ha⟩
  · cases h

/-- A completion on a descriptor that may be open is the only request for it, and it is open. -/
theorem Inv.owner {rest : List Cqe} (hs : Inv s) (n : Pc) (hq : s.cq = e :: rest) (he : e.on fd = true) (hfd : 0 ≤ fd) :
    EventServer.requests { s with pc := n, cq := rest } fd = 0 ∧ ∃ c, s.table fd = some c ∧ s.abandoned c = false := by
  have hreq := requests_cons n hq fd
  rw [he, if_pos rfl, hs.requests fd hfd] at hreq
  have hpos : 0 < owed s fd := by omega
  obtain ⟨hone, hc⟩ := owed_pos hpos
  exact ⟨by omega, hc⟩

theorem inv_close {rest : List Cqe} {n : Pc} (hs : Inv s) (hq : s.cq = e :: rest) (hev : e.info.event = .read) :
    Inv (close e.info.fd { s with pc := n, cq := rest }) where
  accepts := by
    have hacc := accepts_cons n hq
    rw [hs.accepts, hev] at hacc
    exact hacc.symm
  requests fd hfd := by
    have hon : e.on fd = (e.info.fd == fd) := by simp [Cqe.on, hev]
    by_cases he : fd = e.info.fd
    · subst he
      exact (hs.owner n hq (by simpa using hon) hfd).1.trans (owed_none (Function.update_self ..)).symm
    · have hreq := requests_cons n hq fd
      rw [hon, beq_false_of_ne (Ne.symm he), hs.requests fd hfd] at hreq
      exact hreq.symm.trans (owed_congr (Function.update_of_ne he ..) fun _ _ => rfl)
  bound fd c h := by
    by_cases he : fd = e.info.fd
    · subst he
      simp [close] at h
    · exact hs.bound fd c (by simpa [close, he] using h)
  inj fd fd' c h h' := by
    by_cases he : fd = e.info.fd
    · subst he
      simp [close] at h
    · by_cases he' : fd' = e.info.fd
      · subst he'
        simp [close] at h'
      · exact hs.inj fd fd' c (by simpa [close, he] using h) (by simpa [close, he'] using h')
  fresh := hs.fresh

theorem inv_abandon {rest : List Cqe} {n : Pc} (hs : Inv s) (hq : s.cq = e :: rest) (hev : e.info.event = .read) :
    Inv (abandon e.info.fd { s with pc := n, cq := rest }) := by
  have hacc := accepts_cons n hq
  rw [hs.accepts, hev] at hacc
  have hon : ∀ fd, e.on fd = (e.info.fd == fd) := fun fd => by simp [Cqe.on, hev]
  unfold abandon
  split
  · rename_i c hc
    refine ⟨hacc.symm, fun fd hfd => ?_, hs.bound, hs.inj, fun c' hc' => ?_⟩
    · by_cases he : fd = e.info.fd
      · subst he
        refine (hs.owner n hq (by simp [hon]) hfd).1.trans (Eq.symm ((owed_some (by exact hc)).trans (if_pos ?_)))
        exact Function.update_self ..
      · have hreq := requests_cons n hq fd
        rw [hon, beq_false_of_ne (Ne.symm he), hs.requests fd hfd] at hreq
        refine hreq.symm.trans (owed_congr rfl fun c' hc' => Function.update_of_ne ?_ ..)
        rintro rfl
        exact he (hs.inj fd _ _ hc' hc)
    · have hlt := (hs.bound _ _ hc).2
      exact (Function.update_of_ne (by change s.made ≤ c' at hc'; omega) ..).trans (hs.fresh c' hc')
  · rename_i hc
    refine hs.move (hacc.symm.trans hs.accepts.symm) (fun fd hfd => ?_) rfl rfl rfl
    have hreq := requests_cons n hq fd
    cases he : e.on fd with
    | false =>
      rw [he] at hreq
      exact hreq.symm
    | true =>
      obtain ⟨-, c, hc', -⟩ := hs.owner n hq he hfd
      rw [← eq_of_beq ((hon fd).symm.trans he)] at hc'
      exact absurd (hc.symm.trans hc') (by simp)

/-- A request on the descriptor of the completion takes its place. -/
theorem inv_put {rest : List Cqe} {n : Pc} (hs : Inv s) (hq : s.cq = e :: rest) (he : e.info.event ≠ .accept)
    (hr : r.info.event ≠ .accept) (hfd : r.info.fd = e.info.fd) (h : put r { s with pc := n, cq := rest } = some t) :
    Inv t := by
  have hpt := put_eq h
  refine hs.move ?_ (fun fd _ => ?_) (by rw [hpt]) (by rw [hpt]) (by rw [hpt])
  · rw [accepts_cons n hq, accepts_put h, if_neg he, if_neg hr]
  · rw [requests_cons n hq, requests_put h]
    simp [Sqe.on, Cqe.on, he, hr, hfd]

theorem inv_handle {rest : List Cqe} {n : Pc} (hs : Inv s) (hq : s.cq = e :: rest)
    (h : handle sockfd e { s with pc := n, cq := rest } = some t) : Inv t := by
  cases handle_cases h with
  | accept hev hm ht =>
    have hpm := put_eq hm
    have hpt := put_eq ht
    refine hs.move ?_ (fun fd _ => ?_) (by rw [hpt, hpm]) (by rw [hpt, hpm]) (by rw [hpt, hpm])
    · rw [accepts_cons n hq, accepts_put ht, accepts_put hm]
      simp [hev]
    · rw [requests_cons n hq, requests_put ht, requests_put hm]
      simp [Sqe.on, Cqe.on, hev]
  | close hev => exact inv_close hs hq hev
  | send hev _ ht => exact inv_put hs hq (by rw [hev]; simp) (by simp) rfl ht
  | abandon hev => exact inv_abandon hs hq hev
  | write hev ht => exact inv_put hs hq (by rw [hev]; simp) (by simp) rfl ht

/-- The request `r` becomes a completion of its own connection. -/
theorem inv_post {i : Nat} {rest : List Sqe} {res : Int} (hs : Inv s) (hf : s.flight.drop i = r :: rest)
    (hon : ∀ fd, 0 ≤ fd → Cqe.on fd ⟨r.info, res⟩ = r.on fd) :
    Inv (post r res { s with flight := s.flight.take i ++ rest }) := by
  refine hs.move ?_ (fun fd hfd => ?_) rfl rfl rfl
  · rw [accepts_post, accepts_drop hf]
  · rw [requests_post, requests_drop hf, hon fd hfd]

theorem inv_accepted {i : Nat} {rest : List Sqe} (hs : Inv s) (hf : s.flight.drop i = r :: rest)
    (hev : r.info.event = .accept) (hfd : 0 ≤ fd) (hfree : s.table fd = none) :
    Inv (post r fd { s with
      flight := s.flight.take i ++ rest
      table := Function.update s.table fd (some s.made)
      made := s.made + 1 }) where
  accepts := by
    refine (accepts_post r fd _).trans ((accepts_drop hf).symm.trans hs.accepts)
  requests fd' hfd' := by
    have hreq := requests_drop hf fd'
    rw [hs.requests fd' hfd'] at hreq
    simp only [Sqe.on, hev, bne_self_eq_false, Bool.false_and, Bool.false_eq_true, if_false, Nat.add_zero] at hreq
    refine (requests_post r fd _ fd').trans ?_
    by_cases he : fd' = fd
    · subst he
      rw [owed_some (Function.update_self ..)]
      simp only [post, hs.fresh s.made (Nat.le_refl _), Cqe.on, hev, if_true, beq_self_eq_true]
      exact congrArg (· + 1) (hreq.symm.trans (owed_none hfree))
    · simp only [Cqe.on, hev, if_true, beq_false_of_ne (Ne.symm he), Bool.false_eq_true, if_false]
      exact hreq.symm.trans (owed_congr (Function.update_of_ne he ..) fun _ _ => rfl)
  bound fd' c h := by
    by_cases he : fd' = fd
    · subst he
      simp only [post, Function.update_self, Option.some.injEq] at h
      subst h
      exact ⟨hfd, Nat.lt_succ_self _⟩
    · have hlt := hs.bound fd' c (by simpa [post, he] using h)
      exact ⟨hlt.1, Nat.lt_succ_of_lt hlt.2⟩
  inj fd₁ fd₂ c h₁ h₂ := by
    by_cases he₁ : fd₁ = fd
    · by_cases he₂ : fd₂ = fd
      · rw [he₁, he₂]
      · have hlt := (hs.bound fd₂ c (by simpa [post, he₂] using h₂)).2
        subst he₁
        simp only [post, Function.update_self, Option.some.injEq] at h₁
        omega
    · have h₁ : s.table fd₁ = some c := by simpa [post, he₁] using h₁
      by_cases he₂ : fd₂ = fd
      · have hlt := (hs.bound fd₁ c h₁).2
        subst he₂
        simp only [post, Function.update_self, Option.some.injEq] at h₂
        omega
      · exact hs.inj fd₁ fd₂ c h₁ (by simpa [post, he₂] using h₂)
  fresh c hc := hs.fresh c (Nat.le_of_succ_le hc)

theorem inv_complete {i : Nat} {rest : List Sqe} (hs : Inv s) (hf : s.flight.drop i = r :: rest)
    (h : Completes r { s with flight := s.flight.take i ++ rest } o t) : Inv t := by
  have hsame : r.info.event ≠ .accept → ∀ res fd, Cqe.on fd ⟨r.info, res⟩ = r.on fd := by
    intro hne res fd
    simp [Cqe.on, Sqe.on, hne]
  cases h with
  | accepted hev hfd hfree => exact inv_accepted hs hf hev hfd hfree
  | received hev =>
    exact (inv_post hs hf fun fd _ => hsame (by rw [hev]; simp) _ fd).move rfl (fun _ _ => rfl) rfl rfl rfl
  | sent hev =>
    exact (inv_post hs hf fun fd _ => hsame (by rw [hev]; simp) _ fd).move rfl (fun _ _ => rfl) rfl rfl rfl
  | @failed res hneg =>
    refine inv_post hs hf fun fd hfd => ?_
    by_cases hev : r.info.event = .accept
    · -- a failed accept gives no descriptor
      have hne : res ≠ fd := by omega
      simp [Cqe.on, Sqe.on, hev, hne]
    · exact hsame hev res fd

theorem inv_step {l : Label} (hs : Inv s) (h : step sockfd l s = some t) : Inv t := by
  cases step_cases h with
  | @submit n =>
    have hsplit := fun p : Sqe → Bool => congrArg (List.countP p) (List.take_append_drop n s.sq)
    simp only [List.countP_append] at hsplit
    refine hs.move ?_ (fun fd _ => ?_) rfl rfl rfl
    · have hc := hsplit (·.info.event == .accept)
      simp only [accepts, List.countP_append]
      omega
    · have hc := hsplit (·.on fd)
      simp only [requests, List.countP_append]
      omega
  | wait => exact hs.move rfl (fun _ _ => rfl) rfl rfl rfl
  | handle _ hq h => exact inv_handle hs hq h
  | advance => exact hs.move rfl (fun _ _ => rfl) rfl rfl rfl
  | complete hf h => exact inv_complete hs hf h

theorem inv_reachable (h : Reachable (step sockfd) (init sockfd) s) : Inv s :=
  h.invariant Inv (inv_init sockfd) fun _ _ _ _ => inv_step

/-- In every state of every run one `accept` is outstanding, an open connection has exactly one
request, and none if a `recv` on it has failed. There is none for a descriptor that is not
open, so the next connection that gets it never sees a completion of the last. -/
theorem one_request (h : Reachable (step sockfd) (init sockfd) s) :
    accepts s = 1 ∧ (∀ fd c, s.table fd = some c → requests s fd = if s.abandoned c then 0 else 1) ∧
      ∀ fd, 0 ≤ fd → s.table fd = none → requests s fd = 0 := by
  have hs := inv_reachable h
  refine ⟨hs.accepts, fun fd c hc => ?_, fun fd hfd hn => ?_⟩
  · rw [hs.requests fd (hs.bound fd c hc).1, owed_some hc]
  · rw [hs.requests fd hfd, owed_none hn]

def reset : List Label :=
  [.submit 1, .complete 0 (.accepted 5), .wait, .handle, .advance, .submit 2, .complete 1 (.failed (-104)), .wait, .handle]

theorem one_request_reset :
    ∃ s, Reachable (step 3) (init 3) s ∧ accepts s = 1 ∧ s.table 5 = some 0 ∧ requests s 5 = 0 := by
  obtain ⟨s, hs⟩ : ∃ s, s ∈ exec (step 3) reset (init 3) := ⟨_, rfl⟩
  have hr := Reachable.of_exec reset hs
  obtain ⟨ha, hopen, -⟩ := one_request hr
  have hc : s.table 5 = some 0 := by
    cases hs
    rfl
  refine ⟨s, hr, ha, hc, (hopen 5 0 hc).trans ?_⟩
  cases hs
  rfl

end TinyCoro.Client.EventServer
