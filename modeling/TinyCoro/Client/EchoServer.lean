import Mathlib.Data.List.Basic
import Mathlib.Logic.Function.Basic
import TinyCoro.Transition.Runs

/-! The echo server: one coroutine accepts connections and one for each of them reads and
writes. A request is in the hands of the kernel until it completes, and the coroutine that
awaits it is resumed with the result some time later; requests of different coroutines
complete in any order. -/
namespace TinyCoro.Client.EchoServer
open Transition

abbrev Byte := BitVec 8

def buffLen : Nat := 10240

/-- Where `session` stands: in a request, or in front of its resumption with the result. -/
inductive Pc
  | read
  | readDone (res : Int)
  | write (len : Nat)
  | writeDone (res : Int)
  | close
  | closeDone (res : Int)
  | finished
  deriving DecidableEq, Repr

structure Session where
  fd : Int
  pc : Pc
  buf : List Byte

inductive Server
  | accept
  | accepted (res : Int)
  | stopped
  deriving DecidableEq, Repr

structure Kernel where
  table : Int → Option Nat
  made : Nat

/-- The `n`-th session is that of the `n`-th descriptor that `server` was resumed with. What a
connection received and sent is history, and so are the bytes that a write left behind. -/
structure State where
  server : Server
  sessions : Nat → Option Session
  started : Nat
  kernel : Kernel
  received : Nat → List Byte
  sent : Nat → List Byte
  dropped : Nat → Nat

def init : State :=
  ⟨.accept, fun _ => none, 0, ⟨fun _ => none, 0⟩, fun _ => [], fun _ => [], fun _ => 0⟩

/-- A completion is a step of the kernel. `recv` gives the bytes that have come, none at the
end of the stream; `send` the number of bytes that have been taken; the others an error. -/
inductive Label
  | accept (fd : Int)
  | acceptFail (res : Int)
  | resumeServer
  | recv (k : Nat) (chunk : List Byte)
  | send (k n : Nat)
  | close (k : Nat)
  | fail (k : Nat) (res : Int)
  | resume (k : Nat)

def State.setPc (k : Nat) (x : Session) (pc : Pc) (s : State) : State :=
  { s with sessions := Function.update s.sessions k (some { x with pc := pc }) }

def State.submit (fd : Int) (s : State) : State :=
  { s with
    server := .accept
    sessions := Function.update s.sessions s.started (some ⟨fd, .read, List.replicate buffLen 0⟩)
    started := s.started + 1 }

/-- What the body does with the result of its request. -/
def Pc.resume : Pc → Option Pc
  | .readDone res => some (if 0 < res then .write res.toNat else .close)
  | .writeDone _ => some .read
  | .closeDone _ => some .finished
  | _ => none

def State.recv (k c : Nat) (x : Session) (chunk : List Byte) (s : State) : State :=
  { s with
    sessions := Function.update s.sessions k
      (some { x with pc := .readDone chunk.length, buf := chunk ++ x.buf.drop chunk.length })
    received := Function.update s.received c (s.received c ++ chunk) }

def State.send (k c len n : Nat) (x : Session) (s : State) : State :=
  { s with
    sessions := Function.update s.sessions k (some { x with pc := .writeDone n })
    sent := Function.update s.sent c (s.sent c ++ x.buf.take n)
    dropped := Function.update s.dropped k (s.dropped k + (len - n)) }

/-- A request on a descriptor that is not open fails. -/
def step (l : Label) (s : State) : Option State :=
  match l with
  | .accept fd =>
    if s.server = .accept ∧ 0 ≤ fd ∧ s.kernel.table fd = none then
      some { s with server := .accepted fd, kernel := ⟨Function.update s.kernel.table fd (some s.kernel.made),
        s.kernel.made + 1⟩ }
    else none
  | .acceptFail res => if s.server = .accept ∧ res < 0 then some { s with server := .accepted res } else none
  | .resumeServer => match s.server with
    | .accepted res => some (if 0 < res then s.submit res else { s with server := .stopped })
    | _ => none
  | .recv k chunk => match s.sessions k with
    | some x => match x.pc, s.kernel.table x.fd with
      | .read, some c => if chunk.length ≤ buffLen then some (s.recv k c x chunk) else none
      | _, _ => none
    | none => none
  | .send k n => match s.sessions k with
    | some x => match x.pc, s.kernel.table x.fd with
      | .write len, some c => if n ≤ len then some (s.send k c len n x) else none
      | _, _ => none
    | none => none
  | .close k => match s.sessions k with
    | some x => match x.pc, s.kernel.table x.fd with
      | .close, some _ =>
        some { s.setPc k x (.closeDone 0) with
          kernel := ⟨Function.update s.kernel.table x.fd none, s.kernel.made⟩ }
      | _, _ => none
    | none => none
  | .fail k res => match s.sessions k with
    | some x => if res < 0 then match x.pc with
        | .read => some (s.setPc k x (.readDone res))
        | .write len => some { s.setPc k x (.writeDone res) with
            dropped := Function.update s.dropped k (s.dropped k + len) }
        | .close => if s.kernel.table x.fd = none then some (s.setPc k x (.closeDone res)) else none
        | _ => none
      else none
    | none => none
  | .resume k => match s.sessions k with
    | some x => x.pc.resume.map fun pc => s.setPc k x pc
    | none => none

def pending (x : Session) : List Byte :=
  match x.pc with
  | .readDone res => x.buf.take res.toNat
  | .write len => x.buf.take len
  | _ => []

/-- The request of a session, or the one that it makes next, is on its own connection. -/
def live : Pc → Bool
  | .closeDone _ | .finished => false
  | _ => true

/-- The results are in range, and closing has succeeded. -/
def InRange : Pc → Prop
  | .readDone res => res ≤ buffLen
  | .write len => len ≤ buffLen
  | .closeDone res => res = 0
  | _ => True

/-- What a connection has sent, and what its session has still to write, is what it received
without the bytes that were left behind. -/
structure Sound (x : Session) (received sent : List Byte) (dropped : Nat) : Prop where
  buf : x.buf.length = buffLen
  range : InRange x.pc
  order : (sent ++ pending x).Sublist received
  count : received.length = sent.length + (pending x).length + dropped

def Accepting (s : State) : Server → Prop
  | .accept => s.kernel.made = s.started
  | .accepted res => (0 ≤ res → s.kernel.table res = some s.started ∧ s.kernel.made = s.started + 1) ∧
    (res < 0 → s.kernel.made = s.started)
  | .stopped => True

structure Inv (s : State) : Prop where
  bound : ∀ k x, s.sessions k = some x → k < s.started
  own : ∀ k x, s.sessions k = some x → live x.pc = true → s.kernel.table x.fd = some k
  server : Accepting s s.server
  sound : ∀ k x, s.sessions k = some x → Sound x (s.received k) (s.sent k) (s.dropped k)
  fresh : ∀ k, s.started ≤ k → s.received k = [] ∧ s.sent k = [] ∧ s.dropped k = 0

theorem inv_init : Inv init where
  bound k x h := by cases h
  own k x h := by cases h
  server := rfl
  sound k x h := by cases h
  fresh k _ := ⟨rfl, rfl, rfl⟩

variable {s t : State} {k c : Nat} {x y : Session}

theorem Accepting.kept {v : Server} (h : Accepting s v) (hm : t.kernel.made = s.kernel.made) (hn : t.started = s.started)
    (ht : ∀ res, s.kernel.table res = some s.started → t.kernel.table res = some s.started) : Accepting t v := by
  cases v with
  | accept => exact hm.trans (h.trans hn.symm)
  | stopped => trivial
  | accepted res =>
    refine ⟨fun h0 => ?_, fun h0 => hm.trans ((h.2 h0).trans hn.symm)⟩
    obtain ⟨hopen, hmade⟩ := h.1 h0
    rw [hn, hm]
    exact ⟨ht res hopen, hmade⟩

/-- A session moves on, and nothing changes for the others. -/
theorem inv_move (hs : Inv s) (hx : s.sessions k = some x) (hfd : y.fd = x.fd)
    (hlive : live y.pc = true → live x.pc = true) {received sent : Nat → List Byte} {dropped : Nat → Nat}
    (hsame : ∀ j, j ≠ k → received j = s.received j ∧ sent j = s.sent j ∧ dropped j = s.dropped j)
    (hy : Sound y (received k) (sent k) (dropped k)) :
    Inv { s with
      sessions := Function.update s.sessions k (some y), received := received, sent := sent, dropped := dropped } where
  bound j z hz := by
    by_cases hj : j = k
    · rw [hj]
      exact hs.bound k x hx
    · exact hs.bound j z (by simpa [hj] using hz)
  own j z hz hl := by
    by_cases hj : j = k
    · subst hj
      obtain rfl : y = z := by simpa using hz
      rw [hfd]
      exact hs.own j x hx (hlive hl)
    · exact hs.own j z (by simpa [hj] using hz) hl
  server := hs.server.kept rfl rfl fun _ => id
  sound j z hz := by
    by_cases hj : j = k
    · subst hj
      obtain rfl : y = z := by simpa using hz
      exact hy
    · obtain ⟨hr, hn, hd⟩ := hsame j hj
      have := hs.sound j z (by simpa [hj] using hz)
      rwa [← hr, ← hn, ← hd] at this
  fresh j hj := by
    have hlt := hs.bound k x hx
    obtain ⟨hr, hn, hd⟩ := hsame j (by rintro rfl; exact absurd hlt (Nat.not_lt.mpr hj))
    have := hs.fresh j hj
    rwa [← hr, ← hn, ← hd] at this

/-- The body goes on, with the same bytes still to be written. -/
theorem inv_setPc (hs : Inv s) (hx : s.sessions k = some x) {pc : Pc} (hlive : live pc = true → live x.pc = true)
    (hr : InRange pc) (hp : pending { x with pc := pc } = pending x) : Inv (s.setPc k x pc) := by
  have h := hs.sound k x hx
  refine inv_move (y := { x with pc := pc }) hs hx rfl hlive (fun _ _ => ⟨rfl, rfl, rfl⟩) ⟨h.buf, hr, ?_, ?_⟩
  · rw [hp]
    exact h.order
  · rw [hp]
    exact h.count

theorem inv_recv (hs : Inv s) (hx : s.sessions k = some x) (hp : x.pc = .read) {chunk : List Byte}
    (hlen : chunk.length ≤ buffLen) : Inv (s.recv k k x chunk) := by
  have h := hs.sound k x hx
  have hnone : pending x = [] := by rw [pending, hp]
  have horder := h.order
  have hcount := h.count
  rw [hnone, List.append_nil] at horder
  rw [hnone, List.length_nil] at hcount
  have htake : pending { x with pc := .readDone chunk.length, buf := chunk ++ x.buf.drop chunk.length } = chunk := by
    simp [pending]
  refine inv_move (y := { x with pc := .readDone chunk.length, buf := chunk ++ x.buf.drop chunk.length }) hs hx rfl
    (fun _ => by rw [hp]; rfl) (fun j hj => ⟨Function.update_of_ne hj .., rfl, rfl⟩)
    ⟨?_, by simpa [InRange] using hlen, ?_, ?_⟩
  · have := h.buf
    simp only [List.length_append, List.length_drop]
    omega
  · rw [htake, Function.update_self]
    exact horder.append_right chunk
  · rw [htake, Function.update_self, List.length_append, hcount]
    omega

/-- Of the bytes to be written the first ones are sent and the others left behind. -/
theorem Sound.write {received sent : List Byte} {dropped len n : Nat} (h : Sound x received sent dropped)
    (hp : x.pc = .write len) (hn : n ≤ len) (res : Int) :
    Sound { x with pc := .writeDone res } received (sent ++ x.buf.take n) (dropped + (len - n)) := by
  have hlen : len ≤ buffLen := by simpa [hp, InRange] using h.range
  have hbuf := h.buf
  have hpend : pending x = x.buf.take len := by rw [pending, hp]
  have horder := h.order
  have hcount := h.count
  rw [hpend] at horder hcount
  refine ⟨hbuf, trivial, ?_, ?_⟩
  · change (sent ++ x.buf.take n ++ []).Sublist _
    rw [List.append_nil]
    exact ((List.take_sublist_take_left hn).append_left _).trans horder
  · change _ = (sent ++ x.buf.take n).length + 0 + _
    rw [hcount, List.length_append, List.length_take, List.length_take]
    omega

theorem inv_send (hs : Inv s) (hx : s.sessions k = some x) {len n : Nat} (hp : x.pc = .write len) (hn : n ≤ len) :
    Inv (s.send k k len n x) := by
  refine inv_move (y := { x with pc := .writeDone n }) hs hx rfl (fun _ => by rw [hp]; rfl)
    (fun j hj => ⟨rfl, Function.update_of_ne hj .., Function.update_of_ne hj ..⟩) ?_
  rw [Function.update_self, Function.update_self]
  exact (hs.sound k x hx).write hp hn n

/-- A failed write leaves all of its bytes behind. -/
theorem inv_writeFail (hs : Inv s) (hx : s.sessions k = some x) {len : Nat} (hp : x.pc = .write len) (res : Int) :
    Inv { s.setPc k x (.writeDone res) with dropped := Function.update s.dropped k (s.dropped k + len) } := by
  refine inv_move (y := { x with pc := .writeDone res }) hs hx rfl (fun _ => by rw [hp]; rfl)
    (fun j hj => ⟨rfl, rfl, Function.update_of_ne hj ..⟩) ?_
  have hwrite := (hs.sound k x hx).write hp (Nat.zero_le len) res
  rw [List.take_zero, List.append_nil] at hwrite
  rw [Function.update_self]
  exact hwrite

/-- Neither another session nor the newest connection has the descriptor that is closed. -/
theorem inv_close (hs : Inv s) (hx : s.sessions k = some x) (hp : x.pc = .close) :
    Inv { s.setPc k x (.closeDone 0) with kernel := ⟨Function.update s.kernel.table x.fd none, s.kernel.made⟩ } := by
  have hmove : Inv (s.setPc k x (.closeDone 0)) :=
    inv_setPc hs hx (fun h => by cases h) rfl (by simp [pending, hp])
  have hopen := hs.own k x hx (by rw [hp]; rfl)
  have hother : ∀ fd c, s.kernel.table fd = some c → c ≠ k → Function.update s.kernel.table x.fd none fd = some c := by
    intro fd c hc hck
    rw [Function.update_of_ne]
    · exact hc
    · rintro rfl
      exact hck (Option.some.inj (hc.symm.trans hopen))
  refine { hmove with own := fun j z hz hl => hother _ _ (hmove.own j z hz hl) ?_, server := ?_ }
  · rintro rfl
    obtain rfl : { x with pc := .closeDone 0 } = z := by simpa [State.setPc] using hz
    cases hl
  · exact hs.server.kept rfl rfl fun res hres => hother res _ hres (Nat.ne_of_gt (hs.bound k x hx))

/-- The kernel accepts a connection. -/
theorem inv_accept (hs : Inv s) (hv : s.server = .accept) {fd : Int} (hfd : 0 ≤ fd) (hfree : s.kernel.table fd = none) :
    Inv { s with
      server := .accepted fd
      kernel := ⟨Function.update s.kernel.table fd (some s.kernel.made), s.kernel.made + 1⟩ } := by
  have hmade : s.kernel.made = s.started := by
    have h := hs.server
    rwa [hv] at h
  refine { hs with own := fun j z hz hl => ?_, server := ⟨fun _ => ⟨?_, ?_⟩, fun h => absurd hfd (by omega)⟩ }
  · have hj := hs.own j z hz hl
    refine (Function.update_of_ne ?_ ..).trans hj
    intro he
    rw [he, hfree] at hj
    cases hj
  · exact (Function.update_self ..).trans (congrArg some hmade)
  · exact congrArg (· + 1) hmade

/-- `server` submits the session of the newest connection. -/
theorem inv_submit (hs : Inv s) {fd : Int} (hv : s.server = .accepted fd) (hfd : 0 < fd) : Inv (s.submit fd) := by
  have hserver := hs.server
  rw [hv] at hserver
  obtain ⟨hopen, hmade⟩ := hserver.1 (by omega)
  have hcases : ∀ j z, (s.submit fd).sessions j = some z →
      (j = s.started ∧ z = ⟨fd, .read, List.replicate buffLen 0⟩) ∨ s.sessions j = some z := by
    intro j z hz
    by_cases hj : j = s.started
    · subst hj
      exact .inl ⟨rfl, by simpa [State.submit] using hz.symm⟩
    · exact .inr (by simpa [State.submit, hj] using hz)
  refine ⟨fun j z hz => ?_, fun j z hz hl => ?_, hmade, fun j z hz => ?_, fun j hj => hs.fresh j (Nat.le_of_succ_le hj)⟩
  · rcases hcases j z hz with ⟨rfl, -⟩ | hz
    · exact Nat.lt_succ_self _
    · exact Nat.lt_succ_of_lt (hs.bound j z hz)
  · rcases hcases j z hz with ⟨rfl, rfl⟩ | hz
    · exact hopen
    · exact hs.own j z hz hl
  · rcases hcases j z hz with ⟨rfl, rfl⟩ | hz
    · obtain ⟨hr, hn, hd⟩ := hs.fresh s.started (Nat.le_refl _)
      change Sound _ (s.received s.started) (s.sent s.started) (s.dropped s.started)
      rw [hr, hn, hd]
      exact ⟨List.length_replicate, trivial, List.Sublist.slnil, rfl⟩
    · exact hs.sound j z hz

/-- A result is in range, so a session only writes what it has read. -/
theorem inv_resume (hs : Inv s) (hx : s.sessions k = some x) {pc : Pc} (h : x.pc.resume = some pc) :
    Inv (s.setPc k x pc) := by
  have hrange := (hs.sound k x hx).range
  cases hp : x.pc with
  | readDone res =>
    rw [hp] at h hrange
    cases h
    split
    · exact inv_setPc hs hx (fun _ => by rw [hp]; rfl) (by change res.toNat ≤ buffLen; change res ≤ buffLen at hrange; omega)
        (by simp [pending, hp])
    · have hzero : res.toNat = 0 := by omega
      exact inv_setPc hs hx (fun _ => by rw [hp]; rfl) trivial (by simp [pending, hp, hzero])
  | writeDone res =>
    rw [hp] at h
    cases h
    exact inv_setPc hs hx (fun _ => by rw [hp]; rfl) trivial (by simp [pending, hp])
  | closeDone res =>
    rw [hp] at h
    cases h
    exact inv_setPc hs hx (fun h => by cases h) trivial (by simp [pending, hp])
  | read | write | close | finished =>
    rw [hp] at h
    cases h

/-- A request on the descriptor of a session is one on its connection. -/
theorem own_connection (hs : Inv s) (hx : s.sessions k = some x) (hl : live x.pc = true)
    (hc : s.kernel.table x.fd = some c) : k = c :=
  Option.some.inj ((hs.own k x hx hl).symm.trans hc)

theorem inv_step {l : Label} (hs : Inv s) (h : step l s = some t) : Inv t := by
  cases l with
  | accept fd =>
    simp only [step] at h
    split at h
    · rename_i hc
      cases h
      exact inv_accept hs hc.1 hc.2.1 hc.2.2
    · cases h
  | acceptFail res =>
    simp only [step] at h
    split at h
    · rename_i hc
      cases h
      have hserver := hs.server
      rw [hc.1] at hserver
      exact { hs with server := ⟨fun h0 => absurd hc.2 (by omega), fun _ => hserver⟩ }
    · cases h
  | resumeServer =>
    simp only [step] at h
    split at h
    · rename_i res hv
      cases h
      split
      · exact inv_submit hs hv ‹_›
      · exact { hs with server := trivial }
    · cases h
  | recv k chunk =>
    simp only [step] at h
    split at h
    · rename_i x hx
      split at h
      · rename_i c hp hc
        split at h
        · cases h
          obtain rfl := own_connection hs hx (by rw [hp]; rfl) hc
          exact inv_recv hs hx hp ‹_›
        · cases h
      · cases h
    · cases h
  | send k n =>
    simp only [step] at h
    split at h
    · rename_i x hx
      split at h
      · rename_i len c hp hc
        split at h
        · cases h
          obtain rfl := own_connection hs hx (by rw [hp]; rfl) hc
          exact inv_send hs hx hp ‹_›
        · cases h
      · cases h
    · cases h
  | close k =>
    simp only [step] at h
    split at h
    · rename_i x hx
      split at h
      · rename_i c hp hc
        cases h
        exact inv_close hs hx hp
      · cases h
    · cases h
  | fail k res =>
    simp only [step] at h
    split at h
    · rename_i x hx
      split at h
      · rename_i hneg
        split at h
        · rename_i hp
          cases h
          have hzero : res.toNat = 0 := by omega
          exact inv_setPc hs hx (fun _ => by rw [hp]; rfl) (by change res ≤ buffLen; omega) (by simp [pending, hp, hzero])
        · rename_i len hp
          cases h
          exact inv_writeFail hs hx hp res
        · rename_i hp
          -- the descriptor is open, so closing it does not fail
          split at h
          · rename_i hnone
            have hopen := hs.own k x hx (by rw [hp]; rfl)
            rw [hnone] at hopen
            cases hopen
          · cases h
        · cases h
      · cases h
    · cases h
  | resume k =>
    simp only [step] at h
    split at h
    · rename_i x hx
      obtain ⟨pc, hpc, rfl⟩ := Option.map_eq_some_iff.mp h
      exact inv_resume hs hx hpc
    · cases h

/-- In every run, whatever the order of the completions and their results: a session that has
not closed its connection has it still, also when descriptors are given out again; closing
succeeds; and what the connection has sent, with the bytes that are still to be written, is
what it received exactly if no write of the session was short or failed. Whatever was left
behind, nothing is sent that was not received, nor in another order. -/
theorem sessions_echo (h : Reachable step init s) {k : Nat} {x : Session} (hx : s.sessions k = some x) :
    (live x.pc = true → s.kernel.table x.fd = some k) ∧ (∀ res, x.pc = .closeDone res → res = 0) ∧
    (s.sent k ++ pending x).Sublist (s.received k) ∧
    (s.sent k ++ pending x = s.received k ↔ s.dropped k = 0) := by
  have hs := h.invariant Inv inv_init fun _ _ _ _ => inv_step
  have hk := hs.sound k x hx
  have hcount := hk.count
  refine ⟨hs.own k x hx, fun res hp => ?_, hk.order, fun he => ?_, fun hd => ?_⟩
  · have hr := hk.range
    rwa [hp] at hr
  · have hlen := congrArg List.length he
    rw [List.length_append] at hlen
    omega
  · apply hk.order.eq_of_length
    rw [List.length_append]
    omega

/-- Two connections, the second on the descriptor of the first after that one was closed. -/
def twoClients : List Label :=
  [.accept 5, .resumeServer, .recv 0 [1, 2], .resume 0, .send 0 2, .resume 0, .recv 0 [], .resume 0, .close 0,
    .accept 5, .resumeServer, .recv 1 [3, 4], .resume 1, .send 1 1, .resume 0]

theorem sessions_echo_twoClients : ∃ s x y, Reachable step init s ∧ s.sessions 0 = some x ∧ s.sessions 1 = some y ∧
    s.sent 0 ++ pending x = s.received 0 ∧ s.sent 1 ++ pending y ≠ s.received 1 ∧ s.received 1 = [3, 4] := by
  obtain ⟨s, hs⟩ : ∃ s, s ∈ exec step twoClients init := ⟨_, rfl⟩
  have hr := Reachable.of_exec twoClients hs
  obtain ⟨x, hx⟩ : ∃ x, s.sessions 0 = some x := by
    cases hs
    exact ⟨_, rfl⟩
  obtain ⟨y, hy⟩ : ∃ y, s.sessions 1 = some y := by
    cases hs
    exact ⟨_, rfl⟩
  have h0 := (sessions_echo hr hx).2.2.2
  have h1 := (sessions_echo hr hy).2.2.2
  refine ⟨s, x, y, hr, hx, hy, h0.mpr ?_, fun he => absurd (h1.mp he) ?_, ?_⟩ <;> cases hs <;> decide

end TinyCoro.Client.EchoServer
