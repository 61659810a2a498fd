import TinyCoro.Transition.Runs
import TinyCoro.Uring.Entries
import TinyCoro.Words.RingBuffer

/-! An engine on the rings that it shares with the kernel, one step for each access of a
variable that the kernel may change. `poll_submit` is as in the model of the engine alone,
with the calls of liburing in the place of the lists. -/
namespace TinyCoro.Uring
open Transition Words

/-- What `io_uring_setup` answers, and `m_urc.size()`. `extArg` is IORING_FEAT_EXT_ARG; the
flags of the ring are 0. -/
structure Config where
  sqEntries : Unsigned
  cqEntries : Unsigned
  queCap : Unsigned
  extArg : Bool
  sqBits : Nat
  cqBits : Nat
  sqPower : sqEntries.toNat = 2 ^ sqBits
  cqPower : cqEntries.toNat = 2 ^ cqBits

structure Sq where
  khead : Unsigned
  ktail : Unsigned
  array : Unsigned → Unsigned
  sqes : Unsigned → Sqe
  sqeHead : Unsigned
  sqeTail : Unsigned

structure Cq where
  khead : Unsigned
  ktail : Unsigned
  cqes : Unsigned → Cqe

def Sq.getSqe (cfg : Config) (sq : Sq) : Option (Unsigned × Sq) :=
  if cfg.sqEntries ≤ sq.sqeTail - sq.khead then none
  else
    let i := sq.sqeTail &&& (cfg.sqEntries - 1)
    some (i, { sq with sqeTail := sq.sqeTail + 1, sqes := Function.update sq.sqes i (sq.sqes i).initializeSqe })

def Sq.fill (i : Unsigned) (q : Awaiter) (info : Address) (sq : Sq) : Sq :=
  { sq with sqes := Function.update sq.sqes i ((q.prep (sq.sqes i)).setData info) }

def Sq.flush (sq : Sq) : Sq × Unsigned :=
  (if sq.sqeHead ≠ sq.sqeTail then { sq with sqeHead := sq.sqeTail, ktail := sq.sqeTail } else sq, sq.sqeTail - sq.khead)

/-- The kernel reads `k` entries, through the index array. -/
def Sq.entries (cfg : Config) (k : Nat) (sq : Sq) : List Sqe :=
  (List.range k).map fun j => sq.sqes (sq.array ((sq.khead + .ofNat 32 j) &&& (cfg.sqEntries - 1)))

def Cq.ready (cq : Cq) : Unsigned := cq.ktail - cq.khead

def Cq.advance (nr : Unsigned) (cq : Cq) : Cq := if nr ≠ 0 then { cq with khead := cq.khead + nr } else cq

def Cq.post (cfg : Config) (c : Cqe) (cq : Cq) : Cq :=
  { cq with cqes := Function.update cq.cqes (cq.ktail &&& (cfg.cqEntries - 1)) c, ktail := cq.ktail + 1 }

def Cq.skips (cfg : Config) (cq : Cq) : Bool :=
  !cfg.extArg && (cq.cqes (cq.khead &&& (cfg.cqEntries - 1))).userData == BitVec.allOnes 64

/-- Where the engine's thread is. `submit` to `submitEnter` are `io_uring_submit`, `peek` to
`getEvents` are `io_uring_peek_cqe`, and `batch` to `batchEvents` are `io_uring_peek_batch_cqe`. -/
inductive Pc
  | idle
  | submit (n : Nat)
  | submitFlags (n : Nat) (submitted : Unsigned)
  | submitEnter (n : Nat) (submitted : Unsigned) (getevents : Bool)
  | addRunning (n : Nat)
  | subSubmit (n : Nat)
  | pollRunning
  | waitEventfd
  | peek
  | getCqe (looped : Bool)
  | getFlags
  | getEvents
  | batch (again : Bool)
  | batchFlags
  | batchEvents
  | callback (k n : Nat)
  | subRunning (n : Nat)
  deriving DecidableEq, Repr

/-- `running` are the entries that the kernel has and has not completed, and `overflow` the
completions for which there was no room. `info` is the memory of the awaiters, `live` says
where there is one whose callback has not run, and `submitted` are the awaiters whose handle
was given to `submit_to_context`. The rest is history: the awaiters in the order in which
they were made, the entries that the kernel took, the completions it posted, those that
`cq_advance` passed, and those whose callback was called. -/
structure State where
  ioSubmitCount : Nat
  ioRunningCount : Nat
  eventfd : Nat
  pc : Pc
  urc : Nat → Unsigned
  sq : Sq
  cq : Cq
  running : List Sqe
  overflow : List Cqe
  info : Address → IoInfo
  live : Address → Bool
  submitted : List Address
  made : List (Awaiter × Address)
  taken : List Sqe
  posted : List Cqe
  consumed : List Cqe
  calls : List Cqe

/-- What is in the memory before. The counters start at 0 on a new ring; here it may be anywhere. -/
structure Memory where
  sqes : Unsigned → Sqe
  cqes : Unsigned → Cqe
  info : Address → IoInfo
  urc : Nat → Unsigned
  sqStart : Unsigned
  cqStart : Unsigned

/-- `io_uring_queue_init_params` maps each place of the ring to the entry of the same index. -/
def init (cfg : Config) (m : Memory) : State where
  ioSubmitCount := 0
  ioRunningCount := 0
  eventfd := 0
  pc := .idle
  urc := m.urc
  sq := ⟨m.sqStart, m.sqStart, fun i => if i < cfg.sqEntries then i else 0, m.sqes, m.sqStart, m.sqStart⟩
  cq := ⟨m.cqStart, m.cqStart, m.cqes⟩
  running := []
  overflow := []
  info := m.info
  live _ := false
  submitted := []
  made := []
  taken := []
  posted := []
  consumed := []
  calls := []

namespace State

def goto (p : Pc) (s : State) : State := { s with pc := p }

/-- `cq_ring_needs_flush`: of the two flags the kernel sets only IORING_SQ_CQ_OVERFLOW here. -/
def needsFlush (s : State) : Bool := !s.overflow.isEmpty

/-- `__io_uring_peek_cqe`, one round of its loop: where it goes if it finds an entry, if it
finds none and if an entry says that there is an error. -/
def peekCqe (cfg : Config) (found none error : Pc) (s : State) : State :=
  if s.cq.ready = 0 then s.goto none
  else if s.cq.skips cfg then
    { s with
      cq := s.cq.advance 1
      pc := if (s.cq.cqes (s.cq.khead &&& (cfg.cqEntries - 1))).res.toInt < 0 then error else s.pc }
  else s.goto found

/-- `io_uring_peek_batch_cqe_`: the entries go into `m_urc`, as many as fit. -/
def peekBatch (cfg : Config) (none : Pc) (s : State) : State :=
  if s.cq.ready = 0 then s.goto none
  else
    let count := if s.cq.ready < cfg.queCap then s.cq.ready else cfg.queCap
    { s with
      urc := fun j => if j < count.toNat then (s.cq.khead + .ofNat 32 j) &&& (cfg.cqEntries - 1) else s.urc j
      pc := .callback 0 count.toNat }

def batch (n : Nat) (s : State) : List Cqe := (List.range n).map fun j => s.cq.cqes (s.urc j)

def handleCqeEntry (c : Cqe) (s : State) : State :=
  { s with
    info := Function.update s.info c.userData ((s.info c.userData).callback c.res)
    live := Function.update s.live c.userData false
    submitted := s.submitted ++ [c.userData]
    eventfd := s.eventfd + 1
    calls := s.calls ++ [c] }

/-- The next step of `poll_submit`; `none` where it waits, or where the kernel answers. -/
def pollStep (cfg : Config) (s : State) : Option State :=
  match s.pc with
  | .idle => none
  | .submit n => some { s with sq := s.sq.flush.1, pc := .submitFlags n s.sq.flush.2 }
  | .submitFlags n submitted =>
    some (s.goto (if submitted ≠ 0 ∨ s.needsFlush then .submitEnter n submitted s.needsFlush else .addRunning n))
  | .submitEnter .. => none
  | .addRunning n => some { s with pc := .subSubmit n, ioRunningCount := s.ioRunningCount + n }
  | .subSubmit n => some { s with pc := .pollRunning, ioSubmitCount := s.ioSubmitCount - n }
  | .pollRunning => some (s.goto (if s.ioRunningCount = 0 then .waitEventfd else .peek))
  | .waitEventfd => if s.eventfd = 0 then none else some { s with pc := .idle, eventfd := 0 }
  | .peek => some (s.peekCqe cfg (.batch false) (.getCqe false) (.getCqe false))
  | .getCqe looped => some (s.peekCqe cfg (.batch false) (if looped then .idle else .getFlags) .idle)
  | .getFlags => some (s.goto (if s.needsFlush then .getEvents else .idle))
  | .getEvents => none
  | .batch again => some (s.peekBatch cfg (if again then .callback 0 0 else .batchFlags))
  | .batchFlags => some (s.goto (if s.needsFlush then .batchEvents else .callback 0 0))
  | .batchEvents => none
  | .callback k n =>
    if k < n then some ((s.handleCqeEntry (s.cq.cqes (s.urc k))).goto (.callback (k + 1) n))
    else some { s with pc := .subRunning n, cq := s.cq.advance (.ofNat 32 n), consumed := s.consumed ++ s.batch n }
  | .subRunning n => some { s with pc := .idle, ioRunningCount := s.ioRunningCount - n }

def take (cfg : Config) (k : Nat) (s : State) : State :=
  { s with
    sq := { s.sq with khead := s.sq.khead + .ofNat 32 k }
    running := s.running ++ s.sq.entries cfg k
    taken := s.taken ++ s.sq.entries cfg k }

def room (cfg : Config) (s : State) : Bool := decide (s.cq.ready < cfg.cqEntries)

/-- A call of `io_uring_enter` returns. One that asks for events has moved what it could out
of the overflow, unless it fails. -/
def enter (cfg : Config) (res : Int) (s : State) : Option State :=
  match s.pc with
  | .submitEnter n submitted _ =>
    if res ≤ submitted.toNat ∧ res ≤ (s.sq.ktail - s.sq.khead).toNat then
      some ((s.take cfg res.toNat).goto (.addRunning n))
    else none
  | .getEvents =>
    if res < 0 then some (s.goto .idle)
    else if res = 0 ∧ (s.overflow = [] ∨ s.room cfg = false) then some (s.goto (.getCqe true))
    else none
  | .batchEvents =>
    if res < 0 ∨ res = 0 ∧ (s.overflow = [] ∨ s.room cfg = false) then some (s.goto (.batch true)) else none
  | _ => none

def inEvents (s : State) : Bool :=
  match s.pc with
  | .submitEnter _ _ getevents => getevents
  | .getEvents | .batchEvents => true
  | _ => false

end State

/-- `request q info` is the constructor of an awaiter, `poll` begins `poll_submit` and `step`
is its next step. The others are the kernel's, but for `write`, an eventfd write of another
thread: `enter` is the answer of `io_uring_enter`, `complete i res signal` posts the completion of
an entry that it has, which signals the eventfd at least if it goes into the ring, and `flush` moves
a completion out of the overflow. -/
inductive Label
  | request (q : Awaiter) (info : Address)
  | poll
  | step
  | enter (res : Int)
  | complete (i : Nat) (res : BitVec 32) (signal : Bool)
  | flush
  | write
  deriving DecidableEq, Repr

open State in
def step (cfg : Config) (l : Label) (s : State) : Option State :=
  match l with
  | .request q info =>
    if s.pc = .idle ∧ s.live info = false ∧ info ≠ BitVec.allOnes 64 then
      (s.sq.getSqe cfg).map fun slot =>
        { s with
          sq := slot.2.fill slot.1 q info
          info := Function.update s.info info (q.inform (s.info info))
          live := Function.update s.live info true
          ioSubmitCount := s.ioSubmitCount + 1
          made := s.made ++ [(q, info)] }
    else none
  | .poll =>
    if s.pc = .idle then some (s.goto (if s.ioSubmitCount > 0 then .submit s.ioSubmitCount else .pollRunning)) else none
  | .step => s.pollStep cfg
  | .enter res => s.enter cfg res
  | .complete i res signal =>
    match s.running[i]? with
    | none => none
    | some e =>
      let c : Cqe := ⟨e.userData, res⟩
      if s.overflow = [] ∧ s.room cfg then
        some { s with
          running := s.running.eraseIdx i
          cq := s.cq.post cfg c
          eventfd := s.eventfd + 1
          posted := s.posted ++ [c] }
      else
        some { s with
          running := s.running.eraseIdx i
          overflow := s.overflow ++ [c]
          eventfd := if signal then s.eventfd + 1 else s.eventfd
          posted := s.posted ++ [c] }
  | .flush =>
    match s.overflow with
    | [] => none
    | c :: overflow =>
      if s.inEvents ∧ s.room cfg then
        some { s with overflow := overflow, cq := s.cq.post cfg c, eventfd := s.eventfd + 1 }
      else none
  | .write => some { s with eventfd := s.eventfd + 1 }

def Sq.put (cfg : Config) (q : Awaiter) (info : Address) (sq : Sq) : Sq :=
  { sq with sqeTail := sq.sqeTail + 1, sqes := Function.update sq.sqes (sq.sqeTail &&& (cfg.sqEntries - 1)) (q.sqe info) }

theorem Sq.getSqe_eq_none (cfg : Config) (sq : Sq) : sq.getSqe cfg = none ↔ cfg.sqEntries ≤ sq.sqeTail - sq.khead := by
  unfold Sq.getSqe
  split
  · rename_i h
    exact ⟨fun _ => h, fun _ => rfl⟩
  · rename_i h
    exact ⟨fun hn => by simp at hn, fun hle => absurd hle h⟩

theorem Sq.getSqe_fill {cfg : Config} {sq : Sq} {slot : Unsigned × Sq} (h : sq.getSqe cfg = some slot)
    (q : Awaiter) (info : Address) :
    ¬ cfg.sqEntries ≤ sq.sqeTail - sq.khead ∧ slot.2.fill slot.1 q info = sq.put cfg q info := by
  unfold Sq.getSqe at h
  split at h
  · cases h
  · rename_i hfull
    cases h
    refine ⟨hfull, ?_⟩
    simp only [Sq.fill, Sq.put, Function.update_self, Function.update_idem, Awaiter.prep_setData]

inductive Steps (cfg : Config) (s : State) : Label → State → Prop
  | request (q : Awaiter) (info : Address) (hp : s.pc = .idle) (hlive : s.live info = false)
      (hinfo : info ≠ BitVec.allOnes 64) (h : ¬ cfg.sqEntries ≤ s.sq.sqeTail - s.sq.khead) :
    Steps cfg s (.request q info) { s with
      sq := s.sq.put cfg q info
      info := Function.update s.info info (q.inform (s.info info))
      live := Function.update s.live info true
      ioSubmitCount := s.ioSubmitCount + 1
      made := s.made ++ [(q, info)] }
  | poll (hp : s.pc = .idle) :
    Steps cfg s .poll (s.goto (if s.ioSubmitCount > 0 then .submit s.ioSubmitCount else .pollRunning))
  | submit (n : Nat) (hp : s.pc = .submit n) :
    Steps cfg s .step { s with sq := s.sq.flush.1, pc := .submitFlags n s.sq.flush.2 }
  | submitFlags (n : Nat) (submitted : Unsigned) (hp : s.pc = .submitFlags n submitted) :
    Steps cfg s .step
      (s.goto (if submitted ≠ 0 ∨ s.needsFlush then .submitEnter n submitted s.needsFlush else .addRunning n))
  | addRunning (n : Nat) (hp : s.pc = .addRunning n) :
    Steps cfg s .step { s with pc := .subSubmit n, ioRunningCount := s.ioRunningCount + n }
  | subSubmit (n : Nat) (hp : s.pc = .subSubmit n) :
    Steps cfg s .step { s with pc := .pollRunning, ioSubmitCount := s.ioSubmitCount - n }
  | pollRunning (hp : s.pc = .pollRunning) : Steps cfg s .step
      (s.goto (if s.ioRunningCount = 0 then .waitEventfd else .peek))
  | waitEventfd (hp : s.pc = .waitEventfd) (h : ¬ s.eventfd = 0) : Steps cfg s .step { s with pc := .idle, eventfd := 0 }
  | peek (hp : s.pc = .peek) : Steps cfg s .step (s.peekCqe cfg (.batch false) (.getCqe false) (.getCqe false))
  | getCqe (looped : Bool) (hp : s.pc = .getCqe looped) :
    Steps cfg s .step (s.peekCqe cfg (.batch false) (if looped then .idle else .getFlags) .idle)
  | getFlags (hp : s.pc = .getFlags) : Steps cfg s .step (s.goto (if s.needsFlush then .getEvents else .idle))
  | batch (again : Bool) (hp : s.pc = .batch again) :
    Steps cfg s .step (s.peekBatch cfg (if again then .callback 0 0 else .batchFlags))
  | batchFlags (hp : s.pc = .batchFlags) : Steps cfg s .step (s.goto (if s.needsFlush then .batchEvents else .callback 0 0))
  | callback (k n : Nat) (hp : s.pc = .callback k n) (h : k < n) :
    Steps cfg s .step ((s.handleCqeEntry (s.cq.cqes (s.urc k))).goto (.callback (k + 1) n))
  | callbackEnd (k n : Nat) (hp : s.pc = .callback k n) (h : ¬ k < n) :
    Steps cfg s .step { s with
      pc := .subRunning n
      cq := s.cq.advance (.ofNat 32 n)
      consumed := s.consumed ++ s.batch n }
  | subRunning (n : Nat) (hp : s.pc = .subRunning n) :
    Steps cfg s .step { s with pc := .idle, ioRunningCount := s.ioRunningCount - n }
  | enterSubmit (n : Nat) (submitted : Unsigned) (getevents : Bool) (res : Int)
      (hp : s.pc = .submitEnter n submitted getevents)
    (h : res ≤ submitted.toNat) (hk : res ≤ (s.sq.ktail - s.sq.khead).toNat) :
    Steps cfg s (.enter res) ((s.take cfg res.toNat).goto (.addRunning n))
  | enterFail (res : Int) (hp : s.pc = .getEvents) (h : res < 0) : Steps cfg s (.enter res) (s.goto .idle)
  | enterEvents (res : Int) (hp : s.pc = .getEvents) (h : s.overflow = [] ∨ s.room cfg = false) :
    Steps cfg s (.enter res) (s.goto (.getCqe true))
  | enterBatch (res : Int) (hp : s.pc = .batchEvents) : Steps cfg s (.enter res) (s.goto (.batch true))
  | complete (i : Nat) (e : Sqe) (res : BitVec 32) (signal : Bool) (he : s.running[i]? = some e) (ho : s.overflow = [])
    (hr : s.room cfg = true) :
    Steps cfg s (.complete i res signal) { s with
      running := s.running.eraseIdx i
      cq := s.cq.post cfg ⟨e.userData, res⟩
      eventfd := s.eventfd + 1
      posted := s.posted ++ [⟨e.userData, res⟩] }
  | overflow (i : Nat) (e : Sqe) (res : BitVec 32) (signal : Bool) (he : s.running[i]? = some e)
    (h : s.overflow = [] → s.room cfg = false) :
    Steps cfg s (.complete i res signal) { s with
      running := s.running.eraseIdx i
      overflow := s.overflow ++ [⟨e.userData, res⟩]
      eventfd := if signal then s.eventfd + 1 else s.eventfd
      posted := s.posted ++ [⟨e.userData, res⟩] }
  | flush (c : Cqe) (rest : List Cqe) (ho : s.overflow = c :: rest) (hi : s.inEvents = true) (hr : s.room cfg = true) :
    Steps cfg s .flush { s with overflow := rest, cq := s.cq.post cfg c, eventfd := s.eventfd + 1 }
  | write : Steps cfg s .write { s with eventfd := s.eventfd + 1 }

section
variable {cfg : Config} {s t : State}

theorem pollStep_cases (h : s.pollStep cfg = some t) : Steps cfg s .step t := by
  unfold State.pollStep at h
  split at h
  · cases h
  · cases h
    exact .submit _ ‹_›
  · cases h
    exact .submitFlags _ _ ‹_›
  · cases h
  · cases h
    exact .addRunning _ ‹_›
  · cases h
    exact .subSubmit _ ‹_›
  · cases h
    exact .pollRunning ‹_›
  · split at h
    · cases h
    · cases h
      exact .waitEventfd ‹_› ‹_›
  · cases h
    exact .peek ‹_›
  · cases h
    exact .getCqe _ ‹_›
  · cases h
    exact .getFlags ‹_›
  · cases h
  · cases h
    exact .batch _ ‹_›
  · cases h
    exact .batchFlags ‹_›
  · cases h
  · split at h
    · cases h
      exact .callback _ _ ‹_› ‹_›
    · cases h
      exact .callbackEnd _ _ ‹_› ‹_›
  · cases h
    exact .subRunning _ ‹_›

theorem enter_cases {res : Int} (h : s.enter cfg res = some t) : Steps cfg s (.enter res) t := by
  unfold State.enter at h
  split at h
  · split at h
    · rename_i hres
      cases h
      exact .enterSubmit _ _ _ res ‹_› hres.1 hres.2
    · cases h
  · split at h
    · cases h
      exact .enterFail res ‹_› ‹_›
    · split at h
      · rename_i hres
        cases h
        exact .enterEvents res ‹_› hres.2
      · cases h
  · split at h
    · cases h
      exact .enterBatch res ‹_›
    · cases h
  · cases h

theorem step_cases {l : Label} (h : step cfg l s = some t) : Steps cfg s l t := by
  cases l with
  | request q info =>
    simp only [step] at h
    split at h
    · rename_i hg
      obtain ⟨slot, hslot, rfl⟩ := Option.map_eq_some_iff.mp h
      obtain ⟨hfull, hput⟩ := Sq.getSqe_fill hslot q info
      rw [hput]
      exact .request q info hg.1 hg.2.1 hg.2.2 hfull
    · cases h
  | poll =>
    simp only [step] at h
    split at h
    · cases h
      exact .poll ‹_›
    · cases h
  | step => exact pollStep_cases h
  | enter res => exact enter_cases h
  | complete i res signal =>
    simp only [step] at h
    split at h
    · cases h
    · rename_i e he
      split at h
      · rename_i hr
        cases h
        exact .complete i e res signal he hr.1 hr.2
      · rename_i hr
        cases h
        refine .overflow i e res signal he ?_
        intro ho
        simpa [ho] using hr
  | flush =>
    simp only [step] at h
    split at h
    · cases h
    · rename_i c rest ho
      split at h
      · rename_i hi
        cases h
        exact .flush c rest ho hi.1 hi.2
      · cases h
  | write =>
    cases h
    exact .write

end
end TinyCoro.Uring
