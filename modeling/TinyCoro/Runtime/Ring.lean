import Mathlib.Data.List.Basic
import Mathlib.Logic.Function.Basic
import TinyCoro.Transition.Runs

/-! One engine and its ring, with the requests told apart: the awaiters that prepare
them, `poll_submit` with its completion callbacks, and the kernel. Between two calls of
`poll_submit` the engine's thread makes requests; the kernel moves at any time. -/
namespace TinyCoro.Runtime.Ring

/-- What is asked of the kernel. `tcp_connect` gets its socket back as result, and a
timeout has a time in nanoseconds and a count of completions. -/
inductive Request
  | nop
  | stdin
  | tcpAccept
  | tcpConnect (sockfd : Int)
  | tcpRead
  | tcpWrite
  | tcpClose
  | timer (ts count : Nat)
  deriving DecidableEq, Repr

def etime : Int := 62

/-- What the callback of the awaiter leaves in `m_info.result`. -/
def Request.callback (q : Request) (res : Int) : Int :=
  match q with
  | .tcpConnect sockfd => if res ≠ 0 then res else sockfd
  | .timer _ _ => if res = -etime then 0 else res
  | _ => res

/-- A completion entry: `request` stands for the `io_info` its data points to. -/
structure Cqe where
  request : Nat
  res : Int
  deriving DecidableEq, Repr

/-- Where the engine's thread stands in `poll_submit`: `n` is the value it loaded from
`m_io_submit_count`, or the size of the batch of which `k` callbacks have run. -/
inductive Pc
  | idle
  | submit (n : Nat)
  | addRunning (n : Nat)
  | subSubmit (n : Nat)
  | pollRunning
  | waitEventfd
  | peek
  | batch
  | callback (k n : Nat)
  | subRunning (n : Nat)
  deriving DecidableEq, Repr

/-- Requests are numbered in the order in which they are made. `sq` are those prepared and
not accepted by the kernel, `kernel` those accepted and not completed, `cq` the entries not
yet passed by `cq_advance`; `submitted` are the handles given to `submit_to_context`.
`posted`, `consumed` and `calls` are history: all entries posted, those passed by
`cq_advance`, and those whose callback was called. -/
structure State where
  ioSubmitCount : Nat
  ioRunningCount : Nat
  sq : List Nat
  kernel : List Nat
  cq : List Cqe
  eventfd : Nat
  pc : Pc
  next : Nat
  request : Nat → Request
  result : Nat → Option Int
  submitted : List Nat
  posted : List Cqe
  consumed : List Cqe
  calls : List Cqe

/-- The number of entries of the ring, and `kQueCap`, the size of `m_urc`. -/
structure Config where
  entries : Nat
  queCap : Nat

def init : State where
  ioSubmitCount := 0
  ioRunningCount := 0
  sq := []
  kernel := []
  cq := []
  eventfd := 0
  pc := .idle
  next := 0
  request _ := .nop
  result _ := none
  submitted := []
  posted := []
  consumed := []
  calls := []

namespace State

def goto (p : Pc) (s : State) : State := { s with pc := p }

def handleCqeEntry (c : Cqe) (s : State) : State :=
  { s with
    result := Function.update s.result c.request (some ((s.request c.request).callback c.res))
    submitted := s.submitted ++ [c.request]
    eventfd := s.eventfd + 1
    calls := s.calls ++ [c] }

def emptyIo (s : State) : Bool := s.ioSubmitCount = 0 && s.ioRunningCount = 0

/-- The next step of `poll_submit`; `none` where it waits, or where the kernel answers. -/
def pollStep (cfg : Config) (s : State) : Option State :=
  match s.pc with
  | .idle => none
  | .submit _ => none
  | .addRunning n => some { s with pc := .subSubmit n, ioRunningCount := s.ioRunningCount + n }
  | .subSubmit n => some { s with pc := .pollRunning, ioSubmitCount := s.ioSubmitCount - n }
  | .pollRunning => if s.ioRunningCount = 0 then some (s.goto .waitEventfd) else some (s.goto .peek)
  | .waitEventfd => if s.eventfd = 0 then none else some { s with pc := .idle, eventfd := 0 }
  | .peek => if s.cq = [] then some (s.goto .idle) else some (s.goto .batch)
  | .batch => some (s.goto (.callback 0 (min s.cq.length cfg.queCap)))
  | .callback k n =>
    if k < n then s.cq[k]?.map fun c => (s.handleCqeEntry c).goto (.callback (k + 1) n)
    else some { s with pc := .subRunning n, cq := s.cq.drop n, consumed := s.consumed ++ s.cq.take n }
  | .subRunning n => some { s with pc := .idle, ioRunningCount := s.ioRunningCount - n }

end State

/-- `request q` is the constructor of an awaiter: a free entry is prepared and
`add_io_submit` called. `poll` begins `poll_submit` and `step` is its next step; `accept res`
is the answer of `io_uring_submit`, the number of entries accepted or a negative error.
`complete i res` is the kernel's, `write` an eventfd write of another thread. -/
inductive Label
  | request (q : Request)
  | poll
  | step
  | accept (res : Int)
  | complete (i : Nat) (res : Int)
  | write
  deriving DecidableEq, Repr

open State in
def step (cfg : Config) (l : Label) (s : State) : Option State :=
  match l with
  | .request q =>
    if s.pc = .idle ∧ s.sq.length < cfg.entries then
      some { s with
        ioSubmitCount := s.ioSubmitCount + 1
        sq := s.sq ++ [s.next]
        next := s.next + 1
        request := Function.update s.request s.next q }
    else none
  | .poll =>
    if s.pc = .idle then
      (if s.ioSubmitCount > 0 then some (s.goto (.submit s.ioSubmitCount)) else some (s.goto .pollRunning))
    else none
  | .step => s.pollStep cfg
  | .accept res => match s.pc with
    | .submit n =>
      if res ≤ s.sq.length then
        some { s with pc := .addRunning n, sq := s.sq.drop res.toNat, kernel := s.kernel ++ s.sq.take res.toNat }
      else none
    | _ => none
  | .complete i res =>
    if i ∈ s.kernel then
      some { s with
        kernel := s.kernel.erase i
        cq := s.cq ++ [⟨i, res⟩]
        posted := s.posted ++ [⟨i, res⟩]
        eventfd := s.eventfd + 1 }
    else none
  | .write => some { s with eventfd := s.eventfd + 1 }

inductive Steps (cfg : Config) (s : State) : Label → State → Prop
  | request (q : Request) (hp : s.pc = .idle) (h : s.sq.length < cfg.entries) :
    Steps cfg s (.request q) { s with
      ioSubmitCount := s.ioSubmitCount + 1
      sq := s.sq ++ [s.next]
      next := s.next + 1
      request := Function.update s.request s.next q }
  | poll (hp : s.pc = .idle) (h : s.ioSubmitCount > 0) : Steps cfg s .poll (s.goto (.submit s.ioSubmitCount))
  | pollNone (hp : s.pc = .idle) (h : ¬ s.ioSubmitCount > 0) : Steps cfg s .poll (s.goto .pollRunning)
  | addRunning (n : Nat) (hp : s.pc = .addRunning n) :
    Steps cfg s .step { s with pc := .subSubmit n, ioRunningCount := s.ioRunningCount + n }
  | subSubmit (n : Nat) (hp : s.pc = .subSubmit n) :
    Steps cfg s .step { s with pc := .pollRunning, ioSubmitCount := s.ioSubmitCount - n }
  | pollRunning (hp : s.pc = .pollRunning) (h : ¬ s.ioRunningCount = 0) : Steps cfg s .step (s.goto .peek)
  | pollRunningNone (hp : s.pc = .pollRunning) (h : s.ioRunningCount = 0) : Steps cfg s .step (s.goto .waitEventfd)
  | waitEventfd (hp : s.pc = .waitEventfd) (h : ¬ s.eventfd = 0) : Steps cfg s .step { s with pc := .idle, eventfd := 0 }
  | peek (hp : s.pc = .peek) (h : ¬ s.cq = []) : Steps cfg s .step (s.goto .batch)
  | peekNone (hp : s.pc = .peek) (h : s.cq = []) : Steps cfg s .step (s.goto .idle)
  | batch (hp : s.pc = .batch) : Steps cfg s .step (s.goto (.callback 0 (min s.cq.length cfg.queCap)))
  | callback (k n : Nat) (c : Cqe) (hp : s.pc = .callback k n) (h : k < n) (hc : s.cq[k]? = some c) :
    Steps cfg s .step ((s.handleCqeEntry c).goto (.callback (k + 1) n))
  | callbackEnd (k n : Nat) (hp : s.pc = .callback k n) (h : ¬ k < n) :
    Steps cfg s .step { s with pc := .subRunning n, cq := s.cq.drop n, consumed := s.consumed ++ s.cq.take n }
  | subRunning (n : Nat) (hp : s.pc = .subRunning n) :
    Steps cfg s .step { s with pc := .idle, ioRunningCount := s.ioRunningCount - n }
  | accept (n : Nat) (res : Int) (hp : s.pc = .submit n) (h : res ≤ s.sq.length) :
    Steps cfg s (.accept res)
      { s with pc := .addRunning n, sq := s.sq.drop res.toNat, kernel := s.kernel ++ s.sq.take res.toNat }
  | complete (i : Nat) (res : Int) (h : i ∈ s.kernel) :
    Steps cfg s (.complete i res) { s with
      kernel := s.kernel.erase i
      cq := s.cq ++ [⟨i, res⟩]
      posted := s.posted ++ [⟨i, res⟩]
      eventfd := s.eventfd + 1 }
  | write : Steps cfg s .write { s with eventfd := s.eventfd + 1 }

private theorem pollStep_cases {cfg : Config} {s t : State} (h : s.pollStep cfg = some t) : Steps cfg s .step t := by
  cases hp : s.pc with
  | idle | submit n => simp [State.pollStep, hp] at h
  | addRunning n =>
    simp only [State.pollStep, hp] at h
    cases h
    exact .addRunning n hp
  | subSubmit n =>
    simp only [State.pollStep, hp] at h
    cases h
    exact .subSubmit n hp
  | pollRunning =>
    simp only [State.pollStep, hp] at h
    split at h <;> cases h
    · exact .pollRunningNone hp ‹_›
    · exact .pollRunning hp ‹_›
  | waitEventfd =>
    simp only [State.pollStep, hp] at h
    split at h <;> cases h
    exact .waitEventfd hp ‹_›
  | peek =>
    simp only [State.pollStep, hp] at h
    split at h <;> cases h
    · exact .peekNone hp ‹_›
    · exact .peek hp ‹_›
  | batch =>
    simp only [State.pollStep, hp] at h
    cases h
    exact .batch hp
  | callback k n =>
    simp only [State.pollStep, hp] at h
    split at h
    · obtain ⟨c, hc, rfl⟩ := Option.map_eq_some_iff.mp h
      exact .callback k n c hp ‹_› hc
    · cases h
      exact .callbackEnd k n hp ‹_›
  | subRunning n =>
    simp only [State.pollStep, hp] at h
    cases h
    exact .subRunning n hp

theorem step_cases {cfg : Config} {l : Label} {s t : State} (h : step cfg l s = some t) : Steps cfg s l t := by
  cases l with
  | request q =>
    simp only [step] at h
    split at h <;> cases h
    rename_i hq
    exact .request q hq.1 hq.2
  | poll =>
    simp only [step] at h
    split at h
    · split at h <;> cases h
      · exact .poll ‹_› ‹_›
      · exact .pollNone ‹_› ‹_›
    · cases h
  | step => exact pollStep_cases h
  | accept res =>
    simp only [step] at h
    split at h
    · split at h <;> cases h
      exact .accept _ res ‹_› ‹_›
    · cases h
  | complete i res =>
    simp only [step] at h
    split at h <;> cases h
    exact .complete i res ‹_›
  | write =>
    cases h
    exact .write

end TinyCoro.Runtime.Ring
