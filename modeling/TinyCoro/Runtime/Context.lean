import Mathlib.Data.List.Basic
import Mathlib.Tactic.Simps.Basic
import TinyCoro.Queue.Index
import TinyCoro.Transition.Runs

/-! One context: its worker in `run()` and `poll_submit()`, the threads that
submit to it, stop it or unregister waits, and the kernel side of its ring.
Every load, store and fetch of a shared variable is one step. -/
namespace TinyCoro.Runtime

/-- Where the worker stands. `head*` are the loads of the loop condition of
`run`, `idle*` those of the test that makes an unmanaged context stop itself. -/
inductive Pc
  | created
  | starting
  | headStop
  | headIoSubmit
  | headIoRunning
  | headReady
  | headWait
  | ready
  | storeRunning
  | pop
  | popped (k : Nat)
  | resuming (k : Nat)
  | selfPush (k j : Nat)
  | selfWrite (k : Nat)
  | unregister (k : Nat)
  | unregisterWrite
  | storeIdle
  | idleStop
  | idleIoSubmit
  | idleIoRunning
  | idleReady
  | idleWait
  | notifyStop
  | notifyStopWrite
  | pollSubmit
  | submit (n : Nat)
  | addRunning (n : Nat)
  | subSubmit (n : Nat)
  | pollRunning
  | waitEventfd
  | peek
  | batch
  | callback (i n : Nat)
  | callbackPush (k i n : Nat)
  | callbackWrite (i n : Nat)
  | subRunning (n : Nat)
  | left
  deriving DecidableEq, Repr

/-- A submission is named by the number of `register_wait` calls before its own.
`registering` holds those between `register_wait` and the push, `writing` those
between the push and the eventfd write; `stopping` and `unregistering` count the
calls between their first and their second step. `sq`, `kernel` and `cq` are the
requests prepared, taken by the kernel and completed. `waitCount` is an `atomic<int>`:
a submission adds one handle, the handles not yet executed are as many as the slots of
the queue and the threads that submit, and `inInt` bounds what other threads unregister,
so the count does not wrap. The fields from `stopped` on are history: `finished` lists the submissions whose execution has executed
`unregister_wait`, `lastLoad` is `submissions` at the worker's last load of
`m_wait_count`, `unregistered` what other threads have unregistered. -/
structure Ctx where
  waitCount : Int
  runningTask : Bool
  taskQueue : List Nat
  ioSubmitCount : Nat
  ioRunningCount : Nat
  eventfd : Nat
  stopRequested : Bool
  pc : Pc
  registering : List Nat
  writing : List Nat
  stopping : Nat
  unregistering : Nat
  sq : Nat
  kernel : Nat
  cq : Nat
  stopped : Bool
  submissions : Nat
  resumed : List Nat
  finished : List Nat
  lastLoad : Nat
  unregistered : Int
  deriving DecidableEq, Repr

structure Config where
  queCap : Nat
  managed : Bool

/-- The slots that `m_task_queue` has for `kQueCap`, with 64 states in a cache line. -/
def Config.slots (cfg : Config) : Nat := (Queue.Shape.make 64 (.ofNat 32 cfg.queCap)).size.toNat

theorem Config.slots_pos (cfg : Config) : 0 < cfg.slots := (Queue.Shape.make 64 _).size_pos

namespace Ctx

def init : Ctx where
  waitCount := 0
  runningTask := false
  taskQueue := []
  ioSubmitCount := 0
  ioRunningCount := 0
  eventfd := 0
  stopRequested := false
  pc := .created
  registering := []
  writing := []
  stopping := 0
  unregistering := 0
  sq := 0
  kernel := 0
  cq := 0
  stopped := false
  submissions := 0
  resumed := []
  finished := []
  lastLoad := 0
  unregistered := 0

@[simps] def goto (p : Pc) (s : Ctx) : Ctx := { s with pc := p }

@[simps] def registerWait (s : Ctx) : Ctx :=
  { s with
    waitCount := s.waitCount + 1
    submissions := s.submissions + 1 }

/-- `m_task_queue.push`, which waits for a free slot. -/
def push (cfg : Config) (k : Nat) (s : Ctx) : Option Ctx :=
  if s.taskQueue.length < cfg.slots then some { s with taskQueue := s.taskQueue ++ [k] } else none

theorem push_some {cfg : Config} {k : Nat} {s t : Ctx} (h : s.push cfg k = some t) :
    s.taskQueue.length < cfg.slots ∧ t = { s with taskQueue := s.taskQueue ++ [k] } := by
  unfold push at h
  split at h
  · exact ⟨‹_›, (Option.some.inj h).symm⟩
  · cases h

theorem push_goto_some {cfg : Config} {k : Nat} {p : Pc} {s t : Ctx} (h : (s.push cfg k).map (goto p) = some t) :
    s.taskQueue.length < cfg.slots ∧ t = { s with pc := p, taskQueue := s.taskQueue ++ [k] } := by
  obtain ⟨u, hu, rfl⟩ := Option.map_eq_some_iff.mp h
  obtain ⟨hlt, rfl⟩ := push_some hu
  exact ⟨hlt, rfl⟩

/-- `write_eventfd(1)`. The descriptor is opened by the constructor of the ring, so what
is written before the worker starts counts too. -/
@[simps] def writeEventfd (s : Ctx) : Ctx := { s with eventfd := s.eventfd + 1 }

def workStep (cfg : Config) (s : Ctx) : Option Ctx :=
  match s.pc with
  | .created => none
  | .starting => some (s.goto .headStop)
  | .headStop => if s.stopRequested then some (s.goto .headIoSubmit) else some (s.goto .ready)
  | .headIoSubmit => if s.ioSubmitCount = 0 then some (s.goto .headIoRunning) else some (s.goto .ready)
  | .headIoRunning => if s.ioRunningCount = 0 then some (s.goto .headReady) else some (s.goto .ready)
  | .headReady => if s.taskQueue = [] then some (s.goto .headWait) else some (s.goto .ready)
  | .headWait =>
    if s.waitCount > 0 then some { s with pc := .ready, lastLoad := s.submissions }
    else some { s with pc := .left, lastLoad := s.submissions }
  | .ready =>
    if s.taskQueue ≠ [] then some (s.goto .storeRunning)
    else if cfg.managed then some (s.goto .pollSubmit)
    else some (s.goto .idleStop)
  | .storeRunning => some { s with pc := .pop, runningTask := true }
  | .pop => match s.taskQueue with
    | k :: queue => some { s with pc := .popped k, taskQueue := queue }
    | [] => none
  | .popped k => some { s with pc := .resuming k, resumed := s.resumed ++ [k] }
  -- `done()` and `clean` after the resume touch only the frame
  | .resuming k => some (s.goto (.unregister k))
  | .selfPush k j => (s.push cfg j).map (goto (.selfWrite k))
  | .selfWrite k => some (s.writeEventfd.goto (.resuming k))
  | .unregister k =>
    some { s with
      pc := .unregisterWrite
      waitCount := s.waitCount - 1
      finished := s.finished ++ [k] }
  | .unregisterWrite => some (s.writeEventfd.goto .storeIdle)
  | .storeIdle => some { s with pc := .ready, runningTask := false }
  | .idleStop => if s.stopRequested then some (s.goto .pollSubmit) else some (s.goto .idleIoSubmit)
  | .idleIoSubmit => if s.ioSubmitCount = 0 then some (s.goto .idleIoRunning) else some (s.goto .pollSubmit)
  | .idleIoRunning => if s.ioRunningCount = 0 then some (s.goto .idleReady) else some (s.goto .pollSubmit)
  | .idleReady => if s.taskQueue = [] then some (s.goto .idleWait) else some (s.goto .pollSubmit)
  | .idleWait =>
    if s.waitCount = 0 then some { s with pc := .notifyStop, lastLoad := s.submissions }
    else some { s with pc := .pollSubmit, lastLoad := s.submissions }
  | .notifyStop => some { s with pc := .notifyStopWrite, stopRequested := true }
  | .notifyStopWrite => some { s.writeEventfd with pc := .pollSubmit, stopped := true }
  | .pollSubmit =>
    if s.ioSubmitCount > 0 then some (s.goto (.submit s.ioSubmitCount)) else some (s.goto .pollRunning)
  | .submit _ => none
  | .addRunning n => some { s with pc := .subSubmit n, ioRunningCount := s.ioRunningCount + n }
  | .subSubmit n => some { s with pc := .pollRunning, ioSubmitCount := s.ioSubmitCount - n }
  | .pollRunning => if s.ioRunningCount = 0 then some (s.goto .waitEventfd) else some (s.goto .peek)
  | .waitEventfd => if s.eventfd = 0 then none else some { s with pc := .headStop, eventfd := 0 }
  | .peek => if s.cq = 0 then some (s.goto .headStop) else some (s.goto .batch)
  | .batch => some (s.goto (.callback (min s.cq cfg.queCap) (min s.cq cfg.queCap)))
  | .callback 0 n => some { s with pc := .subRunning n, cq := s.cq - n }
  | .callback (i + 1) n => some (s.registerWait.goto (.callbackPush s.submissions i n))
  | .callbackPush k i n => (s.push cfg k).map (goto (.callbackWrite i n))
  | .callbackWrite i n => some (s.writeEventfd.goto (.callback i n))
  | .subRunning n => some { s with pc := .headStop, ioRunningCount := s.ioRunningCount - n }
  | .left => none

inductive Works (cfg : Config) (s : Ctx) : Ctx → Prop
  | starting (hp : s.pc = .starting) : Works cfg s (s.goto .headStop)
  | headStop (hp : s.pc = .headStop) (h : s.stopRequested = true) : Works cfg s (s.goto .headIoSubmit)
  | headStopAgain (hp : s.pc = .headStop) (h : ¬ s.stopRequested = true) : Works cfg s (s.goto .ready)
  | headIoSubmit (hp : s.pc = .headIoSubmit) (h : s.ioSubmitCount = 0) : Works cfg s (s.goto .headIoRunning)
  | headIoSubmitAgain (hp : s.pc = .headIoSubmit) (h : ¬ s.ioSubmitCount = 0) : Works cfg s (s.goto .ready)
  | headIoRunning (hp : s.pc = .headIoRunning) (h : s.ioRunningCount = 0) : Works cfg s (s.goto .headReady)
  | headIoRunningAgain (hp : s.pc = .headIoRunning) (h : ¬ s.ioRunningCount = 0) : Works cfg s (s.goto .ready)
  | headReady (hp : s.pc = .headReady) (h : s.taskQueue = []) : Works cfg s (s.goto .headWait)
  | headReadyAgain (hp : s.pc = .headReady) (h : ¬ s.taskQueue = []) : Works cfg s (s.goto .ready)
  | headWait (hp : s.pc = .headWait) (h : ¬ s.waitCount > 0) :
    Works cfg s { s with pc := .left, lastLoad := s.submissions }
  | headWaitAgain (hp : s.pc = .headWait) (h : s.waitCount > 0) :
    Works cfg s { s with pc := .ready, lastLoad := s.submissions }
  | readyTask (hp : s.pc = .ready) (h : s.taskQueue ≠ []) : Works cfg s (s.goto .storeRunning)
  | readyPoll (hp : s.pc = .ready) (h : s.taskQueue = []) (hm : cfg.managed = true) : Works cfg s (s.goto .pollSubmit)
  | readyIdle (hp : s.pc = .ready) (h : s.taskQueue = []) (hm : ¬ cfg.managed = true) : Works cfg s (s.goto .idleStop)
  | storeRunning (hp : s.pc = .storeRunning) : Works cfg s { s with pc := .pop, runningTask := true }
  | pop (k : Nat) (queue : List Nat) (hp : s.pc = .pop) (h : s.taskQueue = k :: queue) :
    Works cfg s { s with pc := .popped k, taskQueue := queue }
  | popped (k : Nat) (hp : s.pc = .popped k) : Works cfg s { s with pc := .resuming k, resumed := s.resumed ++ [k] }
  | resuming (k : Nat) (hp : s.pc = .resuming k) : Works cfg s (s.goto (.unregister k))
  | selfPush (k j : Nat) (hp : s.pc = .selfPush k j) (h : s.taskQueue.length < cfg.slots) :
    Works cfg s { s with pc := .selfWrite k, taskQueue := s.taskQueue ++ [j] }
  | selfWrite (k : Nat) (hp : s.pc = .selfWrite k) : Works cfg s (s.writeEventfd.goto (.resuming k))
  | unregister (k : Nat) (hp : s.pc = .unregister k) :
    Works cfg s { s with pc := .unregisterWrite, waitCount := s.waitCount - 1, finished := s.finished ++ [k] }
  | unregisterWrite (hp : s.pc = .unregisterWrite) : Works cfg s (s.writeEventfd.goto .storeIdle)
  | storeIdle (hp : s.pc = .storeIdle) : Works cfg s { s with pc := .ready, runningTask := false }
  | idleStop (hp : s.pc = .idleStop) (h : ¬ s.stopRequested = true) : Works cfg s (s.goto .idleIoSubmit)
  | idleStopPoll (hp : s.pc = .idleStop) (h : s.stopRequested = true) : Works cfg s (s.goto .pollSubmit)
  | idleIoSubmit (hp : s.pc = .idleIoSubmit) (h : s.ioSubmitCount = 0) : Works cfg s (s.goto .idleIoRunning)
  | idleIoSubmitPoll (hp : s.pc = .idleIoSubmit) (h : ¬ s.ioSubmitCount = 0) : Works cfg s (s.goto .pollSubmit)
  | idleIoRunning (hp : s.pc = .idleIoRunning) (h : s.ioRunningCount = 0) : Works cfg s (s.goto .idleReady)
  | idleIoRunningPoll (hp : s.pc = .idleIoRunning) (h : ¬ s.ioRunningCount = 0) : Works cfg s (s.goto .pollSubmit)
  | idleReady (hp : s.pc = .idleReady) (h : s.taskQueue = []) : Works cfg s (s.goto .idleWait)
  | idleReadyPoll (hp : s.pc = .idleReady) (h : ¬ s.taskQueue = []) : Works cfg s (s.goto .pollSubmit)
  | idleWait (hp : s.pc = .idleWait) (h : s.waitCount = 0) :
    Works cfg s { s with pc := .notifyStop, lastLoad := s.submissions }
  | idleWaitPoll (hp : s.pc = .idleWait) (h : ¬ s.waitCount = 0) :
    Works cfg s { s with pc := .pollSubmit, lastLoad := s.submissions }
  | notifyStop (hp : s.pc = .notifyStop) : Works cfg s { s with pc := .notifyStopWrite, stopRequested := true }
  | notifyStopWrite (hp : s.pc = .notifyStopWrite) :
    Works cfg s { s.writeEventfd with pc := .pollSubmit, stopped := true }
  | pollSubmit (hp : s.pc = .pollSubmit) (h : s.ioSubmitCount > 0) : Works cfg s (s.goto (.submit s.ioSubmitCount))
  | pollSubmitNone (hp : s.pc = .pollSubmit) (h : ¬ s.ioSubmitCount > 0) : Works cfg s (s.goto .pollRunning)
  | addRunning (n : Nat) (hp : s.pc = .addRunning n) :
    Works cfg s { s with pc := .subSubmit n, ioRunningCount := s.ioRunningCount + n }
  | subSubmit (n : Nat) (hp : s.pc = .subSubmit n) :
    Works cfg s { s with pc := .pollRunning, ioSubmitCount := s.ioSubmitCount - n }
  | pollRunning (hp : s.pc = .pollRunning) (h : ¬ s.ioRunningCount = 0) : Works cfg s (s.goto .peek)
  | pollRunningNone (hp : s.pc = .pollRunning) (h : s.ioRunningCount = 0) : Works cfg s (s.goto .waitEventfd)
  | waitEventfd (hp : s.pc = .waitEventfd) (h : ¬ s.eventfd = 0) : Works cfg s { s with pc := .headStop, eventfd := 0 }
  | peek (hp : s.pc = .peek) (h : ¬ s.cq = 0) : Works cfg s (s.goto .batch)
  | peekNone (hp : s.pc = .peek) (h : s.cq = 0) : Works cfg s (s.goto .headStop)
  | batch (hp : s.pc = .batch) : Works cfg s (s.goto (.callback (min s.cq cfg.queCap) (min s.cq cfg.queCap)))
  | callback (i n : Nat) (hp : s.pc = .callback (i + 1) n) :
    Works cfg s (s.registerWait.goto (.callbackPush s.submissions i n))
  | callbackEnd (n : Nat) (hp : s.pc = .callback 0 n) : Works cfg s { s with pc := .subRunning n, cq := s.cq - n }
  | callbackPush (k i n : Nat) (hp : s.pc = .callbackPush k i n) (h : s.taskQueue.length < cfg.slots) :
    Works cfg s { s with pc := .callbackWrite i n, taskQueue := s.taskQueue ++ [k] }
  | callbackWrite (i n : Nat) (hp : s.pc = .callbackWrite i n) : Works cfg s (s.writeEventfd.goto (.callback i n))
  | subRunning (n : Nat) (hp : s.pc = .subRunning n) :
    Works cfg s { s with pc := .headStop, ioRunningCount := s.ioRunningCount - n }

theorem workStep_cases {cfg : Config} {s t : Ctx} (h : s.workStep cfg = some t) : Works cfg s t := by
  cases hp : s.pc with
  | created | submit n | left => simp [workStep, hp] at h
  | selfPush k j =>
    simp only [workStep, hp] at h
    obtain ⟨hlt, rfl⟩ := push_goto_some h
    exact .selfPush k j hp hlt
  | callbackPush k i n =>
    simp only [workStep, hp] at h
    obtain ⟨hlt, rfl⟩ := push_goto_some h
    exact .callbackPush k i n hp hlt
  | callback i n =>
    cases i with
    | zero =>
      simp only [workStep, hp] at h
      cases h
      exact .callbackEnd n hp
    | succ i =>
      simp only [workStep, hp] at h
      cases h
      exact .callback i n hp
  | starting =>
    simp only [workStep, hp] at h
    cases h
    exact .starting hp
  | headStop =>
    simp only [workStep, hp] at h
    split at h <;> cases h
    · exact .headStop hp ‹_›
    · exact .headStopAgain hp ‹_›
  | headIoSubmit =>
    simp only [workStep, hp] at h
    split at h <;> cases h
    · exact .headIoSubmit hp ‹_›
    · exact .headIoSubmitAgain hp ‹_›
  | headIoRunning =>
    simp only [workStep, hp] at h
    split at h <;> cases h
    · exact .headIoRunning hp ‹_›
    · exact .headIoRunningAgain hp ‹_›
  | headReady =>
    simp only [workStep, hp] at h
    split at h <;> cases h
    · exact .headReady hp ‹_›
    · exact .headReadyAgain hp ‹_›
  | headWait =>
    simp only [workStep, hp] at h
    split at h <;> cases h
    · exact .headWaitAgain hp ‹_›
    · exact .headWait hp ‹_›
  | ready =>
    simp only [workStep, hp] at h
    split at h
    · cases h
      exact .readyTask hp ‹_›
    · split at h <;> cases h
      · exact .readyPoll hp (not_not.mp ‹_›) ‹_›
      · exact .readyIdle hp (not_not.mp ‹_›) ‹_›
  | storeRunning =>
    simp only [workStep, hp] at h
    cases h
    exact .storeRunning hp
  | pop =>
    simp only [workStep, hp] at h
    split at h <;> cases h
    exact .pop _ _ hp ‹_›
  | popped k =>
    simp only [workStep, hp] at h
    cases h
    exact .popped k hp
  | resuming k =>
    simp only [workStep, hp] at h
    cases h
    exact .resuming k hp
  | selfWrite k =>
    simp only [workStep, hp] at h
    cases h
    exact .selfWrite k hp
  | unregister k =>
    simp only [workStep, hp] at h
    cases h
    exact .unregister k hp
  | unregisterWrite =>
    simp only [workStep, hp] at h
    cases h
    exact .unregisterWrite hp
  | storeIdle =>
    simp only [workStep, hp] at h
    cases h
    exact .storeIdle hp
  | idleStop =>
    simp only [workStep, hp] at h
    split at h <;> cases h
    · exact .idleStopPoll hp ‹_›
    · exact .idleStop hp ‹_›
  | idleIoSubmit =>
    simp only [workStep, hp] at h
    split at h <;> cases h
    · exact .idleIoSubmit hp ‹_›
    · exact .idleIoSubmitPoll hp ‹_›
  | idleIoRunning =>
    simp only [workStep, hp] at h
    split at h <;> cases h
    · exact .idleIoRunning hp ‹_›
    · exact .idleIoRunningPoll hp ‹_›
  | idleReady =>
    simp only [workStep, hp] at h
    split at h <;> cases h
    · exact .idleReady hp ‹_›
    · exact .idleReadyPoll hp ‹_›
  | idleWait =>
    simp only [workStep, hp] at h
    split at h <;> cases h
    · exact .idleWait hp ‹_›
    · exact .idleWaitPoll hp ‹_›
  | notifyStop =>
    simp only [workStep, hp] at h
    cases h
    exact .notifyStop hp
  | notifyStopWrite =>
    simp only [workStep, hp] at h
    cases h
    exact .notifyStopWrite hp
  | pollSubmit =>
    simp only [workStep, hp] at h
    split at h <;> cases h
    · exact .pollSubmit hp ‹_›
    · exact .pollSubmitNone hp ‹_›
  | addRunning n =>
    simp only [workStep, hp] at h
    cases h
    exact .addRunning n hp
  | subSubmit n =>
    simp only [workStep, hp] at h
    cases h
    exact .subSubmit n hp
  | pollRunning =>
    simp only [workStep, hp] at h
    split at h <;> cases h
    · exact .pollRunningNone hp ‹_›
    · exact .pollRunning hp ‹_›
  | waitEventfd =>
    simp only [workStep, hp] at h
    split at h <;> cases h
    exact .waitEventfd hp ‹_›
  | peek =>
    simp only [workStep, hp] at h
    split at h <;> cases h
    · exact .peekNone hp ‹_›
    · exact .peek hp ‹_›
  | batch =>
    simp only [workStep, hp] at h
    cases h
    exact .batch hp
  | callbackWrite i n =>
    simp only [workStep, hp] at h
    cases h
    exact .callbackWrite i n hp
  | subRunning n =>
    simp only [workStep, hp] at h
    cases h
    exact .subRunning n hp

end Ctx

/-- `work` is the worker's own next step; `submitSelf` and `addIo` are taken by the
coroutine it resumes, `accept j` is what `io_uring_submit` achieves. The others
belong to other threads and to the kernel. -/
inductive Op
  | start
  | work
  | submitSelf
  | addIo
  | accept (j : Nat)
  | register
  | push (k : Nat)
  | write (k : Nat)
  | requestStop
  | stopWrite
  | unregister (n : Int)
  | unregisterWrite
  | complete
  deriving DecidableEq, Repr

def inInt (n : Int) : Bool := -2147483648 ≤ n ∧ n ≤ 2147483647

open Ctx in
def step (cfg : Config) (op : Op) (s : Ctx) : Option Ctx :=
  match op with
  | .start => if s.pc = .created then some (s.goto .starting) else none
  | .work => s.workStep cfg
  | .submitSelf => match s.pc with
    | .resuming k => some (s.registerWait.goto (.selfPush k s.submissions))
    | _ => none
  | .addIo => match s.pc with
    | .resuming _ => some { s with ioSubmitCount := s.ioSubmitCount + 1, sq := s.sq + 1 }
    | _ => none
  | .accept j => match s.pc with
    | .submit n =>
      if j ≤ s.sq then some { s with pc := .addRunning n, sq := s.sq - j, kernel := s.kernel + j } else none
    | _ => none
  | .register => some { s.registerWait with registering := s.registering ++ [s.submissions] }
  | .push k =>
    if k ∈ s.registering then
      (s.push cfg k).map fun t => { t with registering := s.registering.erase k, writing := s.writing ++ [k] }
    else none
  | .write k => if k ∈ s.writing then some { s.writeEventfd with writing := s.writing.erase k } else none
  | .requestStop =>
    if s.pc = .created then none
    else some { s with stopRequested := true, stopping := s.stopping + 1 }
  | .stopWrite =>
    if s.stopping = 0 then none
    else some { s.writeEventfd with stopping := s.stopping - 1, stopped := true }
  | .unregister n =>
    if inInt (s.waitCount - n) then
      some { s with
        waitCount := s.waitCount - n
        unregistered := s.unregistered + n
        unregistering := s.unregistering + 1 }
    else none
  | .unregisterWrite =>
    if s.unregistering = 0 then none else some { s.writeEventfd with unregistering := s.unregistering - 1 }
  | .complete =>
    if s.kernel = 0 then none
    else some { s with kernel := s.kernel - 1, cq := s.cq + 1, eventfd := s.eventfd + 1 }

def Op.external : Op → Bool
  | .start | .work | .submitSelf | .addIo | .accept _ => false
  | _ => true

structure External (s t : Ctx) : Prop where
  pc : t.pc = s.pc
  ioSubmitCount : t.ioSubmitCount = s.ioSubmitCount
  ioRunningCount : t.ioRunningCount = s.ioRunningCount
  runningTask : t.runningTask = s.runningTask
  resumed : t.resumed = s.resumed
  finished : t.finished = s.finished
  lastLoad : t.lastLoad = s.lastLoad
  stopRequested : s.stopRequested = true → t.stopRequested = true
  taskQueue : s.taskQueue <+: t.taskQueue
  eventfd : s.eventfd ≤ t.eventfd

private theorem eventfd_le (s : Ctx) : s.eventfd ≤ s.writeEventfd.eventfd := Nat.le_succ _

theorem step_external {cfg : Config} {op : Op} {s t : Ctx} (ho : op.external = true)
    (h : step cfg op s = some t) : External s t := by
  cases op with
  | start | work | submitSelf | addIo | accept j => cases ho
  | register =>
    cases h
    exact ⟨rfl, rfl, rfl, rfl, rfl, rfl, rfl, id, List.prefix_rfl, Nat.le_refl _⟩
  | push k =>
    simp only [step] at h
    split at h
    · obtain ⟨u, hu, rfl⟩ := Option.map_eq_some_iff.mp h
      rw [(Ctx.push_some hu).2]
      exact ⟨rfl, rfl, rfl, rfl, rfl, rfl, rfl, id, List.prefix_append _ _, Nat.le_refl _⟩
    · cases h
  | requestStop =>
    simp only [step] at h
    split at h
    · cases h
    · cases h
      exact ⟨rfl, rfl, rfl, rfl, rfl, rfl, rfl, fun _ => rfl, List.prefix_rfl, Nat.le_refl _⟩
  | unregister n =>
    simp only [step] at h
    split at h
    · cases h
      exact ⟨rfl, rfl, rfl, rfl, rfl, rfl, rfl, id, List.prefix_rfl, Nat.le_refl _⟩
    · cases h
  | complete =>
    simp only [step] at h
    split at h
    · cases h
    · cases h
      exact ⟨rfl, rfl, rfl, rfl, rfl, rfl, rfl, id, List.prefix_rfl, Nat.le_succ _⟩
  | write | stopWrite | unregisterWrite =>
    simp only [step] at h
    split at h
    all_goals cases h
    all_goals exact ⟨rfl, rfl, rfl, rfl, rfl, rfl, rfl, id, List.prefix_rfl, eventfd_le s⟩

end TinyCoro.Runtime
