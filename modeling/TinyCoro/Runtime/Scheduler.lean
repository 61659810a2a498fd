import TinyCoro.Runtime.RunExit

/-! The scheduler: its contexts, the thread in `loop_impl`, and the tasks that
dispatch to other contexts. -/
namespace TinyCoro.Runtime.Scheduler
open Transition Ctx

inductive Call (n : Nat)
  | dispatched (j : Fin n)
  | registered (j : Fin n) (k : Nat)
  | pushed (j : Fin n) (k : Nat)
  deriving DecidableEq

/-- The context the submission goes to, and the next step there: `register_wait`,
the push, or the eventfd write. -/
def Call.target {n : Nat} : Call n → Fin n × Op
  | .dispatched j => (j, .register)
  | .registered j k => (j, .push k)
  | .pushed j k => (j, .write k)

def Call.next {n : Nat} (k : Nat) : Call n → Option (Call n)
  | .dispatched j => some (.registered j k)
  | .registered j k => some (.pushed j k)
  | .pushed _ _ => none

/-- Where the scheduler thread stands: submitting before `loop()`, or in
`loop_impl`. `scan*` are the loads of `is_idle()` of one context. -/
inductive MainPc (n : Nat)
  | submit (call : Option (Call n))
  | start (i : Nat)
  | scan (i : Nat)
  | scanIoSubmit (i : Fin n)
  | scanIoRunning (i : Fin n)
  | scanReady (i : Fin n)
  | scanWait (i : Fin n)
  | stop (i : Nat)
  | stopWrite (i : Fin n)
  | join (i : Nat)
  | returned
  deriving DecidableEq

/-- `cur` is the round-robin counter; `call i` is what the task on worker `i` is
submitting to the scheduler. -/
structure Sys (n : Nat) where
  ctx : Fin n → Ctx
  call : Fin n → Option (Call n)
  main : MainPc n
  cur : Nat

variable {n : Nat}

namespace Sys

def init : Sys n := ⟨fun _ => .init, fun _ => none, .submit none, 0⟩

def onCtx (cfg : Config) (j : Fin n) (op : Op) (s : Sys n) : Option (Sys n) :=
  (step cfg op (s.ctx j)).map fun c => { s with ctx := Function.update s.ctx j c }

def callStep (cfg : Config) (call : Call n) (s : Sys n) : Option (Option (Call n) × Sys n) :=
  (s.onCtx cfg call.target.1 call.target.2).map (call.next (s.ctx call.target.1).submissions, ·)

def goto (p : MainPc n) (s : Sys n) : Sys n := { s with main := p }

/-- The next step of the scheduler thread. A context that is not idle makes the
scan start again; `join` waits for the worker to leave `run()`. -/
def mainStep (cfg : Config) (s : Sys n) : Option (Sys n) :=
  match s.main with
  | .submit none => none
  | .submit (some call) => (s.callStep cfg call).map fun (c, t) => t.goto (.submit c)
  | .start i =>
    if h : i < n then (s.onCtx cfg ⟨i, h⟩ .start).map (goto (.start (i + 1))) else some (s.goto (.scan 0))
  | .scan i =>
    if h : i < n then
      (if (s.ctx ⟨i, h⟩).runningTask then some (s.goto (.scan 0)) else some (s.goto (.scanIoSubmit ⟨i, h⟩)))
    else some (s.goto (.stop 0))
  | .scanIoSubmit i =>
    if (s.ctx i).ioSubmitCount = 0 then some (s.goto (.scanIoRunning i)) else some (s.goto (.scan 0))
  | .scanIoRunning i =>
    if (s.ctx i).ioRunningCount = 0 then some (s.goto (.scanReady i)) else some (s.goto (.scan 0))
  | .scanReady i => if (s.ctx i).taskQueue = [] then some (s.goto (.scanWait i)) else some (s.goto (.scan 0))
  | .scanWait i => if (s.ctx i).waitCount = 0 then some (s.goto (.scan (i + 1))) else some (s.goto (.scan 0))
  | .stop i =>
    if h : i < n then (s.onCtx cfg ⟨i, h⟩ .requestStop).map (goto (.stopWrite ⟨i, h⟩)) else some (s.goto (.join 0))
  | .stopWrite i => (s.onCtx cfg i .stopWrite).map (goto (.stop (i + 1)))
  | .join i =>
    if h : i < n then (if (s.ctx ⟨i, h⟩).pc = .left then some (s.goto (.join (i + 1))) else none)
    else some (s.goto .returned)
  | .returned => none

theorem onCtx_some {cfg : Config} {j : Fin n} {op : Op} {s t : Sys n} (h : s.onCtx cfg j op = some t) :
    ∃ c, step cfg op (s.ctx j) = some c ∧ t = { s with ctx := Function.update s.ctx j c } := by
  obtain ⟨c, hc, rfl⟩ := Option.map_eq_some_iff.mp h
  exact ⟨c, hc, rfl⟩

theorem callStep_some {cfg : Config} {call : Call n} {c : Option (Call n)} {s t : Sys n}
    (h : s.callStep cfg call = some (c, t)) :
    c = call.next (s.ctx call.target.1).submissions ∧
    ∃ d, step cfg call.target.2 (s.ctx call.target.1) = some d ∧
      t = { s with ctx := Function.update s.ctx call.target.1 d } := by
  obtain ⟨u, hu, he⟩ := Option.map_eq_some_iff.mp h
  cases he
  exact ⟨rfl, onCtx_some hu⟩

def scanning : MainPc n → Bool
  | .scan _ | .scanIoSubmit _ | .scanIoRunning _ | .scanReady _ | .scanWait _ => true
  | _ => false

inductive MainSteps (cfg : Config) (s : Sys n) : Sys n → Prop
  | call (call : Call n) (d : Ctx) (hm : s.main = .submit (some call))
    (h : step cfg call.target.2 (s.ctx call.target.1) = some d) :
    MainSteps cfg s { s with
      ctx := Function.update s.ctx call.target.1 d
      main := .submit (call.next (s.ctx call.target.1).submissions) }
  | start (i : Fin n) (d : Ctx) (hm : s.main = .start i) (h : step cfg .start (s.ctx i) = some d) :
    MainSteps cfg s { s with ctx := Function.update s.ctx i d, main := .start (i + 1) }
  | startEnd (i : Nat) (hm : s.main = .start i) (hi : ¬ i < n) : MainSteps cfg s (s.goto (.scan 0))
  | scanAgain (hm : scanning s.main = true) : MainSteps cfg s (s.goto (.scan 0))
  | scan (i : Fin n) (hm : s.main = .scan i) (h : ¬ (s.ctx i).runningTask = true) :
    MainSteps cfg s (s.goto (.scanIoSubmit i))
  | scanIoSubmit (i : Fin n) (hm : s.main = .scanIoSubmit i) (h : (s.ctx i).ioSubmitCount = 0) :
    MainSteps cfg s (s.goto (.scanIoRunning i))
  | scanIoRunning (i : Fin n) (hm : s.main = .scanIoRunning i) (h : (s.ctx i).ioRunningCount = 0) :
    MainSteps cfg s (s.goto (.scanReady i))
  | scanReady (i : Fin n) (hm : s.main = .scanReady i) (h : (s.ctx i).taskQueue = []) :
    MainSteps cfg s (s.goto (.scanWait i))
  | scanWait (i : Fin n) (hm : s.main = .scanWait i) (h : (s.ctx i).waitCount = 0) :
    MainSteps cfg s (s.goto (.scan (i + 1)))
  | scanEnd (i : Nat) (hm : s.main = .scan i) (hi : ¬ i < n) : MainSteps cfg s (s.goto (.stop 0))
  | stop (i : Fin n) (d : Ctx) (hm : s.main = .stop i) (h : step cfg .requestStop (s.ctx i) = some d) :
    MainSteps cfg s { s with ctx := Function.update s.ctx i d, main := .stopWrite i }
  | stopEnd (i : Nat) (hm : s.main = .stop i) (hi : ¬ i < n) : MainSteps cfg s (s.goto (.join 0))
  | stopWrite (i : Fin n) (d : Ctx) (hm : s.main = .stopWrite i) (h : step cfg .stopWrite (s.ctx i) = some d) :
    MainSteps cfg s { s with ctx := Function.update s.ctx i d, main := .stop (i + 1) }
  | join (i : Fin n) (hm : s.main = .join i) (h : (s.ctx i).pc = .left) : MainSteps cfg s (s.goto (.join (i + 1)))
  | joinEnd (i : Nat) (hm : s.main = .join i) (hi : ¬ i < n) : MainSteps cfg s (s.goto .returned)

theorem mainStep_cases {cfg : Config} {s t : Sys n} (h : s.mainStep cfg = some t) : MainSteps cfg s t := by
  cases hm : s.main with
  | submit call =>
    cases call with
    | none => simp [mainStep, hm] at h
    | some call =>
      simp only [mainStep, hm] at h
      obtain ⟨⟨c, u⟩, hu, rfl⟩ := Option.map_eq_some_iff.mp h
      obtain ⟨rfl, d, hd, rfl⟩ := callStep_some hu
      exact .call call d hm hd
  | start i =>
    simp only [mainStep, hm] at h
    split at h
    · rename_i hi
      obtain ⟨u, hu, rfl⟩ := Option.map_eq_some_iff.mp h
      obtain ⟨d, hd, rfl⟩ := onCtx_some hu
      exact .start ⟨i, hi⟩ d hm hd
    · cases h
      exact .startEnd i hm ‹_›
  | scan i =>
    simp only [mainStep, hm] at h
    split at h
    · rename_i hi
      split at h <;> cases h
      · exact .scanAgain (by rw [hm]; rfl)
      · exact .scan ⟨i, hi⟩ hm ‹_›
    · cases h
      exact .scanEnd i hm ‹_›
  | scanIoSubmit i =>
    simp only [mainStep, hm] at h
    split at h <;> cases h
    · exact .scanIoSubmit i hm ‹_›
    · exact .scanAgain (by rw [hm]; rfl)
  | scanIoRunning i =>
    simp only [mainStep, hm] at h
    split at h <;> cases h
    · exact .scanIoRunning i hm ‹_›
    · exact .scanAgain (by rw [hm]; rfl)
  | scanReady i =>
    simp only [mainStep, hm] at h
    split at h <;> cases h
    · exact .scanReady i hm ‹_›
    · exact .scanAgain (by rw [hm]; rfl)
  | scanWait i =>
    simp only [mainStep, hm] at h
    split at h <;> cases h
    · exact .scanWait i hm ‹_›
    · exact .scanAgain (by rw [hm]; rfl)
  | stop i =>
    simp only [mainStep, hm] at h
    split at h
    · rename_i hi
      obtain ⟨u, hu, rfl⟩ := Option.map_eq_some_iff.mp h
      obtain ⟨d, hd, rfl⟩ := onCtx_some hu
      exact .stop ⟨i, hi⟩ d hm hd
    · cases h
      exact .stopEnd i hm ‹_›
  | stopWrite i =>
    simp only [mainStep, hm] at h
    obtain ⟨u, hu, rfl⟩ := Option.map_eq_some_iff.mp h
    obtain ⟨d, hd, rfl⟩ := onCtx_some hu
    exact .stopWrite i d hm hd
  | join i =>
    simp only [mainStep, hm] at h
    split at h
    · rename_i hi
      split at h <;> cases h
      exact .join ⟨i, hi⟩ hm ‹_›
    · cases h
      exact .joinEnd i hm ‹_›
  | returned => simp [mainStep, hm] at h

end Sys

/-- `submit` and `loop` are the calls of the scheduler thread, `main` its next step.
`dispatch i` begins `submit_to_scheduler` in the task on worker `i` and `call i` is
its next step there; `own i op` is a step of worker `i` or of its ring. -/
inductive Label (n : Nat)
  | submit
  | loop
  | main
  | dispatch (i : Fin n)
  | call (i : Fin n)
  | own (i : Fin n) (op : Op)

def ownOp : Op → Bool
  | .work | .submitSelf | .addIo | .accept _ | .complete => true
  | _ => false

def running : Pc → Bool
  | .resuming _ => true
  | _ => false

open Sys in
def sysStep [NeZero n] (cfg : Config) (l : Label n) (s : Sys n) : Option (Sys n) :=
  match l with
  | .submit =>
    if s.main = .submit none then
      some { s with main := .submit (some (.dispatched (.ofNat n s.cur))), cur := s.cur + 1 }
    else none
  | .loop => if s.main = .submit none then some (s.goto (.start 0)) else none
  | .main => s.mainStep cfg
  | .dispatch i =>
    if s.call i = none ∧ running (s.ctx i).pc = true then
      some { s with call := Function.update s.call i (some (.dispatched (.ofNat n s.cur))), cur := s.cur + 1 }
    else none
  | .call i => match s.call i with
    | some call => (s.callStep cfg call).map fun (c, t) => { t with call := Function.update t.call i c }
    | none => none
  | .own i op =>
    if ownOp op = true ∧ (op = .complete ∨ s.call i = none) then s.onCtx cfg i op else none

end TinyCoro.Runtime.Scheduler
