import TinyCoro.Runtime.OwnQueue
import TinyCoro.Runtime.Scheduler

/-! Shutdown of the scheduler: which runs push to a context whose worker has
left, and what is left to do when `loop()` returns in the others. -/
namespace TinyCoro.Runtime.Shutdown
open Transition Ctx WaitCount RunExit OwnQueue Scheduler Sys
variable {n : Nat}

def Sealed (c : Ctx) : Prop :=
  c.pc = .left → c.registering = [] ∧ c.taskQueue = [] ∧ c.lastLoad = c.submissions

private theorem step_sealed {cfg : Config} {op : Op} {c d : Ctx} (hi : RunInv c) (hc : Sealed c)
    (hr : op = .register → c.pc ≠ .left) (h : step cfg op c = some d) : Sealed d := by
  intro hl
  cases op with
  | work =>
    obtain ⟨hw, rfl⟩ := work_left h hl
    have hp : pending c = [] := by
      rw [hi.waitCount_eq] at hw
      exact List.length_eq_zero_iff.mp (by omega)
    simp only [pending, List.append_eq_nil_iff] at hp
    exact ⟨hp.1.1, hp.1.2, rfl⟩
  | register =>
    cases h
    exact absurd hl (hr rfl)
  | push k =>
    simp only [step] at h
    split at h
    · rename_i hk
      obtain ⟨u, hu, rfl⟩ := Option.map_eq_some_iff.mp h
      rw [(push_some hu).2] at hl
      rw [(hc hl).1] at hk
      cases hk
    · cases h
  | start | submitSelf | addIo | accept j =>
    simp only [step] at h
    repeat' split at h
    all_goals cases h
    all_goals simp_all
  | write | requestStop | stopWrite | unregister | unregisterWrite | complete =>
    simp only [step] at h
    repeat' split at h
    all_goals cases h
    all_goals exact hc hl

private theorem step_left {cfg : Config} {op : Op} {c d : Ctx} (hl : c.pc = .left) (h : step cfg op c = some d) :
    d.pc = .left := by
  cases ho : op.external with
  | true => rw [(step_external ho h).pc, hl]
  | false => cases op <;> simp [step, workStep, hl, Op.external] at h ho

/-- The context and the operation of a step, if it acts on a context. -/
def acts (l : Label n) (s : Sys n) : Option (Fin n × Op) :=
  match l with
  | .main => match s.main with
    | .submit (some call) => some (call.target)
    | .start i => if h : i < n then some (⟨i, h⟩, .start) else none
    | .stop i => if h : i < n then some (⟨i, h⟩, .requestStop) else none
    | .stopWrite i => some (i, .stopWrite)
    | _ => none
  | .call i => (s.call i).map Call.target
  | .own i op => some (i, op)
  | _ => none

def pushes (l : Label n) (s : Sys n) : Option (Fin n) :=
  match acts l s with
  | some (j, .push _) => some j
  | some (j, .work) => if ownPush (s.ctx j).pc then some j else none
  | _ => none

/-- No submission is registered on a context whose worker has left `run()`. -/
def InTime (l : Label n) (s : Sys n) : Prop := ∀ j, acts l s = some (j, .register) → (s.ctx j).pc ≠ .left

instance (l : Label n) (s : Sys n) : Decidable (InTime l s) :=
  inferInstanceAs (Decidable (∀ j, acts l s = some (j, .register) → (s.ctx j).pc ≠ .left))

private theorem target_submitOnly (call : Call n) (c : Ctx) : SubmitOnly call.target.2 c := by
  cases call <;> nofun

private theorem ownOp_submitOnly {op : Op} (h : ownOp op = true) (c : Ctx) : SubmitOnly op c := by
  rintro k rfl
  cases h

/-- A step of the scheduler thread acts on at most one context. -/
private theorem mainStep_ctx {cfg : Config} {s t : Sys n} (h : s.mainStep cfg = some t) :
    (acts .main s = none ∧ t.ctx = s.ctx) ∨
    ∃ j op d, acts .main s = some (j, op) ∧ step cfg op (s.ctx j) = some d ∧ t.ctx = Function.update s.ctx j d ∧
      SubmitOnly op (s.ctx j) := by
  cases mainStep_cases h with
  | call call d hm hd =>
    exact .inr ⟨call.target.1, call.target.2, d, by simp [acts, hm], hd, rfl, target_submitOnly call _⟩
  | start i d hm hd => exact .inr ⟨i, .start, d, by simp [acts, hm], hd, rfl, nofun⟩
  | stop i d hm hd => exact .inr ⟨i, .requestStop, d, by simp [acts, hm], hd, rfl, nofun⟩
  | stopWrite i d hm hd => exact .inr ⟨i, .stopWrite, d, by simp [acts, hm], hd, rfl, nofun⟩
  | startEnd i hm hi | stopEnd i hm hi => exact .inl ⟨by simp [acts, hm, hi], rfl⟩
  | scanAgain hm =>
    refine .inl ⟨?_, rfl⟩
    unfold scanning at hm
    split at hm <;> simp_all [acts]
  -- scanning and joining read the contexts only
  | _ =>
    have hm : s.main = _ := ‹s.main = _›
    exact .inl ⟨by simp [acts, hm], rfl⟩

/-- Only the scheduler thread moves the scheduler thread. -/
theorem sysStep_main [NeZero n] {cfg : Config} {l : Label n} {s t : Sys n} (h : sysStep cfg l s = some t) :
    t.main = s.main ∨ (s.main = .submit none ∧ (t.main = .start 0 ∨ ∃ c, t.main = .submit c)) ∨
      s.mainStep cfg = some t := by
  cases l with
  | submit =>
    simp only [sysStep] at h
    split at h
    · cases h
      exact .inr (.inl ⟨‹_›, .inr ⟨_, rfl⟩⟩)
    · cases h
  | loop =>
    simp only [sysStep] at h
    split at h
    · cases h
      exact .inr (.inl ⟨‹_›, .inl rfl⟩)
    · cases h
  | main => exact .inr (.inr h)
  | dispatch i =>
    simp only [sysStep] at h
    split at h
    · cases h
      exact .inl rfl
    · cases h
  | call i =>
    simp only [sysStep] at h
    split at h
    · obtain ⟨⟨c, u⟩, hu, rfl⟩ := Option.map_eq_some_iff.mp h
      obtain ⟨_, d, hd, rfl⟩ := callStep_some hu
      exact .inl rfl
    · cases h
  | own i op =>
    simp only [sysStep] at h
    split at h
    · obtain ⟨d, hd, rfl⟩ := onCtx_some h
      exact .inl rfl
    · cases h

/-- What a step does to the contexts: nothing, or one step of one of them. -/
theorem sysStep_ctx [NeZero n] {cfg : Config} {l : Label n} {s t : Sys n} (h : sysStep cfg l s = some t) :
    (acts l s = none ∧ t.ctx = s.ctx) ∨
    ∃ j op d, acts l s = some (j, op) ∧ step cfg op (s.ctx j) = some d ∧ t.ctx = Function.update s.ctx j d ∧
      SubmitOnly op (s.ctx j) := by
  cases l with
  | submit | loop | dispatch i =>
    simp only [sysStep] at h
    split at h
    · cases h
      exact .inl ⟨rfl, rfl⟩
    · cases h
  | call i =>
    simp only [sysStep] at h
    split at h
    · rename_i call hc
      obtain ⟨⟨c, u⟩, hu, rfl⟩ := Option.map_eq_some_iff.mp h
      obtain ⟨_, d, hd, rfl⟩ := callStep_some hu
      exact .inr ⟨call.target.1, call.target.2, d, by simp [acts, hc], hd, rfl, target_submitOnly call _⟩
    · cases h
  | own i op =>
    simp only [sysStep] at h
    split at h
    · rename_i ho
      obtain ⟨d, hd, rfl⟩ := onCtx_some h
      exact .inr ⟨i, op, d, rfl, hd, rfl, ownOp_submitOnly ho.1 _⟩
    · cases h
  | main => exact mainStep_ctx h

/-- What every context satisfies, and the one that takes a step keeps. -/
theorem sysStep_each [NeZero n] {cfg : Config} {l : Label n} {s t : Sys n} {P : Ctx → Prop}
    (h : sysStep cfg l s = some t) (hall : ∀ i, P (s.ctx i))
    (hstep : ∀ j op d, acts l s = some (j, op) → SubmitOnly op (s.ctx j) → step cfg op (s.ctx j) = some d → P d) :
    ∀ i, P (t.ctx i) := by
  rcases sysStep_ctx h with ⟨_, hc⟩ | ⟨j, op, d, ha, hd, hc, hso⟩
  · rw [hc]
    exact hall
  · rw [hc]
    exact (Function.forall_update_iff s.ctx fun _ c => P c).mpr ⟨hstep j op d ha hso hd, fun i _ => hall i⟩

theorem sysStep_left [NeZero n] {cfg : Config} {l : Label n} {s t : Sys n} (h : sysStep cfg l s = some t) {i : Fin n}
    (hl : (s.ctx i).pc = .left) : (t.ctx i).pc = .left := by
  rcases sysStep_ctx h with ⟨_, hc⟩ | ⟨j, op, d, _, hd, hc, _⟩
  · rwa [hc]
  · rw [hc]
    by_cases hij : i = j
    · subst hij
      rw [Function.update_self]
      exact step_left hl hd
    · rwa [Function.update_of_ne hij]

def joined : MainPc n → Fin n → Prop
  | .join i, j => j.val < i
  | .returned, _ => True
  | _, _ => False

structure SysInv (s : Sys n) : Prop where
  run : ∀ i, RunInv (s.ctx i)
  closed : ∀ i, Sealed (s.ctx i)
  joined : ∀ i, joined s.main i → (s.ctx i).pc = .left
  before : ∀ c, s.main = .submit c → ∀ i, (s.ctx i).pc = .created

private theorem sysInv_init : SysInv (Sys.init : Sys n) :=
  ⟨fun _ => runInv_init, fun _ => nofun, fun _ => nofun, fun _ _ _ => rfl⟩

/-- The scheduler thread joins a context whose worker has left. -/
private theorem mainStep_joined {cfg : Config} {s t : Sys n} (h : s.mainStep cfg = some t) {i : Fin n}
    (hj : joined t.main i) : joined s.main i ∨ (s.ctx i).pc = .left := by
  cases mainStep_cases h with
  | join k hm hl =>
    rw [hm]
    rcases Nat.lt_succ_iff_lt_or_eq.mp hj with hlt | heq
    · exact .inl hlt
    · exact .inr (Fin.ext heq ▸ hl)
  | joinEnd k hm hk =>
    rw [hm]
    exact .inl (Nat.lt_of_lt_of_le i.isLt (Nat.le_of_not_lt hk))
  | stopEnd => exact nomatch hj
  | _ => cases hj

private theorem sysStep_joined [NeZero n] {cfg : Config} {l : Label n} {s t : Sys n} (h : sysStep cfg l s = some t)
    {i : Fin n} (hj : joined t.main i) : joined s.main i ∨ (s.ctx i).pc = .left := by
  rcases sysStep_main h with hm | ⟨_, hm | ⟨c, hm⟩⟩ | hm
  · exact .inl (hm ▸ hj)
  · rw [hm] at hj
    cases hj
  · rw [hm] at hj
    cases hj
  · exact mainStep_joined hm hj

private theorem step_created {cfg : Config} {op : Op} {c d : Ctx} (hp : c.pc = .created) (ho : op ≠ .start)
    (h : step cfg op c = some d) : d.pc = .created := by
  cases he : op.external with
  | true => rw [(step_external he h).pc, hp]
  | false => cases op <;> simp [step, workStep, hp, Op.external] at h he ho

/-- The scheduler thread submits before it starts the first context. -/
private theorem mainStep_submit {cfg : Config} {s t : Sys n} (h : s.mainStep cfg = some t) {c : Option (Call n)}
    (hm : t.main = .submit c) : ∃ call, s.main = .submit (some call) := by
  cases mainStep_cases h with
  | call call d hs => exact ⟨call, hs⟩
  | _ => cases hm

private theorem target_ne_start (call : Call n) (j : Fin n) : call.target ≠ (j, .start) := by
  cases call <;> nofun

/-- Only the scheduler thread starts a context. -/
private theorem acts_start [NeZero n] {cfg : Config} {l : Label n} {s t : Sys n} (h : sysStep cfg l s = some t)
    {j : Fin n} (ha : acts l s = some (j, .start)) {c : Option (Call n)} : s.main ≠ .submit c := by
  intro hm
  cases l with
  | submit | loop | dispatch => cases ha
  | main =>
    cases c with
    | none => simp [acts, hm] at ha
    | some call => exact target_ne_start call j (by simpa [acts, hm] using ha)
  | call i =>
    obtain ⟨call, _, he⟩ := Option.map_eq_some_iff.mp ha
    exact target_ne_start call j he
  | own i op =>
    cases ha
    simp [sysStep, ownOp] at h

private theorem sysStep_before [NeZero n] {cfg : Config} {l : Label n} {s t : Sys n} (h : sysStep cfg l s = some t)
    {c : Option (Call n)} (hm : t.main = .submit c) :
    (∃ c', s.main = .submit c') ∧ ∀ j, acts l s ≠ some (j, .start) := by
  have hs : ∃ c', s.main = .submit c' := by
    rcases sysStep_main h with he | ⟨he, _⟩ | he
    · exact ⟨c, he ▸ hm⟩
    · exact ⟨none, he⟩
    · obtain ⟨call, hc⟩ := mainStep_submit he hm
      exact ⟨some call, hc⟩
  obtain ⟨c', hc'⟩ := hs
  exact ⟨⟨c', hc'⟩, fun j ha => acts_start h ha hc'⟩

private theorem sysInv_step [NeZero n] {cfg : Config} {l : Label n} {s t : Sys n} (hs : SysInv s) (ho : InTime l s)
    (h : sysStep cfg l s = some t) : SysInv t := by
  refine ⟨?_, ?_, fun i hi => ?_, fun c hm => ?_⟩
  · exact sysStep_each h hs.run fun j op d _ hso hd => step_runInv hso (hs.run j) hd
  · refine sysStep_each h hs.closed fun j op d ha _ hd => ?_
    exact step_sealed (hs.run j) (hs.closed j) (fun hr => ho j (hr ▸ ha)) hd
  · exact sysStep_left h ((sysStep_joined h hi).elim (hs.joined i) id)
  · obtain ⟨⟨c', hm'⟩, hns⟩ := sysStep_before h hm
    refine sysStep_each (P := fun c => c.pc = .created) h (hs.before c' hm') fun j op d ha _ hd => ?_
    refine step_created (hs.before c' hm' j) ?_ hd
    rintro rfl
    exact hns j ha

private theorem reach_sysInv [NeZero n] {cfg : Config} {s : Sys n} (h : Reach (sysStep cfg) InTime Sys.init s) :
    SysInv s :=
  h.invariant SysInv sysInv_init fun _ _ _ ho hs ht => sysInv_step hs ho ht

/-- Every submission to the context was executed, and no request is outstanding. -/
def Executed (c : Ctx) : Prop :=
  c.registering = [] ∧ c.taskQueue = [] ∧ (∀ k < c.submissions, c.resumed.count k = 1) ∧
    c.ioSubmitCount = 0 ∧ c.ioRunningCount = 0 ∧ c.sq = 0 ∧ c.kernel = 0 ∧ c.cq = 0

private theorem SysInv.executed {s : Sys n} (hs : SysInv s) {i : Fin n} (hl : (s.ctx i).pc = .left) :
    Executed (s.ctx i) := by
  obtain ⟨hr, hq, hn⟩ := hs.closed i hl
  obtain ⟨hres, _, hio⟩ := (hs.run i).exit hl
  exact ⟨hr, hq, hn ▸ hres, hio⟩

/-- A push finds the worker of its context still in `run()`. -/
private theorem SysInv.pushes_running [NeZero n] {cfg : Config} {l : Label n} {s t : Sys n} (hs : SysInv s)
    (h : sysStep cfg l s = some t) {j : Fin n} (hp : pushes l s = some j) : (s.ctx j).pc ≠ .left := by
  intro hl
  rcases sysStep_ctx h with ⟨ha, _⟩ | ⟨j', op, d, ha, hd, _⟩
  · simp [pushes, ha] at hp
  · simp only [pushes, ha] at hp
    split at hp
    · rename_i j'' k he
      cases he
      cases hp
      simp [step, (hs.closed j hl).1] at hd
    · rename_i j'' he
      cases he
      split at hp
      · rename_i ho
        cases hp
        simp [hl, ownPush] at ho
      · cases hp
    · cases hp

/-- A submission registered too late is pushed by the next step of its thread. -/
private theorem SysInv.late_push [NeZero n] {cfg : Config} {l : Label n} {s t : Sys n}
    (hs : SysInv s) (h : sysStep cfg l s = some t) (ho : ¬ InTime l s) :
    ∃ l' u j, sysStep cfg l' t = some u ∧ pushes l' t = some j ∧ (t.ctx j).pc = .left := by
  simp only [InTime, not_forall, not_not] at ho
  obtain ⟨j, ha, hl⟩ := ho
  obtain ⟨hr, hq, _⟩ := hs.closed j hl
  cases l with
  | submit | loop | dispatch => cases ha
  | main =>
    -- the scheduler thread submits while no worker has started
    simp only [acts] at ha
    split at ha
    · rename_i call hm
      have hc := hs.before _ hm j
      rw [hl] at hc
      cases hc
    all_goals repeat' split at ha
    all_goals cases ha
  | own i op =>
    cases ha
    simp [sysStep, ownOp] at h
  | call i =>
    obtain ⟨call, hc, he⟩ := Option.map_eq_some_iff.mp ha
    have hcall : call = .dispatched j := by
      cases call <;> cases he
      rfl
    subst hcall
    simp only [sysStep, hc, Sys.callStep, Sys.onCtx, Call.target, Call.next, step, Option.map_some,
      Option.some.injEq] at h
    have hcall : t.call i = some (.registered j (s.ctx j).submissions) := by simp [← h]
    have hctx : (t.ctx j).pc = .left ∧ (t.ctx j).registering = [(s.ctx j).submissions] ∧ (t.ctx j).taskQueue = [] := by
      simp [← h, hl, hr, hq]
    have hsome : (sysStep cfg (.call i) t).isSome := by
      simp [sysStep, hcall, Sys.callStep, Sys.onCtx, Call.target, step, push, hctx.2.1, hctx.2.2, cfg.slots_pos]
    obtain ⟨u, hu⟩ := Option.isSome_iff_exists.mp hsome
    exact ⟨.call i, u, j, hu, by simp [pushes, acts, hcall, Call.target], hctx.1⟩

/-- In every run that registers no submission on a context whose worker has left,
no handle is pushed to such a context, and when `loop()` returns every submitted
handle was executed and no request is outstanding. A registration that comes too
late lets its thread push to the context at its next step. -/
theorem shutdown_loses_no_task (n : Nat) [NeZero n] (cfg : Config) :
    (∀ s : Sys n, Reach (sysStep cfg) InTime Sys.init s →
      (∀ l t j, sysStep cfg l s = some t → pushes l s = some j → (s.ctx j).pc ≠ .left) ∧
      (s.main = .returned → ∀ i, Executed (s.ctx i))) ∧
    (∀ s : Sys n, Reach (sysStep cfg) InTime Sys.init s →
      ∀ l t, sysStep cfg l s = some t → ¬ InTime l s →
        ∃ l' u j, sysStep cfg l' t = some u ∧ pushes l' t = some j ∧ (t.ctx j).pc = .left) := by
  refine ⟨fun s h => ?_, fun s h l t ht ho => (reach_sysInv h).late_push ht ho⟩
  have hs := reach_sysInv h
  refine ⟨fun l t j ht hp => hs.pushes_running ht hp, fun hm i => hs.executed (hs.joined i ?_)⟩
  rw [hm]
  trivial

private def workSteps (i : Fin 2) (k : Nat) : List (Label 2) := List.replicate k (.own i .work)
private def mainSteps (k : Nat) : List (Label 2) := List.replicate k .main

/-- One task, executed before the scan; both workers leave and are joined. -/
def quietShutdown : List (Label 2) :=
  List.flatten [[.submit], mainSteps 3, [.loop], mainSteps 3, workSteps 0 10, workSteps 1 2, mainSteps 16,
    workSteps 0 9, workSteps 1 9, mainSteps 3]

theorem shutdown_loses_no_task_quiet : ∃ s : Sys 2,
    Reach (sysStep ⟨16384, true⟩) InTime Sys.init s ∧ s.main = .returned ∧ ∀ i, Executed (s.ctx i) := by
  have hp : (exec (sysStep ⟨16384, true⟩) quietShutdown Sys.init).map Sys.main = some .returned := by
    decide +kernel
  have ha : Along (sysStep ⟨16384, true⟩) InTime quietShutdown Sys.init := by
    decide +kernel
  obtain ⟨s, hs, hm⟩ := Option.map_eq_some_iff.mp hp
  have hr := Reach.exec .start ha hs
  exact ⟨s, hr, hm, ((shutdown_loses_no_task 2 ⟨16384, true⟩).1 s hr).2 hm⟩

/-- The task on context 1 submits to context 0, which the scan has found idle, and
ends; the scan then finds context 1 idle. Worker 1 leaves on the stop request, and
the task that worker 0 still executes dispatches to context 1. -/
def earlyStop : List (Label 2) :=
  List.flatten [[.submit], mainSteps 3, [.submit], mainSteps 3, [.loop], mainSteps 3, workSteps 0 10, workSteps 1 6,
    mainSteps 5, [.dispatch 1, .call 1, .call 1, .call 1], workSteps 1 4, mainSteps 10, workSteps 1 9, workSteps 0 4,
    [.dispatch 0, .call 0]]

theorem shutdown_loses_task_earlyStop : ¬ ∀ s : Sys 2, Reachable (sysStep ⟨16384, true⟩) Sys.init s →
    (∀ l t j, sysStep ⟨16384, true⟩ l s = some t → pushes l s = some j → (s.ctx j).pc ≠ .left) ∧
    (s.main = .returned → ∀ i, Executed (s.ctx i)) := by
  intro h
  have hp : (exec (sysStep ⟨16384, true⟩) earlyStop Sys.init).map
      (fun s => ((s.ctx 1).pc, pushes (.call 0) s, (sysStep ⟨16384, true⟩ (.call 0) s).isSome)) =
      some (.left, some 1, true) := by
    decide +kernel
  obtain ⟨s, hs, he⟩ := Option.map_eq_some_iff.mp hp
  simp only [Prod.mk.injEq] at he
  obtain ⟨hl, hpush, hsome⟩ := he
  obtain ⟨t, ht⟩ := Option.isSome_iff_exists.mp hsome
  exact (h s (Reachable.of_exec earlyStop hs)).1 _ t 1 ht hpush hl

end TinyCoro.Runtime.Shutdown
