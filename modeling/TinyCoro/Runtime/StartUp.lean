import TinyCoro.Runtime.Context

/-! `start()` of a context without scheduler: the thread is made first and `m_job` assigned
afterwards, while the new thread is already in `init()` and `run()`. -/
namespace TinyCoro.Runtime.StartUp
open Transition Ctx

/-- `job`: `m_job` is set. `crashed`: `notify_stop` was executed while it was not. -/
structure State where
  ctx : Ctx
  job : Bool
  crashed : Bool
  deriving DecidableEq, Repr

inductive Label
  | ctx (op : Op)
  | assign
  deriving DecidableEq, Repr

/-- `m_managed_by_scheduler` is false. -/
def config (queCap : Nat) : Config := ⟨queCap, false⟩

def init : State := ⟨Ctx.init, false, false⟩

/-- `ctx .start` makes the thread, and `assign` is the rest of `start()`. Other threads call
`notify_stop` when `start()` has returned, the worker does in `run()`. -/
def step (queCap : Nat) (l : Label) (s : State) : Option State :=
  if s.crashed then none
  else match l with
    | .assign => if s.ctx.pc ≠ .created ∧ s.job = false then some { s with job := true } else none
    | .ctx .work =>
      if s.ctx.pc = .notifyStop ∧ s.job = false then some { s with crashed := true }
      else (Runtime.step (config queCap) .work s.ctx).map fun c => { s with ctx := c }
    | .ctx .requestStop =>
      if s.job then (Runtime.step (config queCap) .requestStop s.ctx).map fun c => { s with ctx := c } else none
    | .ctx op => (Runtime.step (config queCap) op s.ctx).map fun c => { s with ctx := c }

/-- When the idle test of the worker comes out true, so that `notify_stop` is next, `m_job`
has been assigned. -/
def JobSet (l : Label) (s : State) : Prop := l = .ctx .work → s.ctx.pc = .idleWait → s.ctx.waitCount = 0 → s.job = true

instance (l : Label) (s : State) : Decidable (JobSet l s) := inferInstanceAs (Decidable (_ → _ → _ → _))

/-- The only way to `notify_stop` of the worker. -/
theorem to_notifyStop {cfg : Config} {op : Op} {c d : Ctx} (h : Runtime.step cfg op c = some d) (hd : d.pc = .notifyStop) :
    c.pc = .notifyStop ∨ (op = .work ∧ c.pc = .idleWait ∧ c.waitCount = 0) := by
  cases ho : op.external with
  | true =>
    rw [(step_external ho h).pc] at hd
    exact .inl hd
  | false =>
    cases op with
    | work =>
      have hw := workStep_cases h
      cases hw with
      | idleWait hp h0 => exact .inr ⟨rfl, hp, h0⟩
      | _ => cases hd
    | start | submitSelf | addIo | accept =>
      simp only [Runtime.step] at h
      split at h <;> grind [Ctx.goto, Ctx.registerWait]
    | _ => cases ho

inductive Steps (queCap : Nat) (s : State) : Label → State → Prop
  | assign (hj : s.job = false) : Steps queCap s .assign { s with job := true }
  | crash (hp : s.ctx.pc = .notifyStop) (hj : s.job = false) : Steps queCap s (.ctx .work) { s with crashed := true }
  | ctx (op : Op) (c : Ctx) (hc : Runtime.step (config queCap) op s.ctx = some c) :
      Steps queCap s (.ctx op) { s with ctx := c }

theorem step_cases {queCap : Nat} {l : Label} {s t : State} (h : step queCap l s = some t) : Steps queCap s l t := by
  unfold step at h
  split at h
  · cases h
  · split at h
    · obtain ⟨⟨-, hj⟩, h⟩ := Option.ite_none_right_eq_some.mp h
      cases h
      exact .assign hj
    · split at h
      · rename_i hcrash
        cases h
        exact .crash hcrash.1 hcrash.2
      · obtain ⟨c, hc, rfl⟩ := Option.map_eq_some_iff.mp h
        exact .ctx _ c hc
    · obtain ⟨-, h⟩ := Option.ite_none_right_eq_some.mp h
      obtain ⟨c, hc, rfl⟩ := Option.map_eq_some_iff.mp h
      exact .ctx _ c hc
    · obtain ⟨c, hc, rfl⟩ := Option.map_eq_some_iff.mp h
      exact .ctx _ c hc

structure Inv (s : State) : Prop where
  job : s.ctx.pc = .notifyStop → s.job = true
  running : s.crashed = false

theorem inv_init : Inv init := by
  constructor <;> simp [init, Ctx.init]

theorem inv_step {queCap : Nat} {l : Label} {s t : State} (hs : Inv s) (ho : JobSet l s) (h : step queCap l s = some t) :
    Inv t := by
  cases step_cases h with
  | assign hj => exact ⟨fun _ => rfl, hs.running⟩
  | crash hp hj =>
    rw [hs.job hp] at hj
    cases hj
  | ctx op c hc =>
    refine ⟨fun hp => ?_, hs.running⟩
    rcases to_notifyStop hc hp with hp | ⟨rfl, hp, hw⟩
    · exact hs.job hp
    · exact ho rfl hp hw

/-- A worker that has passed its idle test with `m_job` unset is two steps from the crash. -/
theorem crashes {queCap : Nat} {s : State} (hrun : s.crashed = false) (hp : s.ctx.pc = .idleWait) (hw : s.ctx.waitCount = 0)
    (hj : s.job = false) : ∃ t, Reachable (step queCap) s t ∧ t.crashed = true := by
  obtain ⟨t, ht, hc⟩ : ∃ t, exec (step queCap) [.ctx .work, .ctx .work] s = some t ∧ t.crashed = true := by
    simp [step, Runtime.step, workStep, hrun, hp, hw, hj]
  exact ⟨t, Reachable.of_exec _ ht, hc⟩

structure Pending (n : Nat) (s : State) : Prop where
  running : s.crashed = false
  job : s.job = false
  queue : s.ctx.taskQueue.length = n
  wait : s.ctx.waitCount = n
  ioSubmit : s.ctx.ioSubmitCount = 0
  ioRunning : s.ctx.ioRunningCount = 0
  stop : s.ctx.stopRequested = false

def Same (s t : State) : Prop :=
  t.crashed = s.crashed ∧ t.job = s.job ∧ t.ctx.ioSubmitCount = s.ctx.ioSubmitCount ∧
    t.ctx.ioRunningCount = s.ctx.ioRunningCount ∧ t.ctx.stopRequested = s.ctx.stopRequested

section Race
variable {queCap n m : Nat} {s t : State}

theorem Pending.same (hs : Pending n s) (h : Same s t) (hq : t.ctx.taskQueue.length = m) (hw : t.ctx.waitCount = m) :
    Pending m t := by
  obtain ⟨hc, hj, hsub, hrun, hstop⟩ := h
  exact ⟨hc.trans hs.running, hj.trans hs.job, hq, hw, hsub.trans hs.ioSubmit, hrun.trans hs.ioRunning, hstop.trans hs.stop⟩

/-- `submit_task` before `start()`. -/
theorem submit_pending (hs : Pending n s) (hp : s.ctx.pc = .created) (hn : n < (config queCap).slots) :
    ∃ t, Reachable (step queCap) s t ∧ t.ctx.pc = .created ∧ Pending (n + 1) t := by
  obtain ⟨t, ht, hpt, hq, hw, hsame⟩ : ∃ t, exec (step queCap)
      [.ctx .register, .ctx (.push s.ctx.submissions), .ctx (.write s.ctx.submissions)] s = some t ∧ t.ctx.pc = .created ∧
      t.ctx.taskQueue = s.ctx.taskQueue ++ [s.ctx.submissions] ∧ t.ctx.waitCount = s.ctx.waitCount + 1 ∧ Same s t := by
    simp [step, Runtime.step, Ctx.push, Same, hs.running, hs.queue, hp, hn]
  refine ⟨t, Reachable.of_exec _ ht, hpt, hs.same hsame ?_ ?_⟩
  · rw [hq, List.length_append, hs.queue, List.length_singleton]
  · rw [hw, hs.wait]
    rfl

theorem submits_pending (n : Nat) (hn : n ≤ (config queCap).slots) :
    ∃ t, Reachable (step queCap) init t ∧ t.ctx.pc = .created ∧ Pending n t := by
  induction n with
  | zero => exact ⟨init, .start, rfl, ⟨rfl, rfl, rfl, rfl, rfl, rfl, rfl⟩⟩
  | succ n ih =>
    obtain ⟨s, hs, hp, hpend⟩ := ih (Nat.le_of_succ_le hn)
    obtain ⟨t, ht, hpt, hpend⟩ := submit_pending hpend hp hn
    exact ⟨t, hs.trans ht, hpt, hpend⟩

/-- The new thread comes to the tasks. -/
theorem start_pending (queCap : Nat) (hs : Pending n s) (hp : s.ctx.pc = .created) :
    ∃ t, Reachable (step queCap) s t ∧ t.ctx.pc = .ready ∧ Pending n t := by
  obtain ⟨t, ht, hpt, hq, hw, hsame⟩ : ∃ t, exec (step queCap) [.ctx .start, .ctx .work, .ctx .work] s = some t ∧
      t.ctx.pc = .ready ∧ t.ctx.taskQueue = s.ctx.taskQueue ∧ t.ctx.waitCount = s.ctx.waitCount ∧ Same s t := by
    simp [step, Runtime.step, workStep, Same, hs.running, hs.stop, hp]
  exact ⟨t, Reachable.of_exec _ ht, hpt, hs.same hsame (hq ▸ hs.queue) (hw ▸ hs.wait)⟩

/-- The worker executes a task that ends at once. -/
theorem execute_pending (queCap : Nat) (hs : Pending (n + 1) s) (hp : s.ctx.pc = .ready) :
    ∃ t, Reachable (step queCap) s t ∧ t.ctx.pc = .ready ∧ Pending n t := by
  have hlen := hs.queue
  obtain ⟨k, queue, hq⟩ := List.exists_cons_of_length_eq_add_one hlen
  obtain ⟨t, ht, hpt, hqt, hw, hsame⟩ : ∃ t, exec (step queCap) (List.replicate 8 (.ctx .work)) s = some t ∧
      t.ctx.pc = .ready ∧ t.ctx.taskQueue = queue ∧ t.ctx.waitCount = s.ctx.waitCount - 1 ∧ Same s t := by
    simp [List.replicate, step, Runtime.step, workStep, Same, hs.running, hp, hq]
  refine ⟨t, Reachable.of_exec _ ht, hpt, hs.same hsame ?_ ?_⟩
  · rw [hq, List.length_cons] at hlen
    rw [hqt]
    exact Nat.succ.inj hlen
  · rw [hw, hs.wait]
    omega

theorem drain_pending (queCap : Nat) (hs : Pending n s) (hp : s.ctx.pc = .ready) :
    ∃ t, Reachable (step queCap) s t ∧ t.crashed = true := by
  induction n generalizing s with
  | zero =>
    have hq := List.length_eq_zero_iff.mp hs.queue
    obtain ⟨t, ht, hc⟩ : ∃ t, exec (step queCap) (List.replicate 7 (.ctx .work)) s = some t ∧ t.crashed = true := by
      simp [List.replicate, step, Runtime.step, workStep, config, hs.running, hs.job, hs.ioSubmit, hs.ioRunning, hs.stop,
        hs.wait, hp, hq]
    exact ⟨t, Reachable.of_exec _ ht, hc⟩
  | succ n ih =>
    obtain ⟨t, ht, hpt, hpend⟩ := execute_pending queCap hs hp
    obtain ⟨u, hu, hc⟩ := ih hpend hpt
    exact ⟨u, ht.trans hu, hc⟩

/-- Tasks make the crash no less possible: the worker can execute any number of them while
`start()` has not got to its assignment. -/
theorem start_races (n : Nat) (hn : n ≤ (config queCap).slots) :
    ∃ s t, Reachable (step queCap) init s ∧ s.ctx.pc = .created ∧ s.ctx.taskQueue.length = n ∧
      Reachable (step queCap) s t ∧ t.crashed = true := by
  obtain ⟨s, hs, hp, hpend⟩ := submits_pending n hn
  obtain ⟨t, ht, hpt, hpend'⟩ := start_pending queCap hpend hp
  obtain ⟨u, hu, hc⟩ := drain_pending queCap hpend' hpt
  exact ⟨s, u, hs, hp, hpend.queue, ht.trans hu, hc⟩

end Race

/-- In every run in which `m_job` is assigned before an idle test of the worker comes out
true, `notify_stop` finds it set. Where it is not, `notify_stop` can be next, and tasks that
were submitted before `start()`, as many as the queue takes, do not keep it from that. -/
theorem start_safe (queCap : Nat) :
    (∀ s, Reach (step queCap) JobSet init s → s.crashed = false) ∧
    (∀ s l, Reachable (step queCap) init s → s.crashed = false → ¬ JobSet l s →
      ∃ t, Reachable (step queCap) s t ∧ t.crashed = true) ∧
    ∀ n ≤ (config queCap).slots, ∃ s t, Reachable (step queCap) init s ∧ s.ctx.pc = .created ∧
      s.ctx.taskQueue.length = n ∧ Reachable (step queCap) s t ∧ t.crashed = true := by
  refine ⟨fun s h => ?_, fun s l _ hrun ho => ?_, fun n hn => start_races n hn⟩
  · exact (h.invariant Inv inv_init fun _ _ _ ho hs ht => inv_step hs ho ht).running
  · simp only [JobSet, not_forall, Bool.not_eq_true] at ho
    obtain ⟨-, hp, hw, hj⟩ := ho
    exact crashes hrun hp hw hj

def assignedInTime : List Label :=
  [.ctx .register, .ctx (.push 0), .ctx (.write 0), .ctx .start, .ctx .work, .assign] ++ List.replicate 16 (.ctx .work)

theorem start_safe_assignedInTime : ∃ s, Reach (step 8) JobSet init s ∧ s.ctx.finished = [0] ∧
    s.ctx.stopRequested = true ∧ s.crashed = false := by
  obtain ⟨s, hs⟩ : ∃ s, s ∈ exec (step 8) assignedInTime init := ⟨_, rfl⟩
  have hr := Reach.exec .start (by decide : Along (step 8) JobSet assignedInTime init) hs
  have hsafe := (start_safe 8).1 s hr
  cases hs
  exact ⟨_, hr, by decide, by decide, hsafe⟩

/-- No task at all: the worker is through its idle test before the assignment. -/
theorem start_overtaken : ¬ ∀ s, Reachable (step 8) init s → s.crashed = false := by
  intro h
  have hp : exec (step 8) (.ctx .start :: List.replicate 9 (.ctx .work)) init = some _ := rfl
  exact absurd (h _ (Reachable.of_exec _ hp)) (by decide)

end TinyCoro.Runtime.StartUp
