import TinyCoro.Runtime.RunExit

/-! A call of `is_idle()` beside a running context. Each of its five loads is a step, and the
context may take any steps between them. -/
namespace TinyCoro.Runtime.IsIdle
open Transition Ctx WaitCount IoCount RunExit

/-- No handle is queued, no submission stands between `register_wait` and
`unregister_wait`, and no request is in the ring. -/
def Idle (c : Ctx) : Prop := pending c = [] ∧ c.sq = 0 ∧ c.kernel = 0 ∧ c.cq = 0

instance (c : Ctx) : Decidable (Idle c) :=
  inferInstanceAs (Decidable (pending c = [] ∧ c.sq = 0 ∧ c.kernel = 0 ∧ c.cq = 0))

inductive Phase
  | ioSubmit
  | ioRunning
  | ready
  | wait
  | returned (idle : Bool)
  deriving DecidableEq, Repr

def Phase.loading : Phase → Bool
  | .returned _ => false
  | _ => true

structure State where
  ctx : Ctx
  phase : Phase
  seen : Bool
  deriving DecidableEq

def init : State := ⟨Ctx.init, .returned false, false⟩

inductive Label
  | ctx (op : Op)
  | call
  | load
  deriving DecidableEq, Repr

namespace State

def loaded (ok : Bool) (p : Phase) (s : State) : State := { s with phase := if ok then p else .returned false }

end State

def isUnregister : Op → Bool
  | .unregister _ => true
  | _ => false

open State in
def step (cfg : Config) (l : Label) (s : State) : Option State :=
  match l with
  | .ctx op =>
    if isUnregister op then none
    else (Runtime.step cfg op s.ctx).map fun c => { s with ctx := c, seen := s.seen || (s.phase.loading && Idle c) }
  | .call => match s.phase with
    | .returned _ => some { s.loaded (!s.ctx.runningTask) .ioSubmit with seen := Idle s.ctx }
    | _ => none
  | .load => match s.phase with
    | .ioSubmit => some (s.loaded (s.ctx.ioSubmitCount = 0) .ioRunning)
    | .ioRunning => some (s.loaded (s.ctx.ioRunningCount = 0) .ready)
    | .ready => some (s.loaded (s.ctx.taskQueue = []) .wait)
    | .wait => some (s.loaded (s.ctx.waitCount = 0) (.returned true))
    | .returned _ => none

/-- A call that returns `true` has seen an idle moment. -/
def Linearizable (s : State) : Prop := s.phase = .returned true → s.seen = true

/-- The call has found the counters of requests zero, or will if it loads them now. -/
def counted (s : State) : Bool :=
  match s.phase with
  | .ioRunning => s.ctx.ioRunningCount = 0
  | .ready | .wait => true
  | _ => false

def NoneBehind (l : Label) (s : State) : Prop := l = .ctx .addIo → counted s = true → s.seen = true

instance (l : Label) (s : State) : Decidable (NoneBehind l s) :=
  inferInstanceAs (Decidable (l = .ctx .addIo → counted s = true → s.seen = true))

def polling : Pc → Bool
  | .pollRunning | .waitEventfd | .peek | .batch | .callback _ _ | .callbackPush _ _ _ | .callbackWrite _ _
  | .subRunning _ => true
  | _ => false

structure CtxInv (c : Ctx) : Prop where
  run : RunInv c
  polled : polling c.pc = true → c.ioSubmitCount = 0

private theorem ctxInv_init : CtxInv Ctx.init := ⟨runInv_init, nofun⟩

private theorem ctxInv_step {cfg : Config} {op : Op} {c d : Ctx} (hu : isUnregister op = false) (hc : CtxInv c)
    (h : Runtime.step cfg op c = some d) : CtxInv d := by
  have hso : SubmitOnly op c := by
    rintro n rfl
    cases hu
  refine ⟨step_runInv hso hc.run h, ?_⟩
  have hpolled := hc.polled
  cases ho : op.external with
  | true =>
    have he := step_external ho h
    rw [he.pc, he.ioSubmitCount]
    exact hpolled
  | false =>
    cases op with
    | work =>
      replace h := workStep_cases h
      cases h with
      | pollSubmitNone hp h => exact fun _ => by simpa using h
      | subSubmit n hp =>
        have hn := (hc.run.io.loaded n (by rw [hp]; rfl)).1
        exact fun _ => by simp [hn]
      | pollRunning hp | pollRunningNone hp | peek hp | batch hp | callback i n hp | callbackEnd n hp
      | callbackPush k i n hp | callbackWrite i n hp =>
        rw [hp] at hpolled
        exact fun _ => hpolled rfl
      | _ => nofun
    | start | submitSelf | addIo | accept j =>
      simp only [Runtime.step] at h
      repeat' split at h
      all_goals cases h
      all_goals simp_all [polling]
    | _ => cases ho

private inductive Counters (c d : Ctx) : Prop
  | same (hs : d.ioSubmitCount = c.ioSubmitCount) (hr : d.ioRunningCount = c.ioRunningCount)
  | raise (h : 0 < c.ioSubmitCount) (hr : 0 < d.ioRunningCount)
  | lower (h : 0 < c.ioSubmitCount) (hs : d.ioSubmitCount = 0)
  | handled (h : c.ioSubmitCount = 0) (hs : d.ioSubmitCount = 0) (hr : d.ioRunningCount ≤ c.ioRunningCount)

private theorem step_counters {cfg : Config} {op : Op} {c d : Ctx} (ho : op ≠ .addIo) (hc : CtxInv c)
    (h : Runtime.step cfg op c = some d) : Counters c d := by
  cases he : op.external with
  | true =>
    have he := step_external he h
    exact .same he.ioSubmitCount he.ioRunningCount
  | false =>
    cases op with
    | work =>
      replace h := workStep_cases h
      cases h with
      | addRunning n hp =>
        obtain ⟨hn, hpos⟩ := hc.run.io.loaded n (by rw [hp]; rfl)
        exact .raise (by omega) (Nat.lt_of_lt_of_le hpos (Nat.le_add_left _ _))
      | subSubmit n hp =>
        obtain ⟨hn, hpos⟩ := hc.run.io.loaded n (by rw [hp]; rfl)
        exact .lower (by omega) (by simp [hn])
      | subRunning n hp =>
        have hzero := hc.polled (by rw [hp]; rfl)
        exact .handled hzero hzero (Nat.sub_le _ _)
      | _ => exact .same rfl rfl
    | start | submitSelf | accept j =>
      simp only [Runtime.step] at h
      repeat' split at h
      all_goals cases h
      all_goals exact .same rfl rfl
    | addIo => exact absurd rfl ho
    | _ => cases he

def Quiet (p : Phase) (c : Ctx) : Prop :=
  match p with
  | .ioRunning => c.ioSubmitCount = 0 ∨ 0 < c.ioRunningCount
  | .ready | .wait => c.ioSubmitCount = 0 ∧ c.ioRunningCount = 0
  | .returned true => False
  | _ => True

private theorem Counters.quiet {c d : Ctx} {p : Phase} (h : Counters c d) (hq : Quiet p c) : Quiet p d := by
  cases p with
  | ioSubmit => trivial
  | returned b => cases b <;> exact hq
  | ioRunning =>
    simp only [Quiet] at hq ⊢
    cases h <;> omega
  | ready | wait =>
    simp only [Quiet] at hq ⊢
    cases h <;> omega

structure Inv (s : State) : Prop where
  ctx : CtxInv s.ctx
  quiet : s.seen = false → Quiet s.phase s.ctx
  now : s.phase.loading = true → Idle s.ctx → s.seen = true

private theorem inv_init : Inv init :=
  ⟨ctxInv_init, fun _ => trivial, nofun⟩

private theorem inv_ctx {cfg : Config} {op : Op} {s : State} {d : Ctx} (hs : Inv s) (hu : isUnregister op = false)
    (ho : NoneBehind (.ctx op) s) (h : Runtime.step cfg op s.ctx = some d) :
    Inv { s with ctx := d, seen := s.seen || (s.phase.loading && Idle d) } := by
  refine ⟨ctxInv_step hu hs.ctx h, fun hseen => ?_, fun hl hidle => ?_⟩
  swap
  · change s.phase.loading = true at hl
    simp [hl, hidle]
  have hseen : s.seen = false := (Bool.or_eq_false_iff.mp hseen).1
  have hq := hs.quiet hseen
  by_cases hop : op = .addIo
  · subst hop
    have hcount : counted s = false := by
      by_contra hne
      have := ho rfl (by simpa using hne)
      rw [hseen] at this
      cases this
    simp only [Runtime.step] at h
    split at h <;> cases h
    cases hp : s.phase with
    | ioSubmit => trivial
    | ioRunning =>
      simp only [counted, hp, decide_eq_false_iff_not] at hcount
      exact .inr (Nat.pos_of_ne_zero hcount)
    | ready | wait =>
      rw [counted, hp] at hcount
      cases hcount
    | returned b =>
      rw [hp] at hq
      cases b <;> exact hq
  · exact (step_counters hop hs.ctx h).quiet hq

/-- The last load finds an idle context. -/
private theorem idle_wait {c : Ctx} (hc : CtxInv c) (hq : Quiet .wait c) (hw : c.waitCount = 0) : Idle c := by
  have htot := hc.run.io.total
  have hpend := hc.run.waitCount_eq
  rw [hq.1, hq.2] at htot
  exact ⟨List.length_eq_zero_iff.mp (by omega), by omega, by omega, by omega⟩

private theorem inv_load {ok : Bool} {p : Phase} {s : State} (hs : Inv s) (hl : s.phase.loading = true)
    (hok : ok = true → s.seen = false → Quiet p s.ctx) : Inv (s.loaded ok p) := by
  refine ⟨hs.ctx, fun hseen => ?_, fun _ hidle => hs.now hl hidle⟩
  cases ok with
  | false => trivial
  | true => exact hok rfl hseen

private theorem inv_step {cfg : Config} {l : Label} {s t : State} (hs : Inv s) (ho : NoneBehind l s)
    (h : step cfg l s = some t) : Inv t := by
  cases l with
  | ctx op =>
    simp only [step] at h
    split at h
    · cases h
    · obtain ⟨d, hd, rfl⟩ := Option.map_eq_some_iff.mp h
      exact inv_ctx hs (by simpa using ‹¬ isUnregister op = true›) ho hd
  | call =>
    simp only [step] at h
    split at h <;> cases h
    refine ⟨hs.ctx, fun _ => ?_, fun _ hidle => decide_eq_true hidle⟩
    cases hr : s.ctx.runningTask <;> simp [State.loaded, Quiet]
  | load =>
    simp only [step] at h
    split at h
    all_goals cases h
    · rename_i hp
      refine inv_load hs (by rw [hp]; rfl) fun hok _ => .inl (of_decide_eq_true hok)
    · rename_i hp
      refine inv_load hs (by rw [hp]; rfl) fun hok hseen => ?_
      have hq := hs.quiet hseen
      have hzero : s.ctx.ioRunningCount = 0 := of_decide_eq_true hok
      rw [hp] at hq
      exact ⟨hq.resolve_right (by omega), hzero⟩
    · rename_i hp
      refine inv_load hs (by rw [hp]; rfl) fun _ hseen => ?_
      have hq := hs.quiet hseen
      rw [hp] at hq
      exact hq
    · rename_i hp
      refine inv_load hs (by rw [hp]; rfl) fun hok hseen => ?_
      have hq := hs.quiet hseen
      rw [hp] at hq
      have hseen' := hs.now (by rw [hp]; rfl) (idle_wait hs.ctx hq (of_decide_eq_true hok))
      rw [hseen] at hseen'
      cases hseen'

/-! What follows a request that is added behind the back of the call: the worker finishes the
submissions that are left while the kernel does nothing, and the call returns. -/

section Drain
variable {cfg : Config}

private theorem reachable_ctxInv {s : State} (h : Reachable (step cfg) init s) : CtxInv s.ctx := by
  refine h.invariant (fun s => CtxInv s.ctx) ctxInv_init fun l s t _ hs ht => ?_
  cases l with
  | ctx op =>
    simp only [step] at ht
    split at ht
    · cases ht
    · obtain ⟨d, hd, rfl⟩ := Option.map_eq_some_iff.mp ht
      exact ctxInv_step (by simpa using ‹¬ isUnregister op = true›) hs hd
  | call | load =>
    simp only [step] at ht
    split at ht <;> cases ht
    all_goals exact hs

/-- A step that leaves a request in the ring is no idle moment. -/
private theorem ctx_next (op : Op) {s : State} {d : Ctx} (hseen : s.seen = false) (hu : isUnregister op = false)
    (h : Runtime.step cfg op s.ctx = some d) (hsq : 0 < d.sq) : step cfg (.ctx op) s = some { s with ctx := d } := by
  have hidle : ¬ Idle d := fun hidle => by
    have := hidle.2.1
    omega
  simp [step, hu, h, hseen, hidle]

private theorem work_sq {c d : Ctx} (h : c.workStep cfg = some d) : d.sq = c.sq := by
  replace h := workStep_cases h
  cases h with
  | _ => rfl

private theorem works_reach {m : Nat} {s : State} {d : Ctx} (hseen : s.seen = false) (hsq : 0 < s.ctx.sq)
    (h : exec (Runtime.step cfg) (List.replicate m .work) s.ctx = some d) :
    Reachable (step cfg) s { s with ctx := d } := by
  induction m generalizing s with
  | zero =>
    cases h
    exact .start
  | succ m ih =>
    obtain ⟨e, he, hd⟩ := exec_cons_some h
    have hsq' : 0 < e.sq := by
      rw [work_sq he]
      exact hsq
    have hfirst := ctx_next .work hseen rfl he hsq'
    have hrest := ih (s := { s with ctx := e }) hseen hsq' hd
    exact Reach.trans (Reach.next .start trivial hfirst) hrest

/-- The worker takes the next handle, and its coroutine suspends or ends at once. -/
private theorem run_task (cfg : Config) {c : Ctx} {k : Nat} {queue : List Nat} (hp : c.pc = .ready)
    (hq : c.taskQueue = k :: queue) : ∃ d, exec (Runtime.step cfg) (List.replicate 8 .work) c = some d ∧
      d.pc = .ready ∧ d.sq = c.sq ∧ d.taskQueue = queue ∧ d.registering = c.registering := by
  simp [List.replicate, Runtime.step, workStep, hp, hq]

private theorem finish_task (cfg : Config) {c : Ctx} {k : Nat} (hp : c.pc = .resuming k) :
    ∃ d, exec (Runtime.step cfg) (List.replicate 4 .work) c = some d ∧ d.pc = .ready ∧ d.sq = c.sq ∧
      d.taskQueue = c.taskQueue ∧ d.registering = c.registering := by
  simp [List.replicate, Runtime.step, workStep, hp]

/-- The loads that are left find the queue and the count empty. -/
private theorem loads_return {s : State} (hp : s.phase = .ready ∨ s.phase = .wait) (hq : s.ctx.taskQueue = [])
    (hw : s.ctx.waitCount = 0) : Reachable (step cfg) s { s with phase := .returned true } := by
  have hlast : ∀ t : State, t.phase = .wait → t.ctx.waitCount = 0 →
      Reachable (step cfg) t { t with phase := .returned true } := by
    intro t ht hw
    have hload : step cfg .load t = some { t with phase := .returned true } := by simp [step, ht, State.loaded, hw]
    exact Reach.next .start trivial hload
  rcases hp with hp | hp
  · have hload : step cfg .load s = some { s with phase := .wait } := by simp [step, hp, State.loaded, hq]
    exact Reach.trans (Reach.next .start trivial hload) (hlast _ rfl hw)
  · exact hlast s hp hw

private theorem drain {n : Nat} {s : State} (hs : Reachable (step cfg) init s)
    (hseen : s.seen = false) (hsq : 0 < s.ctx.sq) (hph : s.phase = .ready ∨ s.phase = .wait) (hp : s.ctx.pc = .ready)
    (hn : s.ctx.registering.length + s.ctx.taskQueue.length = n) :
    ∃ u, Reachable (step cfg) s u ∧ u.phase = .returned true ∧ u.seen = false := by
  induction n generalizing s with
  | zero =>
    have hq : s.ctx.taskQueue = [] := List.length_eq_zero_iff.mp (by omega)
    have hw := (reachable_ctxInv hs).run.waitCount_eq
    simp only [pending, hp, held, List.length_append, List.length_nil] at hw
    exact ⟨_, loads_return hph hq (by omega), rfl, hseen⟩
  | succ n ih =>
    have htask : ∀ t : State, Reachable (step cfg) init t → t.seen = false → 0 < t.ctx.sq →
        t.phase = .ready ∨ t.phase = .wait → t.ctx.pc = .ready → t.ctx.taskQueue ≠ [] →
        t.ctx.registering.length + t.ctx.taskQueue.length = n + 1 →
        ∃ u, Reachable (step cfg) t u ∧ u.phase = .returned true ∧ u.seen = false := by
      intro t ht hseen hsq hph hp hne hlen
      obtain ⟨k, queue, hq⟩ := List.exists_cons_of_ne_nil hne
      obtain ⟨d, hd, hpd, hsqd, hqd, hrd⟩ := run_task cfg hp hq
      have hgo := works_reach hseen hsq hd
      rw [hq, List.length_cons] at hlen
      obtain ⟨u, hu, hret⟩ := ih (s := { t with ctx := d }) (ht.trans hgo) hseen (hsqd ▸ hsq) hph hpd
        (by rw [hrd, hqd]; omega)
      exact ⟨u, hgo.trans hu, hret⟩
    by_cases hq : s.ctx.taskQueue = []
    · -- somebody stands between `register_wait` and the push
      obtain ⟨k, rest, hr⟩ : ∃ k rest, s.ctx.registering = k :: rest := by
        refine List.exists_cons_of_ne_nil fun hnil => ?_
        simp [hnil, hq] at hn
      have hpush : Runtime.step cfg (.push k) s.ctx = some
          { s.ctx with taskQueue := [k], registering := rest, writing := s.ctx.writing ++ [k] } := by
        simp [Runtime.step, hr, push, hq, cfg.slots_pos]
      have hnext := ctx_next (.push k) hseen rfl hpush hsq
      obtain ⟨u, hu, hret⟩ := htask _ (hs.next trivial hnext) hseen hsq hph hp (List.cons_ne_nil k [])
        (by rw [hr, hq, List.length_cons] at hn; simpa using hn)
      exact ⟨u, Reach.trans (Reach.next .start trivial hnext) hu, hret⟩
    · exact htask s hs hseen hsq hph hp hq hn

/-- The load of `m_io_running_count`, if it is still to come, finds 0. -/
private theorem counted_reach (cfg : Config) {s : State} (hcount : counted s = true) :
    ∃ v, Reachable (step cfg) s v ∧ v.ctx = s.ctx ∧ v.seen = s.seen ∧ (v.phase = .ready ∨ v.phase = .wait) := by
  cases hph : s.phase with
  | ioSubmit | returned b =>
    rw [counted, hph] at hcount
    cases hcount
  | ready => exact ⟨s, .start, rfl, rfl, .inl hph⟩
  | wait => exact ⟨s, .start, rfl, rfl, .inr hph⟩
  | ioRunning =>
    simp only [counted, hph, decide_eq_true_eq] at hcount
    have hload : step cfg .load s = some { s with phase := .ready } := by simp [step, hph, State.loaded, hcount]
    exact ⟨_, Reach.next .start trivial hload, rfl, rfl, .inl rfl⟩

/-- The call can still return `true`, without an idle moment. -/
private theorem behind_returns {s t : State} (hs : Reachable (step cfg) init s)
    (ho : ¬ NoneBehind (.ctx .addIo) s) (h : step cfg (.ctx .addIo) s = some t) :
    ∃ u, Reachable (step cfg) t u ∧ ¬ Linearizable u := by
  obtain ⟨hcount, hseen⟩ : counted s = true ∧ s.seen = false := by simpa [NoneBehind] using ho
  obtain ⟨k, hp, hsq, hst, hct⟩ : ∃ k, t.ctx.pc = .resuming k ∧ 0 < t.ctx.sq ∧ t.seen = false ∧ counted t = true := by
    simp only [step, isUnregister, Runtime.step] at h
    obtain ⟨d, hd, rfl⟩ := Option.map_eq_some_iff.mp h
    split at hd <;> cases hd
    refine ⟨_, ‹_›, Nat.succ_pos _, ?_, hcount⟩
    simp [hseen, Idle]
  obtain ⟨v, hv, hcv, hsv, hphase⟩ := counted_reach cfg hct
  rw [← hcv] at hp hsq
  rw [hst] at hsv
  obtain ⟨e, he, hpe, hsqe, -, -⟩ := finish_task cfg hp
  have hgo := works_reach hsv hsq he
  obtain ⟨u, hu, hret, hsu⟩ := drain (s := { v with ctx := e }) (((hs.next trivial h).trans hv).trans hgo) hsv
    (hsqe ▸ hsq) hphase hpe rfl
  refine ⟨u, (hv.trans hgo).trans hu, fun hlin => ?_⟩
  have hidle := hlin hret
  rw [hsu] at hidle
  cases hidle

end Drain

/-- In every run in which no request is added behind the back of a call that has seen no
idle moment, a call that returns `true` has seen one. Such a request lets the call return
`true` without. -/
theorem is_idle_linearizable (cfg : Config) :
    (∀ s, Reach (step cfg) NoneBehind init s → Linearizable s) ∧
    (∀ s t, Reachable (step cfg) init s → ¬ NoneBehind (.ctx .addIo) s →
      step cfg (.ctx .addIo) s = some t → ∃ u, Reachable (step cfg) t u ∧ ¬ Linearizable u) := by
  refine ⟨fun s h hret => ?_, fun s t hs ho ht => behind_returns hs ho ht⟩
  have hs := h.invariant Inv inv_init fun _ _ _ ho hs ht => inv_step hs ho ht
  by_contra hseen
  have hq := hs.quiet (by simpa using hseen)
  rw [hret] at hq
  exact hq

def taskThenCall : List Label :=
  List.flatten [[.ctx .register, .ctx (.push 0), .ctx (.write 0), .ctx .start], List.replicate 10 (.ctx .work),
    [.call, .load, .load, .load, .load]]

theorem is_idle_linearizable_taskThenCall : ∃ s, Reach (step ⟨4, true⟩) NoneBehind init s ∧
    s.phase = .returned true ∧ s.ctx.resumed = [0] ∧ s.seen = true := by
  have hp : (exec (step ⟨4, true⟩) taskThenCall init).map (fun s => (s.phase, s.ctx.resumed)) =
      some (.returned true, [0]) := by
    decide +kernel
  have ha : Along (step ⟨4, true⟩) NoneBehind taskThenCall init := by
    decide +kernel
  obtain ⟨s, hs, he⟩ := Option.map_eq_some_iff.mp hp
  obtain ⟨hret, hres⟩ := Prod.mk.inj he
  have hr := Reach.exec .start ha hs
  exact ⟨s, hr, hret, hres, (is_idle_linearizable ⟨4, true⟩).1 s hr hret⟩

/-- The task is queued at the first three loads. It then runs and adds a request, which is
outstanding at the last two. -/
def queuedThenIo : List Label :=
  List.flatten [[.ctx .register, .ctx (.push 0), .ctx (.write 0), .ctx .start], List.replicate 3 (.ctx .work),
    [.call, .load, .load], List.replicate 3 (.ctx .work), [.ctx .addIo], List.replicate 2 (.ctx .work),
    [.load, .load]]

theorem is_idle_not_linearizable_queuedThenIo :
    ¬ ∀ s, Reachable (step ⟨4, true⟩) init s → Linearizable s := by
  intro h
  have hp : (exec (step ⟨4, true⟩) queuedThenIo init).map (fun s => (s.phase, s.seen)) =
      some (.returned true, false) := by
    decide +kernel
  obtain ⟨s, hs, he⟩ := Option.map_eq_some_iff.mp hp
  obtain ⟨hret, hseen⟩ := Prod.mk.inj he
  have hlin := h s (Reachable.of_exec queuedThenIo hs) hret
  rw [hseen] at hlin
  cases hlin

end TinyCoro.Runtime.IsIdle
