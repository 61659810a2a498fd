import TinyCoro.Runtime.Shutdown

/-! The end of the workers: `deinit` closes the eventfd of a context whose worker has left
`run()`, while the scheduler thread may still be inside `notify_stop` for this context. -/
namespace TinyCoro.Runtime.Deinit
open Transition Ctx RunExit Scheduler Sys Shutdown
variable {n : Nat}

/-- `closed i`: the worker of context `i` has closed its eventfd. -/
structure State (n : Nat) where
  sys : Sys n
  closed : Fin n → Bool

def init : State n := ⟨Sys.init, fun _ => false⟩

inductive Label (n : Nat)
  | sys (l : Scheduler.Label n)
  | deinit (i : Fin n)

def mayJoin (l : Scheduler.Label n) (s : State n) : Bool :=
  match l, s.sys.main with
  | .main, .join i => if h : i < n then s.closed ⟨i, h⟩ else true
  | _, _ => true

def step [NeZero n] (cfg : Config) (l : Label n) (s : State n) : Option (State n) :=
  match l with
  | .sys l => if mayJoin l s then (sysStep cfg l s.sys).map fun t => { s with sys := t } else none
  | .deinit i =>
    if (s.sys.ctx i).pc = .left ∧ s.closed i = false then some { s with closed := Function.update s.closed i true }
    else none

/-- The operations on a context that execute `write_eventfd`. -/
def writesEventfd (op : Op) (p : Pc) : Bool :=
  match op with
  | .write _ | .stopWrite | .unregisterWrite => true
  | .work => match p with
    | .selfWrite _ | .unregisterWrite | .notifyStopWrite | .callbackWrite _ _ => true
    | _ => false
  | _ => false

def writes (l : Scheduler.Label n) (s : Sys n) : Option (Fin n) :=
  match acts l s with
  | some (j, op) => if writesEventfd op (s.ctx j).pc then some j else none
  | none => none

/-- No step that is possible now writes to an eventfd that is closed. -/
def WritesOpen [NeZero n] (cfg : Config) (s : State n) : Prop :=
  ∀ l t j, step cfg (.sys l) s = some t → writes l s.sys = some j → s.closed j = false

/-- When the eventfd of a context is closed, the scheduler thread does not stand between
`request_stop` and `write_eventfd` of its `notify_stop`, and no task is submitting to the
context; afterwards nothing is dispatched to it. -/
def InOrder [NeZero n] (l : Label n) (s : State n) : Prop :=
  match l with
  | .deinit i => s.sys.main ≠ .stopWrite i ∧ ∀ j, (s.sys.call j).all (·.target.1 ≠ i) = true
  | .sys (.dispatch _) => s.closed (.ofNat n s.sys.cur) = false
  | _ => True

instance [NeZero n] (l : Label n) (s : State n) : Decidable (InOrder l s) :=
  match l with
  | .deinit i =>
    inferInstanceAs (Decidable (s.sys.main ≠ .stopWrite i ∧ ∀ j, (s.sys.call j).all (·.target.1 ≠ i) = true))
  | .sys (.dispatch _) => inferInstanceAs (Decidable (s.closed (.ofNat n s.sys.cur) = false))
  | .sys .submit | .sys .loop | .sys .main | .sys (.call _) | .sys (.own _ _) => isTrue trivial

def requested : MainPc n → Fin n → Prop
  | .stop k, i => i.val < k
  | .stopWrite k, i => i ≤ k
  | .join _, _ | .returned, _ => True
  | _, _ => False

def selfStop : Pc → Bool
  | .idleStop | .idleIoSubmit | .idleIoRunning | .idleReady | .idleWait | .notifyStop | .notifyStopWrite => true
  | _ => false

private theorem step_selfStop {cfg : Config} (hm : cfg.managed = true) {op : Op} {c d : Ctx}
    (hc : selfStop c.pc = false) (h : Runtime.step cfg op c = some d) : selfStop d.pc = false := by
  cases ho : op.external with
  | true => rw [(step_external ho h).pc, hc]
  | false =>
    cases op with
    | work =>
      replace h := workStep_cases h
      cases h with
      | readyIdle hp h hn => exact absurd hm hn
      | idleStop hp | idleIoSubmit hp | idleIoRunning hp | idleReady hp | idleWait hp | notifyStop hp =>
        rw [hp] at hc
        cases hc
      | _ => rfl
    | start | submitSelf | addIo | accept j =>
      simp only [Runtime.step] at h
      repeat' split at h
      all_goals cases h
      all_goals first | rfl | exact hc
    | _ => cases ho

/-- A stop is requested by `notify_stop` only. -/
private theorem step_stopRequested {cfg : Config} {op : Op} {c d : Ctx} (hc : selfStop c.pc = false)
    (ho : op ≠ .requestStop) (h : Runtime.step cfg op c = some d) : d.stopRequested = c.stopRequested := by
  cases op with
  | requestStop => exact absurd rfl ho
  | work =>
    replace h := workStep_cases h
    cases h with
    | notifyStop hp =>
      rw [hp] at hc
      cases hc
    | _ => rfl
  | push k =>
    simp only [Runtime.step] at h
    split at h
    · obtain ⟨u, hu, rfl⟩ := Option.map_eq_some_iff.mp h
      rw [(push_some hu).2]
    · cases h
  | _ =>
    simp only [Runtime.step] at h
    repeat' split at h
    all_goals cases h
    all_goals rfl

/-- The scheduler thread stops the contexts in order and does not go back. -/
private theorem mainStep_requested {cfg : Config} {s t : Sys n} (h : s.mainStep cfg = some t) {i : Fin n}
    (hi : requested s.main i) : requested t.main i := by
  cases mainStep_cases h with
  | stop k d hm hd =>
    rw [hm] at hi
    exact Nat.le_of_lt hi
  | stopWrite k d hm hd =>
    rw [hm] at hi
    exact Nat.lt_succ_of_le hi
  | stopEnd | join | joinEnd => trivial
  | scanAgain hm =>
    unfold scanning at hm
    split at hm <;> simp_all [requested]
  | _ =>
    have hm : s.main = _ := ‹s.main = _›
    rw [hm] at hi
    cases hi

private theorem sysStep_requested [NeZero n] {cfg : Config} {l : Scheduler.Label n} {s t : Sys n}
    (h : sysStep cfg l s = some t) {i : Fin n} (hi : requested s.main i) : requested t.main i := by
  rcases sysStep_main h with hm | ⟨hm, _⟩ | hm
  · rwa [hm]
  · rw [hm] at hi
    cases hi
  · exact mainStep_requested hm hi

/-- Only `stop_impl` requests a stop, and then comes its `write_eventfd`. -/
private theorem acts_requestStop [NeZero n] {cfg : Config} {l : Scheduler.Label n} {s t : Sys n} {j : Fin n}
    (ha : acts l s = some (j, .requestStop)) (h : sysStep cfg l s = some t) :
    s.main = .stop j ∧ t.main = .stopWrite j := by
  cases l with
  | submit | loop | dispatch i => cases ha
  | main =>
    simp only [acts] at ha
    split at ha
    · rename_i call hm
      cases call <;> cases ha
    · split at ha <;> cases ha
    · rename_i i hm
      split at ha <;> cases ha
      rename_i hi
      simp only [sysStep, Sys.mainStep, hm, dif_pos hi] at h
      obtain ⟨u, _, rfl⟩ := Option.map_eq_some_iff.mp h
      exact ⟨hm, rfl⟩
    all_goals cases ha
  | call i =>
    obtain ⟨call, _, he⟩ := Option.map_eq_some_iff.mp ha
    cases call <;> cases he
  | own i op =>
    cases ha
    simp [sysStep, ownOp] at h

/-- The scheduler thread comes to `write_eventfd` of `notify_stop` by `request_stop` only. -/
private theorem mainStep_stopWrite {cfg : Config} {s t : Sys n} (h : s.mainStep cfg = some t) {i : Fin n}
    (ht : t.main = .stopWrite i) : s.main = .stop i ∧ ∃ c, Runtime.step cfg .requestStop (s.ctx i) = some c ∧
      t.ctx = Function.update s.ctx i c := by
  cases mainStep_cases h with
  | stop k d hm hd =>
    cases ht
    exact ⟨hm, d, hd, rfl⟩
  | _ => cases ht

private theorem mainStep_call {cfg : Config} {s t : Sys n} (h : s.mainStep cfg = some t) : t.call = s.call := by
  cases mainStep_cases h with
  | _ => rfl

/-- A submission under way goes to the context it was dispatched to. -/
private theorem sysStep_call [NeZero n] {cfg : Config} {l : Scheduler.Label n} {s t : Sys n}
    (h : sysStep cfg l s = some t) {i : Fin n} {c : Call n} (hc : t.call i = some c) :
    (∃ c', s.call i = some c' ∧ c'.target.1 = c.target.1) ∨ (l = .dispatch i ∧ c.target.1 = .ofNat n s.cur) := by
  cases l with
  | submit | loop =>
    simp only [sysStep] at h
    split at h <;> cases h
    exact .inl ⟨c, hc, rfl⟩
  | main => exact .inl ⟨c, by rwa [mainStep_call h] at hc, rfl⟩
  | dispatch j =>
    simp only [sysStep] at h
    split at h <;> cases h
    by_cases hij : i = j
    · subst hij
      simp only [Function.update_self, Option.some.injEq] at hc
      exact .inr ⟨rfl, hc ▸ rfl⟩
    · simp only [Function.update_of_ne hij] at hc
      exact .inl ⟨c, hc, rfl⟩
  | call j =>
    simp only [sysStep] at h
    split at h
    · rename_i call hcall
      obtain ⟨⟨c', u⟩, hu, rfl⟩ := Option.map_eq_some_iff.mp h
      obtain ⟨rfl, d, hd, rfl⟩ := callStep_some hu
      by_cases hij : i = j
      · subst hij
        simp only [Function.update_self] at hc
        refine .inl ⟨call, hcall, ?_⟩
        cases call <;> cases hc <;> rfl
      · simp only [Function.update_of_ne hij] at hc
        exact .inl ⟨c, hc, rfl⟩
    · cases h
  | own j op =>
    simp only [sysStep] at h
    split at h
    · obtain ⟨d, hd, rfl⟩ := onCtx_some h
      exact .inl ⟨c, hc, rfl⟩
    · cases h

structure Inv (s : State n) : Prop where
  run : ∀ i, RunInv (s.sys.ctx i)
  managed : ∀ i, selfStop (s.sys.ctx i).pc = false
  stopped : ∀ i, (s.sys.ctx i).stopRequested = true → requested s.sys.main i
  closed : ∀ i, s.closed i = true → (s.sys.ctx i).pc = .left ∧ s.sys.main ≠ .stopWrite i ∧
    ∀ j c, s.sys.call j = some c → c.target.1 ≠ i

private theorem own_left {op : Op} (h : ownOp op = true) : writesEventfd op .left = false := by
  cases op <;> first | rfl | cases h

theorem Inv.writesOpen [NeZero n] {cfg : Config} {s : State n} (hs : Inv s) : WritesOpen cfg s := by
  intro l t j h hw
  by_contra hc
  obtain ⟨hl, hmain, hcall⟩ := hs.closed j (by simpa using hc)
  have hreq : requested s.sys.main j := hs.stopped j ((hs.run j).exit hl).2.1
  unfold writes at hw
  split at hw
  · rename_i j' op ha
    obtain ⟨hop, rfl⟩ : writesEventfd op (s.sys.ctx j').pc = true ∧ j' = j := by simpa using hw
    cases l with
    | submit | loop | dispatch i => cases ha
    | main =>
      simp only [acts] at ha
      split at ha
      · rename_i call hm
        rw [hm] at hreq
        cases hreq
      · split at ha <;> cases ha
        cases hop
      · split at ha <;> cases ha
        cases hop
      · rename_i i hm
        cases ha
        exact hmain hm
      · cases ha
    | call i =>
      obtain ⟨call, hsome, he⟩ := Option.map_eq_some_iff.mp ha
      exact hcall i call hsome (by rw [he])
    | own i op =>
      cases ha
      simp only [step] at h
      split at h
      · obtain ⟨u, hu, -⟩ := Option.map_eq_some_iff.mp h
        simp only [sysStep] at hu
        split at hu
        · rename_i hown
          rw [hl, own_left hown.1] at hop
          cases hop
        · cases hu
      · cases h
  · cases hw

section Step
variable [NeZero n] {cfg : Config} {s : State n}

omit [NeZero n] in
private theorem inv_init : Inv (init : State n) :=
  ⟨fun _ => runInv_init, fun _ => rfl, nofun, nofun⟩

/-- A stop request that was not there before comes from `stop_impl`. -/
private theorem sysStep_stopped (hs : Inv s) {l : Scheduler.Label n} {t : Sys n} (h : sysStep cfg l s.sys = some t)
    (i : Fin n) (hi : (t.ctx i).stopRequested = true) : requested t.main i := by
  rcases sysStep_ctx h with ⟨_, hc⟩ | ⟨j, op, d, ha, hd, hc, _⟩
  · rw [hc] at hi
    exact sysStep_requested h (hs.stopped i hi)
  · by_cases hij : i = j
    · subst hij
      rw [hc, Function.update_self] at hi
      by_cases hop : op = .requestStop
      · subst hop
        rw [(acts_requestStop ha h).2]
        exact Nat.le_refl _
      · rw [step_stopRequested (hs.managed i) hop hd] at hi
        exact sysStep_requested h (hs.stopped i hi)
    · rw [hc, Function.update_of_ne hij] at hi
      exact sysStep_requested h (hs.stopped i hi)

/-- The scheduler thread does not come back to a context whose worker has left. -/
private theorem sysStep_past (hs : Inv s) {l : Scheduler.Label n} {t : Sys n} (h : sysStep cfg l s.sys = some t)
    {i : Fin n} (hl : (s.sys.ctx i).pc = .left) (hm : s.sys.main ≠ .stopWrite i) : t.main ≠ .stopWrite i := by
  intro ht
  rcases sysStep_main h with he | ⟨_, he | ⟨c, he⟩⟩ | he
  · exact hm (he ▸ ht)
  · rw [he] at ht
    cases ht
  · rw [he] at ht
    cases ht
  · have hreq := hs.stopped i ((hs.run i).exit hl).2.1
    rw [(mainStep_stopWrite he ht).1] at hreq
    exact Nat.lt_irrefl _ hreq

private theorem inv_sys (hm : cfg.managed = true) (hs : Inv s) {l : Scheduler.Label n} {t : Sys n}
    (ho : InOrder (.sys l) s) (h : sysStep cfg l s.sys = some t) : Inv { s with sys := t } := by
  refine ⟨?_, ?_, sysStep_stopped hs h, fun i hi => ?_⟩
  · exact sysStep_each h hs.run fun j op d _ hso hd => step_runInv hso (hs.run j) hd
  · refine sysStep_each (P := fun c => selfStop c.pc = false) h hs.managed fun j op d _ _ hd => ?_
    exact step_selfStop hm (hs.managed j) hd
  · obtain ⟨hl, hmain, hcall⟩ := hs.closed i hi
    refine ⟨sysStep_left h hl, sysStep_past hs h hl hmain, fun j c hc => ?_⟩
    rcases sysStep_call h hc with ⟨c', hc', he⟩ | ⟨rfl, he⟩
    · exact he ▸ hcall j c' hc'
    · rintro rfl
      change s.closed (.ofNat n s.sys.cur) = false at ho
      rw [← he, hi] at ho
      cases ho

private theorem inv_step (hm : cfg.managed = true) (hs : Inv s) {l : Label n} {t : State n} (ho : InOrder l s)
    (h : step cfg l s = some t) : Inv t := by
  cases l with
  | sys l =>
    simp only [step] at h
    split at h
    · obtain ⟨u, hu, rfl⟩ := Option.map_eq_some_iff.mp h
      exact inv_sys hm hs ho hu
    · cases h
  | deinit i =>
    simp only [step] at h
    split at h <;> cases h
    rename_i hi
    refine ⟨hs.run, hs.managed, hs.stopped, fun j hj => ?_⟩
    by_cases hji : j = i
    · subst hji
      refine ⟨hi.1, ho.1, fun k c hc => ?_⟩
      change s.sys.call k = some c at hc
      simpa [hc] using ho.2 k
    · exact hs.closed j (by simpa only [Function.update_of_ne hji] using hj)

private def Stopping (s : Sys n) : Prop := ∀ i, s.main = .stopWrite i → (s.ctx i).stopping ≠ 0

private theorem step_stopping {op : Op} {c d : Ctx} (ho : op ≠ .stopWrite) (hc : c.stopping ≠ 0)
    (h : Runtime.step cfg op c = some d) : d.stopping ≠ 0 := by
  cases op with
  | stopWrite => exact absurd rfl ho
  | work =>
    replace h := workStep_cases h
    cases h with
    | _ => exact hc
  | push k =>
    simp only [Runtime.step] at h
    split at h
    · obtain ⟨u, hu, rfl⟩ := Option.map_eq_some_iff.mp h
      rw [(push_some hu).2]
      exact hc
    · cases h
  | requestStop =>
    simp only [Runtime.step] at h
    split at h <;> cases h
    exact Nat.succ_ne_zero _
  | _ =>
    simp only [Runtime.step] at h
    repeat' split at h
    all_goals cases h
    all_goals exact hc

private theorem sysStep_stopping {l : Scheduler.Label n} {s t : Sys n} (hs : Stopping s)
    (h : sysStep cfg l s = some t) : Stopping t := by
  intro i hi
  rcases sysStep_main h with hm | ⟨_, hm | ⟨c, hm⟩⟩ | hm
  · have hsi : s.main = .stopWrite i := hm ▸ hi
    rcases sysStep_ctx h with ⟨_, hc⟩ | ⟨j, op, d, ha, hd, hc, _⟩
    · rw [hc]
      exact hs i hsi
    · by_cases hij : i = j
      · subst hij
        rw [hc, Function.update_self]
        refine step_stopping ?_ (hs i hsi) hd
        rintro rfl
        cases l with
        | submit | loop | dispatch => cases ha
        | main =>
          have hstop := (mainStep_stopWrite h hi).1
          rw [hsi] at hstop
          cases hstop
        | call j =>
          obtain ⟨call, _, he⟩ := Option.map_eq_some_iff.mp ha
          cases call <;> cases he
        | own j op =>
          cases ha
          simp [sysStep, ownOp] at h
      · rw [hc, Function.update_of_ne hij]
        exact hs i hsi
  · rw [hm] at hi
    cases hi
  · rw [hm] at hi
    cases hi
  · obtain ⟨_, c, hc, he⟩ := mainStep_stopWrite hm hi
    rw [he, Function.update_self]
    simp only [Runtime.step] at hc
    split at hc <;> cases hc
    exact Nat.succ_ne_zero _

private theorem reachable_stopping (h : Reachable (step cfg) init s) : Stopping s.sys := by
  refine h.invariant (fun s => Stopping s.sys) (fun i hi => by cases hi) fun l s t _ hs ht => ?_
  cases l with
  | sys l =>
    simp only [step] at ht
    split at ht
    · obtain ⟨u, hu, rfl⟩ := Option.map_eq_some_iff.mp ht
      exact sysStep_stopping hs hu
    · cases ht
  | deinit i =>
    simp only [step] at ht
    split at ht <;> cases ht
    exact hs

/-- The scheduler thread overtaken in `notify_stop` writes to the closed eventfd. -/
private theorem overtaken_writes {i : Fin n} {t : State n} (hs : Reachable (step cfg) init s)
    (hm : s.sys.main = .stopWrite i) (h : step cfg (.deinit i) s = some t) : ¬ WritesOpen cfg t := by
  have hstop := reachable_stopping hs i hm
  simp only [step] at h
  split at h <;> cases h
  intro hopen
  have hsome : (step cfg (.sys .main) { s with closed := Function.update s.closed i true }).isSome = true := by
    simp [step, mayJoin, hm, sysStep, Sys.mainStep, Sys.onCtx, Runtime.step, hstop]
  obtain ⟨u, hu⟩ := Option.isSome_iff_exists.mp hsome
  have hclosed := hopen .main u i hu (by simp [writes, acts, hm, writesEventfd])
  simp at hclosed

end Step

/-- In every run whose `deinit`s come in order, no step writes to an eventfd that is closed.
A `deinit` that overtakes the scheduler thread in `notify_stop` lets it write to one. -/
theorem no_write_after_close (n : Nat) [NeZero n] (queCap : Nat) :
    (∀ s : State n, Reach (step ⟨queCap, true⟩) InOrder init s → WritesOpen ⟨queCap, true⟩ s) ∧
    (∀ (s : State n) i t, Reachable (step ⟨queCap, true⟩) init s → s.sys.main = .stopWrite i →
      step ⟨queCap, true⟩ (.deinit i) s = some t → ¬ WritesOpen ⟨queCap, true⟩ t) := by
  refine ⟨fun s h => ?_, fun s i t hs hm ht => overtaken_writes hs hm ht⟩
  have hs := h.invariant Inv inv_init fun _ _ _ ho hs ht => inv_step rfl hs ho ht
  exact hs.writesOpen

private def workSteps1 (k : Nat) : List (Label 1) := List.replicate k (.sys (.own 0 .work))
private def mainSteps1 (k : Nat) : List (Label 1) := List.replicate k (.sys .main)

def stoppedFirst : List (Label 1) :=
  List.flatten [[.sys .loop], mainSteps1 10, workSteps1 6, [.deinit 0], mainSteps1 2]

theorem no_write_after_close_stoppedFirst : ∃ s : State 1, Reach (step ⟨16384, true⟩) InOrder init s ∧
    s.closed 0 = true ∧ s.sys.main = .join 1 ∧ WritesOpen ⟨16384, true⟩ s := by
  have hp : (exec (step ⟨16384, true⟩) stoppedFirst init).map (fun s => (s.closed 0, s.sys.main)) =
      some (true, .join 1) := by
    decide +kernel
  have ha : Along (step ⟨16384, true⟩) InOrder stoppedFirst init := by
    decide +kernel
  obtain ⟨s, hs, he⟩ := Option.map_eq_some_iff.mp hp
  obtain ⟨hc, hm⟩ := Prod.mk.inj he
  have hr := Reach.exec .start ha hs
  exact ⟨s, hr, hc, hm, (no_write_after_close 1 16384).1 s hr⟩

/-- The worker sees the stop request, leaves and closes its eventfd before the scheduler
thread comes to `write_eventfd`. -/
def overtaken : List (Label 1) := List.flatten [[.sys .loop], mainSteps1 9, workSteps1 6, [.deinit 0]]

theorem write_after_close_overtaken :
    ¬ ∀ s : State 1, Reachable (step ⟨16384, true⟩) init s → WritesOpen ⟨16384, true⟩ s := by
  intro h
  have hp : (exec (step ⟨16384, true⟩) overtaken init).map
      (fun s => (s.closed 0, writes .main s.sys, (step ⟨16384, true⟩ (.sys .main) s).isSome)) =
      some (true, some 0, true) := by
    decide +kernel
  obtain ⟨s, hs, he⟩ := Option.map_eq_some_iff.mp hp
  simp only [Prod.mk.injEq] at he
  obtain ⟨hc, hw, hsome⟩ := he
  obtain ⟨t, ht⟩ := Option.isSome_iff_exists.mp hsome
  have hopen := h s (Reachable.of_exec overtaken hs) .main t 0 ht hw
  rw [hc] at hopen
  cases hopen

end TinyCoro.Runtime.Deinit
