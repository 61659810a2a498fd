import TinyCoro.Runtime.WaitCount
import TinyCoro.Runtime.IoCount

/-! What the loop condition of `run()` has established when the worker leaves it. -/
namespace TinyCoro.Runtime.RunExit
open Transition Ctx WaitCount IoCount

/-- How many disjuncts of the loop condition the worker has found false: the stop
request, the IO counters, and then the queue and the wait count. -/
def passed : Pc → Nat
  | .headIoSubmit => 1
  | .headIoRunning => 2
  | .headReady => 3
  | .headWait => 3
  | .left => 3
  | _ => 0

/-- The other threads only submit and stop. -/
def SubmitOnly (op : Op) (_ : Ctx) : Prop := ∀ n, op ≠ .unregister n

structure Tested (s : Ctx) : Prop where
  stop : 1 ≤ passed s.pc → s.stopRequested = true
  ioSubmit : 2 ≤ passed s.pc → s.ioSubmitCount = 0
  ioRunning : 3 ≤ passed s.pc → s.ioRunningCount = 0
  resumed : s.resumed = s.finished ++ executing s.pc

/-- The worker has left, and the submissions it had to wait for are finished. -/
def Drained (s : Ctx) : Prop := s.pc = .left → ∀ k < s.lastLoad, s.finished.count k = 1

private theorem tested_init : Tested init := by
  constructor <;> simp [init, passed, executing]

/-- A step of the worker to a point at which no disjunct has been found false. -/
private theorem Tested.restart {s t : Ctx} {p : Pc} (hs : Tested s) (hp : s.pc = p) (h0 : passed t.pc = 0)
    (hr : t.resumed = s.resumed) (hf : t.finished = s.finished) (he : executing t.pc = executing p) : Tested t := by
  subst hp
  refine ⟨?_, ?_, ?_, ?_⟩
  · simp [h0]
  · simp [h0]
  · simp [h0]
  · rw [hr, hf, he]
    exact hs.resumed

private theorem work_tested {cfg : Config} {s t : Ctx} (hs : Tested s) (h : s.workStep cfg = some t) : Tested t := by
  have hr := hs.resumed
  replace h := workStep_cases h
  cases h with
  | headStop hp h =>
    rw [hp] at hr
    exact ⟨fun _ => h, by simp [passed], by simp [passed], hr⟩
  | headIoSubmit hp h =>
    rw [hp] at hr
    exact ⟨fun _ => hs.stop (by rw [hp]; decide), fun _ => h, by simp [passed], hr⟩
  | headIoRunning hp h =>
    rw [hp] at hr
    exact ⟨fun _ => hs.stop (by rw [hp]; decide), fun _ => hs.ioSubmit (by rw [hp]; decide), fun _ => h, hr⟩
  | headReady hp h | headWait hp h =>
    rw [hp] at hr
    exact ⟨fun _ => hs.stop (by rw [hp]; decide), fun _ => hs.ioSubmit (by rw [hp]; decide),
      fun _ => hs.ioRunning (by rw [hp]; decide), hr⟩
  | popped k hp | unregister k hp =>
    rw [hp] at hr
    exact ⟨nofun, nofun, nofun, by simpa [executing] using hr⟩
  | _ =>
    have hp : s.pc = _ := ‹s.pc = _›
    exact hs.restart hp rfl rfl rfl rfl

/-- The worker leaves through its last load of `m_wait_count` only. -/
theorem work_left {cfg : Config} {s t : Ctx} (h : s.workStep cfg = some t) (hl : t.pc = .left) :
    s.waitCount ≤ 0 ∧ t = { s with pc := .left, lastLoad := s.submissions } := by
  replace h := workStep_cases h
  cases h with
  | headWait hp h => exact ⟨by omega, rfl⟩
  | _ => cases hl

private theorem work_drained {cfg : Config} {s t : Ctx} (hT : (tickets s).Sound) (hu : s.unregistered = 0)
    (h : s.workStep cfg = some t) : Drained t := by
  intro hl k hk
  obtain ⟨hw, rfl⟩ := work_left h hl
  have hc : (tickets s).count ≤ 0 := by
    simp only [tickets, hu]
    omega
  simpa [tickets] using hT.count_closed hc hk

structure RunInv (s : Ctx) : Prop where
  tickets : (tickets s).Sound
  unregistered : s.unregistered = 0
  io : IoCounted s
  tested : Tested s
  drained : Drained s

private theorem step_tested {cfg : Config} {op : Op} {s t : Ctx} (hs : Tested s) (h : step cfg op s = some t) :
    Tested t := by
  cases ho : op.external with
  | true =>
    have he := step_external ho h
    refine ⟨?_, ?_, ?_, ?_⟩
    · rw [he.pc]
      exact fun hp => he.stopRequested (hs.stop hp)
    · rw [he.pc, he.ioSubmitCount]
      exact hs.ioSubmit
    · rw [he.pc, he.ioRunningCount]
      exact hs.ioRunning
    · rw [he.resumed, he.finished, he.pc]
      exact hs.resumed
  | false =>
    cases op with
    | work => exact work_tested hs h
    | start | submitSelf | addIo | accept j =>
      have hr := hs.resumed
      simp only [step] at h
      repeat' split at h
      all_goals cases h
      all_goals constructor <;> simp_all [passed, executing]
    | _ => cases ho

private theorem step_drained {cfg : Config} {op : Op} {s t : Ctx} (hs : RunInv s) (h : step cfg op s = some t) :
    Drained t := by
  cases ho : op.external with
  | true =>
    have he := step_external ho h
    unfold Drained
    rw [he.pc, he.lastLoad, he.finished]
    exact hs.drained
  | false =>
    cases op with
    | work => exact work_drained hs.tickets hs.unregistered h
    | start | submitSelf | addIo | accept j =>
      simp only [step] at h
      repeat' split at h
      all_goals cases h
      all_goals simp_all [Drained]
    | _ => cases ho

private theorem work_unregistered {cfg : Config} {s t : Ctx} (h : s.workStep cfg = some t) :
    t.unregistered = s.unregistered := by
  replace h := workStep_cases h
  cases h with
  | _ => rfl

private theorem step_unregistered {cfg : Config} {op : Op} {s t : Ctx} (ho : SubmitOnly op s)
    (h : step cfg op s = some t) : t.unregistered = s.unregistered := by
  cases op with
  | unregister n => exact absurd rfl (ho n)
  | work => exact work_unregistered h
  | push k =>
    simp only [step] at h
    split at h
    · obtain ⟨u, hu, rfl⟩ := Option.map_eq_some_iff.mp h
      rw [(push_some hu).2]
    · cases h
  | _ =>
    simp only [step] at h
    repeat' split at h
    all_goals cases h
    all_goals rfl

theorem step_runInv {cfg : Config} {op : Op} {s t : Ctx} (ho : SubmitOnly op s) (hs : RunInv s)
    (h : step cfg op s = some t) : RunInv t :=
  ⟨(step_tickets h).sound hs.tickets, (step_unregistered ho h).trans hs.unregistered, step_ioCounted hs.io h,
    step_tested hs.tested h, step_drained hs h⟩

theorem runInv_init : RunInv init := ⟨Tickets.sound_empty, rfl, ioCounted_init, tested_init, nofun⟩

theorem RunInv.waitCount_eq {s : Ctx} (hs : RunInv s) : s.waitCount = (pending s).length := by
  simpa [WaitCount.tickets, hs.unregistered] using hs.tickets.count

/-- What the worker has seen to when it has left. -/
theorem RunInv.exit {s : Ctx} (hs : RunInv s) (hl : s.pc = .left) :
    (∀ k < s.lastLoad, s.resumed.count k = 1) ∧ s.stopRequested = true ∧
      s.ioSubmitCount = 0 ∧ s.ioRunningCount = 0 ∧ s.sq = 0 ∧ s.kernel = 0 ∧ s.cq = 0 := by
  have htot := hs.io.total
  have h2 := hs.tested.ioSubmit (by rw [hl]; decide)
  have h3 := hs.tested.ioRunning (by rw [hl]; decide)
  rw [hl] at htot
  simp only [moving] at htot
  refine ⟨fun k hk => ?_, hs.tested.stop (by rw [hl]; decide), h2, h3, by omega, by omega, by omega⟩
  rw [hs.tested.resumed, hl]
  simpa [executing] using hs.drained hl k hk

/-- In every reachable state `m_wait_count` is the number of submissions that have
registered and whose execution has not unregistered, all of them registered but
not pushed, queued or held by the worker. When the worker has left `run()`, every
submission that registered before its last load of the count was resumed exactly
once, the stop was requested, and no request is prepared or running. -/
theorem wait_count_and_exit (cfg : Config) (s : Ctx) (h : Reach (step cfg) SubmitOnly init s) :
    s.waitCount = ((List.range s.submissions).filter (· ∉ s.finished)).length ∧
    (pending s).Perm ((List.range s.submissions).filter (· ∉ s.finished)) ∧
    0 ≤ s.waitCount ∧
    (s.pc = .left → (∀ k < s.lastLoad, s.resumed.count k = 1) ∧ s.stopRequested = true ∧
      s.ioSubmitCount = 0 ∧ s.ioRunningCount = 0 ∧ s.sq = 0 ∧ s.kernel = 0 ∧ s.cq = 0) := by
  have hs : RunInv s := h.invariant RunInv runInv_init fun _ _ _ ho hs ht => step_runInv ho hs ht
  have hp : (pending s).Perm ((List.range s.submissions).filter (· ∉ s.finished)) := by
    have ho := hs.tickets.opened_eq
    simpa [tickets, Multiset.range] using ho
  exact ⟨by rw [hs.waitCount_eq, hp.length_eq], hp, by rw [hs.waitCount_eq]; omega, hs.exit⟩

/-- A task submitted before `start` submits another one to its own context; then
the context is stopped. -/
def twoTasks : List Op :=
  List.flatten [[.register, .push 0, .write 0, .start], List.replicate 6 .work, [.submitSelf], List.replicate 18 .work,
    [.requestStop, .stopWrite], List.replicate 5 .work]

theorem wait_count_and_exit_twoTasks : ∃ s : Ctx, exec (step ⟨4, true⟩) twoTasks init = some s ∧ s.pc = .left ∧
    s.lastLoad = 2 ∧ ∀ k < 2, s.resumed.count k = 1 := by
  have hr : Along (step ⟨4, true⟩) SubmitOnly twoTasks init := by
    refine along_of_forall (fun op hop s n hn => ?_) init
    subst hn
    simp [twoTasks] at hop
  have hp : (exec (step ⟨4, true⟩) twoTasks init).map (fun s => (s.pc, s.lastLoad)) = some (.left, 2) := by
    decide +kernel
  obtain ⟨s, hs, he⟩ := Option.map_eq_some_iff.mp hp
  obtain ⟨hl, hn⟩ := Prod.mk.inj he
  have h := (wait_count_and_exit ⟨4, true⟩ s (Reach.exec .start hr hs)).2.2.2 hl
  exact ⟨s, hs, hl, hn, hn ▸ h.1⟩

end TinyCoro.Runtime.RunExit
