import TinyCoro.Runtime.Context

/-! Why a worker that blocks in `wait_eventfd` has nothing to do: every write to
the eventfd since its last read is still there. -/
namespace TinyCoro.Runtime.WakeUp
open Transition Ctx

def drained : Pc → Bool
  | .idleStop | .idleIoSubmit | .idleIoRunning | .idleReady | .idleWait | .notifyStop | .notifyStopWrite => true
  | .pollSubmit | .submit _ | .addRunning _ | .subSubmit _ | .pollRunning | .waitEventfd => true
  | _ => false

/-- The work that keeps a stopped worker from blocking. Points before the loop
condition, and points that lead to the eventfd write of `unregister_wait`, count as
work. -/
def ahead (s : Ctx) : Nat :=
  match s.pc with
  | .ready => s.taskQueue.length + s.ioSubmitCount + s.ioRunningCount
  | .storeIdle => 0
  | .idleStop | .idleIoSubmit | .idleIoRunning | .idleReady | .idleWait | .notifyStop | .notifyStopWrite
  | .pollSubmit => s.ioSubmitCount + s.ioRunningCount
  | .submit n | .addRunning n => n
  | .subSubmit _ | .pollRunning => s.ioRunningCount
  | .waitEventfd => 0
  | _ => 1

structure Awake (s : Ctx) : Prop where
  queue : drained s.pc = true → s.eventfd = 0 → ∀ k ∈ s.taskQueue, k ∈ s.writing
  stop : s.eventfd = 0 → s.stopped = true → 0 < s.unregistering ∨ 0 < s.waitCount ∨ 0 < ahead s
  requested : s.stopped = true ∨ 0 < s.stopping ∨ s.pc = .notifyStopWrite → s.stopRequested = true

private theorem awake_init : Awake init := by
  constructor <;> simp [init, drained]

/-- A step to a point that counts as work. -/
private theorem Awake.busy {s t : Ctx} (hs : Awake s) (hd : drained t.pc = false) (ha : 0 < ahead t)
    (hn : t.pc ≠ .notifyStopWrite) (h1 : t.stopped = s.stopped) (h2 : t.stopping = s.stopping)
    (h3 : t.stopRequested = s.stopRequested) : Awake t := by
  refine ⟨fun hd' => ?_, fun _ _ => .inr (.inr ha), fun h => ?_⟩
  · cases hd.symm.trans hd'
  · rw [h1, h2] at h
    rw [h3]
    exact hs.requested (by tauto)

/-- A step that writes nothing, to a point with as much work ahead, at which the queue
was found empty only if it was so before. -/
private theorem Awake.load {s : Ctx} {p : Pc} (hs : Awake s) (hd : drained p = true → drained s.pc = true)
    (ha : ahead s ≤ ahead (s.goto p)) (hn : p ≠ .notifyStopWrite) : Awake (s.goto p) := by
  refine ⟨fun h => hs.queue (hd h), fun he hst => ?_, fun h => ?_⟩
  · exact (hs.stop he hst).imp_right fun hw => hw.imp_right fun hw => Nat.lt_of_lt_of_le hw ha
  · simp only [goto_pc, goto_stopped, goto_stopping] at h
    exact hs.requested (by tauto)

private theorem ahead_push (s : Ctx) (k : Nat) (r w : List Nat) :
    ahead s ≤ ahead { s with taskQueue := s.taskQueue ++ [k], registering := r, writing := w } := by
  cases hp : s.pc <;> simp [ahead, hp]

/-- The steps from the load that found the queue empty to the read of the eventfd. -/
private theorem idle_awake {cfg : Config} {s t : Ctx} (hs : Awake s) (hd : drained s.pc = true)
    (h : s.workStep cfg = some t) : Awake t := by
  have hst := hs.stop
  replace h := workStep_cases h
  cases h with
  | waitEventfd hp h | pollRunning hp h => exact hs.busy rfl Nat.one_pos nofun rfl rfl rfl
  | idleStop hp h | idleIoSubmit hp h | idleIoRunning hp h | idleReady hp h | idleStopPoll hp h
  | idleIoSubmitPoll hp h | idleIoRunningPoll hp h | idleReadyPoll hp h =>
    exact hs.load (fun _ => hd) (by simp [hp, ahead]) nofun
  | idleWait hp h | idleWaitPoll hp h | subSubmit n hp =>
    simp only [ahead, hp] at hst
    exact ⟨fun _ => hs.queue hd, hst, by simpa [hp] using hs.requested⟩
  | notifyStop hp =>
    simp only [ahead, hp] at hst
    exact ⟨fun _ => hs.queue hd, hst, fun _ => rfl⟩
  | notifyStopWrite hp => exact ⟨nofun, nofun, fun _ => hs.requested (.inr (.inr hp))⟩
  | pollSubmit hp h =>
    exact ⟨fun _ => hs.queue hd, fun _ _ => .inr (.inr h), by simpa [hp] using hs.requested⟩
  | pollSubmitNone hp h | pollRunningNone hp h =>
    exact hs.load (fun _ => hd) (by simp only [hp, ahead, goto]; omega) nofun
  | addRunning n hp =>
    simp only [ahead, hp] at hst
    refine ⟨fun _ => hs.queue hd, fun he hstop => ?_, by simpa [hp] using hs.requested⟩
    have := hst he hstop
    simp only [ahead]
    omega
  | _ => simp [‹s.pc = _›, drained] at hd

/-- The other steps, those of the loop condition and of the execution of a task. -/
private theorem loop_awake {cfg : Config} {s t : Ctx} (hs : Awake s) (hd : drained s.pc = false)
    (h : s.workStep cfg = some t) : Awake t := by
  replace h := workStep_cases h
  cases h with
  | headStopAgain hp hr =>
    -- no `notify_stop` has finished
    exact ⟨nofun, fun _ hst => absurd (hs.requested (.inl hst)) hr, by simpa [hp] using hs.requested⟩
  | headIoSubmitAgain hp h | headIoRunningAgain hp h =>
    exact hs.busy rfl (by simp only [ahead, goto]; omega) nofun rfl rfl rfl
  | headReadyAgain hp h =>
    have := List.length_pos_iff.mpr h
    exact hs.busy rfl (by simp only [ahead, goto]; omega) nofun rfl rfl rfl
  | headWaitAgain hp hw => exact ⟨nofun, fun _ _ => .inr (.inl hw), by simpa [hp] using hs.requested⟩
  | readyPoll hp hq | readyIdle hp hq =>
    have hst := hs.stop
    simp only [ahead, hp, hq, List.length_nil, Nat.zero_add] at hst
    exact ⟨by simp [hq], hst, by simpa [hp] using hs.requested⟩
  | unregisterWrite hp => exact ⟨nofun, nofun, by simpa [hp] using hs.requested⟩
  | storeIdle hp =>
    refine ⟨nofun, fun he hst => ?_, by simpa [hp] using hs.requested⟩
    have := hs.stop he hst
    simp only [ahead, hp] at this ⊢
    omega
  | starting hp | storeRunning hp | popped k hp | resuming k hp | selfPush k j hp | selfWrite k hp | unregister k hp
  | batch hp | callback i n hp | callbackEnd n hp | callbackPush k i n hp | callbackWrite i n hp | subRunning n hp
  | headStop hp | headIoSubmit hp | headIoRunning hp | headReady hp | headWait hp | readyTask hp | pop k queue hp
  | peek hp | peekNone hp => exact hs.busy rfl Nat.one_pos nofun rfl rfl rfl
  | _ => simp [‹s.pc = _›, drained] at hd

private theorem work_awake {cfg : Config} {s t : Ctx} (hs : Awake s) (h : s.workStep cfg = some t) : Awake t := by
  cases hd : drained s.pc with
  | true => exact idle_awake hs hd h
  | false => exact loop_awake hs hd h

/-- A step that ends with a write leaves nothing to show. -/
private theorem awake_write {s t : Ctx} (he : t.eventfd = s.writeEventfd.eventfd)
    (hr : t.stopped = true ∨ 0 < t.stopping ∨ t.pc = .notifyStopWrite → t.stopRequested = true) : Awake t := by
  have hne : t.eventfd ≠ 0 := by
    rw [he]
    exact Nat.succ_ne_zero _
  exact ⟨fun _ h0 => absurd h0 hne, fun h0 _ => absurd h0 hne, hr⟩

theorem step_awake {cfg : Config} {op : Op} {s t : Ctx} (hs : Awake s) (h : step cfg op s = some t) : Awake t := by
  cases op with
  | work => exact work_awake hs h
  | start | submitSelf | addIo =>
    obtain ⟨hq, hst, hr⟩ := hs
    simp only [step] at h
    split at h
    · rename_i hp
      cases h
      simp only [hp] at hr
      exact ⟨by simp [hp, drained], by simp [hp, ahead], by simpa [hp] using hr⟩
    · cases h
  | accept j =>
    obtain ⟨hq, hst, hr⟩ := hs
    simp only [step] at h
    split at h
    · rename_i n hp
      split at h
      · cases h
        simp only [hp, ahead, drained] at hq hst hr
        exact ⟨fun _ => hq trivial, hst, by simpa using hr⟩
      · cases h
    · cases h
  | register =>
    cases h
    refine ⟨hs.queue, fun he hd => ?_, hs.requested⟩
    have hst := hs.stop he hd
    simp only [registerWait]
    exact hst.imp_right fun hw => hw.imp_left fun hw => by omega
  | push k =>
    simp only [step] at h
    split at h
    · obtain ⟨u, hu, rfl⟩ := Option.map_eq_some_iff.mp h
      rw [(push_some hu).2]
      refine ⟨fun hd he j hj => ?_, fun he hd => ?_, hs.requested⟩
      · rcases List.mem_append.mp hj with hj | hj
        · exact List.mem_append_left _ (hs.queue hd he j hj)
        · exact List.mem_append_right _ hj
      · have ha := ahead_push s k (s.registering.erase k) (s.writing ++ [k])
        exact (hs.stop he hd).imp_right fun hw => hw.imp_right fun hw => Nat.lt_of_lt_of_le hw ha
    · cases h
  | write k =>
    simp only [step] at h
    split at h
    · cases h
      exact awake_write rfl hs.requested
    · cases h
  | requestStop =>
    simp only [step] at h
    split at h
    · cases h
    · cases h
      exact ⟨hs.queue, hs.stop, fun _ => rfl⟩
  | stopWrite =>
    simp only [step] at h
    split at h
    · cases h
    · cases h
      exact awake_write rfl fun _ => hs.requested (.inr (.inl (by omega)))
  | unregister n =>
    simp only [step] at h
    split at h
    · cases h
      exact ⟨hs.queue, fun _ _ => .inl (Nat.succ_pos _), hs.requested⟩
    · cases h
  | unregisterWrite =>
    simp only [step] at h
    split at h
    · cases h
    · cases h
      exact awake_write rfl hs.requested
  | complete =>
    simp only [step] at h
    split at h
    · cases h
    · cases h
      exact ⟨by simp, by simp, hs.requested⟩

/-- A stopped worker waits for a submitter that has registered; the submitter then
pushes and has yet to write. -/
def blockedStopped : List Op :=
  List.flatten [[.register, .start, .work, .requestStop, .stopWrite], List.replicate 17 .work, [.push 0]]

end TinyCoro.Runtime.WakeUp
