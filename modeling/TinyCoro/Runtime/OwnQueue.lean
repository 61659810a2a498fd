import TinyCoro.Runtime.Context

/-! A worker that submits to its own context while its queue is full waits for a
slot that only it could free. -/
namespace TinyCoro.Runtime.OwnQueue
open Transition Ctx

/-- The worker is inside `m_task_queue.push` of a submission to its own context. -/
def ownPush : Pc → Bool
  | .selfPush _ _ => true
  | .callbackPush _ _ _ => true
  | _ => false

/-- The worker waits for a free slot of the queue it is the only consumer of. -/
def Blocked (cfg : Config) (s : Ctx) : Prop := ownPush s.pc = true ∧ cfg.slots ≤ s.taskQueue.length

def callsBack : Pc → Bool
  | .callback (_ + 1) _ => true
  | _ => false

/-- The worker registers a submission of its own only while the queue has a free
slot, and another thread does not take the last slot before the worker's push. -/
def Room (cfg : Config) (op : Op) (s : Ctx) : Prop :=
  match op with
  | .submitSelf => s.taskQueue.length < cfg.slots
  | .work => callsBack s.pc = true → s.taskQueue.length < cfg.slots
  | .push _ => ownPush s.pc = true → s.taskQueue.length + 1 < cfg.slots
  | _ => True

instance (cfg : Config) (op : Op) (s : Ctx) : Decidable (Room cfg op s) :=
  match op with
  | .submitSelf => inferInstanceAs (Decidable (s.taskQueue.length < cfg.slots))
  | .work => inferInstanceAs (Decidable (callsBack s.pc = true → s.taskQueue.length < cfg.slots))
  | .push _ => inferInstanceAs (Decidable (ownPush s.pc = true → s.taskQueue.length + 1 < cfg.slots))
  | .start | .addIo | .accept _ | .register | .write _ | .requestStop | .stopWrite | .unregister _ | .unregisterWrite
  | .complete => isTrue trivial

/-- No state of the run has the worker blocked on its own queue. -/
def NeverBlocks (cfg : Config) (ls : List Op) : Prop :=
  ∀ pre post s, ls = pre ++ post → exec (step cfg) pre init = some s → ¬ Blocked cfg s

private theorem work_ownPush {cfg : Config} {s t : Ctx} (h : s.workStep cfg = some t) :
    ownPush t.pc = true ↔ callsBack s.pc = true := by
  replace h := workStep_cases h
  cases h with
  | _ => simp [ownPush, callsBack, ‹s.pc = _›]

private theorem callback_queue {cfg : Config} {s t : Ctx} (h : s.workStep cfg = some t)
    (hc : callsBack s.pc = true) : t.taskQueue = s.taskQueue := by
  replace h := workStep_cases h
  cases h with
  | callback i n hp => rfl
  | _ => simp [callsBack, ‹s.pc = _›] at hc

/-- From a state that is not blocked, exactly the steps without room block the worker. -/
private theorem blocked_iff {cfg : Config} {op : Op} {s t : Ctx} (h : step cfg op s = some t)
    (hs : ¬ Blocked cfg s) : Blocked cfg t ↔ ¬ Room cfg op s := by
  cases op with
  | work =>
    simp only [Room, Blocked, work_ownPush h, Classical.not_imp]
    refine and_congr_right fun hc => ?_
    rw [callback_queue h hc, Nat.not_lt]
  | submitSelf =>
    simp only [step] at h
    split at h
    · cases h
      simp [Blocked, Room, ownPush]
    · cases h
  | push k =>
    simp only [step] at h
    split at h
    · obtain ⟨u, hu, rfl⟩ := Option.map_eq_some_iff.mp h
      rw [(push_some hu).2]
      simp [Blocked, Room]
    · cases h
  | start | addIo | accept j =>
    simp only [step] at h
    repeat' split at h
    all_goals cases h
    all_goals simp_all [Blocked, Room, ownPush]
  | register | write | requestStop | stopWrite | unregister | unregisterWrite | complete =>
    simp only [step] at h
    repeat' split at h
    all_goals cases h
    all_goals exact ⟨fun hb => absurd hb hs, fun hr => absurd trivial hr⟩

/-- A run never blocks the worker on its own queue exactly when all its steps leave room. -/
theorem never_blocks_iff (cfg : Config) (ls : List Op) (z : Ctx) (h : exec (step cfg) ls init = some z) :
    NeverBlocks cfg ls ↔ Along (step cfg) (Room cfg) ls init := by
  constructor
  · intro hn
    refine along_iff_split.mpr fun pre op post s hl hs => ?_
    subst hl
    obtain ⟨s', hs', h⟩ := exec_append_some h
    cases hs.symm.trans hs'
    obtain ⟨t, ht, _⟩ := exec_cons_some h
    have hb := hn (pre ++ [op]) post t (by simp) (by rw [exec_append, hs]; simp [ht])
    by_contra hr
    exact hb ((blocked_iff ht (hn pre (op :: post) s rfl hs)).mpr hr)
  · rintro ha pre post s rfl hs
    have hr : Reach (step cfg) (Room cfg) init s := Reach.exec .start (along_append ha) hs
    refine hr.invariant (fun s => ¬ Blocked cfg s) (by simp [Blocked, init, ownPush]) ?_
    intro op s t hroom hb ht hbt
    exact (blocked_iff ht hb).mp hbt hroom

def oneWake : List Op :=
  List.flatten [[.register, .push 0, .write 0, .start], List.replicate 6 .work, [.submitSelf, .work, .work]]

theorem never_blocks_oneWake : (exec (step ⟨5000, true⟩) oneWake init).isSome ∧ NeverBlocks ⟨5000, true⟩ oneWake := by
  have hp : (exec (step ⟨5000, true⟩) oneWake init).isSome := by decide +kernel
  obtain ⟨z, hz⟩ := Option.isSome_iff_exists.mp hp
  exact ⟨hp, (never_blocks_iff ⟨5000, true⟩ oneWake z hz).mpr (by decide +kernel)⟩

/-- A coroutine fills the queue of its own context. -/
private theorem reachable_full {cfg : Config} {k : Nat} (n : Nat) {s : Ctx} (hs : Reachable (step cfg) init s)
    (hp : s.pc = .resuming k) (hn : s.taskQueue.length + n = cfg.slots) :
    ∃ t, Reachable (step cfg) init t ∧ t.pc = .resuming k ∧ t.taskQueue.length = cfg.slots := by
  induction n generalizing s with
  | zero => exact ⟨s, hs, hp, hn⟩
  | succ n ih =>
    have hlt : s.taskQueue.length < cfg.slots := by omega
    have h1 : step cfg .submitSelf s = some (s.registerWait.goto (.selfPush k s.submissions)) := by
      simp only [step, hp]
    have h2 : step cfg .work (s.registerWait.goto (.selfPush k s.submissions)) =
        some { s.registerWait with pc := .selfWrite k, taskQueue := s.taskQueue ++ [s.submissions] } := by
      simp only [step, workStep, goto_pc, push, goto_taskQueue, registerWait_taskQueue, if_pos hlt]
      rfl
    have h3 := (((hs.next trivial h1).next trivial h2).next trivial (l := .work) rfl)
    exact ih h3 rfl (by simp [writeEventfd]; omega)

/-- The coroutine of the first task runs, and its queue is empty. -/
private theorem reachable_resuming (cfg : Config) : ∃ s : Ctx,
    Reachable (step cfg) init s ∧ s.pc = .resuming 0 ∧ s.taskQueue = [] := by
  obtain ⟨s, hs, hp, hq⟩ : ∃ s, exec (step cfg) (.register :: .push 0 :: .write 0 :: .start :: List.replicate 6 .work) init =
      some s ∧ s.pc = .resuming 0 ∧ s.taskQueue = [] := by
    simp [List.replicate, step, workStep, push, init, cfg.slots_pos]
  exact ⟨s, Reachable.of_exec _ hs, hp, hq⟩

/-- Whatever the capacity, a coroutine can fill the queue of its own context and then submit
one more handle to it. -/
private theorem reachable_blocked (cfg : Config) : ∃ s : Ctx, Reachable (step cfg) init s ∧ Blocked cfg s := by
  obtain ⟨s, hs, hp, hq⟩ := reachable_resuming cfg
  obtain ⟨t, ht, hpt, hqt⟩ := reachable_full cfg.slots hs hp (by simp [hq])
  refine ⟨_, ht.next trivial (l := .submitSelf) (by simp only [step, hpt]; rfl), rfl, ?_⟩
  exact Nat.le_of_eq hqt.symm

/-- With the repository's capacity the queue has 16384 slots: the coroutine of a worker wakes
as many others and then one more. -/
theorem own_queue_blocks : (⟨16384, true⟩ : Config).slots = 16384 ∧
    ∃ s : Ctx, Reachable (step ⟨16384, true⟩) init s ∧ Blocked ⟨16384, true⟩ s :=
  ⟨by decide +kernel, reachable_blocked ⟨16384, true⟩⟩

end TinyCoro.Runtime.OwnQueue
