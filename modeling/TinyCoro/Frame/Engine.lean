import Mathlib.Data.List.Nodup
import Mathlib.Logic.Function.Basic
import TinyCoro.Transition.Runs

/-! One engine that executes coroutines without nested tasks: `submit_task`, `exec_one_task`
and `clean`. Handles of suspended coroutines are submitted at any time, also by the
coroutine that runs. -/
namespace TinyCoro.Frame.Engine
open Transition
variable {H : Type}

/-- What a coroutine is doing; a fresh one is suspended at its initial suspend point. -/
inductive Place
  | suspended
  | running
  | final
  | destroyed
  deriving DecidableEq, Repr

/-- `detached` is `m_detached` of the promise. `completedAt` and `destroyedAt` are history:
the calls of `exec_one_task` in which the coroutine ended and in which its frame was
destroyed. -/
structure Coro where
  place : Place
  detached : Bool
  completedAt : List Nat
  destroyedAt : List Nat
  deriving DecidableEq, Repr

/-- Where the engine's thread stands: between two calls, inside the resume, at the `done()`
test, or in `clean`. -/
inductive Pc (H : Type)
  | idle
  | running (h : H)
  | returning (h : H)
  | cleaning (h : H)
  deriving DecidableEq, Repr

/-- `calls` is the number of calls of `exec_one_task`; `submitted` and `resumed` are history. -/
structure State (H : Type) where
  taskQueue : List H
  coro : H → Coro
  pc : Pc H
  calls : Nat
  submitted : List H
  resumed : List H

def init : State H := ⟨[], fun _ => ⟨.suspended, false, [], []⟩, .idle, 0, [], []⟩

namespace State

def ready (s : State H) : Bool := 0 < s.taskQueue.length

def numTaskSchedule (s : State H) : Nat := s.taskQueue.length

variable [DecidableEq H]

def set (h : H) (k : Coro) (p : Pc H) (s : State H) : State H :=
  { s with coro := Function.update s.coro h k, pc := p }

/-- `schedule()` and `coro.resume()`. -/
def execOneTask (s : State H) : Option (State H) :=
  match s.taskQueue with
  | [] => none
  | h :: queue => some { s.set h { s.coro h with place := .running } (.running h) with
    taskQueue := queue
    calls := s.calls + 1
    resumed := s.resumed ++ [h] }

def clean (h : H) (s : State H) : State H :=
  if (s.coro h).detached then
    s.set h { s.coro h with place := .destroyed, destroyedAt := (s.coro h).destroyedAt ++ [s.calls] } .idle
  else { s with pc := .idle }

end State

/-- `suspend` and `complete` are the choices of the coroutine that runs; at its final suspend
point it has no parent to resume. `done` and `clean` end `exec_one_task`. -/
inductive Label (H : Type)
  | submit (h : H)
  | detach (h : H)
  | execOneTask
  | suspend
  | complete
  | done
  | clean
  deriving DecidableEq, Repr

variable [DecidableEq H]

open State in
/-- A handle is submitted while its coroutine is suspended and not in the queue, and a task
is detached before its coroutine ends. -/
def step (queCap : Nat) (l : Label H) (s : State H) : Option (State H) :=
  match l with
  | .submit h =>
    if (s.coro h).place = .suspended ∧ h ∉ s.taskQueue ∧ s.taskQueue.length < queCap then
      some { s with taskQueue := s.taskQueue ++ [h], submitted := s.submitted ++ [h] }
    else none
  | .detach h =>
    if (s.coro h).place = .suspended ∨ (s.coro h).place = .running then
      some (s.set h { s.coro h with detached := true } s.pc)
    else none
  | .execOneTask => if s.pc = .idle then s.execOneTask else none
  | .suspend => match s.pc with
    | .running h => some (s.set h { s.coro h with place := .suspended } (.returning h))
    | _ => none
  | .complete => match s.pc with
    | .running h => some (s.set h
      { s.coro h with place := .final, completedAt := (s.coro h).completedAt ++ [s.calls] } (.returning h))
    | _ => none
  | .done => match s.pc with
    | .returning h => if (s.coro h).place = .final then some { s with pc := .cleaning h } else some { s with pc := .idle }
    | _ => none
  | .clean => match s.pc with
    | .cleaning h => some (s.clean h)
    | _ => none

def Pc.handle : Pc H → Option H
  | .idle => none
  | .running h | .returning h | .cleaning h => some h

def Good (p : Pc H) (calls : Nat) (h : H) (k : Coro) : Prop :=
  match k.place with
  | .suspended => p ≠ .running h ∧ p ≠ .cleaning h ∧ k.completedAt = [] ∧ k.destroyedAt = []
  | .running => p = .running h ∧ k.completedAt = [] ∧ k.destroyedAt = []
  | .final => p ≠ .running h ∧ k.destroyedAt = [] ∧
    ((p.handle = some h ∧ k.completedAt = [calls]) ∨ (p.handle ≠ some h ∧ k.detached = false ∧ ∃ n, k.completedAt = [n]))
  | .destroyed => p.handle ≠ some h ∧ k.detached = true ∧ k.destroyedAt = k.completedAt ∧ ∃ n, k.completedAt = [n]

omit [DecidableEq H] in
/-- What the engine does with another coroutine does not matter. -/
theorem Good.other {p p' : Pc H} {c c' : Nat} {h : H} {k : Coro} (hp : p.handle ≠ some h) (hp' : p'.handle ≠ some h)
    (hg : Good p c h k) : Good p' c' h k := by
  have hrun : p' ≠ .running h := fun he => hp' (he ▸ rfl)
  have hclean : p' ≠ .cleaning h := fun he => hp' (he ▸ rfl)
  unfold Good at hg ⊢
  split at hg
  · exact ⟨hrun, hclean, hg.2.2⟩
  · exact absurd (hg.1 ▸ rfl) hp
  · obtain ⟨-, hd, hc⟩ := hg
    exact ⟨hrun, hd, .inr ⟨hp', (hc.resolve_left fun hc => hp hc.1).2⟩⟩
  · exact ⟨hp', hg.2⟩

structure Inv (s : State H) : Prop where
  fifo : s.submitted = s.resumed ++ s.taskQueue
  calls : s.resumed.length = s.calls
  nodup : s.taskQueue.Nodup
  waiting : ∀ h ∈ s.taskQueue, (s.coro h).place = .suspended
  good : ∀ h, Good s.pc s.calls h (s.coro h)

omit [DecidableEq H] in
theorem inv_init : Inv (init : State H) :=
  ⟨rfl, rfl, List.nodup_nil, nofun, fun _ => ⟨nofun, nofun, rfl, rfl⟩⟩

section Step
variable {queCap : Nat} {s : State H} {h : H}

omit [DecidableEq H] in
theorem Inv.running (hs : Inv s) (hp : s.pc = .running h) :
    (s.coro h).place = .running ∧ (s.coro h).completedAt = [] ∧ (s.coro h).destroyedAt = [] := by
  have hg := hs.good h
  rw [hp] at hg
  unfold Good at hg
  split at hg
  · exact absurd rfl hg.1
  · exact ⟨‹_›, hg.2⟩
  · exact absurd rfl hg.1
  · exact absurd rfl hg.1

omit [DecidableEq H] in
theorem Inv.cleaning (hs : Inv s) (hp : s.pc = .cleaning h) :
    (s.coro h).place = .final ∧ (s.coro h).completedAt = [s.calls] ∧ (s.coro h).destroyedAt = [] := by
  have hg := hs.good h
  rw [hp] at hg
  unfold Good at hg
  split at hg
  · exact absurd rfl hg.2.1
  · exact nomatch hg.1
  · exact ⟨‹_›, (hg.2.2.resolve_right fun hc => hc.1 rfl).2, hg.2.1⟩
  · exact absurd rfl hg.1

/-- A coroutine that is not in the queue moves, and the engine with it. -/
theorem inv_set (hs : Inv s) {k : Coro} {p : Pc H} (hq : h ∉ s.taskQueue) (hg : Good p s.calls h k)
    (hp : ∀ g, g ≠ h → s.pc.handle ≠ some g) (hp' : ∀ g, g ≠ h → p.handle ≠ some g) : Inv (s.set h k p) := by
  refine ⟨hs.fifo, hs.calls, hs.nodup, fun g hg => ?_, ?_⟩
  · have hgh : g ≠ h := fun he => hq (he ▸ hg)
    simp only [State.set, Function.update_of_ne hgh]
    exact hs.waiting g hg
  · refine (Function.forall_update_iff s.coro (Good p s.calls)).mpr ⟨hg, fun g hgh => ?_⟩
    exact (hs.good g).other (hp g hgh) (hp' g hgh)

omit [DecidableEq H] in
private theorem not_queued (hs : Inv s) (hp : (s.coro h).place ≠ .suspended) : h ∉ s.taskQueue :=
  fun hq => hp (hs.waiting h hq)

omit [DecidableEq H] in
private theorem inv_submit (hs : Inv s) (hp : (s.coro h).place = .suspended) (hq : h ∉ s.taskQueue) :
    Inv { s with taskQueue := s.taskQueue ++ [h], submitted := s.submitted ++ [h] } := by
  refine { hs with fifo := ?_, nodup := ?_, waiting := fun g hg => ?_ }
  · simp only [hs.fifo, List.append_assoc]
  · rw [List.nodup_append]
    refine ⟨hs.nodup, List.nodup_singleton h, ?_⟩
    rintro g hg _ hg' rfl
    exact hq (List.mem_singleton.mp hg' ▸ hg)
  · rcases List.mem_append.mp hg with hg | hg
    · exact hs.waiting g hg
    · exact List.mem_singleton.mp hg ▸ hp

/-- Nothing depends on the flag before the coroutine has ended. -/
private theorem inv_detach (hs : Inv s) (hp : (s.coro h).place = .suspended ∨ (s.coro h).place = .running) :
    Inv (s.set h { s.coro h with detached := true } s.pc) := by
  refine { hs with waiting := fun g hg => ?_, good := ?_ }
  · by_cases hgh : g = h
    · subst hgh
      simp only [State.set, Function.update_self]
      exact hs.waiting g hg
    · simp only [State.set, Function.update_of_ne hgh]
      exact hs.waiting g hg
  · refine (Function.forall_update_iff s.coro (Good s.pc s.calls)).mpr ⟨?_, fun g _ => hs.good g⟩
    have hg := hs.good h
    rcases hp with hp | hp
    · simpa only [Good, hp] using hg
    · simpa only [Good, hp] using hg

private theorem inv_execOneTask {t : State H} (hs : Inv s) (hp : s.pc = .idle) (ht : s.execOneTask = some t) : Inv t := by
  unfold State.execOneTask at ht
  split at ht <;> cases ht
  rename_i h queue hq
  have hnodup := hs.nodup
  rw [hq] at hnodup
  have hsusp := hs.waiting h (by rw [hq]; exact List.mem_cons_self)
  have hg := hs.good h
  simp only [Good, hsusp] at hg
  refine ⟨?_, ?_, hnodup.of_cons, fun g hgq => ?_, ?_⟩
  · simp [State.set, hs.fifo, hq]
  · simp [hs.calls]
  · have hgh : g ≠ h := fun he => (List.nodup_cons.mp hnodup).1 (he ▸ hgq)
    simp only [State.set, Function.update_of_ne hgh]
    exact hs.waiting g (by rw [hq]; exact List.mem_cons_of_mem h hgq)
  · refine (Function.forall_update_iff s.coro (Good (.running h) (s.calls + 1))).mpr ⟨⟨rfl, hg.2.2⟩, fun g hgh => ?_⟩
    refine (hs.good g).other ?_ ?_
    · simp [hp, Pc.handle]
    · simpa [Pc.handle] using hgh.symm

private theorem inv_suspend (hs : Inv s) (hp : s.pc = .running h) :
    Inv (s.set h { s.coro h with place := .suspended } (.returning h)) := by
  obtain ⟨hrun, hc, hd⟩ := hs.running hp
  refine inv_set hs (not_queued hs (by simp [hrun])) ⟨nofun, nofun, hc, hd⟩ (fun g hgh => ?_) fun g hgh => ?_
  · simpa [hp, Pc.handle] using hgh.symm
  · simpa [Pc.handle] using hgh.symm

private theorem inv_complete (hs : Inv s) (hp : s.pc = .running h) : Inv (s.set h
    { s.coro h with place := .final, completedAt := (s.coro h).completedAt ++ [s.calls] } (.returning h)) := by
  obtain ⟨hrun, hc, hd⟩ := hs.running hp
  refine inv_set hs (not_queued hs (by simp [hrun])) ⟨nofun, hd, .inl ⟨rfl, by simp [hc]⟩⟩ (fun g hgh => ?_)
    fun g hgh => ?_
  · simpa [hp, Pc.handle] using hgh.symm
  · simpa [Pc.handle] using hgh.symm

/-- The engine goes on with the coroutine as it is. -/
private theorem inv_goto (hs : Inv s) {p : Pc H} (hg : Good p s.calls h (s.coro h))
    (hp : ∀ g, g ≠ h → s.pc.handle ≠ some g) (hp' : ∀ g, g ≠ h → p.handle ≠ some g) : Inv { s with pc := p } := by
  refine { hs with good := fun g => ?_ }
  by_cases hgh : g = h
  · subst hgh
    exact hg
  · exact (hs.good g).other (hp g hgh) (hp' g hgh)

private theorem inv_clean (hs : Inv s) (hp : s.pc = .cleaning h) : Inv (s.clean h) := by
  obtain ⟨hfinal, hc, hd⟩ := hs.cleaning hp
  have hother : ∀ g, g ≠ h → s.pc.handle ≠ some g := by
    intro g hgh
    simpa [hp, Pc.handle] using hgh.symm
  unfold State.clean
  split
  · rename_i hdet
    refine inv_set hs (not_queued hs (by simp [hfinal])) ⟨nofun, hdet, by simp [hc, hd], s.calls, hc⟩ hother nofun
  · rename_i hdet
    refine inv_goto hs ?_ hother nofun
    simp only [Good, hfinal]
    exact ⟨nofun, hd, .inr ⟨nofun, by simpa using hdet, s.calls, hc⟩⟩

private theorem inv_done (hs : Inv s) (hp : s.pc = .returning h) :
    ((s.coro h).place = .final → Inv { s with pc := .cleaning h }) ∧
    ((s.coro h).place ≠ .final → Inv { s with pc := .idle }) := by
  have hg := hs.good h
  have hother : ∀ g, g ≠ h → s.pc.handle ≠ some g := by
    intro g hgh
    simpa [hp, Pc.handle] using hgh.symm
  rw [hp] at hg
  refine ⟨fun hf => inv_goto hs ?_ hother fun g hgh => ?_, fun hf => inv_goto hs ?_ hother nofun⟩
  · simp only [Good, hf] at hg ⊢
    exact ⟨nofun, hg.2.1, .inl ⟨rfl, (hg.2.2.resolve_right fun hc => hc.1 rfl).2⟩⟩
  · simpa [Pc.handle] using hgh.symm
  · unfold Good at hg ⊢
    split at hg
    · exact ⟨nofun, nofun, hg.2.2⟩
    · exact nomatch hg.1
    · exact absurd ‹_› hf
    · exact absurd rfl hg.1

theorem inv_step {l : Label H} {t : State H} (hs : Inv s) (ht : step queCap l s = some t) : Inv t := by
  cases l with
  | submit g =>
    simp only [step] at ht
    split at ht <;> cases ht
    rename_i hg
    exact inv_submit hs hg.1 hg.2.1
  | detach g =>
    simp only [step] at ht
    split at ht <;> cases ht
    exact inv_detach hs ‹_›
  | execOneTask =>
    simp only [step] at ht
    split at ht
    · exact inv_execOneTask hs ‹_› ht
    · cases ht
  | suspend =>
    simp only [step] at ht
    split at ht <;> cases ht
    exact inv_suspend hs ‹_›
  | complete =>
    simp only [step] at ht
    split at ht <;> cases ht
    exact inv_complete hs ‹_›
  | done =>
    simp only [step] at ht
    split at ht
    · rename_i hp
      split at ht <;> cases ht
      · exact (inv_done hs hp).1 ‹_›
      · exact (inv_done hs hp).2 ‹_›
    · cases ht
  | clean =>
    simp only [step] at ht
    split at ht <;> cases ht
    exact inv_clean hs ‹_›

private theorem step_submitted {l : Label H} {t : State H} (ht : step queCap l s = some t) :
    s.submitted <+: t.submitted := by
  cases l with
  | submit g =>
    simp only [step] at ht
    split at ht <;> cases ht
    exact List.prefix_append _ _
  | execOneTask =>
    simp only [step] at ht
    split at ht
    · unfold State.execOneTask at ht
      split at ht <;> cases ht
      exact List.prefix_rfl
    · cases ht
  | clean =>
    simp only [step] at ht
    split at ht <;> cases ht
    unfold State.clean
    split <;> exact List.prefix_rfl
  | detach | suspend | complete | done =>
    simp only [step] at ht
    repeat' split at ht
    all_goals cases ht
    all_goals exact List.prefix_rfl

/-- Every submission made so far has led to its resume when as many calls have been made. -/
private theorem submitted_resumed {t : State H} (hs : Reachable (step queCap) init s) (ht : Reachable (step queCap) s t)
    (hn : s.submitted.length ≤ t.calls) : s.submitted <+: t.resumed := by
  have hinv : Inv t := (hs.trans ht).invariant Inv inv_init fun _ _ _ _ hs ht => inv_step hs ht
  have hgrow : s.submitted <+: t.submitted :=
    ht.invariant (fun t => s.submitted <+: t.submitted) List.prefix_rfl fun _ _ _ _ hu ht => hu.trans (step_submitted ht)
  rw [hinv.fifo] at hgrow
  exact List.prefix_of_prefix_length_le hgrow (List.prefix_append _ _) (hinv.calls ▸ hn)

omit [DecidableEq H] in
/-- A frame that the engine has left is destroyed if its coroutine has ended and is
detached, in the same call. -/
private theorem Good.destroyedAt {p : Pc H} {calls : Nat} {k : Coro} (hg : Good p calls h k) :
    k.completedAt.length ≤ 1 ∧ (k.detached = false → k.destroyedAt = []) ∧
    (p.handle ≠ some h → k.destroyedAt = if k.detached then k.completedAt else []) ∧
    (p.handle = some h → k.destroyedAt = [] ∧ ∀ n ∈ k.completedAt, n = calls) := by
  unfold Good at hg
  split at hg
  · obtain ⟨-, -, hc, hd⟩ := hg
    simp [hc, hd]
  · obtain ⟨-, hc, hd⟩ := hg
    simp [hc, hd]
  · obtain ⟨-, hd, ⟨hp, hc⟩ | ⟨hp, hdet, n, hc⟩⟩ := hg
    · simp [hp, hc, hd]
    · simp [hp, hc, hd, hdet]
  · obtain ⟨hp, hdet, hd, n, hc⟩ := hg
    simp [hp, hc, hd, hdet]

end Step

/-- Handles are resumed in the order of their submission, one in each call and each
submission once, as long as the engine is ready; the length of the queue is the number of
submissions without a resume. A coroutine ends at most once, and then its frame is
destroyed in the same call if it is detached, and never otherwise. -/
theorem flat_tasks_fifo (queCap : Nat) (s : State H) (h : Reachable (step queCap) init s) :
    s.submitted = s.resumed ++ s.taskQueue ∧ s.resumed.length = s.calls ∧
    s.numTaskSchedule = s.submitted.length - s.resumed.length ∧
    (∀ t, Reachable (step queCap) s t → s.submitted.length ≤ t.calls → s.submitted <+: t.resumed) ∧
    (s.pc = .idle → s.ready = true → (step queCap .execOneTask s).isSome = true) ∧
    (∀ g ∈ s.taskQueue, (s.coro g).place = .suspended) ∧
    ∀ g, (s.coro g).completedAt.length ≤ 1 ∧ ((s.coro g).detached = false → (s.coro g).destroyedAt = []) ∧
      (s.pc.handle ≠ some g →
        (s.coro g).destroyedAt = if (s.coro g).detached then (s.coro g).completedAt else []) ∧
      (s.pc.handle = some g → (s.coro g).destroyedAt = [] ∧ ∀ n ∈ (s.coro g).completedAt, n = s.calls) := by
  have hs : Inv s := h.invariant Inv inv_init fun _ _ _ _ hs ht => inv_step hs ht
  refine ⟨hs.fifo, hs.calls, ?_, fun t ht hn => submitted_resumed h ht hn, fun hp hr => ?_, hs.waiting,
    fun g => (hs.good g).destroyedAt⟩
  · rw [hs.fifo, List.length_append, Nat.add_sub_cancel_left]
    rfl
  · simp only [State.ready, decide_eq_true_eq] at hr
    obtain ⟨g, queue, hq⟩ := List.exists_cons_of_ne_nil (List.ne_nil_of_length_pos hr)
    simp [step, hp, State.execOneTask, hq]

/-- The first of two tasks is detached, suspends and is submitted again before the resume
returns; the second one is not detached. -/
def againAndOnce : List (Label (Fin 2)) :=
  [.submit 0, .detach 0, .submit 1, .execOneTask, .suspend, .submit 0, .done, .execOneTask, .complete, .done, .clean,
    .execOneTask, .complete, .done, .clean]

theorem flat_tasks_fifo_againAndOnce : ∃ s : State (Fin 2), Reachable (step 4) init s ∧ s.resumed = [0, 1, 0] ∧
    s.submitted = s.resumed ++ s.taskQueue ∧ s.numTaskSchedule = s.submitted.length - s.resumed.length ∧
    (s.coro 0).completedAt = [3] ∧ (s.coro 0).destroyedAt = [3] ∧
    (s.coro 1).completedAt = [2] ∧ (s.coro 1).destroyedAt = [] := by
  obtain ⟨s, hs⟩ : ∃ s, s ∈ exec (step 4) againAndOnce init := ⟨_, rfl⟩
  have hr := Reachable.of_exec againAndOnce hs
  obtain ⟨hfifo, -, hnum, -, -, -, hcoro⟩ := flat_tasks_fifo 4 s hr
  have hcoro0 := (hcoro 0).2.2.1
  have hcoro1 := (hcoro 1).2.2.1
  cases hs
  exact ⟨_, hr, rfl, hfifo, hnum, rfl, hcoro0 nofun, rfl, hcoro1 nofun⟩

end TinyCoro.Frame.Engine
