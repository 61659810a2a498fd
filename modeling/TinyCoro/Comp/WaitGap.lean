import Mathlib.Data.List.Induction
import TinyCoro.Comp.PcMoves

/-! `wait` releases the mutex before it enters the queue of the condition
variable. Which runs let a notifier through that gap. -/
namespace TinyCoro.Comp.WaitGap
open Transition CondVar HandlePlaces NotifyPlaces PcMoves
set_option linter.unusedSectionVars false
variable {C M V D : Type} [DecidableEq C] [DecidableEq M] [DecidableEq V]

def InWaiters (c : C) (v : V) (s : State C M V D) : Prop := ∃ w ∈ (s.cv v).waiters, w.handle = c

def WokenIn (c : C) (v : V) (ls : List (C × Op M V D)) (s : State C M V D) : Prop :=
  ∃ pre l post a b, ls = pre ++ l :: post ∧ exec step pre s = some a ∧ step l a = some b ∧
    InWaiters c v a ∧ ¬ InWaiters c v b

instance (c : C) (v : V) (s : State C M V D) : Decidable (InWaiters c v s) :=
  inferInstanceAs (Decidable (∃ w ∈ (s.cv v).waiters, w.handle = c))

def Op.notifies (v : V) (op : Op M V D) : Prop := op = .notifyOne v ∨ op = .notifyAll v

/-- In the run of `ls`, whenever `W` has taken the unlock step of a wait and `N`,
which did not own the mutex then, notifies while it owns the mutex, `W` is in
`m_waiters` or has been woken. -/
def NoMissedWaiter (ls : List (C × Op M V D)) (s₀ : State C M V D) : Prop :=
  ∀ pre W mid N op post s t v m cond,
    ls = pre ++ (W, .waitUnlock) :: (mid ++ (N, op) :: post) →
    exec step pre s₀ = some s → s.pc W = .waitUnlock v m cond →
    exec step ((W, .waitUnlock) :: mid) s = some t →
    Op.notifies v op → N ∉ s.owners m → N ∈ t.owners m →
    InWaiters W v t ∨ WokenIn W v ((W, .waitUnlock) :: mid) s

/-- No owner of a mutex notifies while a coroutine that released this mutex to
wait on the condition variable has yet to enter its queue. -/
def GapClosed (l : C × Op M V D) (s : State C M V D) : Prop :=
  ∀ v m c cond, Op.notifies v l.2 → l.1 ∈ s.owners m → s.pc c ≠ .waitPush v m cond

private theorem inWaiters_iff {s : State C M V D} (hs : Inv s) {c : C} {v : V} :
    InWaiters c v s ↔ ∃ m cond, s.pc c = .waiting v m cond := by
  constructor
  · rintro ⟨w, hw, rfl⟩
    exact ⟨w.mtx, w.cond, waiting_of_mem hs hw⟩
  · rintro ⟨m, cond, hp⟩
    exact ⟨⟨c, m, cond⟩, (hs.wait v _).mpr (by simp [hp, waitingOn]), rfl⟩

private theorem not_inWaiters {s : State C M V D} (hs : Inv s) {c : C} {v : V} {p : Pc C M V D} (hp : s.pc c = p)
    (hw : ∀ m cond, p ≠ .waiting v m cond) : ¬ InWaiters c v s := by
  rw [inWaiters_iff hs, hp]
  rintro ⟨m, cond, h⟩
  exact hw m cond h

private theorem step_waitPush {l : C × Op M V D} {s t : State C M V D} (hs : Inv s) (h : step l s = some t)
    {c : C} {v : V} {m : M} {cond : Cond D} (hp : s.pc c = .waitPush v m cond) :
    t.pc c = .waitPush v m cond ∨ t.pc c = .waiting v m cond := by
  obtain ⟨d, op⟩ := l
  by_cases hc : c = d
  · have hm := step_self hs h
    rw [← hc, hp] at hm
    generalize t.pc c = q at hm
    cases hm
    exact .inr rfl
  · have hm := step_other hs h hc
    rw [hp] at hm
    generalize t.pc c = q at hm
    cases hm
    exact .inl rfl

private theorem step_waiting {l : C × Op M V D} {s t : State C M V D} (hs : Inv s) (h : step l s = some t)
    {c : C} {v : V} {m : M} {cond : Cond D} (hp : s.pc c = .waiting v m cond) :
    t.pc c = .waiting v m cond ∨ t.pc c = .picked v m cond := by
  obtain ⟨d, op⟩ := l
  by_cases hc : c = d
  · have hm := step_self hs h
    rw [← hc, hp] at hm
    cases hm
  · have hm := step_other hs h hc
    rw [hp] at hm
    generalize t.pc c = q at hm
    cases hm with
    | stay => exact .inl rfl
    | pick => exact .inr rfl

/-- Only the unlock step of a wait puts a coroutine in front of the queue. -/
private theorem to_waitPush {l : C × Op M V D} {s t : State C M V D} (hs : Inv s) (h : step l s = some t)
    {c : C} {v : V} {m : M} {cond : Cond D} (hp : t.pc c = .waitPush v m cond) :
    s.pc c = .waitPush v m cond ∨ l = (c, .waitUnlock) ∧ s.pc c = .waitUnlock v m cond := by
  obtain ⟨d, op⟩ := l
  by_cases hc : c = d
  · subst hc
    have hm := step_self hs h
    rw [hp] at hm
    generalize s.pc c = q at hm
    cases hm
    exact .inr ⟨rfl, rfl⟩
  · have hm := step_other hs h hc
    rw [hp] at hm
    generalize s.pc c = q at hm
    cases hm
    exact .inl rfl

private theorem WokenIn.cons {c : C} {v : V} {l : C × Op M V D} {ls : List (C × Op M V D)} {s t : State C M V D}
    (h : step l s = some t) (hw : WokenIn c v ls t) : WokenIn c v (l :: ls) s := by
  obtain ⟨pre, k, post, a, b, rfl, ha, hb⟩ := hw
  exact ⟨l :: pre, k, post, a, b, rfl, by rw [exec_cons, h]; exact ha, hb⟩

private theorem not_wokenIn {c : C} {v : V} {ls : List (C × Op M V D)} {s : State C M V D}
    (h : Along step (fun _ a => ¬ InWaiters c v a) ls s) : ¬ WokenIn c v ls s := by
  rintro ⟨pre, l, post, a, b, he, ha, _, hin, _⟩
  exact along_iff_split.mp h pre l post a he ha hin

/-- A coroutine in the queue stays there until a step takes it out. -/
private theorem waiting_run {ls : List (C × Op M V D)} {s t : State C M V D} (hs : Inv s)
    (h : exec step ls s = some t) {c : C} {v : V} {m : M} {cond : Cond D} (hp : s.pc c = .waiting v m cond) :
    InWaiters c v t ∨ WokenIn c v ls s := by
  induction ls generalizing s with
  | nil =>
    cases h
    exact .inl ((inWaiters_iff hs).mpr ⟨m, cond, hp⟩)
  | cons l ls ih =>
    obtain ⟨a, ha, h⟩ := exec_cons_some h
    rcases step_waiting hs ha hp with hp' | hp'
    · exact (ih (inv_step hs ha) h hp').imp_right (.cons ha)
    · exact .inr ⟨[], l, ls, s, a, rfl, rfl, ha, (inWaiters_iff hs).mpr ⟨m, cond, hp⟩,
        not_inWaiters (inv_step hs ha) hp' nofun⟩

/-- A coroutine that has released the mutex is still short of the queue, in it, or was woken. -/
private theorem waitPush_run {ls : List (C × Op M V D)} {s t : State C M V D} (hs : Inv s)
    (h : exec step ls s = some t) {c : C} {v : V} {m : M} {cond : Cond D} (hp : s.pc c = .waitPush v m cond) :
    t.pc c = .waitPush v m cond ∨ InWaiters c v t ∨ WokenIn c v ls s := by
  induction ls generalizing s with
  | nil =>
    cases h
    exact .inl hp
  | cons l ls ih =>
    obtain ⟨a, ha, h⟩ := exec_cons_some h
    rcases step_waitPush hs ha hp with hp' | hp'
    · exact (ih (inv_step hs ha) h hp').imp_right fun ho => ho.imp_right (.cons ha)
    · exact .inr ((waiting_run (inv_step hs ha) h hp').imp_right (.cons ha))

/-- The wait that put a coroutine in front of the queue; it was never in the queue since. -/
private theorem waitPush_origin {ls : List (C × Op M V D)} {shared : M → D} {t : State C M V D}
    (h : exec step ls (init shared) = some t) {c : C} {v : V} {m : M} {cond : Cond D}
    (hp : t.pc c = .waitPush v m cond) :
    ∃ pre mid s, ls = pre ++ (c, .waitUnlock) :: mid ∧ exec step pre (init shared) = some s ∧
      s.pc c = .waitUnlock v m cond ∧ exec step ((c, .waitUnlock) :: mid) s = some t ∧
      Along step (fun _ a => ¬ InWaiters c v a) ((c, .waitUnlock) :: mid) s := by
  induction ls using List.reverseRecOn generalizing t with
  | nil =>
    cases h
    cases hp
  | append_singleton ls l ih =>
    obtain ⟨a, ha, h⟩ := exec_append_some h
    obtain ⟨b, hb, h⟩ := exec_cons_some h
    cases h
    have hinv := reachable_inv (Reachable.of_exec ls ha)
    rcases to_waitPush hinv hb hp with hq | ⟨rfl, hq⟩
    · obtain ⟨pre, mid, s, rfl, hs, hpc, he, hw⟩ := ih ha hq
      refine ⟨pre, mid ++ [l], s, by simp, hs, hpc, ?_, ?_⟩
      · rw [← List.cons_append, exec_append, he]
        simp [hb]
      · exact along_concat hw he (not_inWaiters hinv hq nofun)
    · exact ⟨ls, [], a, rfl, ha, hq, by simp [hb], not_inWaiters hinv hq nofun, fun _ _ => trivial⟩

private theorem not_notifies_waitPush {s t : State C M V D} (hs : Inv s) {c : C} {op : Op M V D}
    (h : step (c, op) s = some t) {v v' : V} {m : M} {cond : Cond D} (hp : s.pc c = .waitPush v m cond) :
    ¬ Op.notifies v' op := by
  have hm := step_self hs h
  rw [hp] at hm
  rintro (rfl | rfl) <;> cases hm

/-- A run misses no waiter exactly when every notifier finds the gap closed. -/
theorem no_missed_waiter_iff (shared : M → D) (ls : List (C × Op M V D)) (z : State C M V D)
    (h : exec step ls (init shared) = some z) :
    NoMissedWaiter ls (init shared) ↔ Along step GapClosed ls (init shared) := by
  rw [along_iff_split]
  constructor
  · rintro hall pre ⟨N, op⟩ post t rfl ht v m W cond hn hN hp
    obtain ⟨pre, mid, s, rfl, hs, hpc, he, hw⟩ := waitPush_origin ht hp
    have hi := reachable_inv (Reachable.of_exec _ hs)
    have hit := reachable_inv (Reachable.of_exec _ ht)
    have hne : N ≠ W := by
      rintro rfl
      obtain ⟨t', ht', hpost⟩ := exec_append_some h
      cases ht.symm.trans ht'
      obtain ⟨b, hb, _⟩ := exec_cons_some hpost
      exact not_notifies_waitPush hit hb hp hn
    have hNs : N ∉ s.owners m := by
      rw [((hi.mutex m).of_mem (hi.owner W m (by simp [hpc, owning]))).2, List.mem_singleton]
      exact hne
    rcases hall pre W mid N op post s t v m cond (by simp) hs hpc he hn hNs hN with hin | hin
    · exact not_inWaiters hit hp (by simp) hin
    · exact not_wokenIn hw hin
  · rintro hall pre W mid N op post s t v m cond rfl hs hpc he hn _ hN
    obtain ⟨a, ha, hmid⟩ := exec_cons_some he
    have hi := reachable_inv (Reachable.of_exec _ hs)
    have hpa : a.pc W = .waitPush v m cond := by
      have hm := step_self hi ha
      rw [hpc] at hm
      generalize a.pc W = q at hm
      cases hm
      rfl
    have hgap := hall (pre ++ (W, .waitUnlock) :: mid) (N, op) post t (by simp)
      (by rw [exec_append, hs]; exact he) v m W cond hn hN
    exact ((waitPush_run (inv_step hi ha) hmid hpa).resolve_left hgap).imp_right (.cons ha)

/-- A waiter enters the queue before the next owner writes and notifies. -/
def closedGap : List (Fin 2 × Op Unit Unit Nat) :=
  [(1, .guardReady ()), (1, .waitReady () () (some fun d => d = 1)), (1, .waitUnlock), (1, .waitPush),
    (0, .guardReady ()), (0, .write () (· + 1)), (0, .notifyAll ())]

theorem no_missed_waiter_closedGap :
    (exec step closedGap (init fun _ => 0)).isSome ∧ NoMissedWaiter closedGap (init fun _ => 0) := by
  refine ⟨rfl, (no_missed_waiter_iff (fun _ => 0) closedGap _ rfl).mpr ?_⟩
  -- the notification is the last label; the labels before it meet the condition trivially
  have hother {op : Op Unit Unit Nat} {c : Fin 2} {s : State (Fin 2) Unit Unit Nat}
      (h : op ≠ .notifyOne () ∧ op ≠ .notifyAll ()) : GapClosed (c, op) s := by
    rintro _ _ _ _ (hn | hn)
    · exact absurd hn h.1
    · exact absurd hn h.2
  refine ⟨hother (by simp), ?_⟩
  rintro _ ⟨⟩
  refine ⟨hother (by simp), ?_⟩
  rintro _ ⟨⟩
  refine ⟨hother (by simp), ?_⟩
  rintro _ ⟨⟩
  refine ⟨hother (by simp), ?_⟩
  rintro _ ⟨⟩
  refine ⟨hother (by simp), ?_⟩
  rintro _ ⟨⟩
  refine ⟨hother (by simp), ?_⟩
  rintro _ ⟨⟩
  refine ⟨fun _ _ c _ _ _ => ?_, fun _ _ => trivial⟩
  match c with
  | 0 => nofun
  | 1 => nofun

/-- Coroutine 1 has released the mutex to wait for the value 1 when coroutine 0
takes the mutex, increments the data and notifies. -/
def openGap : List (Fin 2 × Op Unit Unit Nat) :=
  [(1, .guardReady ()), (1, .waitReady () () (some fun d => d = 1)), (1, .waitUnlock),
    (0, .guardReady ()), (0, .waitReady () () (some fun d => d = 0)), (0, .write () (· + 1)), (0, .notifyAll ())]

theorem missed_waiter_openGap :
    (exec step openGap (init fun _ => 0)).isSome ∧ ¬ NoMissedWaiter openGap (init fun _ => 0) := by
  refine ⟨rfl, fun h => ?_⟩
  rcases h (openGap.take 2) 1 ((openGap.drop 3).take 3) 0 (.notifyAll ()) [] _ _ () () _ rfl rfl rfl rfl
    (.inr rfl) (by decide) (by decide) with hin | hin
  · exact absurd hin (by decide)
  · refine not_wokenIn ?_ hin
    refine ⟨by decide, ?_⟩
    rintro _ ⟨⟩
    refine ⟨by decide, ?_⟩
    rintro _ ⟨⟩
    refine ⟨by decide, ?_⟩
    rintro _ ⟨⟩
    refine ⟨by decide, fun _ _ => trivial⟩

end TinyCoro.Comp.WaitGap
