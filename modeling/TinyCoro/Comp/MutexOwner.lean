import TinyCoro.Comp.NotifyPlaces

/-! Mutual exclusion of the mutex together with its condition variables. -/
namespace TinyCoro.Comp.MutexOwner
open Transition CondVar HandlePlaces NotifyPlaces
variable {C M V D : Type} [DecidableEq C] [DecidableEq M] [DecidableEq V]

/-- The mutex of the `lock()`, `lock_guard()` or `wait()` that the coroutine gets
past by taking this step, if it gets past one. -/
def continuesPast (l : C × Op M V D) (s : State C M V D) : Option M :=
  match l.2, s.pc l.1 with
  | .lockReady m, .running => if (s.mtx m).locked then none else some m
  | .guardReady m, .running => if (s.mtx m).locked then none else some m
  | .waitReady _ m cond, .running => if cond.met (s.shared m) then some m else none
  | .resume, .submitted a => some a.mtx
  | _, _ => none

theorem continues_owner {l : C × Op M V D} {s t : State C M V D} (hs : Inv s) (h : step l s = some t)
    {m : M} (hm : continuesPast l s = some m) : l.1 ∈ t.owners m := by
  obtain ⟨c, op⟩ := l
  simp only [continuesPast] at hm
  split at hm
  · rename_i m' hp
    simp only [step, hp, Option.some.injEq] at h
    split at hm
    · cases hm
    · rename_i hl
      cases hm
      rw [← h, tryLockBy_eq]
      simp [hl]
  · rename_i m' hp
    simp only [step, hp, Option.some.injEq] at h
    split at hm
    · cases hm
    · rename_i hl
      cases hm
      rw [← h, tryLockBy_eq]
      simp [hl]
  · rename_i v m' cond hp
    split at hm
    · rename_i hc
      cases hm
      simp only [step, hp] at h
      split at h
      · rename_i ho
        cases h
        simpa [hc] using ho
      · cases h
    · cases hm
  · rename_i a hp
    cases hm
    simp only [step, hp, Option.some.injEq] at h
    rw [← h]
    exact hs.owner c a.mtx (by simp [hp, owning])
  · cases hm

private theorem tryLockBy_keeps {c x : C} {m m' : M} {fail : Pc C M V D} {s : State C M V D} (hx : x ∈ s.owners m') :
    x ∈ (tryLockBy c m fail s).owners m' := by
  rw [tryLockBy_eq]
  split
  · exact hx
  · by_cases hm : m' = m
    · subst hm
      simp [hx]
    · simpa [hm] using hx

private theorem suspendOn_keeps {c x : C} {m : M} {a : Await M V D} {s : State C M V D} (hx : x ∈ s.owners m) :
    x ∈ (suspendOn c a s).owners m := by
  rw [suspendOn_eq]
  split
  · exact hx
  · by_cases hm : m = a.mtx
    · subst hm
      simp [hx]
    · simpa [hm] using hx

omit [DecidableEq V] in
private theorem unlockBy_keeps {c x : C} {m m' : M} {s : State C M V D} (hne : x ≠ c) (hx : x ∈ s.owners m') :
    x ∈ (unlockBy c m s).owners m' := by
  unfold unlockBy
  by_cases hm : m' = m
  · subst hm
    split <;> simp [List.mem_erase_of_ne hne, hx]
  · split <;> simpa [hm] using hx

/-- An owner loses a mutex only by its own unlock or wait. -/
theorem owner_kept {c x : C} {op : Op M V D} {s t : State C M V D} (h : step (c, op) s = some t) {m : M}
    (hx : x ∈ s.owners m) (hop : x = c → (∀ m, op ≠ .unlock m) ∧ op ≠ .waitUnlock) : x ∈ t.owners m := by
  simp only [step] at h
  split at h
  case h_1 | h_2 | h_3 =>
    cases h
    exact tryLockBy_keeps hx
  case h_4 | h_5 =>
    cases h
    exact suspendOn_keeps hx
  case h_6 m' hp =>
    split at h <;> cases h
    exact unlockBy_keeps (fun he => (hop he).1 m' rfl) hx
  case h_7 | h_8 | h_10 | h_11 | h_12 =>
    split at h <;> cases h
    first | exact hx | (split <;> exact hx)
  case h_9 =>
    cases h
    exact unlockBy_keeps (fun he => (hop he).2 rfl) hx
  case h_14 =>
    split at h <;> cases h
    unfold examine
    split <;> exact hx
  case h_15 =>
    cases h
    exact suspendOn_keeps (s := s) hx
  case h_13 | h_16 =>
    cases h
    exact hx
  case h_17 => cases h

omit [DecidableEq C] [DecidableEq M] [DecidableEq V] in
/-- Two owners are one. -/
theorem owner_unique {s : State C M V D} (hs : Inv s) {m : M} {c x : C} (hc : c ∈ s.owners m) (hx : x ∈ s.owners m) :
    x = c := by
  rw [((hs.mutex m).of_mem hc).2] at hx
  exact List.mem_singleton.mp hx

/-- In every reachable state at most one coroutine owns a mutex, `m_locked` is
set exactly when one does, a queued waiter means it is set, and whoever gets past
`lock()`, `lock_guard()` or `wait()` is then its owner. -/
theorem mutex_mutual_exclusion (shared : M → D) (s : State C M V D) (h : Reachable step (init shared) s) (m : M) :
    (s.owners m).length ≤ 1 ∧
    ((s.mtx m).locked = true ↔ s.owners m ≠ []) ∧
    ((s.mtx m).waiters ≠ [] → (s.mtx m).locked = true) ∧
    ∀ l t, step l s = some t → continuesPast l s = some m → l.1 ∈ t.owners m := by
  have hs := reachable_inv h
  refine ⟨?_, ?_, ?_, fun l t ht hm => continues_owner hs ht hm⟩
  · rcases hs.mutex m with ⟨_, o, ho⟩ | ⟨_, ho⟩ <;> simp [ho]
  · rcases hs.mutex m with ⟨hl, o, ho⟩ | ⟨hi, ho⟩
    · simp [hl, ho]
    · simp [hi, ho, Mutex.init]
  · rcases hs.mutex m with ⟨hl, _⟩ | ⟨hi, _⟩
    · exact fun _ => hl
    · simp [hi, Mutex.init]

def handOffSchedule : List (Fin 2 × Op Unit Unit Nat) :=
  [(0, .lockReady ()), (1, .guardReady ()), (1, .lockSuspend),
    (0, .waitReady () () (some fun d => d = 5)), (0, .waitUnlock), (0, .waitPush),
    (1, .resume), (1, .write () fun _ => 5), (1, .notifyAll ()), (1, .notifyNext), (1, .notifyEnqueue),
    (1, .notifyNext), (1, .unlock ())]

theorem mutex_mutual_exclusion_handOff : ∃ s : State (Fin 2) Unit Unit Nat,
    exec step handOffSchedule (init fun _ => 0) = some s ∧ s.owners () = [0] ∧ s.submissions = [1, 0] ∧
    (s.owners ()).length ≤ 1 ∧
    ((s.mtx ()).locked = true ↔ s.owners () ≠ []) ∧
    ((s.mtx ()).waiters ≠ [] → (s.mtx ()).locked = true) ∧
    ∀ l t, step l s = some t → continuesPast l s = some () → l.1 ∈ t.owners () :=
  ⟨_, rfl, by decide, by decide,
    mutex_mutual_exclusion (fun _ => 0) _ (Reachable.of_exec handOffSchedule rfl) ()⟩

end TinyCoro.Comp.MutexOwner
