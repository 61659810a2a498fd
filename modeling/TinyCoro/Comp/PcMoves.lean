import TinyCoro.Comp.NotifyPlaces

/-! What a step does to the coroutine that takes it, and to the others. -/
namespace TinyCoro.Comp.PcMoves
open CondVar HandlePlaces
set_option linter.unusedSectionVars false
variable {C M V D : Type}

/-- The suspended coroutine that the step makes the owner of its mutex: the front
of the queue at an unlock, or the woken waiter if a notifier finds the mutex free. -/
def grantee (l : C × Op M V D) (s : State C M V D) : Option C :=
  match l.2, s.pc l.1 with
  | .unlock m, .running => (s.mtx m).waiters.head?
  | .waitUnlock, .waitUnlock _ m _ => (s.mtx m).waiters.head?
  | .notifyEnqueue, .notifyEnqueue _ _ w => if (s.mtx w.mtx).locked then none else some w.handle
  | _, _ => none

inductive Moved (granted : Prop) : Pc C M V D → Pc C M V D → Prop
  | stay (p : Pc C M V D) : Moved granted p p
  | grant (a : Await M V D) : granted → Moved granted (.queued a) (.submitted a)
  | pick (v : V) (m : M) (cond : Cond D) : Moved granted (.waiting v m cond) (.picked v m cond)
  | enqueue (v : V) (m : M) (cond : Cond D) : Moved granted (.picked v m cond) (.queued (.wait v m cond))
  | take (v : V) (m : M) (cond : Cond D) : granted → Moved granted (.picked v m cond) (.submitted (.wait v m cond))

inductive Own : Op M V D → Pc C M V D → Pc C M V D → Prop
  | stay (op : Op M V D) : Own op .running .running
  | lockFail (m : M) : Own (.lockReady m) .running (.lockSuspend m)
  | guardFail (m : M) : Own (.guardReady m) .running (.guardSuspend m)
  | lockQueue (m : M) : Own .lockSuspend (.lockSuspend m) (.queued (.lock m))
  | lockTake (m : M) : Own .lockSuspend (.lockSuspend m) (.submitted (.lock m))
  | guardQueue (m : M) : Own .lockSuspend (.guardSuspend m) (.queued (.lockGuard m))
  | guardTake (m : M) : Own .lockSuspend (.guardSuspend m) (.submitted (.lockGuard m))
  | wait (v : V) (m : M) (cond : Cond D) : Own (.waitReady v m cond) .running (.waitUnlock v m cond)
  | release (v : V) (m : M) (cond : Cond D) : Own .waitUnlock (.waitUnlock v m cond) (.waitPush v m cond)
  | enter (v : V) (m : M) (cond : Cond D) : Own .waitPush (.waitPush v m cond) (.waiting v m cond)
  | notifyOne (v : V) (n : Nat) : Own (.notifyOne v) .running (.notify v n)
  | notifyAll (v : V) (n : Nat) : Own (.notifyAll v) .running (.notify v n)
  | notified (v : V) : Own .notifyNext (.notify v 0) .running
  | putBack (v : V) (n : Nat) : Own .notifyNext (.notify v (n + 1)) (.notify v n)
  | pop (v : V) (n : Nat) (w : Waiter C M D) : Own .notifyNext (.notify v (n + 1)) (.notifyEnqueue v n w)
  | enqueue (v : V) (n : Nat) (w : Waiter C M D) : Own .notifyEnqueue (.notifyEnqueue v n w) (.notify v n)
  | resume (a : Await M V D) : Own .resume (.submitted a) .running

/-- A handle in the queue of a mutex belongs to a coroutine suspended on it. -/
theorem queued_of_mem {s : State C M V D} (hs : Inv s) {m : M} {h : C} (hm : h ∈ (s.mtx m).waiters) :
    ∃ a, s.pc h = .queued a ∧ a.mtx = m := by
  have hq := (hs.queue m h).mp hm
  cases hp : s.pc h with
  | queued a => exact ⟨a, rfl, by simpa [hp, queuedOn] using hq⟩
  | _ => simp [hp, queuedOn] at hq

/-- An entry of a condition variable belongs to a coroutine that waits on it. -/
theorem waiting_of_mem {s : State C M V D} (hs : Inv s) {v : V} {w : Waiter C M D} (hw : w ∈ (s.cv v).waiters) :
    s.pc w.handle = .waiting v w.mtx w.cond := by
  have hq := (hs.wait v w).mp hw
  cases hp : s.pc w.handle with
  | waiting v' m cond => simpa [hp, waitingOn] using hq
  | _ => simp [hp, waitingOn] at hq

/-- The entry a notifier has popped belongs to a coroutine that was picked with it. -/
theorem picked_of_enqueue {s : State C M V D} (hs : Inv s) {c : C} {v : V} {n : Nat} {w : Waiter C M D}
    (hp : s.pc c = .notifyEnqueue v n w) : s.pc w.handle = .picked v w.mtx w.cond := by
  have hq := (hs.pick v w).mpr ⟨c, by rw [hp]; rfl⟩
  cases hpw : s.pc w.handle with
  | picked v' m cond => simpa [hpw, pickedOn] using hq
  | _ => simp [hpw, pickedOn] at hq

variable [DecidableEq C] [DecidableEq M] [DecidableEq V]

private theorem moved_goto {g : Prop} {s : State C M V D} {c x : C} (p : Pc C M V D) (hx : x ≠ c) :
    Moved g (s.pc x) ((s.goto c p).pc x) := by
  rw [State.goto_pc, Function.update_of_ne hx]
  exact .stay _

private theorem moved_tryLockBy {g : Prop} {s : State C M V D} {c x : C} (m : M) (fail : Pc C M V D) (hx : x ≠ c) :
    Moved g (s.pc x) ((tryLockBy c m fail s).pc x) := by
  rw [tryLockBy_eq]
  split
  · exact moved_goto fail hx
  · exact .stay _

private theorem moved_suspendOn {g : Prop} {s : State C M V D} {c x : C} (a : Await M V D) (hx : x ≠ c) :
    Moved g (s.pc x) ((suspendOn c a s).pc x) := by
  rw [suspendOn_eq]
  split
  · exact moved_goto (.queued a) hx
  · rw [State.submitTask_pc, Function.update_of_ne hx]
    exact .stay _

private theorem moved_unlockBy {s : State C M V D} (hs : Inv s) (c : C) (m : M) (x : C) :
    Moved ((s.mtx m).waiters.head? = some x) (s.pc x) ((unlockBy c m s).pc x) := by
  cases hw : (s.mtx m).waiters with
  | nil =>
    rw [unlockBy_release hw]
    exact .stay _
  | cons h rest =>
    obtain ⟨a, hp, _⟩ := queued_of_mem hs (m := m) (h := h) (by simp [hw])
    rw [unlockBy_handOff hw]
    by_cases hx : x = h
    · rw [hx, State.submitTask_pc, Function.update_self, hp]
      exact .grant a rfl
    · rw [State.submitTask_pc, Function.update_of_ne hx]
      exact .stay _

private theorem moved_examine {g : Prop} {s : State C M V D} (hs : Inv s) {c x : C} {v : V} (n : Nat) {w : Waiter C M D}
    {rest : List (Waiter C M D)} (hq : (s.cv v).waiters = w :: rest) (hx : x ≠ c) :
    Moved g (s.pc x) ((examine c v n w rest s).pc x) := by
  unfold examine
  split
  · exact moved_goto (s := s.setCv v _) _ hx
  · by_cases hw : x = w.handle
    · rw [hw, State.goto_pc, Function.update_self, waiting_of_mem hs (v := v) (by simp [hq])]
      exact .pick v w.mtx w.cond
    · rw [State.goto_pc, Function.update_of_ne hw]
      exact moved_goto (s := s.setCv v _) _ hx

private theorem moved_enqueueWaiter {s : State C M V D} (hs : Inv s) {c x : C} {v : V} {n : Nat} {w : Waiter C M D}
    (hp : s.pc c = .notifyEnqueue v n w) :
    Moved ((s.mtx w.mtx).locked = false ∧ w.handle = x) (s.pc x)
      ((suspendOn w.handle (.wait v w.mtx w.cond) s).pc x) := by
  by_cases hx : x = w.handle
  · rw [hx, suspendOn_eq, picked_of_enqueue hs hp]
    split
    · rw [State.goto_pc, Function.update_self]
      exact .enqueue v w.mtx w.cond
    · rename_i hl
      rw [State.submitTask_pc, Function.update_self]
      exact .take v w.mtx w.cond ⟨by simpa [Await.mtx] using hl, rfl⟩
  · exact moved_suspendOn _ hx

/-- A step moves everybody else only along the way of a suspended handle. -/
theorem step_other {l : C × Op M V D} {s t : State C M V D} (hs : Inv s) (h : step l s = some t) {x : C}
    (hx : x ≠ l.1) : Moved (grantee l s = some x) (s.pc x) (t.pc x) := by
  obtain ⟨c, op⟩ := l
  simp only [step] at h
  split at h
  · cases h
    exact moved_tryLockBy _ _ hx
  · cases h
    exact moved_tryLockBy _ _ hx
  · cases h
    exact moved_tryLockBy _ _ hx
  · cases h
    exact moved_suspendOn _ hx
  · cases h
    exact moved_suspendOn _ hx
  · rename_i m hp
    split at h
    · cases h
      have hg : grantee (c, .unlock m) s = (s.mtx m).waiters.head? := by simp [grantee, hp]
      rw [hg]
      exact moved_unlockBy hs c m x
    · cases h
  · split at h
    · cases h
      exact .stay _
    · cases h
  · split at h
    · cases h
      split
      · exact .stay _
      · exact moved_goto _ hx
    · cases h
  · rename_i v m cond hp
    cases h
    have hg : grantee (c, .waitUnlock) s = (s.mtx m).waiters.head? := by simp [grantee, hp]
    rw [State.goto_pc, Function.update_of_ne hx, hg]
    exact moved_unlockBy hs c m x
  · split at h
    · cases h
      exact moved_goto (s := s.setCv _ _) _ hx
    · cases h
  · split at h
    · cases h
      exact moved_goto (s := s.setCv _ _) _ hx
    · cases h
  · split at h
    · cases h
      exact moved_goto (s := s.setCv _ _) _ hx
    · cases h
  · cases h
    exact moved_goto (s := s.setCv _ _) _ hx
  · split at h
    · cases h
      exact moved_examine hs _ ‹_› hx
    · cases h
  · rename_i v n w hp
    cases h
    have hg : grantee (c, .notifyEnqueue) s = some x ↔ (s.mtx w.mtx).locked = false ∧ w.handle = x := by
      simp [grantee, hp]
    rw [State.goto_pc, Function.update_of_ne hx, hg]
    exact moved_enqueueWaiter hs hp
  · cases h
    exact moved_goto _ hx
  · cases h

private theorem own_tryLockBy {s : State C M V D} {c : C} {m : M} {fail : Pc C M V D} {op : Op M V D}
    (hp : s.pc c = .running) (hf : Own op .running fail) : Own op .running ((tryLockBy c m fail s).pc c) := by
  rw [tryLockBy_eq]
  split
  · simpa using hf
  · rw [State.grant_pc, State.setMtx_pc, hp]
    exact .stay op

private theorem suspendOn_self {s : State C M V D} (c : C) (a : Await M V D) :
    (suspendOn c a s).pc c = .queued a ∨ (suspendOn c a s).pc c = .submitted a := by
  rw [suspendOn_eq]
  split
  · exact .inl (by simp)
  · exact .inr (by simp)

private theorem own_examine {s : State C M V D} (hs : Inv s) {c : C} {v : V} {n : Nat} {w : Waiter C M D}
    {rest : List (Waiter C M D)} (hp : s.pc c = .notify v (n + 1)) (hq : (s.cv v).waiters = w :: rest) :
    Own .notifyNext (.notify v (n + 1)) ((examine c v n w rest s).pc c) := by
  have hw := waiting_of_mem hs (v := v) (w := w) (by simp [hq])
  have hne : c ≠ w.handle := by
    rintro rfl
    rw [hp] at hw
    cases hw
  unfold examine
  split
  · simpa using .putBack v n
  · simpa [hne] using .pop v n w

/-- A step moves the coroutine that takes it as its operation says. -/
theorem step_self {c : C} {op : Op M V D} {s t : State C M V D} (hs : Inv s) (h : step (c, op) s = some t) :
    Own op (s.pc c) (t.pc c) := by
  simp only [step] at h
  split at h
  · rename_i m hp
    cases h
    simp only [hp]
    exact own_tryLockBy hp (.stay _)
  · rename_i m hp
    cases h
    exact hp ▸ own_tryLockBy hp (.lockFail m)
  · rename_i m hp
    cases h
    exact hp ▸ own_tryLockBy hp (.guardFail m)
  · rename_i m hp
    cases h
    rw [hp]
    rcases suspendOn_self (s := s) c (.lock m) with ht | ht
    · exact ht ▸ .lockQueue m
    · exact ht ▸ .lockTake m
  · rename_i m hp
    cases h
    rw [hp]
    rcases suspendOn_self (s := s) c (.lockGuard m) with ht | ht
    · exact ht ▸ .guardQueue m
    · exact ht ▸ .guardTake m
  · rename_i m hp
    split at h
    · cases h
      have hm := moved_unlockBy hs c m c
      rw [hp] at hm ⊢
      generalize (unlockBy c m s).pc c = q at hm
      cases hm
      exact .stay _
    · cases h
  · rename_i hp
    split at h
    · cases h
      exact hp ▸ .stay _
    · cases h
  · rename_i v m cond hp
    split at h
    · cases h
      split
      · exact hp ▸ .stay _
      · simpa [hp] using .wait v m cond
    · cases h
  · rename_i v m cond hp
    cases h
    simpa [hp] using .release v m cond
  · rename_i v m cond hp
    split at h
    · cases h
      simpa [hp] using .enter v m cond
    · cases h
  · rename_i v hp
    split at h
    · cases h
      simpa [hp] using .notifyOne v _
    · cases h
  · rename_i v hp
    split at h
    · cases h
      simpa [hp] using .notifyAll v _
    · cases h
  · rename_i v hp
    cases h
    simpa [hp] using .notified v
  · rename_i v n hp
    split at h
    · cases h
      exact hp ▸ own_examine hs hp ‹_›
    · cases h
  · rename_i v n w hp
    cases h
    simpa [hp] using .enqueue v n w
  · rename_i a hp
    cases h
    simpa [hp] using .resume a
  · cases h

/-- A grant submits the handle of the coroutine that was queued or picked. -/
theorem grantee_submitted {l : C × Op M V D} {s t : State C M V D} (hs : Inv s) (h : step l s = some t) {x : C}
    (hx : grantee l s = some x) :
    ∃ a, t.pc x = .submitted a ∧ (s.pc x = .queued a ∨ ∃ v m cond, s.pc x = .picked v m cond ∧ a = .wait v m cond) := by
  have handOff {c : C} {m : M} (hw : (s.mtx m).waiters.head? = some x) :
      ∃ a, (unlockBy c m s).pc x = .submitted a ∧ s.pc x = .queued a := by
    obtain ⟨rest, hw⟩ := List.head?_eq_some_iff.mp hw
    obtain ⟨a, hp, _⟩ := queued_of_mem hs (m := m) (h := x) (by simp [hw])
    refine ⟨a, ?_, hp⟩
    rw [unlockBy_handOff hw]
    simp [hp, Pc.await]
  obtain ⟨c, op⟩ := l
  simp only [grantee] at hx
  split at hx
  · rename_i m hp
    simp only [step, hp] at h
    split at h
    · cases h
      obtain ⟨a, ha, hq⟩ := handOff hx
      exact ⟨a, ha, .inl hq⟩
    · cases h
  · rename_i v m cond hp
    simp only [step, hp, Option.some.injEq] at h
    obtain ⟨a, ha, hq⟩ := handOff (c := c) hx
    have hne : x ≠ c := by
      rintro rfl
      rw [hp] at hq
      cases hq
    refine ⟨a, ?_, .inl hq⟩
    rw [← h, State.goto_pc, Function.update_of_ne hne]
    exact ha
  · rename_i v n w hp
    split at hx
    · cases hx
    · rename_i hl
      cases hx
      have hq := picked_of_enqueue hs hp
      have hne : w.handle ≠ c := by
        intro he
        rw [he, hp] at hq
        cases hq
      simp only [step, hp, Option.some.injEq] at h
      refine ⟨.wait v w.mtx w.cond, ?_, .inr ⟨v, w.mtx, w.cond, hq, rfl⟩⟩
      rw [← h, State.goto_pc, Function.update_of_ne hne, suspendOn_eq]
      simp [Await.mtx, hl]
  · cases hx

@[simp] private theorem tryLockBy_shared (c : C) (m : M) (fail : Pc C M V D) (s : State C M V D) :
    (tryLockBy c m fail s).shared = s.shared := by
  unfold tryLockBy
  split <;> rfl

@[simp] private theorem unlockBy_shared (c : C) (m : M) (s : State C M V D) : (unlockBy c m s).shared = s.shared := by
  unfold unlockBy
  split <;> rfl

@[simp] private theorem suspendOn_shared (c : C) (a : Await M V D) (s : State C M V D) :
    (suspendOn c a s).shared = s.shared := by
  unfold suspendOn
  split <;> rfl

@[simp] private theorem examine_shared (c : C) (v : V) (n : Nat) (w : Waiter C M D) (rest : List (Waiter C M D))
    (s : State C M V D) : (examine c v n w rest s).shared = s.shared := by
  unfold examine
  split <;> rfl

/-- The data of a mutex changes only through a write of an owner. -/
theorem step_shared {c : C} {op : Op M V D} {s t : State C M V D} (h : step (c, op) s = some t) (m : M) :
    t.shared m = s.shared m ∨ c ∈ s.owners m ∧ ∃ f, op = .write m f := by
  simp only [step] at h
  split at h
  case h_7 m' f hp =>
    split at h
    · rename_i ho
      cases h
      by_cases hm : m = m'
      · exact .inr ⟨hm ▸ ho, f, by rw [hm]⟩
      · exact .inl (by simp [hm])
    · cases h
  -- no other step touches the data
  case h_6 | h_10 | h_11 | h_12 | h_14 =>
    split at h
    · cases h
      exact .inl (by simp)
    · cases h
  case h_8 =>
    split at h
    · cases h
      exact .inl (by split <;> simp)
    · cases h
  case h_17 => cases h
  all_goals
    cases h
    exact .inl (by simp)

end TinyCoro.Comp.PcMoves
