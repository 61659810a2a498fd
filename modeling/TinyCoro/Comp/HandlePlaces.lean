import Mathlib.Data.List.Basic
import TinyCoro.Comp.CondVar

/-! Where the handles of suspended coroutines are kept, and who owns each mutex:
the invariant, and the operations on mutexes that keep it. -/
namespace TinyCoro.Comp.HandlePlaces
open CondVar
set_option linter.unusedSectionVars false
variable {C M V D : Type}

def Held (x : Mutex C) (os : List C) : Prop :=
  (x.locked = true ∧ ∃ o, os = [o]) ∨ (x = .init ∧ os = [])

theorem Held.of_mem {x : Mutex C} {os : List C} (h : Held x os) {c : C} (hc : c ∈ os) :
    x.locked = true ∧ os = [c] := by
  rcases h with ⟨hl, o, rfl⟩ | ⟨_, rfl⟩
  · rw [List.mem_singleton] at hc
    exact ⟨hl, by rw [hc]⟩
  · cases hc

theorem Held.of_free {x : Mutex C} {os : List C} (h : Held x os) (hl : x.locked = false) :
    x = .init ∧ os = [] := by
  rcases h with ⟨ht, _⟩ | h
  · simp [hl] at ht
  · exact h

/-- The mutex in whose queue the handle is kept. -/
def queuedOn : Pc C M V D → Option M
  | .queued a => some a.mtx
  | _ => none

/-- The condition variable in whose queue the handle is kept, with the rest of its entry. -/
def waitingOn : Pc C M V D → Option (V × M × Cond D)
  | .waiting v m cond => some (v, m, cond)
  | _ => none

/-- The entry a notifier has popped for the coroutine. -/
def pickedOn : Pc C M V D → Option (V × M × Cond D)
  | .picked v m cond => some (v, m, cond)
  | _ => none

/-- The entry the coroutine, as a notifier, has popped. -/
def enqueuing : Pc C M V D → Option (V × Waiter C M D)
  | .notifyEnqueue v _ w => some (v, w)
  | _ => none

/-- The condition variable whose spinlock the coroutine holds across steps. -/
def notifying : Pc C M V D → Option V
  | .notify v _ => some v
  | .notifyEnqueue v _ _ => some v
  | _ => none

/-- The mutex the coroutine at this point must own. -/
def owning : Pc C M V D → Option M
  | .submitted a => some a.mtx
  | .waitUnlock _ m _ => some m
  | _ => none

/-- Every step keeps each mutex consistent with its owners and every suspended
handle in exactly one place. -/
structure Inv (s : State C M V D) : Prop where
  mutex : ∀ m, Held (s.mtx m) (s.owners m)
  queue : ∀ m c, c ∈ (s.mtx m).waiters ↔ queuedOn (s.pc c) = some m
  queue_nodup : ∀ m, (s.mtx m).waiters.Nodup
  wait : ∀ v w, w ∈ (s.cv v).waiters ↔ waitingOn (s.pc w.handle) = some (v, w.mtx, w.cond)
  wait_nodup : ∀ v, ((s.cv v).waiters.map Waiter.handle).Nodup
  hold : ∀ v n, (s.cv v).holder = some n ↔ notifying (s.pc n) = some v
  pick : ∀ v w, pickedOn (s.pc w.handle) = some (v, w.mtx, w.cond) ↔ ∃ n, enqueuing (s.pc n) = some (v, w)
  owner : ∀ c m, owning (s.pc c) = some m → c ∈ s.owners m

theorem inv_init (shared : M → D) : Inv (init shared : State C M V D) := by
  refine ⟨fun _ => .inr ⟨rfl, rfl⟩, ?_, ?_, ?_, ?_, ?_, ?_, ?_⟩ <;>
    simp [init, Mutex.init, queuedOn, waitingOn, pickedOn, enqueuing, notifying, owning]

variable [DecidableEq C] [DecidableEq M] [DecidableEq V]

structure SamePlace (p q : Pc C M V D) : Prop where
  queue : queuedOn p = queuedOn q
  wait : waitingOn p = waitingOn q
  pick : pickedOn p = pickedOn q
  enqueue : enqueuing p = enqueuing q
  hold : notifying p = notifying q

theorem view_update {α : Type} (f : Pc C M V D → α) {pc : C → Pc C M V D} {c : C} {p : Pc C M V D}
    (h : f p = f (pc c)) (x : C) : f (Function.update pc c p x) = f (pc x) := by
  by_cases hx : x = c
  · rw [hx, Function.update_self, h]
  · rw [Function.update_of_ne hx]

/-- Moving a coroutine between points that keep its handle alike changes nothing else. -/
theorem Inv.goto {s : State C M V D} (hs : Inv s) {c : C} {p : Pc C M V D} (hp : SamePlace p (s.pc c))
    (ho : ∀ m, owning p = some m → c ∈ s.owners m) : Inv (s.goto c p) := by
  refine ⟨hs.mutex, fun m x => ?_, hs.queue_nodup, fun v w => ?_, hs.wait_nodup, fun v n => ?_,
    fun v w => ?_, fun x m hx => ?_⟩
  · rw [State.goto_pc, view_update queuedOn hp.queue]
    exact hs.queue m x
  · rw [State.goto_pc, view_update waitingOn hp.wait]
    exact hs.wait v w
  · rw [State.goto_pc, view_update notifying hp.hold]
    exact hs.hold v n
  · simp only [State.goto_pc, view_update pickedOn hp.pick, view_update enqueuing hp.enqueue]
    exact hs.pick v w
  · by_cases hc : x = c
    · subst hc
      rw [State.goto_pc, Function.update_self] at hx
      exact ho m hx
    · rw [State.goto_pc, Function.update_of_ne hc] at hx
      exact hs.owner x m hx

/-- Taking a free mutex. Nobody else can be at a point that needs it. -/
private theorem Inv.take {s : State C M V D} (hs : Inv s) {m : M} (c : C) (hl : (s.mtx m).locked = false) :
    Inv ((s.setMtx m { s.mtx m with locked := true }).grant m c) := by
  obtain ⟨hx, ho⟩ := (hs.mutex m).of_free hl
  have hq : ∀ m', ((s.setMtx m { s.mtx m with locked := true }).mtx m').waiters = (s.mtx m').waiters := by
    intro m'
    by_cases hm : m' = m
    · simp [hm]
    · simp [hm]
  refine ⟨fun m' => ?_, fun m' x => ?_, fun m' => ?_, hs.wait, hs.wait_nodup, hs.hold, hs.pick, fun x m' hx' => ?_⟩
  · by_cases hm : m' = m
    · subst hm
      exact .inl ⟨by simp, c, by simp [ho]⟩
    · simpa [hm] using hs.mutex m'
  · exact (hq m') ▸ hs.queue m' x
  · exact (hq m') ▸ hs.queue_nodup m'
  · have hm := hs.owner x m' hx'
    by_cases he : m' = m
    · subst he
      simp [ho] at hm
    · simpa [he] using hm

theorem tryLockBy_eq (c : C) (m : M) (fail : Pc C M V D) (s : State C M V D) :
    tryLockBy c m fail s = if (s.mtx m).locked then s.goto c fail
      else (s.setMtx m { s.mtx m with locked := true }).grant m c := by
  unfold tryLockBy Mutex.tryLock
  cases hl : (s.mtx m).locked with
  | false => simp
  | true =>
    have hx : ({ s.mtx m with locked := true } : Mutex C) = s.mtx m := by rw [← hl]
    simp [hx, State.setMtx]

theorem Inv.tryLockBy {s : State C M V D} (hs : Inv s) {c : C} (m : M) {fail : Pc C M V D}
    (hp : SamePlace fail (s.pc c)) (ho : owning fail = none) : Inv (tryLockBy c m fail s) := by
  rw [tryLockBy_eq]
  cases hl : (s.mtx m).locked with
  | true => exact hs.goto hp (by simp [ho])
  | false => exact hs.take c hl

theorem Inv.submitTask {s : State C M V D} (hs : Inv s) {c : C} {a : Await M V D}
    (hp : SamePlace (.submitted a) (s.pc c)) (ho : c ∈ s.owners a.mtx) : Inv (s.submitTask c a) := by
  have h := hs.goto hp (by rintro m ⟨⟩; exact ho)
  exact ⟨h.mutex, h.queue, h.queue_nodup, h.wait, h.wait_nodup, h.hold, h.pick, h.owner⟩

private theorem queuedOn_some {p : Pc C M V D} {m : M} (h : queuedOn p = some m) :
    ∃ a, p = .queued a ∧ a.mtx = m := by
  cases p with
  | queued a => exact ⟨a, rfl, by simpa [queuedOn] using h⟩
  | _ => simp [queuedOn] at h

/-- Appending a coroutine that is kept nowhere to the queue of a held mutex. -/
private theorem Inv.enqueue {s : State C M V D} (hs : Inv s) {c : C} {a : Await M V D}
    (hl : (s.mtx a.mtx).locked = true) (hp : SamePlace .running (s.pc c)) :
    Inv ((s.setMtx a.mtx { s.mtx a.mtx with waiters := (s.mtx a.mtx).waiters ++ [c] }).goto c (.queued a)) := by
  have hc : ∀ m, c ∉ (s.mtx m).waiters := fun m hm => by
    have hq := (hs.queue m c).mp hm
    rw [← hp.queue] at hq
    cases hq
  -- only the queue clause sees the move; the other views of the coroutine stay as they were
  refine ⟨fun m => ?_, fun m x => ?_, fun m => ?_, fun v w => ?_, hs.wait_nodup, fun v n => ?_, fun v w => ?_,
    fun x m hx => ?_⟩
  · have hm := hs.mutex m
    by_cases he : m = a.mtx
    · subst he
      rcases hm with ⟨_, ho⟩ | ⟨hi, _⟩
      · exact .inl ⟨by simpa using hl, by simpa using ho⟩
      · simp [hi, Mutex.init] at hl
    · simpa [he] using hm
  · have hm := hs.queue m x
    by_cases hx : x = c
    · subst hx
      by_cases he : m = a.mtx
      · simp [he, queuedOn]
      · simpa [he, queuedOn, Ne.symm he] using hc m
    · by_cases he : m = a.mtx
      · subst he
        simpa [hx] using hm
      · simpa [he, hx] using hm
  · by_cases he : m = a.mtx
    · subst he
      have hn := hs.queue_nodup a.mtx
      simpa [List.nodup_append, hn] using fun x hx hxc => hc _ (hxc ▸ hx)
    · simpa [he] using hs.queue_nodup m
  · rw [State.goto_pc, State.setMtx_pc, view_update waitingOn (p := .queued a) hp.wait]
    exact hs.wait v w
  · rw [State.goto_pc, State.setMtx_pc, view_update notifying (p := .queued a) hp.hold]
    exact hs.hold v n
  · simp only [State.goto_pc, State.setMtx_pc, view_update pickedOn (p := .queued a) hp.pick,
      view_update enqueuing (p := .queued a) hp.enqueue]
    exact hs.pick v w
  · by_cases hxc : x = c
    · subst hxc
      simp [owning] at hx
    · rw [State.goto_pc, Function.update_of_ne hxc] at hx
      exact hs.owner x m hx

private theorem enter_eq (c : C) (x : Mutex C) (a : Await M V D) : a.enter c x = x.lockOrQueue c := by
  cases a <;> rfl

theorem suspendOn_eq (c : C) (a : Await M V D) (s : State C M V D) :
    suspendOn c a s = if (s.mtx a.mtx).locked then
      (s.setMtx a.mtx { s.mtx a.mtx with waiters := (s.mtx a.mtx).waiters ++ [c] }).goto c (.queued a)
    else ((s.setMtx a.mtx { s.mtx a.mtx with locked := true }).grant a.mtx c).submitTask c a := by
  unfold suspendOn
  rw [enter_eq]
  unfold Mutex.lockOrQueue Mutex.tryLock
  cases hl : (s.mtx a.mtx).locked <;> simp [hl]

/-- A coroutine kept nowhere gives its handle to a mutex. -/
theorem Inv.suspendOn {s : State C M V D} (hs : Inv s) {c : C} {a : Await M V D}
    (hp : SamePlace .running (s.pc c)) : Inv (suspendOn c a s) := by
  rw [suspendOn_eq]
  cases hl : (s.mtx a.mtx).locked with
  | true => exact hs.enqueue hl hp
  | false =>
    refine (hs.take c hl).submitTask ⟨hp.queue, hp.wait, hp.pick, hp.enqueue, hp.hold⟩ ?_
    simp

theorem unlockBy_handOff {s : State C M V D} {m : M} {h : C} {rest : List C}
    (hw : (s.mtx m).waiters = h :: rest) (c : C) :
    unlockBy c m s = (((s.setMtx m { s.mtx m with waiters := rest }).disown m c).grant m h).submitTask h
      ((s.pc h).await m) := by
  unfold unlockBy Mutex.unlock
  simp [hw]

theorem unlockBy_release {s : State C M V D} {m : M} (hw : (s.mtx m).waiters = []) (c : C) :
    unlockBy c m s = (s.setMtx m { s.mtx m with locked := false }).disown m c := by
  unfold unlockBy Mutex.unlock
  simp [hw]

/-- Where the owner releases the mutex, nobody else is at a point that needs it. -/
private theorem Inv.alone {s : State C M V D} (hs : Inv s) {c : C} {m : M} (hc : c ∈ s.owners m)
    (ho : owning (s.pc c) ≠ some m) (x : C) : owning (s.pc x) ≠ some m := by
  intro hx
  have hm := hs.owner x m hx
  rw [((hs.mutex m).of_mem hc).2, List.mem_singleton] at hm
  exact ho (hm ▸ hx)

private theorem Inv.handOff {s : State C M V D} (hs : Inv s) {c : C} {m : M} (hc : c ∈ s.owners m)
    (ho : owning (s.pc c) ≠ some m) {h : C} {rest : List C} (hw : (s.mtx m).waiters = h :: rest) :
    Inv (unlockBy c m s) := by
  obtain ⟨hl, hos⟩ := (hs.mutex m).of_mem hc
  obtain ⟨a, hpa, ham⟩ := queuedOn_some ((hs.queue m h).mp (by simp [hw]))
  have hn := hs.queue_nodup m
  rw [hw, List.nodup_cons] at hn
  have hother : ∀ x, x ≠ h → (unlockBy c m s).pc x = s.pc x := by
    intro x hx
    rw [unlockBy_handOff hw]
    simp [hx]
  have hself : (unlockBy c m s).pc h = .submitted a := by
    rw [unlockBy_handOff hw]
    simp [hpa, Pc.await]
  have hmx : ∀ m', m' ≠ m → (unlockBy c m s).mtx m' = s.mtx m' ∧ (unlockBy c m s).owners m' = s.owners m' := by
    intro m' hm'
    rw [unlockBy_handOff hw]
    simp [hm']
  have hself' : (unlockBy c m s).mtx m = { s.mtx m with waiters := rest } ∧ (unlockBy c m s).owners m = [h] := by
    rw [unlockBy_handOff hw]
    simp [hos]
  have hcv : (unlockBy c m s).cv = s.cv := by
    rw [unlockBy_handOff hw]
    rfl
  -- a view that does not tell a queued from a submitted coroutine is unchanged everywhere
  have view {α : Type} (f : Pc C M V D → α) (hf : f (.submitted a) = f (.queued a)) (x : C) :
      f ((unlockBy c m s).pc x) = f (s.pc x) := by
    by_cases hx : x = h
    · rw [hx, hself, hpa, hf]
    · rw [hother x hx]
  refine ⟨fun m' => ?_, fun m' x => ?_, fun m' => ?_, fun v w => ?_, fun v => ?_, fun v n => ?_, fun v w => ?_,
    fun x m' hx => ?_⟩
  · by_cases hm' : m' = m
    · rw [hm', hself'.1, hself'.2]
      exact .inl ⟨hl, h, rfl⟩
    · rw [(hmx m' hm').1, (hmx m' hm').2]
      exact hs.mutex m'
  · have hq := hs.queue m' x
    by_cases hx : x = h
    · rw [hx, hself]
      by_cases hm' : m' = m
      · rw [hm', hself'.1]
        simpa [queuedOn] using hn.1
      · rw [(hmx m' hm').1]
        rw [hx, hpa] at hq
        simpa [queuedOn, ham, Ne.symm hm'] using hq
    · rw [hother x hx, ← hq]
      by_cases hm' : m' = m
      · rw [hm', hself'.1, hw]
        simp [hx]
      · rw [(hmx m' hm').1]
  · by_cases hm' : m' = m
    · rw [hm', hself'.1]
      exact hn.2
    · rw [(hmx m' hm').1]
      exact hs.queue_nodup m'
  · rw [hcv, view waitingOn rfl]
    exact hs.wait v w
  · rw [hcv]
    exact hs.wait_nodup v
  · rw [hcv, view notifying rfl]
    exact hs.hold v n
  · simp only [view pickedOn rfl, view enqueuing rfl]
    exact hs.pick v w
  · by_cases hxh : x = h
    · rw [hxh, hself] at hx
      have hm' : a.mtx = m' := by simpa [owning] using hx
      rw [hxh, ← hm', ham, hself'.2]
      simp
    · rw [hother x hxh] at hx
      by_cases hm' : m' = m
      · exact absurd (hm' ▸ hx) (hs.alone hc ho x)
      · rw [(hmx m' hm').2]
        exact hs.owner x m' hx

/-- The owner releases or hands over the mutex at a point that no longer needs it. -/
theorem Inv.unlockBy {s : State C M V D} (hs : Inv s) {c : C} {m : M} (hc : c ∈ s.owners m)
    (ho : owning (s.pc c) ≠ some m) : Inv (unlockBy c m s) := by
  cases hw : (s.mtx m).waiters with
  | cons h rest => exact hs.handOff hc ho hw
  | nil =>
    obtain ⟨hl, hos⟩ := (hs.mutex m).of_mem hc
    rw [unlockBy_release hw]
    have hq : ∀ m', ((s.setMtx m { s.mtx m with locked := false }).mtx m').waiters = (s.mtx m').waiters := by
      intro m'
      by_cases hm' : m' = m
      · simp [hm']
      · simp [hm']
    refine ⟨fun m' => ?_, fun m' x => ?_, fun m' => ?_, hs.wait, hs.wait_nodup, hs.hold, hs.pick, fun x m' hx => ?_⟩
    · by_cases hm' : m' = m
      · subst hm'
        exact .inr ⟨by simp [hw, Mutex.init], by simp [hos]⟩
      · simpa [hm'] using hs.mutex m'
    · exact (hq m') ▸ hs.queue m' x
    · exact (hq m') ▸ hs.queue_nodup m'
    · by_cases hm' : m' = m
      · exact absurd (hm' ▸ hx) (hs.alone hc ho x)
      · simpa [hm'] using hs.owner x m' hx

end TinyCoro.Comp.HandlePlaces
