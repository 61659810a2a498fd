import TinyCoro.Transition.Runs

/-! The spinlock under which all primitives keep their queues, one step for each atomic
operation on `lock_`. -/
namespace TinyCoro.Comp.Spinlock
open Transition
variable {Θ : Type}

/-- Where a thread is. `out` is outside of all calls, with what the last one returned if it was
a `try_lock`; the others stand before the operation they name. -/
inductive Pc
  | out (answer : Option Bool)
  | lockExchange
  | lockLoad
  | tryLoad
  | tryExchange
  deriving DecidableEq, Repr

/-- `holds` says which threads are between a `lock` or a `try_lock` that succeeded and their
`unlock`. -/
structure State (Θ : Type) where
  lock : Bool
  pc : Θ → Pc
  holds : Θ → Bool

/-- `unlock` is the call with its only operation; `work` is the next operation of the call that
the thread is in. -/
inductive Op
  | lock
  | tryLock
  | unlock
  | work
  deriving DecidableEq, Repr

def init : State Θ := ⟨false, fun _ => .out none, fun _ => false⟩

namespace State
variable [DecidableEq Θ]

def goto (θ : Θ) (p : Pc) (s : State Θ) : State Θ := { s with pc := Function.update s.pc θ p }

def enter (θ : Θ) (p : Pc) (s : State Θ) : State Θ := { s with holds := Function.update s.holds θ true }.goto θ p

def exchange (θ : Θ) (p q : Pc) (s : State Θ) : State Θ :=
  if s.lock then { s with lock := true }.goto θ q else { s with lock := true }.enter θ p

def unlock (θ : Θ) (s : State Θ) : State Θ :=
  { s with lock := false, holds := Function.update s.holds θ false }.goto θ (.out none)

end State

variable [DecidableEq Θ]

def step : Θ × Op → State Θ → Option (State Θ)
  | (θ, op), s =>
    match op, s.pc θ with
    | .lock, .out _ => some (s.goto θ .lockExchange)
    | .tryLock, .out _ => some (s.goto θ .tryLoad)
    | .unlock, .out _ => if s.holds θ then some (s.unlock θ) else none
    | .work, .lockExchange => some (s.exchange θ (.out none) .lockLoad)
    | .work, .lockLoad => some (s.goto θ (if s.lock then .lockLoad else .lockExchange))
    | .work, .tryLoad => some (s.goto θ (if s.lock then .out (some false) else .tryExchange))
    | .work, .tryExchange => some (s.exchange θ (.out (some true)) (.out (some false)))
    | _, _ => none

section Step
variable {s t : State Θ} {θ x : Θ} {p q : Pc} {l : Θ × Op}

@[simp] theorem goto_pc_self : (s.goto θ p).pc θ = p := Function.update_self ..

@[simp] theorem enter_pc_self : (s.enter θ p).pc θ = p := Function.update_self ..

theorem goto_goto : (s.goto θ p).goto θ q = s.goto θ q := by
  simp only [State.goto, Function.update_idem]

/-- An exchange that fails has written what was there. -/
theorem exchange_locked (h : s.lock = true) : s.exchange θ p q = s.goto θ q := by
  rw [State.exchange, if_pos h, ← h]

theorem exchange_free (h : s.lock = false) : s.exchange θ p q = { s with lock := true }.enter θ p := by
  rw [State.exchange, if_neg (by simp [h])]

inductive Steps (s : State Θ) : Θ × Op → State Θ → Prop
  | lock (θ : Θ) (a : Option Bool) (hp : s.pc θ = .out a) : Steps s (θ, .lock) (s.goto θ .lockExchange)
  | tryLock (θ : Θ) (a : Option Bool) (hp : s.pc θ = .out a) : Steps s (θ, .tryLock) (s.goto θ .tryLoad)
  | unlock (θ : Θ) (a : Option Bool) (hp : s.pc θ = .out a) (hh : s.holds θ = true) : Steps s (θ, .unlock) (s.unlock θ)
  | busy (θ : Θ) (hp : s.pc θ = .lockExchange) (hl : s.lock = true) : Steps s (θ, .work) (s.goto θ .lockLoad)
  | locked (θ : Θ) (hp : s.pc θ = .lockExchange) (hl : s.lock = false) :
    Steps s (θ, .work) ({ s with lock := true }.enter θ (.out none))
  | load (θ : Θ) (hp : s.pc θ = .lockLoad) : Steps s (θ, .work) (s.goto θ (if s.lock then .lockLoad else .lockExchange))
  | tryLoad (θ : Θ) (hp : s.pc θ = .tryLoad) :
    Steps s (θ, .work) (s.goto θ (if s.lock then .out (some false) else .tryExchange))
  | tryBusy (θ : Θ) (hp : s.pc θ = .tryExchange) (hl : s.lock = true) : Steps s (θ, .work) (s.goto θ (.out (some false)))
  | tryLocked (θ : Θ) (hp : s.pc θ = .tryExchange) (hl : s.lock = false) :
    Steps s (θ, .work) ({ s with lock := true }.enter θ (.out (some true)))

theorem step_cases (h : step l s = some t) : Steps s l t := by
  obtain ⟨θ, op⟩ := l
  simp only [step] at h
  split at h
  · cases h
    exact .lock θ _ ‹_›
  · cases h
    exact .tryLock θ _ ‹_›
  · obtain ⟨hh, h⟩ := Option.ite_none_right_eq_some.mp h
    cases h
    exact .unlock θ _ ‹_› hh
  · rename_i hp
    cases hl : s.lock with
    | false =>
      rw [exchange_free hl] at h
      cases h
      exact .locked θ hp hl
    | true =>
      rw [exchange_locked hl] at h
      cases h
      exact .busy θ hp hl
  · cases h
    exact .load θ ‹_›
  · cases h
    exact .tryLoad θ ‹_›
  · rename_i hp
    cases hl : s.lock with
    | false =>
      rw [exchange_free hl] at h
      cases h
      exact .tryLocked θ hp hl
    | true =>
      rw [exchange_locked hl] at h
      cases h
      exact .tryBusy θ hp hl
  · cases h

end Step

/-- The flag and the threads inside agree on one holder, or on none. -/
def Held (o : Option Θ) (s : State Θ) : Prop := s.lock = o.isSome ∧ ∀ x, s.holds x = true ↔ o = some x

section Held
variable {s t : State Θ} {o : Option Θ} {θ : Θ} {l : Θ × Op}

theorem held_goto {p : Pc} (hs : Held o s) : Held o (s.goto θ p) := hs

omit [DecidableEq Θ] in
theorem Held.none_of_free (hs : Held o s) (hl : s.lock = false) : o = none := by
  cases o with
  | none => rfl
  | some y => cases hl.symm.trans hs.1

theorem held_enter {p : Pc} (hs : Held o s) (hl : s.lock = false) : Held (some θ) ({ s with lock := true }.enter θ p) := by
  refine ⟨rfl, fun x => ?_⟩
  have hx : s.holds x = false := by
    rw [← Bool.not_eq_true, hs.2, hs.none_of_free hl]
    exact nofun
  by_cases hxθ : x = θ
  · simp [State.enter, State.goto, hxθ]
  · simp [State.enter, State.goto, hxθ, hx, Ne.symm hxθ]

theorem held_unlock (hs : Held o s) (hh : s.holds θ = true) : Held none (s.unlock θ) := by
  obtain ⟨-, hholds⟩ := hs
  have ho := (hholds θ).mp hh
  refine ⟨rfl, fun x => ?_⟩
  by_cases hxθ : x = θ
  · simp [State.unlock, State.goto, hxθ]
  · have hx : s.holds x ≠ true := fun hx => hxθ (Option.some.inj (ho.symm.trans ((hholds x).mp hx))).symm
    simpa [State.unlock, State.goto, hxθ] using hx

/-- The lock is taken when nobody has it, and given back by the one that has it. -/
theorem held_step (hs : Held o s) (h : step l s = some t) : (l.2 ≠ .unlock ∧ (Held o t ∨ (o = none ∧ Held (some l.1) t))) ∨
    (l.2 = .unlock ∧ o = some l.1 ∧ Held none t) := by
  cases step_cases h with
  | unlock θ a hp hh => exact .inr ⟨rfl, (hs.2 θ).mp hh, held_unlock hs hh⟩
  | locked θ hp hl | tryLocked θ hp hl => exact .inl ⟨nofun, .inr ⟨hs.none_of_free hl, held_enter hs hl⟩⟩
  | _ => exact .inl ⟨nofun, .inl (held_goto hs)⟩

omit [DecidableEq Θ] in
theorem held_init : Held none (init : State Θ) := ⟨rfl, fun _ => by simp [init]⟩

theorem held_reachable (h : Reachable step init s) : ∃ o, Held o s := by
  refine h.invariant (fun s => ∃ o, Held o s) ⟨none, held_init⟩ ?_
  rintro l s t - ⟨o, hs⟩ ht
  rcases held_step hs ht with ⟨-, ht | ⟨-, ht⟩⟩ | ⟨-, -, ht⟩
  · exact ⟨_, ht⟩
  · exact ⟨_, ht⟩
  · exact ⟨_, ht⟩

end Held

section Missed
variable {s t : State Θ} {θ : Θ} {p : Pc} {l : Θ × Op}

theorem goto_comm {x : Θ} (hx : x ≠ θ) (q : Pc) : (s.goto θ p).goto x q = (s.goto x q).goto θ p := by
  simp only [State.goto, Function.update_comm (Ne.symm hx)]

theorem exchange_goto {x : Θ} (hx : x ≠ θ) (q r : Pc) : (s.goto θ p).exchange x q r = (s.exchange x q r).goto θ p := by
  cases hl : s.lock with
  | false =>
    rw [exchange_free hl, exchange_free (s := s.goto θ p) hl]
    exact goto_comm (s := { s with lock := true, holds := Function.update s.holds x true }) hx q
  | true =>
    rw [exchange_locked hl, exchange_locked (s := s.goto θ p) hl]
    exact goto_comm hx r

/-- What another thread does neither reads nor changes where `θ` is. -/
theorem step_goto (hl : l.1 ≠ θ) : step l (s.goto θ p) = (step l s).map (·.goto θ p) := by
  obtain ⟨x, op⟩ := l
  have hpc : (s.goto θ p).pc x = s.pc x := Function.update_of_ne hl ..
  simp only [step, hpc]
  split
  · exact congrArg some (goto_comm hl _)
  · exact congrArg some (goto_comm hl _)
  · change (if s.holds x then _ else _) = _
    split
    · exact congrArg some (goto_comm (s := { s with lock := false, holds := Function.update s.holds x false }) hl _)
    · rfl
  · exact congrArg some (exchange_goto hl _ _)
  · exact congrArg some (goto_comm hl _)
  · exact congrArg some (goto_comm hl _)
  · exact congrArg some (exchange_goto hl _ _)
  · rfl

theorem step_other (hl : l.1 ≠ θ) (h : step l s = some t) : t.pc θ = s.pc θ := by
  have hself : s.goto θ (s.pc θ) = s := by rw [State.goto, Function.update_eq_self]
  have ht := step_goto (p := s.pc θ) hl (s := s)
  rw [hself, h, Option.map_some, Option.some.injEq] at ht
  rw [ht, goto_pc_self]

omit [DecidableEq Θ] in
theorem eq_work {ls : List (Θ × Op)} (hls : ∀ x ∈ l :: ls, x.1 = θ → x.2 = .work) (hl : l.1 = θ) : l = (θ, .work) :=
  Prod.ext hl (hls l List.mem_cons_self hl)

/-- A thread outside of all calls stays there until it calls again. -/
theorem out_run {ls : List (Θ × Op)} (hls : ∀ l ∈ ls, l.1 = θ → l.2 = .work) {a : Option Bool} (hp : s.pc θ = .out a)
    (h : exec step ls s = some t) : t.pc θ = .out a := by
  induction ls generalizing s with
  | nil =>
    cases h
    exact hp
  | cons l ls ih =>
    obtain ⟨m, hm, h⟩ := exec_cons_some h
    refine ih (fun l hl => hls l (List.mem_cons_of_mem _ hl)) ?_ h
    by_cases hl : l.1 = θ
    · obtain rfl := eq_work hls hl
      simp [step, hp] at hm
    · rw [step_other hl hm, hp]

def failing : Pc → Bool
  | .tryLoad | .tryExchange | .out (some false) => true
  | _ => false

/-- A step of a `try_lock` only moves its thread, unless it succeeds. -/
theorem failing_step (hp : failing (s.pc θ) = true) (h : step (θ, .work) s = some t) :
    (∃ q, failing q = true ∧ t = s.goto θ q) ∨ t.pc θ = .out (some true) := by
  cases step_cases h with
  | tryLoad _ hp' =>
    refine .inl ⟨_, ?_, rfl⟩
    split <;> rfl
  | tryBusy _ hp' hl => exact .inl ⟨_, rfl, rfl⟩
  | tryLocked _ hp' hl => exact .inr enter_pc_self
  | busy _ hp' | locked _ hp' | load _ hp' =>
    rw [hp'] at hp
    cases hp

/-- The operation at which a `try_lock` returns false has found the lock taken. -/
theorem missed_step (h : step (θ, .work) s = some t) (ht : t.pc θ = .out (some false)) :
    s.lock = true ∧ t = s.goto θ (.out (some false)) := by
  cases step_cases h with
  | tryBusy _ hp hl => exact ⟨hl, rfl⟩
  | tryLoad _ hp =>
    have hl : s.lock = true := by
      by_contra hl
      rw [goto_pc_self, if_neg hl] at ht
      cases ht
    exact ⟨hl, by rw [if_pos hl]⟩
  | load _ hp =>
    rw [goto_pc_self] at ht
    split at ht <;> cases ht
  | busy => cases goto_pc_self.symm.trans ht
  | locked | tryLocked => cases enter_pc_self.symm.trans ht

theorem failing_run {ls : List (Θ × Op)} (hls : ∀ l ∈ ls, l.1 = θ → l.2 = .work) (hp : failing (s.pc θ) = true)
    (h : exec step ls s = some t) (ht : t.pc θ = .out (some false)) (q : Pc) :
    exec step (ls.filter (·.1 ≠ θ)) (s.goto θ q) = some (t.goto θ q) := by
  induction ls generalizing s with
  | nil =>
    cases h
    rfl
  | cons l ls ih =>
    obtain ⟨m, hm, hrest⟩ := exec_cons_some h
    have hls' : ∀ l ∈ ls, l.1 = θ → l.2 = .work := fun l hl => hls l (List.mem_cons_of_mem _ hl)
    by_cases hl : l.1 = θ
    · obtain rfl := eq_work hls hl
      rw [List.filter_cons_of_neg (by simp)]
      rcases failing_step hp hm with ⟨r, hr, rfl⟩ | htrue
      · have hrun := ih hls' (by rw [goto_pc_self, hr]) hrest
        rw [goto_goto] at hrun
        exact hrun
      · have hout := out_run hls' htrue hrest
        rw [ht] at hout
        cases hout
    · rw [List.filter_cons_of_pos (by simpa using hl), exec_cons, step_goto hl, hm]
      exact ih hls' (by rw [step_other hl hm, hp]) hrest

end Missed

/-- At most one thread is inside, and `lock_` says whether one is. A `try_lock` returns false
while some thread is inside, and does not change which; without its steps the other threads
do what they do with them. -/
theorem spinlock_excludes :
    (∀ s : State Θ, Reachable step init s →
      (∀ x y, s.holds x = true → s.holds y = true → x = y) ∧ (s.lock = true ↔ ∃ x, s.holds x = true)) ∧
    (∀ (s t : State Θ) θ, Reachable step init s → step (θ, .work) s = some t → t.pc θ = .out (some false) →
      t.lock = s.lock ∧ t.holds = s.holds ∧ ∃ x, s.holds x = true) ∧
    (∀ (s t : State Θ) θ ls, exec step ((θ, .tryLock) :: ls) s = some t → (∀ l ∈ ls, l.1 = θ → l.2 = .work) →
      t.pc θ = .out (some false) → exec step (ls.filter (·.1 ≠ θ)) s = some (t.goto θ (s.pc θ))) := by
  refine ⟨fun s h => ?_, fun s t θ hs h ht => ?_, fun s t θ ls h hls ht => ?_⟩
  · obtain ⟨o, hlock, hholds⟩ := held_reachable h
    refine ⟨fun x y hx hy => ?_, ?_⟩
    · exact Option.some.inj (((hholds x).mp hx).symm.trans ((hholds y).mp hy))
    · rw [hlock, Option.isSome_iff_exists]
      exact exists_congr fun x => (hholds x).symm
  · obtain ⟨o, hlock, hholds⟩ := held_reachable hs
    obtain ⟨hl, rfl⟩ := missed_step h ht
    rw [hl, eq_comm, Option.isSome_iff_exists] at hlock
    exact ⟨rfl, rfl, hlock.imp fun x => (hholds x).mpr⟩
  · obtain ⟨m, hm, h⟩ := exec_cons_some h
    cases step_cases hm with
    | tryLock _ a hp =>
      have hrun := failing_run hls (by rw [goto_pc_self]; rfl) h ht (s.pc θ)
      rw [goto_goto, State.goto, Function.update_eq_self] at hrun
      exact hrun

/-- Thread 1 finds the lock free, and thread 0 takes it before the exchange of thread 1. -/
theorem spinlock_excludes_overtaken : ∃ s t u : State (Fin 2), exec step [(0, .lock)] init = some s ∧
    exec step [(1, .tryLock), (1, .work), (0, .work)] s = some t ∧ step (1, .work) t = some u ∧
    u.pc 1 = .out (some false) ∧ (u.lock = true ↔ ∃ x, u.holds x = true) ∧ u.holds = t.holds ∧ t.holds 0 = true ∧
    exec step [(0, .work)] s = some (u.goto 1 (s.pc 1)) := by
  obtain ⟨hheld, hmissed, hrun⟩ := spinlock_excludes (Θ := Fin 2)
  have ht : exec step [(0, .lock), (1, .tryLock), (1, .work), (0, .work)] (init : State (Fin 2)) = some _ := rfl
  have hu : exec step [(0, .lock), (1, .tryLock), (1, .work), (0, .work), (1, .work)] (init : State (Fin 2)) = some _ := rfl
  obtain ⟨-, hholds, -⟩ := hmissed _ _ 1 (Reachable.of_exec _ ht) rfl rfl
  exact ⟨_, _, _, rfl, rfl, rfl, rfl, (hheld _ (Reachable.of_exec _ hu)).2, hholds, rfl,
    hrun _ _ 1 [(1, .work), (0, .work), (1, .work)] rfl (by decide) rfl⟩

end TinyCoro.Comp.Spinlock
