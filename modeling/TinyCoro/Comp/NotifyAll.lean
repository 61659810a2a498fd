import Mathlib.Logic.Function.Iterate
import TinyCoro.Comp.PcMoves

/-! `notify_one` and `notify_all` as calls: the queue of one condition variable and the
mutexes of its waiters, while the data that the predicates read stays as it is. At the end,
the steps that a notifier takes in `CondVar` are compared with these calls. -/
namespace TinyCoro.Comp.NotifyAll
open Transition CondVar HandlePlaces NotifyPlaces PcMoves
variable {C M V D : Type}

structure Notifier (C M D : Type) where
  waiters : List (Waiter C M D)
  mtx : M → Mutex C
  calls : List (Waiter C M D)
  submissions : List C

def passes (shared : M → D) (w : Waiter C M D) : Bool := w.cond.all (· (shared w.mtx))

section Calls
variable [DecidableEq M]

def enqueueWaiter (w : Waiter C M D) (s : Notifier C M D) : Notifier C M D :=
  match (s.mtx w.mtx).enqueueWaiter w.handle with
  | (true, x) => { s with
    mtx := Function.update s.mtx w.mtx x
    calls := s.calls ++ [w]
    submissions := s.submissions ++ [w.handle] }
  | (false, x) => { s with mtx := Function.update s.mtx w.mtx x, calls := s.calls ++ [w] }

def examineFront (shared : M → D) (w : Waiter C M D) (rest : List (Waiter C M D)) (s : Notifier C M D) :
    Notifier C M D :=
  if w.cond.unmet (shared w.mtx) then { s with waiters := rest ++ [w] } else enqueueWaiter w { s with waiters := rest }

def notifyOne (shared : M → D) (s : Notifier C M D) : Notifier C M D :=
  match s.waiters with
  | [] => s
  | w :: rest => examineFront shared w rest s

/-- The loop of `notify_all`, which does not test for an empty queue; `front()` of one has
no meaning. -/
def notifyLoop (shared : M → D) : Nat → Notifier C M D → Option (Notifier C M D)
  | 0, s => some s
  | n + 1, s => match s.waiters with
    | [] => none
    | w :: rest => notifyLoop shared n (examineFront shared w rest s)

def notifyAll (shared : M → D) (s : Notifier C M D) : Option (Notifier C M D) := notifyLoop shared s.waiters.length s

variable {shared : M → D} {w : Waiter C M D} {rest : List (Waiter C M D)} {s : Notifier C M D}

omit [DecidableEq M] in
theorem unmet_eq_not_passes : w.cond.unmet (shared w.mtx) = !passes shared w := by
  unfold passes Cond.unmet
  cases w.cond with
  | none => rfl
  | some p => rfl

@[simp] theorem enqueueWaiter_waiters : (enqueueWaiter w s).waiters = s.waiters := by
  unfold enqueueWaiter
  split <;> rfl

@[simp] theorem enqueueWaiter_calls : (enqueueWaiter w s).calls = s.calls ++ [w] := by
  unfold enqueueWaiter
  split <;> rfl

theorem examineFront_pass (hw : passes shared w = true) :
    examineFront shared w rest s = enqueueWaiter w { s with waiters := rest } := by
  rw [examineFront, unmet_eq_not_passes, hw, Bool.not_true, if_neg Bool.false_ne_true]

theorem examineFront_fail (hw : passes shared w = false) :
    examineFront shared w rest s = { s with waiters := rest ++ [w] } := by
  rw [examineFront, unmet_eq_not_passes, hw, Bool.not_false, if_pos rfl]

/-- One waiter at most leaves the queue. -/
theorem examineFront_length : rest.length ≤ (examineFront shared w rest s).waiters.length := by
  cases hw : passes shared w with
  | true => exact Nat.le_of_eq (by rw [examineFront_pass hw, enqueueWaiter_waiters])
  | false =>
    rw [examineFront_fail hw, List.length_append]
    exact Nat.le_add_right ..

theorem notifyLoop_cons {n : Nat} (hw : s.waiters = w :: rest) :
    notifyLoop shared (n + 1) s = notifyLoop shared n (examineFront shared w rest s) := by
  rw [notifyLoop, hw]

/-- The loop always finds a front, and each round of it is a `notify_one`. -/
theorem notifyLoop_eq_iterate (n : Nat) (hn : n ≤ s.waiters.length) :
    notifyLoop shared n s = some ((notifyOne shared)^[n] s) := by
  induction n generalizing s with
  | zero => rfl
  | succ n ih =>
    cases hw : s.waiters with
    | nil =>
      rw [hw] at hn
      exact absurd hn (Nat.not_succ_le_zero n)
    | cons w rest =>
      have hone : notifyOne shared s = examineFront shared w rest s := by rw [notifyOne, hw]
      have hrest : n ≤ rest.length := by
        rw [hw, List.length_cons] at hn
        exact Nat.le_of_succ_le_succ hn
      rw [notifyLoop_cons hw, Function.iterate_succ_apply, hone]
      exact ih (Nat.le_trans hrest examineFront_length)

/-- The invariant of the rounds: behind the waiters that are still to be examined stand the
ones that were pushed back, in their order. -/
theorem iterate_partition (shared : M → D) (xs ys : List (Waiter C M D)) (hs : s.waiters = xs ++ ys) :
    ((notifyOne shared)^[xs.length] s).waiters = ys ++ xs.filter (fun w => !passes shared w) ∧
      ((notifyOne shared)^[xs.length] s).calls = s.calls ++ xs.filter (passes shared) := by
  induction xs generalizing s ys with
  | nil => simp [hs]
  | cons w xs ih =>
    have hone : notifyOne shared s = examineFront shared w (xs ++ ys) s := by rw [notifyOne, hs, List.cons_append]
    rw [List.length_cons, Function.iterate_succ_apply, hone]
    cases hw : passes shared w with
    | true =>
      obtain ⟨hq, hc⟩ := ih (s := enqueueWaiter w { s with waiters := xs ++ ys }) ys enqueueWaiter_waiters
      rw [examineFront_pass hw, hq, hc, enqueueWaiter_calls]
      simp [hw]
    | false =>
      obtain ⟨hq, hc⟩ := ih (s := { s with waiters := xs ++ ys ++ [w] }) (ys ++ [w]) (List.append_assoc ..)
      rw [examineFront_fail hw, hq, hc]
      simp [hw]

/-- `notify_all` comes to its end, having passed on the waiters whose predicate is empty or
true and kept the others, each once and in the order of the queue; `notify_one`, called once
for each entry, leaves the same queue, calls and mutexes. -/
theorem notify_all_partition (shared : M → D) (s : Notifier C M D) :
    ∃ t, notifyAll shared s = some t ∧ t.waiters = s.waiters.filter (fun w => !passes shared w) ∧
      t.calls = s.calls ++ s.waiters.filter (passes shared) ∧ (notifyOne shared)^[s.waiters.length] s = t := by
  obtain ⟨hq, hc⟩ := iterate_partition shared s.waiters [] (List.append_nil _).symm
  exact ⟨_, notifyLoop_eq_iterate s.waiters.length (Nat.le_refl _), hq, hc, rfl⟩

end Calls

/-! The same calls in `CondVar`, when no other coroutine moves between their steps. -/
section Steps
variable [DecidableEq C] [DecidableEq M] [DecidableEq V] {s : State C M V D} {c : C} {v : V}

def view (v : V) (calls : List (Waiter C M D)) (s : State C M V D) : Notifier C M D :=
  ⟨(s.cv v).waiters, s.mtx, calls, s.submissions⟩

/-- `c` alone goes from `s` to `t`. -/
def Alone (c : C) (s t : State C M V D) : Prop := ∃ ls, (∀ l ∈ ls, l.1 = c) ∧ exec step ls s = some t

theorem Alone.single {op : Op M V D} {t : State C M V D} (h : step (c, op) s = some t) : Alone c s t := by
  refine ⟨[(c, op)], fun l hl => by rw [List.mem_singleton.mp hl], ?_⟩
  rw [exec_cons, h]
  rfl

theorem Alone.trans {t u : State C M V D} (h : Alone c s t) (h' : Alone c t u) : Alone c s u := by
  obtain ⟨as, ha, hs⟩ := h
  obtain ⟨bs, hb, ht⟩ := h'
  refine ⟨as ++ bs, fun l hl => (List.mem_append.mp hl).elim (ha l) (hb l), ?_⟩
  rw [exec_append, hs, Option.bind_some, ht]

omit [DecidableEq V] in
theorem view_suspendOn (calls : List (Waiter C M D)) (w : Waiter C M D) (p : Pc C M V D) :
    view v (calls ++ [w]) ((suspendOn w.handle (.wait v w.mtx w.cond) s).goto c p) = enqueueWaiter w (view v calls s) := by
  have hx : (Await.wait v w.mtx w.cond).enter w.handle (s.mtx w.mtx) = (s.mtx w.mtx).enqueueWaiter w.handle := rfl
  unfold suspendOn enqueueWaiter view
  rw [Await.mtx, hx]
  split
  · rename_i x h
    simp [h]
  · rename_i x h
    simp [h]

/-- A round of the loop is one or two steps. -/
theorem round_alone {n : Nat} {w : Waiter C M D} {rest : List (Waiter C M D)} (hs : Inv s) (hp : s.pc c = .notify v (n + 1))
    (hw : (s.cv v).waiters = w :: rest) (calls : List (Waiter C M D)) :
    ∃ t calls', Alone c s t ∧ t.pc c = .notify v n ∧ t.shared = s.shared ∧ Inv t ∧
      view v calls' t = examineFront s.shared w rest (view v calls s) := by
  have hnext : step (c, .notifyNext) s = some (examine c v n w rest s) := by simp [step, hp, hw]
  have hinv := inv_step hs hnext
  cases hc : w.cond.unmet (s.shared w.mtx) with
  | true =>
    have hex : examine c v n w rest s = (s.setCv v { s.cv v with waiters := rest ++ [w] }).goto c (.notify v n) := by
      rw [examine, if_pos hc]
    rw [hex] at hnext hinv
    refine ⟨_, calls, .single hnext, by simp, rfl, hinv, ?_⟩
    simp [view, examineFront, hc]
  | false =>
    have hne : c ≠ w.handle := by
      rintro rfl
      have hwait := (hs.wait v w).mp (by simp [hw])
      simp [hp, waitingOn] at hwait
    have hex : examine c v n w rest s = ((s.setCv v { s.cv v with waiters := rest }).goto c (.notifyEnqueue v n w)).goto
        w.handle (.picked v w.mtx w.cond) := by
      rw [examine, if_neg (by simp [hc])]
    have hpc : (examine c v n w rest s).pc c = .notifyEnqueue v n w := by simp [hex, hne]
    have henq : step (c, .notifyEnqueue) (examine c v n w rest s) = some ((suspendOn w.handle (.wait v w.mtx w.cond)
        (examine c v n w rest s)).goto c (.notify v n)) := by simp [step, hpc]
    refine ⟨_, calls ++ [w], (Alone.single hnext).trans (.single henq), by simp, ?_, inv_step hinv henq, ?_⟩
    · funext m
      rw [(step_shared henq m).resolve_right (by rintro ⟨-, _, ⟨⟩⟩),
        (step_shared hnext m).resolve_right (by rintro ⟨-, _, ⟨⟩⟩)]
    · rw [view_suspendOn, hex]
      simp [view, examineFront, hc]

theorem loop_alone (n : Nat) (hs : Inv s) (hp : s.pc c = .notify v n) (hn : n ≤ (s.cv v).waiters.length)
    (calls : List (Waiter C M D)) :
    ∃ t calls', Alone c s t ∧ t.pc c = .running ∧ notifyLoop s.shared n (view v calls s) = some (view v calls' t) := by
  induction n generalizing s calls with
  | zero =>
    have hend : step (c, .notifyNext) s = some ((s.setCv v { s.cv v with holder := none }).goto c .running) := by
      simp [step, hp]
    exact ⟨_, calls, .single hend, by simp, by simp [notifyLoop, view]⟩
  | succ n ih =>
    obtain ⟨w, rest, hw⟩ := List.exists_cons_of_length_pos (Nat.lt_of_lt_of_le n.succ_pos hn)
    obtain ⟨t, calls', hst, hpt, hshared, ht, hview⟩ := round_alone hs hp hw calls
    have hlen : n ≤ (t.cv v).waiters.length := by
      have hrest : rest.length ≤ (view v calls' t).waiters.length := hview ▸ examineFront_length
      rw [hw, List.length_cons] at hn
      exact Nat.le_trans (Nat.le_of_succ_le_succ hn) hrest
    obtain ⟨u, calls'', htu, hpu, hloop⟩ := ih ht hpt hlen calls'
    refine ⟨u, calls'', hst.trans htu, hpu, ?_⟩
    have hfront : (view v calls s).waiters = w :: rest := hw
    rw [notifyLoop_cons hfront, ← hview, ← hshared]
    exact hloop

/-- A call that examines the first `k` entries. -/
theorem call_alone {op : Op M V D} {k : Nat} (hs : Inv s) (hk : k ≤ (s.cv v).waiters.length)
    (hbegin : step (c, op) s = some ((s.setCv v { s.cv v with holder := some c }).goto c (.notify v k))) :
    ∃ t calls, Alone c s t ∧ t.pc c = .running ∧ notifyLoop s.shared k (view v [] s) = some (view v calls t) := by
  let u := (s.setCv v { s.cv v with holder := some c }).goto c (.notify v k)
  have hview : view v [] u = view v [] s := by simp [u, view]
  have hpc : u.pc c = .notify v k := Function.update_self ..
  have hlen : k ≤ (view v [] u).waiters.length := by rw [hview]; exact hk
  obtain ⟨t, calls, hst, hpt, hloop⟩ := loop_alone k (inv_step hs hbegin) hpc hlen []
  rw [hview] at hloop
  exact ⟨t, calls, (Alone.single hbegin).trans hst, hpt, hloop⟩

/-- The steps of a `notify_all` that nobody interrupts do what the call does. -/
theorem notifyAll_alone (hs : Inv s) (hp : s.pc c = .running) (hh : (s.cv v).holder = none) :
    ∃ t calls, Alone c s t ∧ t.pc c = .running ∧ notifyAll s.shared (view v [] s) = some (view v calls t) := by
  have hbegin : step (c, .notifyAll v) s = some ((s.setCv v { s.cv v with holder := some c }).goto c
      (.notify v (s.cv v).waiters.length)) := by simp [step, hp, hh]
  exact call_alone hs (Nat.le_refl _) hbegin

theorem notifyOne_alone (hs : Inv s) (hp : s.pc c = .running) (hh : (s.cv v).holder = none) :
    ∃ t calls, Alone c s t ∧ t.pc c = .running ∧ notifyOne s.shared (view v [] s) = view v calls t := by
  have hbegin : step (c, .notifyOne v) s = some ((s.setCv v { s.cv v with holder := some c }).goto c
      (.notify v (min 1 (s.cv v).waiters.length))) := by simp [step, hp, hh]
  obtain ⟨t, calls, hst, hpt, hloop⟩ := call_alone hs (Nat.min_le_right 1 _) hbegin
  refine ⟨t, calls, hst, hpt, Option.some.inj (Eq.trans ?_ hloop)⟩
  cases hw : (s.cv v).waiters with
  | nil =>
    rw [notifyOne, view, hw]
    rfl
  | cons w rest =>
    have hfront : (view v [] s).waiters = w :: rest := hw
    rw [notifyOne, hfront, List.length_cons, Nat.min_eq_left (Nat.le_add_left ..), notifyLoop_cons hfront]
    rfl

end Steps
end TinyCoro.Comp.NotifyAll
