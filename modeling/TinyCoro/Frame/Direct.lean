import Mathlib.Data.List.Range
import Mathlib.Data.Nat.Fib.Basic
import TinyCoro.Frame.Transfer

/-! Symmetric transfer through `m_parent` does what the recursive calls would do: by
induction over the tree of calls, a coroutine that is given control returns it to its
parent with the value of the direct evaluation, and leaves the rest of the heap alone. -/
namespace TinyCoro.Frame.Transfer
variable {ι : Type} [DecidableEq ι] {V : ι → Type} {r : ι}

namespace State
variable {s t : State V} {c : Nat} {parent : Option Nat}

abbrev Leads : State V → State V → Prop := Transition.Leads (·.running.isNone) step

theorem Leads.step (hr : s.running = some c) (h : s.step = some t) : Leads s t := .single (by rw [hr]; rfl) h

theorem step_start {b : Body V r} (hr : s.running = some c) (hc : s.heap c = some ⟨r, parent, .start b, none⟩) :
    s.step = some { s with
      heap := Function.update s.heap c (some ⟨r, parent, .run b, none⟩)
      log := s.log ++ [.enter c ⟨r, b⟩] } := by
  simp only [step, hr, hc, set]

theorem step_ret {v : V r} (hr : s.running = some c) (hc : s.heap c = some ⟨r, parent, .run (.ret v), none⟩) :
    s.step = some { s with
      heap := Function.update s.heap c (some ⟨r, parent, .final, some v⟩)
      running := parent } := by
  simp only [step, hr, hc, set]

/-- The child is new, so it is not done, and control goes to it. -/
theorem step_await {a : ι} {child : Body V a} {k : V a → Body V r} (hr : s.running = some c)
    (hc : s.heap c = some ⟨r, parent, .run (.await child k), none⟩) (hnew : s.heap s.next = none) :
    s.step = some { s with
      heap := Function.update (Function.update s.heap c (some ⟨r, parent, .awaiting s.next k, none⟩)) s.next
        (some ⟨a, some c, .start child, none⟩)
      next := s.next + 1
      running := some s.next } := by
  have hne : s.next ≠ c := by
    intro he
    rw [he, hc] at hnew
    cases hnew
  have hcomm := Function.update_comm hne.symm (some ⟨r, parent, .awaiting s.next k, none⟩)
    (some ⟨a, none, .start child, none⟩) s.heap
  simp only [step, hr, hc, create, set, ← hcomm]
  simp [awaitReady, done, awaitSuspend, Coroutine.done]

/-- The child has returned, so its value is there, and its frame is destroyed. -/
theorem step_awaiting {a : ι} {n : Nat} {k : V a → Body V r} {v : V a} {p : Option Nat} (hr : s.running = some c)
    (hc : s.heap c = some ⟨r, parent, .awaiting n k, none⟩) (hn : s.heap n = some ⟨a, p, .final, some v⟩) :
    s.step = some { s with
      heap := Function.update (Function.update s.heap n none) c (some ⟨r, parent, .run (k v), none⟩)
      log := s.log ++ [.back c n ⟨a, v⟩] } := by
  simp only [step, hr, hc, hn, set, destroy, Option.bind_some, Coroutine.value, dif_pos, Option.map_some]

/-- A `co_await` up to the point where the body of the child begins to run. -/
theorem leads_enter {a : ι} {child : Body V a} {k : V a → Body V r} (hr : s.running = some c)
    (hc : s.heap c = some ⟨r, parent, .run (.await child k), none⟩) (hnew : s.heap s.next = none) :
    Leads s ⟨Function.update (Function.update s.heap c (some ⟨r, parent, .awaiting s.next k, none⟩)) s.next
      (some ⟨a, some c, .run child, none⟩), s.next + 1, some s.next, s.log ++ [.enter s.next ⟨a, child⟩]⟩ := by
  refine (Leads.step hr (step_await hr hc hnew)).trans ?_
  have hstart := Leads.step rfl (step_start (s := ⟨Function.update (Function.update s.heap c
    (some ⟨r, parent, .awaiting s.next k, none⟩)) s.next (some ⟨a, some c, .start child, none⟩), s.next + 1,
    some s.next, s.log⟩) rfl (Function.update_self ..))
  rwa [Function.update_idem] at hstart

/-- The way back from a child that has returned `v`. -/
theorem leads_back {a : ι} {n next : Nat} {k : V a → Body V r} {v : V a} {p : Option Nat}
    {heap : Nat → Option (Coroutine V)} {log : List (Event V)} (hne : c ≠ n) (hn : heap n = none) :
    Leads ⟨Function.update (Function.update heap c (some ⟨r, parent, .awaiting n k, none⟩)) n
        (some ⟨a, p, .final, some v⟩), next, some c, log⟩
      ⟨Function.update heap c (some ⟨r, parent, .run (k v), none⟩), next, some c, log ++ [.back c n ⟨a, v⟩]⟩ := by
  have hc : Function.update (Function.update heap c (some ⟨r, parent, .awaiting n k, none⟩)) n
      (some ⟨a, p, .final, some v⟩) c = some ⟨r, parent, .awaiting n k, none⟩ := by
    rw [Function.update_of_ne hne, Function.update_self]
  have hback := Leads.step rfl (step_awaiting (s := ⟨Function.update (Function.update heap c
    (some ⟨r, parent, .awaiting n k, none⟩)) n (some ⟨a, p, .final, some v⟩), next, some c, log⟩) rfl hc
    (Function.update_self ..))
  have hheap : Function.update (Function.update (Function.update (Function.update heap c
      (some ⟨r, parent, .awaiting n k, none⟩)) n (some ⟨a, p, .final, some v⟩)) n none) c
      (some ⟨r, parent, .run (k v), none⟩) = Function.update heap c (some ⟨r, parent, .run (k v), none⟩) := by
    rw [Function.update_idem, Function.update_comm hne.symm, Function.update_idem, ← hn, Function.update_comm hne,
      Function.update_eq_self]
  rwa [hheap] at hback

end State

/-- A coroutine with this body, given control, ends with the value of the direct evaluation
after what happens in that; control goes to its parent, and the other frames are as before. -/
def Returns (b : Body V r) : Prop :=
  ∀ (s : State V) (c : Nat) (parent : Option Nat), s.running = some c →
    s.heap c = some ⟨r, parent, .run b, none⟩ → (∀ i, s.next ≤ i → s.heap i = none) →
    s.Leads ⟨Function.update s.heap c (some ⟨r, parent, .final, some b.eval⟩), s.next + b.calls, parent,
      s.log ++ b.trace c s.next⟩

theorem returns_ret (v : V r) : Returns (.ret v) := by
  intro s c parent hr hc _
  simpa [Body.eval, Body.calls, Body.trace] using State.Leads.step hr (State.step_ret hr hc)

theorem returns_await {a : ι} {child : Body V a} {k : V a → Body V r} (hchild : Returns child)
    (hk : Returns (k child.eval)) : Returns (.await child k) := by
  intro s c parent hr hc hfresh
  have hnew := hfresh s.next le_rfl
  have hlt : c < s.next := by
    by_contra hle
    have hnone := hfresh c (Nat.le_of_not_lt hle)
    rw [hc] at hnone
    cases hnone
  -- from the entry of the child to its final suspend
  have hin := hchild ⟨Function.update (Function.update s.heap c (some ⟨r, parent, .awaiting s.next k, none⟩))
    s.next (some ⟨a, some c, .run child, none⟩), s.next + 1, some s.next, s.log ++ [.enter s.next ⟨a, child⟩]⟩
    s.next (some c) rfl (Function.update_self ..) fun i (hi : s.next + 1 ≤ i) => by
      simp only [Function.update_of_ne (show i ≠ s.next by omega), Function.update_of_ne (show i ≠ c by omega)]
      exact hfresh i (by omega)
  -- from the return of its value on
  have hafter := hk ⟨Function.update s.heap c (some ⟨r, parent, .run (k child.eval), none⟩),
    s.next + 1 + child.calls, some c, s.log ++ [.enter s.next ⟨a, child⟩] ++ child.trace s.next (s.next + 1) ++
      [.back c s.next ⟨a, child.eval⟩]⟩ c parent rfl (Function.update_self ..)
      fun i (hi : s.next + 1 + child.calls ≤ i) => by
        simp only [Function.update_of_ne (show i ≠ c by omega)]
        exact hfresh i (by omega)
  refine (State.leads_enter hr hc hnew).trans (hin.trans ?_)
  rw [Function.update_idem]
  refine (State.leads_back hlt.ne hnew).trans ?_
  simpa [Body.eval, Body.calls, Body.trace, Nat.add_assoc] using hafter

theorem returns (b : Body V r) : Returns b := by
  induction b with
  | ret v => exact returns_ret v
  | await child k ihc ihk => exact returns_await ihc (ihk child.eval)

omit [DecidableEq ι] in
/-- The calls begin in the order of their numbers, each once. -/
theorem entered_trace (b : Body V r) (self next : Nat) :
    (b.trace self next).filterMap Event.entered = List.range' next b.calls := by
  induction b generalizing self next with
  | ret v => rfl
  | await child k ihc ihk => exact entered_call (ihc next (next + 1)) (ihk child.eval self (next + 1 + child.calls))

omit [DecidableEq ι] in
/-- Each call returns once. -/
theorem returned_trace (b : Body V r) (self next : Nat) :
    ((b.trace self next).filterMap Event.returned).Perm (List.range' next b.calls) := by
  induction b generalizing self next with
  | ret v => exact .refl _
  | await child k ihc ihk => exact returned_call (ihc next (next + 1)) (ihk child.eval self (next + 1 + child.calls))

omit [DecidableEq ι] in
/-- A call returns the value of its body. -/
theorem trace_value (b : Body V r) (self next : Nat) {p c : Nat} {v : Σ r, V r}
    (h : .back p c v ∈ b.trace self next) : ∃ x, .enter c x ∈ b.trace self next ∧ v = ⟨x.1, x.2.eval⟩ := by
  induction b generalizing self next with
  | ret v => cases h
  | await child k ihc ihk =>
    simp only [Body.trace, List.cons_append, List.mem_cons, List.mem_append, reduceCtorEq, false_or] at h ⊢
    rcases h with h | h | h
    · obtain ⟨x, hx, hv⟩ := ihc _ _ h
      exact ⟨x, .inr (.inl hx), hv⟩
    · cases h
      exact ⟨⟨_, child⟩, .inl rfl, rfl⟩
    · obtain ⟨x, hx, hv⟩ := ihk child.eval _ _ h
      exact ⟨x, .inr (.inr hx), hv⟩

private theorem resume_task (b : Body V r) : ∃ n, ∀ fuel, n ≤ fuel → (task b).resume fuel 0 = some (false,
    ⟨Function.update (fun _ => none) 0 (some ⟨r, none, .final, some b.eval⟩), 1 + b.calls, none,
      .enter 0 ⟨r, b⟩ :: b.trace 0 1⟩) := by
  have hrun := returns b ⟨Function.update (fun _ => none) 0 (some ⟨r, none, .run b, none⟩), 1, some 0,
    [.enter 0 ⟨r, b⟩]⟩ 0 none rfl (by simp only [Function.update_self]) fun i (hi : 1 ≤ i) => by
      simp only [Function.update_of_ne (show i ≠ 0 by omega)]
  have hnew : (task b).done 0 = false := by
    simp [task, State.create, State.set, State.done, Coroutine.done]
  have hroot : (task b).heap 0 = some ⟨r, none, .start b, none⟩ := by
    simp [task, State.create, State.set]
  have hstart := State.Leads.step (s := { task b with running := some 0 }) rfl (State.step_start rfl hroot)
  simp only [task, State.create, State.set, Function.update_idem, List.nil_append] at hstart hrun
  obtain ⟨n, hn⟩ := (hstart.trans hrun).returns rfl
  refine ⟨n, fun fuel hfuel => ?_⟩
  rw [State.resume, hnew, if_neg Bool.false_ne_true]
  rw [State.run, task, State.create, State.set, hn fuel hfuel]
  simp [State.done, Coroutine.done]

/-- One `resume()` of a task is its direct recursive evaluation: it returns with the task
done and the value of the evaluation as its result, and what has happened is what happens
in the evaluation, in that order. So each body has run once, in the order of the calls, and
each child has given its parent its value, once. -/
theorem nested_tasks_direct (b : Body V r) : ∃ n t,
    (∀ fuel, n ≤ fuel → (task b).resume fuel 0 = some (false, t)) ∧ t.done 0 = true ∧
    t.result r 0 = some b.eval ∧ t.log = .enter 0 ⟨r, b⟩ :: b.trace 0 1 ∧
    t.log.filterMap Event.entered = List.range (b.calls + 1) ∧
    (t.log.filterMap Event.returned).Perm (List.range' 1 b.calls) ∧
    ∀ p c v, .back p c v ∈ t.log → ∃ x, .enter c x ∈ t.log ∧ v = ⟨x.1, x.2.eval⟩ := by
  obtain ⟨n, hn⟩ := resume_task b
  refine ⟨n, _, hn, ?_, ?_, rfl, ?_, ?_, fun p c v h => ?_⟩
  · simp [State.done, Coroutine.done]
  · simp [State.result, Coroutine.value]
  · rw [List.filterMap_cons, entered_trace, List.range_eq_range', List.range'_succ]
    rfl
  · rw [List.filterMap_cons]
    exact returned_trace b 0 1
  · obtain ⟨x, hx, hv⟩ := trace_value b 0 1 (by simpa using h)
    exact ⟨x, List.mem_cons_of_mem _ hx, hv⟩

def fibonacci : Nat → Body (fun _ : Unit => Nat) ()
  | 0 => .ret 0
  | 1 => .ret 1
  | n + 2 => .await (fibonacci (n + 1)) fun x => .await (fibonacci n) fun y => .ret (x + y)

theorem fibonacci_eval (n : Nat) : (fibonacci n).eval = Nat.fib n := by
  induction n using fibonacci.induct with
  | case1 => rfl
  | case2 => rfl
  | case3 n ih ih' =>
    rw [fibonacci, Nat.fib_add_two]
    simp only [Body.eval, ih, ih', Nat.add_comm]

example : ((task (fibonacci 4)).resume 60 0).map (fun x => (x.1, x.2.result () 0)) = some (false, some 3) := by
  decide

end TinyCoro.Frame.Transfer
