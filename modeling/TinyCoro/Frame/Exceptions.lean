import TinyCoro.Frame.TaskRun

/-! Which trees of tasks handle exceptions as direct calls do: those in which no exception
leaves the body of a task that returns a `pod_type`, where the final suspend of the root
comes back at all. -/
namespace TinyCoro.Frame.Task
open State
variable {T : Types} {r : Ret T}

/-- One `resume()` ends the task; each `co_await` in it has returned or thrown what the
direct call does, and so does `result()` of the task. -/
def Propagates (b : Body T r) : Prop :=
  ∃ n t, (∀ fuel, n ≤ fuel → (task b).resume fuel 0 = some (false, t)) ∧
    t.log = .enter 0 ⟨r, b⟩ :: b.trace 0 1 ∧ t.result r 0 = some b.eval

/-- The end of a task that neither suspends nor loses an exception on the way. -/
private theorem leads_end {b : Body T r} (hsusp : b.suspends = false) (hpod : b.podThrowsUnder = false) :
    ∃ t, Leads { task b with control := .coroutine 0 } t ∧ t.control = T.offEnd ∧ t.done 0 = true ∧
      t.log = .enter 0 ⟨r, b⟩ :: b.trace 0 1 ∧ t.result r 0 = (stored b.eval).result := by
  have hend := ends b hsusp hpod (begun b) 0 none rfl (begun_root b) (begun_fresh b)
  refine ⟨_, (leads_begun b).trans hend, rfl, ?_, rfl, ?_⟩
  · simp [State.done, Coroutine.done]
  · simp [State.result, Coroutine.outcome]

/-- How it ends where the final suspend of the root comes back. -/
private theorem resume_ends {b : Body T r} (hroot : T.rootReturns = true) (hsusp : b.suspends = false)
    (hpod : b.podThrowsUnder = false) : ∃ n t, (∀ fuel, n ≤ fuel → (task b).resume fuel 0 = some (false, t)) ∧
      t.log = .enter 0 ⟨r, b⟩ :: b.trace 0 1 ∧ t.result r 0 = (stored b.eval).result := by
  obtain ⟨t, ht, hctl, hdone, hlog, hres⟩ := leads_end hsusp hpod
  have hc : t.control = .resumer := by rw [hctl, Types.offEnd, hroot, if_pos rfl]
  obtain ⟨n, hn⟩ := resume_leads ht hc (task_done b) hdone
  exact ⟨n, t, hn, hlog, hres⟩

/-- A resume that leads to the end of the program does not return. -/
private theorem not_propagates_terminated {b : Body T r} {t : State T}
    (ht : Leads { task b with control := .coroutine 0 } t) (hc : t.control = .terminated) : ¬ Propagates b := by
  rintro ⟨n, u, hres, -⟩
  have hr := hres n le_rfl
  rw [resume, task_done, if_neg Bool.false_ne_true, ht.terminates hc] at hr
  cases hr

/-- The root does not come back from its final suspend. -/
private theorem not_propagates_offEnd {b : Body T r} (hroot : T.rootReturns = false) (hsusp : b.suspends = false)
    (hpod : b.podThrowsUnder = false) : ¬ Propagates b := by
  obtain ⟨t, ht, hctl, -⟩ := leads_end hsusp hpod
  refine not_propagates_terminated ht ?_
  rw [hctl, Types.offEnd, hroot, if_neg Bool.false_ne_true]

/-- The program does not come back from the resume, or comes back too early. -/
private theorem not_propagates_under {b : Body T r} (hpod : b.podThrowsUnder = true) : ¬ Propagates b := by
  obtain ⟨u, hu, hcase⟩ := stops b (.inr hpod) (begun b) 0 none rfl (begun_root b) (begun_fresh b)
  have hlead := (leads_begun b).trans hu
  rcases hcase with hterm | ⟨hresumer, hdone, -⟩
  · exact not_propagates_terminated hlead hterm
  · rintro ⟨n, t, hres, -⟩
    have hr := hres n le_rfl
    rw [resume, task_done, if_neg Bool.false_ne_true] at hr
    obtain ⟨v, hv, he⟩ := Option.map_eq_some_iff.mp hr
    obtain rfl := Leads.eq hlead hresumer hv
    rw [hdone] at he
    cases he

/-- The root keeps the exception to itself. -/
private theorem not_propagates_root {b : Body T r} (hroot : T.rootReturns = true) (hsusp : b.suspends = false)
    (hunder : b.podThrowsUnder = false) (hpod : b.podThrows = true) : ¬ Propagates b := by
  rintro ⟨n, t, hres, -, hval⟩
  obtain ⟨m, u, hu, -, hout⟩ := resume_ends hroot hsusp hunder
  have hm := hu (m + n) (Nat.le_add_right ..)
  rw [hres (m + n) (Nat.le_add_left ..)] at hm
  cases hm
  rw [hout, result_stored, hpod, if_pos rfl] at hval
  cases hval

/-- Exceptions go through a tree of tasks as through direct calls exactly when no call of
the direct evaluation, the root included, returns a `pod_type` and ends with an exception,
and control comes back from the final suspend of the root. -/
theorem exceptions_propagate_iff (b : Body T r) (hb : b.suspends = false) :
    Propagates b ↔ T.rootReturns = true ∧ b.podThrows = false ∧ b.podThrowsUnder = false := by
  constructor
  · intro h
    have hunder : b.podThrowsUnder = false := by
      by_contra hbad
      exact not_propagates_under (Bool.not_eq_false _ ▸ hbad) h
    have hroot : T.rootReturns = true := by
      by_contra hbad
      exact not_propagates_offEnd (Bool.not_eq_true _ ▸ hbad) hb hunder h
    refine ⟨hroot, ?_, hunder⟩
    by_contra hbad
    exact not_propagates_root hroot hb hunder (Bool.not_eq_false _ ▸ hbad) h
  · rintro ⟨hroot, hpod, hunder⟩
    obtain ⟨n, t, hres, hlog, hout⟩ := resume_ends hroot hb hunder
    exact ⟨n, t, hres, hlog, by rw [hout, result_stored, hpod, if_neg nofun]⟩

/-- Await a task that throws, and catch what it throws. -/
def catching (c : Ret intAndString) : Body intAndString (.pod ()) :=
  .await (.throw "failed" : Body _ c) fun o => match o with
    | .ok _ => .ret (0 : Int)
    | .error _ => .ret (1 : Int)

theorem exceptions_propagate_string : (catching (.other ())).suspends = false ∧
    (catching (.other ())).eval = .ok (1 : Int) ∧ Propagates (catching (.other ())) :=
  ⟨rfl, rfl, (exceptions_propagate_iff (catching (.other ())) rfl).mpr ⟨rfl, rfl, rfl⟩⟩

/-- The exception of a `task<int>` terminates the program inside the parent's `co_await`. -/
theorem exceptions_lost_int : (catching (.pod ())).eval = .ok (1 : Int) ∧ ¬ Propagates (catching (.pod ())) :=
  ⟨rfl, not_propagates_under rfl⟩

end TinyCoro.Frame.Task
