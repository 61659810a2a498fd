import TinyCoro.Frame.TaskRun

/-! Repeated `resume()` of a root task. The handle that is resumed is the root's, so it is
the innermost suspended coroutine only while no task under the root suspends, and the last
`resume()` returns only where the final suspend of the root comes back. -/
namespace TinyCoro.Frame.Task
open State
variable {T : Types} {r : Ret T}

namespace State

def Innermost (c : Nat) (s : State T) : Prop := ∃ f, s.heap c = some f ∧ f.awaits = none

/-- `while (!is_ready()) resume();` of the task object of frame 0, with the states in which
`resume()` is called. -/
def drive (fuel : Nat) : Nat → State T → Option (List (State T) × State T)
  | 0, s => if s.done 0 then some ([], s) else none
  | rounds + 1, s =>
    if s.done 0 then some ([], s)
    else (s.resume fuel 0).bind fun x => (drive fuel rounds x.2).map fun y => (s :: y.1, y.2)

end State

/-- The calls of `resume()` resume the innermost suspended coroutine each time, until the
task is ready; then every body has run once and `result()` is that of the direct evaluation. -/
def Drives (b : Body T r) : Prop :=
  ∃ n calls t, (∀ fuel rounds, n ≤ fuel → n ≤ rounds → drive fuel rounds (task b) = some (calls, t)) ∧
    (∀ s ∈ calls, s.Innermost 0) ∧ t.log.filterMap Event.entered = List.range (b.calls + 1) ∧
    t.result r 0 = some b.eval

def Body.raises : {r : Ret T} → Body T r → Bool
  | _, .ret _ => false
  | _, .throw _ => true
  | _, .suspend k => k.raises
  | _, .await child k => child.raises || (k child.eval).raises

theorem eval_ok {b : Body T r} (hb : b.raises = false) : b.eval.isOk = true := by
  induction b with
  | ret v => rfl
  | throw e => cases hb
  | suspend k ih => exact ih hb
  | await child k ihc ihk =>
    simp only [Body.raises, Bool.or_eq_false_iff] at hb
    exact ihk child.eval hb.2

theorem podThrows_of_raises {b : Body T r} (hb : b.raises = false) : b.podThrows = false := by
  rw [Body.podThrows, eval_ok hb, Bool.not_true, Bool.and_false]

theorem podThrowsUnder_of_raises {b : Body T r} (hb : b.raises = false) : b.podThrowsUnder = false := by
  induction b with
  | ret v => rfl
  | throw e => cases hb
  | suspend k ih => exact ih hb
  | await child k ihc ihk =>
    simp only [Body.raises, Bool.or_eq_false_iff] at hb
    simp [Body.podThrowsUnder, ihc hb.1, podThrows_of_raises hb.1, ihk child.eval hb.2]

structure AtRoot (b : Body T r) (s : State T) : Prop where
  control : s.control = .coroutine 0
  root : s.heap 0 = some ⟨r, none, .run b, .none⟩
  fresh : Fresh s

def DrivesOn (b : Body T r) : Prop :=
  ∀ s : State T, AtRoot b s → ∃ n calls t, (∀ first fuel rounds, n ≤ first → n ≤ fuel → n ≤ rounds →
    (run first s).bind (drive fuel rounds) = some (calls, t)) ∧ (∀ u ∈ calls, u.Innermost 0) ∧
    t.log = s.log ++ b.trace 0 s.next ∧ t.result r 0 = (stored b.eval).result

theorem drive_done {fuel rounds : Nat} {s : State T} (h : s.done 0 = true) : drive fuel rounds s = some ([], s) := by
  cases rounds with
  | zero => simp only [drive, h, if_true]
  | succ rounds => simp only [drive, h, if_true]

theorem drive_succ {fuel rounds : Nat} {s : State T} (h : s.done 0 = false) :
    drive fuel (rounds + 1) s =
      ((run fuel { s with control := .coroutine 0 }).bind (drive fuel rounds)).map fun y => (s :: y.1, y.2) := by
  simp only [drive, resume, h, Bool.false_eq_true, if_false]
  cases run fuel { s with control := .coroutine 0 } <;> rfl

/-- A task that is not ready is resumed before the loop ends. -/
theorem drive_some {fuel rounds : Nat} {s t : State T} {calls : List (State T)} (hs : s.done 0 = false)
    (h : drive fuel rounds s = some (calls, t)) : ∃ m rest, calls = s :: rest ∧
      (run fuel { s with control := .coroutine 0 }).bind (drive fuel m) = some (rest, t) := by
  cases rounds with
  | zero => simp [drive, hs] at h
  | succ m =>
    rw [drive_succ hs] at h
    obtain ⟨⟨rest, u⟩, hu, he⟩ := Option.map_eq_some_iff.mp h
    cases he
    exact ⟨m, rest, rfl, hu⟩

section Root
variable {s : State T}

def parked (k : Body T r) (s : State T) : State T :=
  { s with heap := Function.update s.heap 0 (some ⟨r, none, .suspended k, .none⟩), control := .resumer }

theorem parked_root (k : Body T r) (s : State T) : (parked k s).heap 0 = some ⟨r, none, .suspended k, .none⟩ := by
  simp [parked]

theorem parked_done (k : Body T r) (s : State T) : (parked k s).done 0 = false := by
  simp [State.done, parked_root, Coroutine.done]

theorem parked_innermost (k : Body T r) (s : State T) : (parked k s).Innermost 0 :=
  ⟨_, parked_root k s, rfl⟩

theorem AtRoot.parks {k : Body T r} (hs : AtRoot (.suspend k) s) : Leads s (parked k s) :=
  Leads.step hs.control (step_suspend hs.control hs.root)

/-- The root is resumed where it has suspended. -/
theorem AtRoot.unpark {k : Body T r} (hs : AtRoot (.suspend k) s) :
    ∃ t, Leads { parked k s with control := .coroutine 0 } t ∧ AtRoot k t ∧ t.log = s.log ∧ t.next = s.next := by
  have hstep := step_suspended (s := { parked k s with control := .coroutine 0 }) rfl (parked_root k s)
  refine ⟨_, Leads.step rfl hstep, ⟨rfl, by simp, fun i hi => ?_⟩, rfl, rfl⟩
  have hne : i ≠ 0 := by
    have := hs.fresh.lt hs.root
    have : s.next ≤ i := hi
    omega
  simp only [parked, Function.update_of_ne hne]
  exact hs.fresh i hi

/-- The root has awaited a child that gave its outcome back. -/
theorem AtRoot.awaited {a : Ret T} {child : Body T a} {k : Outcome a → Body T r} (hs : AtRoot (.await child k) s)
    (hsusp : child.suspends = false) (hunder : child.podThrowsUnder = false) (hpod : child.podThrows = false) :
    ∃ t, Leads s t ∧ AtRoot (k child.eval) t ∧ t.next = s.next + 1 + child.calls ∧
      t.log = s.log ++ [.enter s.next ⟨a, child⟩] ++ child.trace s.next (s.next + 1) ++
        [.back 0 s.next ⟨a, child.eval⟩] :=
  ⟨_, leads_awaitReturned (ends child hsusp hunder) hpod hs.control hs.root hs.fresh,
    ⟨rfl, by simp [awaitReturned], awaitReturned_fresh hs.fresh (hs.fresh.lt hs.root) child k⟩, rfl, rfl⟩

end Root

private theorem drivesOn_end {b : Body T r} {t : State T} {s : State T} (ht : Leads s t) (hc : t.control = .resumer)
    (hroot : t.heap 0 = some ⟨r, none, .final, stored b.eval⟩) (hlog : t.log = s.log ++ b.trace 0 s.next) :
    ∃ n calls t, (∀ first fuel rounds, n ≤ first → n ≤ fuel → n ≤ rounds →
      (run first s).bind (drive fuel rounds) = some (calls, t)) ∧ (∀ u ∈ calls, u.Innermost 0) ∧
      t.log = s.log ++ b.trace 0 s.next ∧ t.result r 0 = (stored b.eval).result := by
  obtain ⟨n, hn⟩ := ht.returns hc
  refine ⟨n, [], t, fun first fuel rounds hf _ _ => ?_, nofun, hlog, ?_⟩
  · rw [hn first hf, Option.bind_some, drive_done (by simp [State.done, hroot, Coroutine.done])]
  · simp [State.result, hroot, Coroutine.outcome]

theorem drivesOn (b : Body T r) (hroot : T.rootReturns = true) (hsusp : b.suspendsUnder = false)
    (hpod : b.podThrowsUnder = false) : DrivesOn b := by
  have hoff : back T none = .resumer := by rw [back, Types.offEnd, hroot, if_pos rfl]
  induction b with
  | ret v =>
    intro s hs
    exact drivesOn_end (Leads.step hs.control (step_ret hs.control hs.root)) hoff (by simp [Body.eval])
      (List.append_nil _).symm
  | throw e =>
    intro s hs
    exact drivesOn_end (Leads.step hs.control (step_throw hs.control hs.root)) hoff (by simp [Body.eval])
      (List.append_nil _).symm
  | suspend k ih =>
    intro s hs
    obtain ⟨v, hv, hat, hlog, hnext⟩ := hs.unpark
    obtain ⟨m, hm⟩ := hv.run_eq
    obtain ⟨n, calls, t, hrun, hcalls, htlog, hres⟩ := ih hsusp hpod v hat
    obtain ⟨i, hi⟩ := hs.parks.returns rfl
    refine ⟨i + m + n + 1, parked k s :: calls, t, fun first fuel rounds h1 h2 h3 => ?_, ?_, ?_, hres⟩
    · obtain ⟨f, rfl⟩ := Nat.exists_eq_add_of_le' (show m ≤ fuel by omega)
      obtain ⟨j, rfl⟩ := Nat.exists_eq_add_of_le' (show 1 ≤ rounds by omega)
      rw [hi first (by omega), Option.bind_some, drive_succ (parked_done k s), hm,
        hrun f (f + m) j (by omega) (by omega) (by omega)]
      rfl
    · exact List.forall_mem_cons.mpr ⟨parked_innermost k s, hcalls⟩
    · rw [htlog, hlog, hnext]
      rfl
  | await child k ihc ihk =>
    intro s hs
    simp only [Body.suspendsUnder, Body.podThrowsUnder, Bool.or_eq_false_iff] at hsusp hpod
    obtain ⟨v, hv, hat, hnext, hlog⟩ := hs.awaited hsusp.1 hpod.1.1 hpod.1.2
    obtain ⟨m, hm⟩ := Leads.run_eq hv
    obtain ⟨n, calls, t, hrun, hcalls, htlog, hres⟩ := ihk child.eval hsusp.2 hpod.2 v hat
    refine ⟨m + n, calls, t, fun first fuel rounds h1 h2 h3 => ?_, hcalls, ?_, hres⟩
    · obtain ⟨f, rfl⟩ := Nat.exists_eq_add_of_le' (show m ≤ first by omega)
      rw [hm, hrun f fuel rounds (by omega) (by omega) (by omega)]
    · rw [htlog, hlog, hnext]
      simp [Body.trace]

/-- Where the final suspend of the root does not come back, neither does the resume. -/
private theorem run_offEnd (hroot : T.rootReturns = false) {s t : State T} (ht : Leads s t)
    (hc : t.control = back T none) (first : Nat) : run first s = none := by
  refine ht.terminates ?_ first
  rw [hc, back, Types.offEnd, hroot, if_neg Bool.false_ne_true]

/-- The loop does not end, or it resumes the root while that waits for a child. -/
theorem not_drivesOn (b : Body T r)
    (hbad : T.rootReturns = false ∨ b.suspendsUnder = true ∨ b.podThrowsUnder = true) {s : State T}
    (hs : AtRoot b s) {first fuel rounds : Nat} {calls : List (State T)} {t : State T}
    (h : (run first s).bind (drive fuel rounds) = some (calls, t)) : ∃ u ∈ calls, ¬ u.Innermost 0 := by
  induction b generalizing s first rounds calls with
  | ret v =>
    have hroot : T.rootReturns = false := hbad.resolve_right (by rintro (h | h) <;> cases h)
    rw [run_offEnd hroot (Leads.step hs.control (step_ret hs.control hs.root)) rfl] at h
    cases h
  | throw e =>
    have hroot : T.rootReturns = false := hbad.resolve_right (by rintro (h | h) <;> cases h)
    rw [run_offEnd hroot (Leads.step hs.control (step_throw hs.control hs.root)) rfl] at h
    cases h
  | suspend k ih =>
    obtain ⟨u, hu, hd⟩ := Option.bind_eq_some_iff.mp h
    obtain rfl := hs.parks.eq rfl hu
    obtain ⟨j, rest, rfl, hrest⟩ := drive_some (parked_done k s) hd
    obtain ⟨v, hv, hat, -, -⟩ := hs.unpark
    obtain ⟨first', hfirst⟩ := hv.bind_some hrest
    obtain ⟨w, hw, hnot⟩ := ih hbad hat hfirst
    exact ⟨w, List.mem_cons_of_mem _ hw, hnot⟩
  | await child k ihc ihk =>
    by_cases hgood : child.suspends = false ∧ child.podThrowsUnder = false ∧ child.podThrows = false
    · obtain ⟨v, hv, hat, -, -⟩ := hs.awaited hgood.1 hgood.2.1 hgood.2.2
      obtain ⟨first', hfirst⟩ := hv.bind_some h
      exact ihk child.eval (by simpa [Body.suspendsUnder, Body.podThrowsUnder, hgood] using hbad) hat hfirst
    · obtain ⟨v, hv, hcase⟩ := await_stops (child_stops hgood) hs.control hs.root hs.fresh
      rcases hcase with hterm | ⟨hres, hroot, -⟩
      · rw [hv.terminates hterm] at h
        cases h
      · obtain ⟨u, hu, hd⟩ := Option.bind_eq_some_iff.mp h
        obtain rfl := hv.eq hres hu
        obtain ⟨j, rest, rfl, -⟩ := drive_some (by simp [State.done, hroot, Coroutine.done]) hd
        refine ⟨u, List.mem_cons_self, ?_⟩
        rintro ⟨f, hf, hawait⟩
        rw [hroot] at hf
        cases hf
        cases hawait

theorem begun_atRoot (b : Body T r) : AtRoot b (begun b) := ⟨rfl, begun_root b, begun_fresh b⟩

theorem task_innermost (b : Body T r) : (task b).Innermost 0 := by
  refine ⟨⟨r, none, .start b, .none⟩, ?_, rfl⟩
  simp [task, create, State.set]

private theorem drives_of {b : Body T r} (hroot : T.rootReturns = true) (hsusp : b.suspendsUnder = false)
    (hunder : b.podThrowsUnder = false) (hpod : b.podThrows = false) : Drives b := by
  obtain ⟨m, hm⟩ := (leads_begun b).run_eq
  obtain ⟨n, calls, t, hrun, hcalls, hlog, hres⟩ := drivesOn b hroot hsusp hunder (begun b) (begun_atRoot b)
  refine ⟨m + n + 1, task b :: calls, t, fun fuel rounds h1 h2 => ?_, ?_, ?_, ?_⟩
  · obtain ⟨f, rfl⟩ := Nat.exists_eq_add_of_le' (show m ≤ fuel by omega)
    obtain ⟨j, rfl⟩ := Nat.exists_eq_add_of_le' (show 1 ≤ rounds by omega)
    rw [drive_succ (task_done b), hm, hrun f (f + m) j (by omega) (by omega) (by omega)]
    rfl
  · exact List.forall_mem_cons.mpr ⟨task_innermost b, hcalls⟩
  · rw [hlog, List.filterMap_append, entered_trace, List.range_eq_range', List.range'_succ]
    rfl
  · rw [hres, result_stored, hpod, if_neg nofun]

private theorem not_drives {b : Body T r}
    (hbad : T.rootReturns = false ∨ b.suspendsUnder = true ∨ b.podThrowsUnder = true) : ¬ Drives b := by
  rintro ⟨n, calls, t, hrun, hcalls, -⟩
  obtain ⟨j, rest, rfl, hrest⟩ := drive_some (task_done b) (hrun n n le_rfl le_rfl)
  obtain ⟨first, hfirst⟩ := (leads_begun b).bind_some hrest
  obtain ⟨u, hu, hnot⟩ := not_drivesOn b hbad (begun_atRoot b) hfirst
  exact hnot (hcalls u (List.mem_cons_of_mem _ hu))

/-- Repeated `resume()` of a task whose calls throw nothing drives the whole tree exactly
when no task under the root suspends and control comes back from the final suspend of the
root. -/
theorem resume_drives_iff (b : Body T r) (hb : b.raises = false) :
    Drives b ↔ T.rootReturns = true ∧ b.suspendsUnder = false := by
  constructor
  · intro h
    constructor
    · by_contra hbad
      exact not_drives (.inl (Bool.not_eq_true _ ▸ hbad)) h
    · by_contra hbad
      exact not_drives (.inr (.inl (Bool.not_eq_false _ ▸ hbad))) h
  · rintro ⟨hroot, hsusp⟩
    exact drives_of hroot hsusp (podThrowsUnder_of_raises hb) (podThrows_of_raises hb)

def func7 : Nat → Body intAndString (.pod ())
  | 0 => .ret (1 : Int)
  | n + 1 => .await (func7 n) fun o => match o with
    | .ok (p : Int) => if n + 2 = 5 then .suspend (.ret (p + (n + 2) : Int)) else .ret (p + (n + 2) : Int)
    | .error e => .throw e

theorem resume_drives_root : (func7 4).raises = false ∧ (func7 4).suspends = true ∧ Drives (func7 4) :=
  ⟨rfl, rfl, (resume_drives_iff (func7 4) rfl).mpr ⟨rfl, rfl⟩⟩

/-- The second `resume()` resumes the root inside its `co_await`. -/
theorem resume_drives_not_nested : (func7 9).raises = false ∧ (func7 9).eval = .ok (55 : Int) ∧ ¬ Drives (func7 9) :=
  ⟨rfl, rfl, not_drives (.inr (.inl rfl))⟩

end TinyCoro.Frame.Task
