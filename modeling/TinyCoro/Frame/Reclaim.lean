import TinyCoro.Frame.Stack

/-! Which root tasks the engine reclaims: those of which no awaited task suspends.
The engine tests the handle it popped, which is the handle of the coroutine that
suspended last and not the root's. -/
namespace TinyCoro.Frame.Reclaim
open Nested Stack Transition

/-- The root has ended, the engine is back from every resume and has no task left. -/
def Completed (s : State) : Prop :=
  s.pc = .idle ∧ s.queue = [] ∧ ∀ f ∈ s.heap 0, f.final = true

/-- Once the root has ended, its frame has been destroyed by the engine exactly once
and `done()` was called on live frames only. -/
def Reclaimed (b : Body) : Prop :=
  ∀ s, Reachable step (init b) s → Completed s → s.cleaned.count 0 = 1 ∧ s.deadDones = 0

/-- The states of a root task under which no task suspends: the engine pops only
the root's handle. -/
inductive Sound : State → Prop
  | running {s : State} {st : List (Nat × Body)} {back : Option Nat} (hr : Running 0 st back s)
      (hl : loud st = false) (hc : s.cleaned = []) (hd : s.deadDones = 0) : Sound s
  | parked {s : State} {st : List (Nat × Body)} (hk : Parked st s) (ht : top st = 0) (hl : loud st = false)
      (hp : s.pc = .testing 0 ∨ s.pc = .idle) (hc : s.cleaned = []) (hd : s.deadDones = 0) : Sound s
  | returned {s : State} (hr : Returned s) (hp : s.pc = .testing 0 ∨ s.pc = .cleaning 0) (hc : s.cleaned = [])
      (hd : s.deadDones = 0) : Sound s
  | reclaimed {s : State} (hh : s.heap = fun _ => none) (hq : s.queue = []) (hw : s.waiting = []) (hp : s.pc = .idle)
      (hc : s.cleaned = [0]) (hd : s.deadDones = 0) : Sound s

theorem valid_init (b : Body) : Valid [(0, b)] none 1 where
  desc := by simp
  root := ⟨b, rfl⟩

theorem parked_init (b : Body) : Parked [(0, b)] (init b) where
  heap := rfl
  valid := valid_init b
  place := rfl

section Steps
variable {h : Nat} {st : List (Nat × Body)} {s t : State}

/-- A live frame is tested and left alone. -/
private theorem parked_testing (hk : Parked st s) (hp : s.pc = .testing h) (hm : h ∈ st.map Prod.fst) :
    s.engineStep = some (s.goto .idle) := by
  obtain ⟨f, hf, hfin⟩ := frames_live none hm
  have hs : s.heap h = some f := by rw [hk.heap, heapOf, hf]
  simp [State.engineStep, hp, hs, hfin]

private theorem parked_testing_dead (hk : Parked st s) (hp : s.pc = .testing h) (hm : h ∉ st.map Prod.fst) :
    s.engineStep = some { s with deadDones := s.deadDones + 1, pc := .idle } := by
  have hs : s.heap h = none := by rw [hk.heap, heapOf, frames_none none hm]
  simp [State.engineStep, hp, hs]

private theorem parked_idle (hk : Parked st s) (hp : s.pc = .idle) (hq : s.queue = [top st]) :
    ∃ t, s.engineStep = some t ∧ Running (top st) st none t ∧ t.cleaned = s.cleaned ∧ t.deadDones = s.deadDones := by
  have hw : s.waiting = [] := by
    have := hk.place
    rw [hq] at this
    simpa using this
  refine ⟨{ s with queue := [], pc := .running (top st) (top st) }, ?_, ⟨hk.heap, hk.valid, rfl, rfl, hw⟩, rfl, rfl⟩
  simp [State.engineStep, hp, hq]

private theorem parked_place (hk : Parked st s) :
    (s.waiting = [top st] ∧ s.queue = []) ∨ (s.waiting = [] ∧ s.queue = [top st]) := by
  rcases List.append_eq_singleton_iff.mp hk.place with hl | hr
  · exact .inr hl
  · exact .inl hr

private theorem parked_submit (hk : Parked st s) {c : Nat} (h : step (.submit c) s = some t) :
    s.waiting = [top st] ∧ c = top st ∧ Parked st t ∧ t.queue = [top st] ∧ t.pc = s.pc ∧ t.cleaned = s.cleaned ∧
      t.deadDones = s.deadDones := by
  simp only [step] at h
  split at h
  · rename_i hm
    cases h
    rcases parked_place hk with ⟨hw, hq⟩ | ⟨hw, hq⟩
    · obtain rfl : c = top st := by simpa [hw] using hm
      refine ⟨hw, rfl, ⟨hk.heap, hk.valid, ?_⟩, ?_, rfl, rfl, rfl⟩ <;> simp [hw, hq]
    · simp [hw] at hm
  · cases h

private theorem returned_testing (hr : Returned s) (hp : s.pc = .testing 0) :
    s.engineStep = some (s.goto (.cleaning 0)) := by
  simp [State.engineStep, hp, hr.heap]

private theorem returned_testing_dead (hr : Returned s) (hp : s.pc = .testing h) (hne : h ≠ 0) :
    s.engineStep = some { s with deadDones := s.deadDones + 1, pc := .idle } := by
  simp [State.engineStep, hp, hr.heap, Function.update_of_ne hne]

private theorem returned_cleaning (hr : Returned s) (hp : s.pc = .cleaning 0) :
    s.engineStep = some { s with heap := fun _ => none, cleaned := s.cleaned ++ [0], pc := .idle } := by
  simp [State.engineStep, hp, hr.heap, State.destroy]

end Steps

private theorem not_submit {s t : State} {c : Nat} (hw : s.waiting = []) (h : step (.submit c) s = some t) : False := by
  simp [step, hw] at h

theorem sound_init {b : Body} (hb : nestedSuspends b = false) : Sound (init b) :=
  .parked (parked_init b) rfl hb (.inr rfl) rfl rfl

theorem sound_step {l : Label} {s t : State} (hs : Sound s) (h : step l s = some t) : Sound t := by
  cases hs with
  | running hr hl hc hd =>
    cases l with
    | submit c => exact (not_submit hr.waiting h).elim
    | engine =>
      obtain ⟨t', ht', hc', hd', hcase⟩ := hr.next
      cases ht'.symm.trans h
      rw [← hc'] at hc
      rw [← hd'] at hd
      rcases hcase with ⟨st', back', hr', -, hl'⟩ | ⟨st', hk, hp, -, -, hl'⟩ | ⟨hr', hp, -⟩
      · exact .running hr' (hl'.trans hl) hc hd
      · -- a quiet stack is suspended by the root itself
        rw [hl, eq_comm, Bool.or_eq_false_iff] at hl'
        exact .parked hk (by simpa using hl'.1) hl'.2 (.inl hp) hc hd
      · exact .returned hr' (.inl hp) hc hd
  | @parked st hk ht hl hp hc hd =>
    cases l with
    | submit c =>
      obtain ⟨-, -, hk', -, hp', hc', hd'⟩ := parked_submit hk h
      exact .parked hk' ht hl (by rwa [hp']) (hc'.trans hc) (hd'.trans hd)
    | engine =>
      rcases hp with hp | hp
      · cases (parked_testing hk hp hk.valid.zero_mem).symm.trans h
        exact .parked ⟨hk.heap, hk.valid, hk.place⟩ ht hl (.inr rfl) hc hd
      · rcases parked_place hk with ⟨-, hq⟩ | ⟨-, hq⟩
        · simp [step, State.engineStep, hp, hq] at h
        · obtain ⟨t', ht', hr, hc', hd'⟩ := parked_idle hk hp hq
          cases ht'.symm.trans h
          rw [ht] at hr
          exact .running hr hl (hc'.trans hc) (hd'.trans hd)
  | returned hr hp hc hd =>
    cases l with
    | submit c => exact (not_submit hr.waiting h).elim
    | engine =>
      rcases hp with hp | hp
      · cases (returned_testing hr hp).symm.trans h
        exact .returned ⟨hr.heap, hr.queue, hr.waiting⟩ (.inr rfl) hc hd
      · cases (returned_cleaning hr hp).symm.trans h
        exact .reclaimed rfl hr.queue hr.waiting rfl (by simp [hc]) hd
  | reclaimed hh hq hw hp hc hd =>
    cases l with
    | submit c => exact (not_submit hw h).elim
    | engine => simp [step, State.engineStep, hp, hq] at h

/-- In a completed state without dead tests the root has been reclaimed. -/
theorem Sound.completed {s : State} (hs : Sound s) (hc : Completed s) : s.cleaned = [0] ∧ s.deadDones = 0 := by
  obtain ⟨hidle, hempty, hfinal⟩ := hc
  cases hs with
  | running hr => cases hidle.symm.trans hr.pc
  | parked hk =>
    obtain ⟨f, hf, hlive⟩ := frames_live none hk.valid.zero_mem
    have hf0 : s.heap 0 = some f := by rw [hk.heap, heapOf, hf]
    cases hlive.symm.trans (hfinal f hf0)
  | returned hr hp => rcases hp with hp | hp <;> cases hidle.symm.trans hp
  | reclaimed hh hq hw hp hc hd => exact ⟨hc, hd⟩

section Completion
variable {b : Body} {h : Nat} {st : List (Nat × Body)} {back : Option Nat} {s : State}

private theorem reach_engine {t : State} (hreach : Reachable step (init b) s) (h : s.engineStep = some t) :
    Reachable step (init b) t :=
  Reach.next (l := .engine) hreach trivial h

/-- A suspended coroutine is submitted and resumed. The test between the two finds
a destroyed frame unless the popped handle is still on the stack. -/
private theorem parked_resumes (hreach : Reachable step (init b) s) (hk : Parked st s) (hp : s.pc = .testing h)
    (hq : s.queue = []) :
    ∃ t, Reachable step (init b) t ∧ Running (top st) st none t ∧ s.deadDones ≤ t.deadDones ∧
      (h ∉ st.map Prod.fst → s.deadDones < t.deadDones) := by
  have hw : s.waiting = [top st] := by
    rcases parked_place hk with ⟨hw, -⟩ | ⟨-, hq'⟩
    · exact hw
    · cases hq.symm.trans hq'
  obtain ⟨u, hu, hidle, hk', hwu, hd, hdead⟩ : ∃ u, s.engineStep = some u ∧ u.pc = .idle ∧ Parked st u ∧
      u.waiting = [top st] ∧ s.deadDones ≤ u.deadDones ∧ (h ∉ st.map Prod.fst → s.deadDones < u.deadDones) := by
    by_cases hm : h ∈ st.map Prod.fst
    · exact ⟨_, parked_testing hk hp hm, rfl, ⟨hk.heap, hk.valid, hk.place⟩, hw, Nat.le_refl _, fun hn => absurd hm hn⟩
    · exact ⟨_, parked_testing_dead hk hp hm, rfl, ⟨hk.heap, hk.valid, hk.place⟩, hw, Nat.le_succ _,
        fun _ => Nat.lt_succ_self _⟩
  obtain ⟨v, hv⟩ : ∃ v, step (.submit (top st)) u = some v := by simp [step, hwu]
  obtain ⟨-, -, hkv, hqv, hpv, -, hdv⟩ := parked_submit hk' hv
  obtain ⟨t, ht, hr, -, hdt⟩ := parked_idle hkv (hpv.trans hidle) hqv
  refine ⟨t, reach_engine ((reach_engine hreach hu).next trivial hv) ht, hr, by omega, fun hn => ?_⟩
  have := hdead hn
  omega

private theorem returned_completes (hreach : Reachable step (init b) s) (hr : Returned s) (hp : s.pc = .testing h) :
    ∃ t, Reachable step (init b) t ∧ Completed t ∧ s.deadDones ≤ t.deadDones ∧
      (h ≠ 0 → s.deadDones < t.deadDones) := by
  by_cases hz : h = 0
  · subst hz
    have h1 := reach_engine hreach (returned_testing hr hp)
    have hr' : Returned (s.goto (.cleaning 0)) := ⟨hr.heap, hr.queue, hr.waiting⟩
    refine ⟨_, reach_engine h1 (returned_cleaning hr' rfl), ⟨rfl, hr.queue, ?_⟩, Nat.le_refl _, ?_⟩
    · intro f hf
      cases hf
    · exact fun hne => absurd rfl hne
  · refine ⟨_, reach_engine hreach (returned_testing_dead hr hp hz), ⟨rfl, hr.queue, ?_⟩, ?_, ?_⟩
    · intro f hf
      rw [Option.mem_def, hr.heap, Function.update_self] at hf
      cases hf
      rfl
    · exact Nat.le_succ _
    · exact fun _ => Nat.lt_succ_self _

/-- Every resume leads on to the end of the root. On the way the engine tests a
destroyed frame if the popped handle is not the root's, or if it will be so because
a task under the root suspends. -/
theorem completes (n : Nat) (hreach : Reachable step (init b) s) (hr : Running h st back s)
    (hn : weight st back < n) :
    ∃ t, Reachable step (init b) t ∧ Completed t ∧ s.deadDones ≤ t.deadDones ∧
      (h ≠ 0 ∨ loud st = true → s.deadDones < t.deadDones) := by
  -- the weight of the stack falls at every step of a coroutine
  induction n generalizing s h st back with
  | zero => exact absurd hn (Nat.not_lt_zero _)
  | succ n ih =>
    obtain ⟨t, ht, -, hd, hcase⟩ := hr.next
    have hreach' := reach_engine hreach ht
    rcases hcase with ⟨st', back', hr', hlt, hl⟩ | ⟨st', hk, hp, hq, hlt, hl⟩ | ⟨hr', hp, hl⟩
    · obtain ⟨u, hu, hc, hle, hdead⟩ := ih hreach' hr' (by omega)
      rw [hl, hd] at hdead
      exact ⟨u, hu, hc, by omega, hdead⟩
    · obtain ⟨v, hv, hrv, hle, hgone⟩ := parked_resumes hreach' hk hp hq
      obtain ⟨u, hu, hc, hle', hdead⟩ := ih hv hrv (by omega)
      refine ⟨u, hu, hc, by omega, fun hbad => ?_⟩
      by_cases hbad' : top st' ≠ 0 ∨ loud st' = true
      · have := hdead hbad'
        omega
      · -- the root alone is left, so a popped handle that is not the root's is gone
        have hl' : loud st = false := by
          rw [hl]
          simpa using hbad'
        have hne : h ≠ 0 := by simpa [hl'] using hbad
        rw [hk.valid.ids_of_top (by simpa using (not_or.mp hbad').1)] at hgone
        have := hgone (by simpa using hne)
        omega
    · obtain ⟨u, hu, hc, hle, hdead⟩ := returned_completes hreach' hr' hp
      rw [hd] at hdead
      exact ⟨u, hu, hc, by omega, fun hbad => hdead (by simpa [hl] using hbad)⟩

end Completion

/-- Every root task can be run to its end, and it is reclaimed by the engine exactly
when no task under it suspends. -/
theorem reclaimed_iff (b : Body) :
    (∃ s, Reachable step (init b) s ∧ Completed s) ∧ (Reclaimed b ↔ nestedSuspends b = false) := by
  obtain ⟨s, hs, hr, -, hd⟩ := parked_idle (parked_init b) rfl rfl
  obtain ⟨t, ht, hc, -, hdead⟩ := completes _ (reach_engine .start hs) hr (Nat.lt_succ_self _)
  refine ⟨⟨t, ht, hc⟩, fun hre => ?_, fun hb u hu hcu => ?_⟩
  · by_contra hb
    have := hdead (.inr (eq_true_of_ne_false hb))
    have := (hre t ht hc).2
    omega
  · have hsound : Sound u :=
      hu.invariant Sound (sound_init hb) fun l s t _ hs h => sound_step hs h
    obtain ⟨hcl, hdd⟩ := hsound.completed hcu
    exact ⟨by rw [hcl]; rfl, hdd⟩

def suspendingChild : Body := .call (.suspend .ret) .ret

/-- The child's handle is popped, the child ends and is destroyed inside that resume,
and `done()` is asked of its frame; the root's frame is left. -/
theorem not_reclaimed_suspendingChild : ¬ Reclaimed suspendingChild := by
  intro h
  have hp : (exec step [.engine, .engine, .engine, .engine, .submit 1, .engine, .engine, .engine, .engine, .engine]
      (init suspendingChild)).map (fun s => (s.pc, s.queue, (s.heap 0).map Coroutine.final, s.cleaned, s.deadDones)) =
      some (.idle, [], some true, [], 1) := by
    decide +kernel
  obtain ⟨s, hs, he⟩ := Option.map_eq_some_iff.mp hp
  simp only [Prod.mk.injEq, Option.map_eq_some_iff] at he
  obtain ⟨hpc, hq, ⟨f, hf, hfinal⟩, -, hdead⟩ := he
  have hc : Completed s := ⟨hpc, hq, fun g hg => by rwa [← Option.some.inj (hf.symm.trans hg)]⟩
  cases hdead.symm.trans (h s (Reachable.of_exec _ hs) hc).2

end TinyCoro.Frame.Reclaim
