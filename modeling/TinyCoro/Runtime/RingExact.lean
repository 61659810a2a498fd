import TinyCoro.Runtime.RingCount

/-! The counters of an engine while `io_uring_submit` accepts all it is given, and what
becomes of them when it does not: `poll_submit` does not look at its answer. -/
namespace TinyCoro.Runtime.Ring
open State Transition

def AcceptsAll (l : Label) (s : State) : Prop := ∀ res, l = .accept res → res = s.sq.length

instance (l : Label) (s : State) : Decidable (AcceptsAll l s) :=
  match l with
  | .accept res => decidable_of_iff (res = s.sq.length) (by simp [AcceptsAll])
  | .request _ | .poll | .step | .complete _ _ | .write => isTrue nofun

/-- The one counter is the number of entries the kernel has not accepted, the other the
number of accepted requests whose completion is still to be handled. -/
def CountersExact (s : State) : Prop :=
  s.ioSubmitCount = s.sq.length ∧ s.ioRunningCount = s.kernel.length + s.cq.length

structure Prepared (s : State) : Prop where
  count : accepted s.pc = false → s.ioSubmitCount = s.sq.length
  taken : accepted s.pc = true → s.sq = []

theorem prepared_step {cfg : Config} {l : Label} {s t : State} (hk : Kept s) (hs : Prepared s) (ho : AcceptsAll l s)
    (h : step cfg l s = some t) : Prepared t := by
  obtain ⟨hcount, htaken⟩ := hs
  cases step_cases h with
  | request q hp h =>
    simp only [hp] at hcount
    refine ⟨fun _ => ?_, by simp [hp, accepted]⟩
    simp [hcount rfl]
  | addRunning n hp =>
    simp only [hp] at htaken
    exact ⟨nofun, fun _ => htaken rfl⟩
  | subSubmit n hp =>
    simp only [hp] at htaken
    have hn := (hk.loaded n (by rw [hp]; rfl)).1
    exact ⟨fun _ => by simp [htaken rfl, hn], nofun⟩
  | accept n res hp h =>
    obtain rfl := ho res rfl
    exact ⟨nofun, fun _ => by simp⟩
  | complete | write => exact ⟨hcount, htaken⟩
  | _ =>
    have hp : s.pc = _ := ‹s.pc = _›
    simp only [hp] at hcount
    exact ⟨fun _ => hcount rfl, nofun⟩

theorem reach_prepared {cfg : Config} {s : State} (h : Reach (step cfg) AcceptsAll init s) : Prepared s := by
  have hs := h.invariant (fun s => Kept s ∧ Prepared s) ⟨kept_init, fun _ => rfl, nofun⟩
    fun _ _ _ ho hs ht => ⟨kept_step hs.1 ht, prepared_step hs.1 hs.2 ho ht⟩
  exact hs.2

theorem Prepared.exact {s : State} (hs : Prepared s) (hk : Kept s) (hp : s.pc = .idle) : CountersExact s := by
  have hsub := hs.count (by rw [hp]; rfl)
  have ht := hk.total
  simp only [hp, slack, outstanding, called, List.drop_zero, List.length_append, List.length_map] at ht
  exact ⟨hsub, by omega⟩

/-- `empty_io()` is true only when every callback has been called. -/
theorem emptyIo_called {s : State} (hk : Kept s) (he : s.emptyIo = true) {i : Nat} (hi : i < s.next) :
    i ∈ s.calls.map Cqe.request := by
  simp only [emptyIo, Bool.and_eq_true, decide_eq_true_eq] at he
  have hcount : (tickets s).count ≤ 0 := by
    simp only [Ring.tickets, he]
    omega
  have hone := hk.tickets.count_closed hcount (k := i) hi
  simp only [Ring.tickets, Multiset.coe_count] at hone
  exact List.count_pos_iff.mp (by omega)

/-- While the kernel accepts all it is given, every entry that is consumed has led to one
call of its own request's callback with its own `res`, no callback is called twice, and
between two calls of `poll_submit` the counters are exact; neither ever wraps. -/
theorem io_exactly_once (cfg : Config) {s : State} (h : Reach (step cfg) AcceptsAll init s) :
    (s.calls.map Cqe.request ++ outstanding s).Perm (List.range s.next) ∧
    (∀ c ∈ s.calls, s.result c.request = some ((s.request c.request).callback c.res)) ∧
    s.submitted = s.calls.map Cqe.request ∧ s.posted = s.consumed ++ s.cq ∧
    (s.emptyIo = true → ∀ i < s.next, i ∈ s.calls.map Cqe.request) ∧
    (s.pc = .idle → s.calls = s.consumed ∧ CountersExact s ∧
      outstanding s = s.sq ++ s.kernel ++ s.cq.map Cqe.request ∧
      (s.emptyIo = true ↔ ∀ i < s.next, i ∈ s.calls.map Cqe.request)) ∧
    (∀ n, s.pc = .subSubmit n → n ≤ s.ioSubmitCount) ∧ (∀ n, s.pc = .subRunning n → n ≤ s.ioRunningCount) := by
  have hk := reachable_kept h.reachable
  refine ⟨hk.perm, hk.result, hk.submitted, hk.posted, fun he i hi => emptyIo_called hk he hi, fun hp => ?_,
    fun n hp => (hk.loaded n (by rw [hp]; rfl)).1.ge, fun n hp => hk.running hp⟩
  have hexact := (reach_prepared h).exact hk hp
  have hcalls := hk.calls
  simp only [hp] at hcalls
  have hout : outstanding s = s.sq ++ s.kernel ++ s.cq.map Cqe.request := by simp [outstanding, hp, called]
  refine ⟨hcalls, hexact, hout, fun he i hi => emptyIo_called hk he hi, fun hall => ?_⟩
  -- a request without a callback would be issued twice
  have hnil : outstanding s = [] := by
    refine List.eq_nil_iff_forall_not_mem.mpr fun i hi => ?_
    have hi' := hall i (List.mem_range.mp (hk.perm.mem_iff.mp (List.mem_append_right _ hi)))
    exact (List.nodup_append.mp hk.nodup).2.2 i hi' i hi rfl
  rw [hout, List.append_eq_nil_iff, List.append_eq_nil_iff, List.map_eq_nil_iff] at hnil
  simp [emptyIo, hexact.1, hexact.2, hnil]

/-- Two requests, of which the second completes first, and a third one made before both
completions are handled. -/
def twoAndOne : List Label :=
  [.request .nop, .request (.tcpConnect 7), .poll, .accept 2, .step, .step, .complete 1 0, .step, .step, .step,
    .complete 0 5, .step, .step, .step, .request .tcpRead, .poll, .accept 1, .step, .step, .step, .step, .step, .step]

theorem io_exactly_once_twoAndOne : ∃ s, Reach (step ⟨4, 8⟩) AcceptsAll init s ∧ s.pc = .callback 1 1 ∧
    s.calls = [⟨1, 0⟩, ⟨0, 5⟩] ∧ s.submitted = s.calls.map Cqe.request ∧ s.result 1 = some 7 ∧
    (s.calls.map Cqe.request ++ outstanding s).Perm (List.range s.next) := by
  obtain ⟨s, hs⟩ : ∃ s, s ∈ exec (step ⟨4, 8⟩) twoAndOne init := ⟨_, rfl⟩
  have hr := Reach.exec .start (by decide : Along (step ⟨4, 8⟩) AcceptsAll twoAndOne init) hs
  obtain ⟨hperm, hres, hsub, -⟩ := io_exactly_once ⟨4, 8⟩ hr
  cases hs
  exact ⟨_, hr, rfl, rfl, hsub, rfl, hperm⟩

/-! What the kernel does not accept. -/

def isRequest : Label → Bool
  | .request _ => true
  | _ => false

structure Lost (s : State) : Prop where
  left : s.sq ≠ []
  submit : ∀ n, s.pc ≠ .submit n
  zero : accepted s.pc = false → s.ioSubmitCount = 0

/-- Nothing but a new request makes `poll_submit` submit again. -/
theorem lost_step {cfg : Config} {l : Label} {s t : State} (hk : Kept s) (hs : Lost s) (hl : isRequest l = false)
    (h : step cfg l s = some t) : Lost t := by
  obtain ⟨hleft, hsubmit, hzero⟩ := hs
  cases step_cases h with
  | request q hp h => cases hl
  | poll hp h =>
    have := hzero (by rw [hp]; rfl)
    omega
  | addRunning n hp => exact ⟨hleft, nofun, nofun⟩
  | subSubmit n hp =>
    have hn := (hk.loaded n (by rw [hp]; rfl)).1
    exact ⟨hleft, nofun, fun _ => by simp [hn]⟩
  | accept n res hp h => exact absurd hp (hsubmit n)
  | complete | write => exact ⟨hleft, hsubmit, hzero⟩
  | _ =>
    have hp : s.pc = _ := ‹s.pc = _›
    simp only [hp] at hzero
    exact ⟨hleft, nofun, fun _ => hzero rfl⟩

/-- In every run in which `io_uring_submit` always accepts all it is given, the counters
are exact between two calls of `poll_submit`. An answer that leaves some of it makes them
wrong from the end of this `poll_submit` on, until another request is made. -/
theorem prepared_not_forgotten (cfg : Config) :
    (∀ s, Reach (step cfg) AcceptsAll init s → s.pc = .idle → CountersExact s) ∧
    (∀ s res t, Reachable (step cfg) init s → ¬ AcceptsAll (.accept res) s → step cfg (.accept res) s = some t →
      ∀ u, Reach (step cfg) (fun l _ => isRequest l = false) t u → u.pc = .idle →
        u.ioSubmitCount = 0 ∧ u.sq ≠ [] ∧ ¬ CountersExact u) := by
  refine ⟨fun s h hp => (reach_prepared h).exact (reachable_kept h.reachable) hp, ?_⟩
  intro s res t hs hpart ht u hu hp
  have hlost : Lost t := by
    cases step_cases ht with
    | accept n res hp h =>
      refine ⟨fun hnil => hpart ?_, nofun, nofun⟩
      rintro res' ⟨⟩
      have hk := reachable_kept hs
      have hload := hk.loaded n (by rw [hp]; rfl)
      have hprep := hk.prepared (by rw [hp]; rfl)
      have hall := List.drop_eq_nil_iff.mp hnil
      omega
  have hkept : Kept t := kept_step (reachable_kept hs) ht
  have hu' := hu.invariant (fun s => Kept s ∧ Lost s) ⟨hkept, hlost⟩
    fun _ _ _ hl hs h => ⟨kept_step hs.1 h, lost_step hs.1 hs.2 hl h⟩
  have hzero := hu'.2.zero (by rw [hp]; rfl)
  refine ⟨hzero, hu'.2.left, fun hexact => hu'.2.left ?_⟩
  exact List.length_eq_zero_iff.mp (hexact.1 ▸ hzero)

theorem prepared_not_forgotten_one : ∃ s, Reach (step ⟨4, 8⟩) AcceptsAll init s ∧ s.kernel = [0] ∧ CountersExact s := by
  obtain ⟨s, hs⟩ : ∃ s, s ∈ exec (step ⟨4, 8⟩) [.request .nop, .poll, .accept 1, .step, .step, .step, .step] init :=
    ⟨_, rfl⟩
  have hr := Reach.exec .start (by decide : Along (step ⟨4, 8⟩) AcceptsAll _ init) hs
  have hexact := (prepared_not_forgotten ⟨4, 8⟩).1 s hr (by cases hs; rfl)
  cases hs
  exact ⟨_, hr, rfl, hexact⟩

/-- Two requests are prepared, and `io_uring_submit` accepts one. -/
theorem prepared_forgotten_partial : ¬ ∀ s, Reachable (step ⟨4, 8⟩) init s → s.pc = .idle → CountersExact s := by
  intro h
  have hp : exec (step ⟨4, 8⟩) [.request .nop, .request .nop, .poll, .accept 1, .step, .step, .step, .step] init =
      some _ := rfl
  cases (h _ (Reachable.of_exec _ hp) rfl).1

end TinyCoro.Runtime.Ring
