import Mathlib.Data.Fintype.Defs
import TinyCoro.Comp.GatePlaces

/-! Gates whose operations only update the word and flush: `latch` and `wait_group`.
Nobody is left in the vector of a ready gate without a flush on its way to it, and a
wait that is not overtaken by an old flush ends only after the gate has been ready. -/
namespace TinyCoro.Comp.GateOpen
open Transition Gate GatePlaces
variable {W J G O : Type} {K : Kind G O}

/-- Every update that makes the word ready is followed by a flush. -/
def Followed (K : Kind G O) (l : Label W J O) (s : State W J G O) : Prop :=
  ∀ o ∈ l.called, K.isReady ((K.op o).fetch s.gate) = true → (K.op o).flushes s.gate = true

/-- A wait is stored while no flush is on its way, or after a moment with the word ready. -/
def PushedInTime (l : Label W J O) (s : State W J G O) : Prop :=
  ∀ i, l = .suspendEnd i → s.wait i = .pushing → s.opened i = true ∨ ∀ j, active (s.call j) = false

instance [DecidableEq W] [DecidableEq J] [DecidableEq O] [Fintype W] [Fintype J] (l : Label W J O)
    (s : State W J G O) : Decidable (PushedInTime l s) :=
  inferInstanceAs (Decidable (∀ i, l = .suspendEnd i → s.wait i = .pushing → _ ∨ ∀ j, active (s.call j) = false))

def Plain : CallPc G → Prop
  | .pending l => l = []
  | .storing _ => False
  | _ => True

/-- Whoever is stored in a ready gate, or about to be, has a flush to come. -/
def Awaited (K : Kind G O) (s : State W J G O) : Prop :=
  K.isReady s.gate = true → (s.waiters ≠ [] ∨ ∃ i, s.wait i = .pushing) → ∃ j, active (s.call j) = true

variable [DecidableEq J]

private theorem plain_setCall {s : State W J G O} (hs : ∀ j, Plain (s.call j)) {j : J} {p : CallPc G} (hp : Plain p)
    (x : J) : Plain ((s.setCall j p).call x) := by
  by_cases hx : x = j
  · subst hx
    simpa using hp
  · simpa [hx] using hs x

/-- A call that goes on without leaving its section is still a flush to come. -/
private theorem active_setCall {s : State W J G O} {j : J} {p : CallPc G} (hp : active p = true)
    (h : ∃ j, active (s.call j) = true) : ∃ x, active ((s.setCall j p).call x) = true := by
  obtain ⟨x, hx⟩ := h
  by_cases hxj : x = j
  · exact ⟨j, by simpa using hp⟩
  · exact ⟨x, by simpa [hxj] using hx⟩

variable [DecidableEq W]

theorem plain_step (hK : ∀ o, (K.op o).stores = []) {l : Label W J O} {s t : State W J G O}
    (hs : ∀ j, Plain (s.call j)) (h : step K l s = some t) : ∀ j, Plain (t.call j) := by
  obtain ⟨u, hu, rfl⟩ := step_cases h
  cases hu with
  | awaitReady | awaitSuspend | push | submitSelf | resume => exact hs
  | call j o hc =>
    refine plain_setCall hs ?_
    split
    · exact hK o
    · trivial
  | enter j stores hc hh =>
    have hplain := hs j
    rw [hc] at hplain
    obtain rfl : stores = [] := hplain
    exact plain_setCall hs trivial
  | store j f left hc =>
    have hplain := hs j
    rw [hc] at hplain
    exact hplain.elim
  | submit j k i hc hi => exact plain_setCall hs trivial
  | leave j hc => exact plain_setCall hs trivial

theorem reach_plain (hK : ∀ o, (K.op o).stores = []) {ok : Label W J O → State W J G O → Prop} {gate : G}
    {s : State W J G O} (h : Reach (step K) ok (init gate) s) : ∀ j, Plain (s.call j) :=
  h.invariant (fun s => ∀ j, Plain (s.call j)) (by simp [init, Plain]) fun _ _ _ _ => plain_step hK

private theorem awaited_steps {l : Label W J O} {s t : State W J G O} (hp : GatePlaces.Inv s)
    (hplain : ∀ j, Plain (s.call j)) (hs : Awaited K s) (hok : Followed K l s) (h : Steps K s l t) : Awaited K t := by
  intro hr hneed
  cases h with
  | awaitReady i hw =>
    refine hs hr (hneed.imp_right fun ⟨x, hx⟩ => ⟨x, State.setWait_other hx ?_⟩)
    split <;> decide
  | awaitSuspend i hw hh =>
    refine hs hr (hneed.imp_right fun ⟨x, hx⟩ => ⟨x, ?_⟩)
    rw [if_pos (show K.isReady s.gate = true from hr)] at hx
    exact State.setWait_other hx (by decide)
  | push i hw => exact hs hr (.inr ⟨i, hw⟩)
  | submitSelf i hw => exact hs hr (hneed.imp_right fun ⟨x, hx⟩ => ⟨x, State.setWait_other hx (by decide)⟩)
  | resume i _ hw => exact hs hr hneed
  | call j o hc => exact ⟨j, by simp [hok o rfl hr, active]⟩
  | enter j stores hc hh =>
    have hpl := hplain j
    rw [hc] at hpl
    obtain rfl : stores = [] := hpl
    exact active_setCall rfl (hs hr hneed)
  | store j f left hc =>
    have hpl := hplain j
    rw [hc] at hpl
    exact hpl.elim
  | submit j k i hc hi => exact active_setCall rfl (hs hr hneed)
  | leave j hc =>
    -- whoever leaves held the lock, so nobody is between the test and the push
    rcases hneed with h | ⟨i, hi⟩
    · exact absurd rfl h
    · have := (hp.alone (j := j) (by rw [hc]; rfl)).2 i
      rw [show s.wait i = .pushing from hi] at this
      cases this

theorem reach_awaited (hK : ∀ o, (K.op o).stores = []) {ok : Label W J O → State W J G O → Prop} {gate : G}
    {s : State W J G O} (hok : ∀ l s, ok l s → Followed K l s) (h : Reach (step K) ok (init gate) s) :
    Awaited K s := by
  induction h with
  | start => simp [Awaited, init]
  | next hs ho ht ih =>
    obtain ⟨u, hu, rfl⟩ := step_cases ht
    have hu' := awaited_steps (GatePlaces.reach_inv hs) (reach_plain hK hs) ih (hok _ _ ho) hu
    exact hu'

omit [DecidableEq J] in
/-- A ready gate with no flush to come has no waiters, and whoever suspended on it has
been submitted once. -/
theorem Awaited.nobody_left {s : State W J G O} (hs : Awaited K s) (hp : GatePlaces.Inv s)
    (hr : K.isReady s.gate = true) (hno : ∀ j, active (s.call j) = false) :
    s.waiters = [] ∧ (∀ i, s.wait i ≠ .pushing) ∧ ∀ i, s.wait i = .suspended → s.submitted.count i = 1 := by
  have hidle : ¬ (s.waiters ≠ [] ∨ ∃ i, s.wait i = .pushing) := by
    intro h
    obtain ⟨j, hj⟩ := hs hr h
    cases (hno j).symm.trans hj
  rw [not_or, not_not, not_exists] at hidle
  exact ⟨hidle.1, hidle.2, fun i hi => hp.submitted_once hi (by simp [hidle.1])⟩

/-- The word changes with the calls only, and a call is active only from there on. -/
theorem gate_cases {l : Label W J O} {s t : State W J G O} (hs : ∀ j, Plain (s.call j)) (h : step K l s = some t) :
    (∃ j o, l = .call j o ∧ t.gate = (K.op o).fetch s.gate ∧ t.calls = s.calls ++ [o] ∧
      ∀ x, active (t.call x) = true → active (s.call x) = true ∨ (K.op o).flushes s.gate = true) ∨
    (l.called = none ∧ t.gate = s.gate ∧ t.calls = s.calls ∧
      ∀ x, active (t.call x) = true → active (s.call x) = true) := by
  obtain ⟨u, hu, rfl⟩ := step_cases h
  have hset : ∀ (j : J) (p : CallPc G) (x : J), active (Function.update s.call j p x) = true →
      (active p = true → active (s.call j) = true) → active (s.call x) = true := by
    intro j p x hx hp
    by_cases hxj : x = j
    · subst hxj
      rw [Function.update_self] at hx
      exact hp hx
    · rwa [Function.update_of_ne hxj] at hx
  cases hu with
  | awaitReady | awaitSuspend | push | submitSelf | resume => exact .inr ⟨rfl, rfl, rfl, fun _ => id⟩
  | call j o hc =>
    refine .inl ⟨j, o, rfl, rfl, rfl, fun x hx => ?_⟩
    by_cases hf : (K.op o).flushes s.gate = true
    · exact .inr hf
    · rw [if_neg hf] at hx
      exact .inl (hset j _ x hx nofun)
  | enter j stores hc hh => exact .inr ⟨rfl, rfl, rfl, fun x hx => hset j _ x hx fun _ => by rw [hc]; rfl⟩
  | store j f left hc =>
    have hplain := hs j
    rw [hc] at hplain
    exact hplain.elim
  | submit j k i hc hi => exact .inr ⟨rfl, rfl, rfl, fun x hx => hset j _ x hx fun _ => by rw [hc]; rfl⟩
  | leave j hc => exact .inr ⟨rfl, rfl, rfl, fun x hx => hset j _ x hx nofun⟩

structure Opened (s : State W J G O) : Prop where
  stored : ∀ i ∈ s.waiters, s.wait i = .suspended
  passed : ∀ i, s.wait i = .ready ∨ s.wait i = .submitting → s.opened i = true
  submitted : ∀ i ∈ s.submitted, s.opened i = true
  waiters : ∀ i ∈ s.waiters, s.opened i = true ∨ ∀ j, active (s.call j) = false

omit [DecidableEq W] [DecidableEq J] in
theorem opened_init (gate : G) : Opened (init gate : State W J G O) := by
  constructor <;> simp [init]

omit [DecidableEq W] [DecidableEq J] in
theorem note_opened {s : State W J G O} {i : W} (h : s.opened i = true) : (s.note K).opened i = true := by
  simp [h]

omit [DecidableEq W] [DecidableEq J] in
/-- The word is ready now, and the wait has begun. -/
theorem note_ready {s : State W J G O} {i : W} (hw : s.wait i ≠ .fresh) (hr : K.isReady s.gate = true) :
    (s.note K).opened i = true := by
  simp [hw, hr]

omit [DecidableEq W] [DecidableEq J] in
/-- A step that leaves the waiters and the calls alone. -/
private theorem opened_wait {s t : State W J G O} (hs : Opened s) (hop : ∀ i, s.opened i = true → t.opened i = true)
    (hcall : t.call = s.call) (hwait : ∀ i ∈ s.waiters, t.wait i = .suspended) (hwaiters : t.waiters = s.waiters)
    (hp : ∀ i, t.wait i = .ready ∨ t.wait i = .submitting → (s.wait i = .ready ∨ s.wait i = .submitting) ∨ t.opened i = true)
    (hsub : ∀ i ∈ t.submitted, i ∈ s.submitted ∨ t.opened i = true) : Opened t := by
  refine ⟨hwaiters ▸ hwait, fun i hi => ?_, fun i hi => ?_, fun i hi => ?_⟩
  · exact (hp i hi).elim (fun h => hop i (hs.passed i h)) id
  · exact (hsub i hi).elim (fun h => hop i (hs.submitted i h)) id
  · rw [hwaiters] at hi
    rw [hcall]
    exact (hs.waiters i hi).imp_left (hop i)

omit [DecidableEq W] [DecidableEq J] in
theorem note_not_ready {s : State W J G O} (hr : K.isReady s.gate = false) : (s.note K).opened = s.opened := by
  funext i
  rw [State.note_opened, hr, Bool.and_false, Bool.or_false]

/-- The history is up to date after every step. -/
theorem step_noted {l : Label W J O} {s t : State W J G O} (h : step K l s = some t) :
    (∀ i, t.wait i ≠ .fresh → K.isReady t.gate = true → t.opened i = true) ∧
    ∀ i, t.opened i = true → s.opened i = true ∨ K.isReady t.gate = true := by
  obtain ⟨u, hu, rfl⟩ := step_cases h
  refine ⟨fun i hi hr => note_ready hi hr, fun i hi => ?_⟩
  have hop : u.opened = s.opened := by
    cases hu <;> rfl
  simp only [State.note_opened, Bool.or_eq_true, Bool.and_eq_true] at hi
  rw [hop] at hi
  exact hi.imp_right And.right

theorem reach_noted {ok : Label W J O → State W J G O → Prop} {gate : G} {s : State W J G O}
    (h : Reach (step K) ok (init gate) s) : ∀ i, s.wait i ≠ .fresh → K.isReady s.gate = true → s.opened i = true :=
  h.invariant (fun s => ∀ i, s.wait i ≠ .fresh → K.isReady s.gate = true → s.opened i = true) (by simp [init])
    fun _ _ _ _ _ ht => (step_noted ht).1

omit [DecidableEq W] [DecidableEq J] in
private theorem note_passed {s : State W J G O} {i : W} (hw : s.wait i = .ready ∨ s.wait i = .submitting)
    (hr : K.isReady s.gate = true) : (s.note K).opened i = true :=
  note_ready (by rcases hw with hw | hw <;> simp [hw]) hr

omit [DecidableEq J] in
private theorem Opened.stored_update {s : State W J G O} (hs : Opened s) {i x : W} {p : WaitPc}
    (hw : s.wait i ≠ .suspended) (hx : x ∈ s.waiters) : Function.update s.wait i p x = .suspended := by
  have hne : x ≠ i := by
    rintro rfl
    exact hw (hs.stored x hx)
  rw [Function.update_of_ne hne]
  exact hs.stored x hx

omit [DecidableEq W] [DecidableEq J] in
/-- A call inside its section: the stored waits have all seen the word ready. -/
theorem Opened.all_opened {s : State W J G O} (hs : Opened s) {j : J} (hc : active (s.call j) = true) {i : W}
    (hi : i ∈ s.waiters) : s.opened i = true := by
  rcases hs.waiters i hi with h | h
  · exact h
  · cases (h j).symm.trans hc

omit [DecidableEq J] in
/-- A wait tests the word: it goes on as if it were ready only when it is. -/
private theorem opened_test {s : State W J G O} (hs : Opened s) {i : W} {p q : WaitPc} {o : Option (Party W J)}
    (hw : s.wait i ≠ .suspended) (hq : q ≠ .ready) (hq' : q ≠ .submitting) :
    Opened (({ s with holder := o }.setWait i (if K.isReady s.gate then p else q)).note K) := by
  refine opened_wait hs (fun _ h => note_opened h) rfl (fun x hx => ?_) rfl (fun x hx => ?_) fun _ => .inl
  · exact hs.stored_update hw hx
  · by_cases hr : K.isReady s.gate = true
    · exact .inr (note_passed hx hr)
    · rw [if_neg hr] at hx
      exact .inl (State.setWait_either hx hq hq')

private theorem opened_steps (hK : ∀ o g, (K.op o).flushes g = true → K.isReady ((K.op o).fetch g) = true)
    {l : Label W J O} {s u : State W J G O} (hs : Opened s) (hok : PushedInTime l s) (h : Steps K s l u) :
    Opened (u.note K) := by
  cases h with
  | awaitReady i hw => exact opened_test hs (by simp [hw]) (by decide) (by decide)
  | awaitSuspend i hw hh => exact opened_test hs (by simp [hw]) (by decide) (by decide)
  | push i hw =>
    refine ⟨fun x hx => ?_, fun x hx => ?_, fun x hx => note_opened (hs.submitted x hx), fun x hx => ?_⟩
    · by_cases hxi : x = i
      · simp [hxi]
      · simp only [State.note_waiters, State.setWait_waiters, List.mem_append, List.mem_singleton, hxi, or_false] at hx
        simpa [hxi] using hs.stored x hx
    · exact note_opened (hs.passed x (State.setWait_either hx (by decide) (by decide)))
    · rcases List.mem_append.mp hx with hx | hx
      · exact (hs.waiters x hx).imp_left note_opened
      · rw [List.mem_singleton.mp hx]
        exact (hok i rfl hw).imp_left note_opened
  | submitSelf i hw =>
    refine opened_wait hs (fun _ h => note_opened h) rfl (fun x hx => ?_) rfl (fun x hx => ?_) fun x hx => ?_
    · by_cases hxi : x = i
      · simp [hxi]
      · simpa [hxi] using hs.stored x hx
    · exact .inl (State.setWait_either hx (by decide) (by decide))
    · refine (List.mem_append.mp hx).imp_right fun hx => ?_
      rw [List.mem_singleton.mp hx]
      exact note_opened (hs.passed i (.inr hw))
  | resume i hr hw =>
    exact opened_wait hs (fun _ h => note_opened h) rfl hs.stored rfl (fun _ => .inl) fun _ => .inl
  | call j o hc =>
    refine ⟨hs.stored, fun x hx => note_opened (hs.passed x hx), fun x hx => note_opened (hs.submitted x hx),
      fun x hx => ?_⟩
    by_cases hf : (K.op o).flushes s.gate = true
    · refine .inl (note_ready (fun hw => ?_) (hK o s.gate hf))
      cases (hs.stored x hx).symm.trans hw
    · refine (hs.waiters x hx).imp note_opened fun hno y => ?_
      rw [if_neg hf]
      by_cases hy : y = j
      · simp [hy, active]
      · simpa [hy] using hno y
  | enter j stores hc hh =>
    exact ⟨hs.stored, fun x hx => note_opened (hs.passed x hx), fun x hx => note_opened (hs.submitted x hx),
      fun x hx => .inl (note_opened (hs.all_opened (j := j) (by rw [hc]; rfl) hx))⟩
  | store j f left hc =>
    exact ⟨hs.stored, fun x hx => note_opened (hs.passed x hx), fun x hx => note_opened (hs.submitted x hx),
      fun x hx => .inl (note_opened (hs.all_opened (j := j) (by rw [hc]; rfl) hx))⟩
  | submit j k i hc hi =>
    have hall := fun x => hs.all_opened (i := x) (j := j) (by rw [hc]; rfl)
    refine ⟨hs.stored, fun x hx => note_opened (hs.passed x hx), fun x hx => ?_,
      fun x hx => .inl (note_opened (hall x hx))⟩
    rcases List.mem_append.mp hx with hx | hx
    · exact note_opened (hs.submitted x hx)
    · rw [List.mem_singleton.mp hx]
      exact note_opened (hall i (List.mem_of_getElem? hi))
  | leave j hc =>
    exact ⟨nofun, fun x hx => note_opened (hs.passed x hx), fun x hx => note_opened (hs.submitted x hx), nofun⟩

theorem opened_step (hK : ∀ o g, (K.op o).flushes g = true → K.isReady ((K.op o).fetch g) = true)
    {l : Label W J O} {s t : State W J G O} (hs : Opened s) (hok : PushedInTime l s) (h : step K l s = some t) :
    Opened t := by
  obtain ⟨u, hu, rfl⟩ := step_cases h
  exact opened_steps hK hs hok hu

/-- Whoever gets past its `co_await` has seen the word ready. -/
theorem Opened.resumed {s t : State W J G O} (hs : Opened s) {i : W} (h : step K (.resume i) s = some t) :
    s.opened i = true := by
  obtain ⟨u, hu, -⟩ := step_cases h
  cases hu with
  | resume i hr hw => exact hw.elim (fun h => hs.passed i (.inl h)) (hs.submitted i)

/-- Nobody is resumed before its handle is submitted or its `await_ready` has said so. -/
theorem reach_result {ok : Label W J O → State W J G O → Prop} {gate : G} {s : State W J G O}
    (h : Reach (step K) ok (init gate) s) : ∀ i, s.result i ≠ none → s.wait i = .ready ∨ i ∈ s.submitted := by
  refine h.invariant (fun s => ∀ i, s.result i ≠ none → s.wait i = .ready ∨ i ∈ s.submitted) (by simp [init]) ?_
  intro l s t _ hs ht
  obtain ⟨u, hu, rfl⟩ := step_cases ht
  have hset : ∀ (i : W) (p : WaitPc) (x : W), s.wait i ≠ .ready → s.wait x = .ready →
      Function.update s.wait i p x = .ready := by
    intro i p x hi hx
    rwa [Function.update_of_ne (by rintro rfl; exact hi hx)]
  cases hu with
  | awaitReady i hw => exact fun x hx => (hs x hx).imp_left (hset i _ x (by simp [hw]))
  | awaitSuspend i hw hh => exact fun x hx => (hs x hx).imp_left (hset i _ x (by simp [hw]))
  | push i hw => exact fun x hx => (hs x hx).imp_left (hset i _ x (by simp [hw]))
  | submitSelf i hw => exact fun x hx => (hs x hx).imp (hset i _ x (by simp [hw])) (List.mem_append_left _)
  | resume i hr hw =>
    intro x hx
    by_cases hxi : x = i
    · rwa [hxi]
    · exact hs x (by simpa [hxi] using hx)
  | submit j k i hc hi => exact fun x hx => (hs x hx).imp_right (List.mem_append_left _)
  | call | enter | store | leave => exact hs

/-- A call inside its section can submit all that is stored. -/
private theorem submit_run (n : Nat) {s : State W J G O} {j : J} {k : Nat} (hc : s.call j = .flushing k)
    (hn : k + n = s.waiters.length) (hr : K.isReady s.gate = false) :
    ∃ t, Reach (step K) (fun l _ => l.called = none) s t ∧ t.submitted = s.submitted ++ s.waiters.drop k ∧
      t.result = s.result ∧ t.opened = s.opened := by
  induction n generalizing s k with
  | zero =>
    refine ⟨s, .start, ?_, rfl, rfl⟩
    rw [List.drop_of_length_le (by omega), List.append_nil]
  | succ n ih =>
    have hk : k < s.waiters.length := by omega
    let u := (State.setCall j (.flushing (k + 1)) { s with submitted := s.submitted ++ [s.waiters[k]] }).note K
    have hu : step K (.submit j) s = some u := by
      simp [step, move, hc, hk, u]
    have hop : u.opened = s.opened :=
      note_not_ready (s := State.setCall j (.flushing (k + 1)) { s with submitted := s.submitted ++ [s.waiters[k]] }) hr
    have hlen : k + 1 + n = u.waiters.length := by
      change k + 1 + n = s.waiters.length
      omega
    obtain ⟨t, ht, hsub, hres, hopen⟩ := ih (s := u) (k := k + 1) (Function.update_self ..) hlen hr
    refine ⟨t, ?_, ?_, hres, hopen.trans hop⟩
    · exact Reach.trans (.next .start rfl hu) ht
    · rw [hsub, List.drop_eq_getElem_cons hk]
      exact List.append_assoc ..

/-- A flush on its way to a free lock can submit all that is stored. -/
theorem flush_run {s : State W J G O} {j : J} (hc : s.call j = .pending []) (hh : s.holder = none)
    (hr : K.isReady s.gate = false) :
    ∃ t, Reach (step K) (fun l _ => l.called = none) s t ∧ t.submitted = s.submitted ++ s.waiters ∧
      t.result = s.result ∧ t.opened = s.opened := by
  let u := (State.setCall j (.flushing 0) { s with holder := some (.call j) }).note K
  have hu : step K (.enter j) s = some u := by
    simp only [step, move, hc, hh]
    rfl
  have hop : u.opened = s.opened :=
    note_not_ready (s := State.setCall j (.flushing 0) { s with holder := some (.call j) }) hr
  obtain ⟨t, ht, hsub, hres, hopen⟩ := submit_run (K := K) s.waiters.length (s := u) (j := j) (k := 0)
    (Function.update_self ..) (Nat.zero_add _) hr
  exact ⟨t, Reach.trans (.next .start rfl hu) ht, hsub, hres, hopen.trans hop⟩

end TinyCoro.Comp.GateOpen
