import TinyCoro.Comp.GatePlaces

/-! The event: a flag that is raised once and for all, with the value of `set`. -/
namespace TinyCoro.Comp.Event
open Transition Gate GatePlaces
variable {W J T O : Type}

/-- `m_is_set` and `m_value`, which is indeterminate until `set` writes it. -/
structure Word (T : Type) where
  isSet : Bool
  value : Option T

def closed : Word T := ⟨false, none⟩

def raise (g : Word T) : Word T := { g with isSet := true }

/-- The writes of `set(value)`; `set()` of `event<>` has no value to write. -/
def stores : Option T → List (Word T → Word T)
  | some v => [fun g => { g with value := some v }, raise]
  | none => [raise]

def set (value : Option T) : Gate.Op (Word T) := ⟨id, fun _ => true, stores value⟩

def kind (arg : O → Option T) : Kind (Word T) O := ⟨Word.isSet, fun o => set (arg o)⟩

def event (T : Type) : Kind (Word T) T := kind some

def eventVoid : Kind (Word Empty) Unit := kind fun _ => none

/-- The writes a call has left come from some `set`. When that is the only one so far
and only the flag is left, its value has been written. -/
def Left (arg : O → Option T) (s : State W J (Word T) O) (l : List (Word T → Word T)) : Prop :=
  ∃ o ∈ s.calls, l = stores (arg o) ∨ (l = [raise] ∧ ∀ v, arg o = some v → s.calls = [o] → s.gate.value = some v)

structure Inv (arg : O → Option T) (s : State W J (Word T) O) : Prop where
  empty : s.gate.isSet = true → s.waiters = [] ∨ ∃ j k, s.call j = .flushing k
  pushing : ∀ i, s.wait i = .pushing → s.gate.isSet = false
  submitting : ∀ i, s.wait i = .submitting ∨ s.wait i = .ready → s.gate.isSet = true
  submitted : s.submitted ≠ [] → s.gate.isSet = true
  flushing : ∀ j k, s.call j = .flushing k → s.gate.isSet = true
  returned : ∀ j, s.call j = .returned → s.gate.isSet = true
  pending : ∀ j l, s.call j = .pending l → ∃ o ∈ s.calls, l = stores (arg o)
  storing : ∀ j l, s.call j = .storing l → Left arg s l
  called : s.gate.isSet = true → s.calls ≠ []
  value : ∀ o v, s.calls = [o] → arg o = some v → s.gate.isSet = true → s.gate.value = some v
  result : ∀ i g, s.result i = some g → s.gate.isSet = true ∧
    ∀ o v, s.calls = [o] → arg o = some v → g.value = some v

theorem inv_init (arg : O → Option T) : Inv arg (init closed : State W J (Word T) O) := by
  constructor <;> simp [init, closed]

variable {arg : O → Option T}

/-- A step that leaves the word and the calls alone. -/
private theorem inv_wait {s t : State W J (Word T) O} (hs : Inv arg s) (hg : t.gate = s.gate)
    (hcall : t.call = s.call) (hcalls : t.calls = s.calls)
    (hw : s.gate.isSet = true → t.waiters = s.waiters)
    (hp : ∀ i, t.wait i = .pushing → s.wait i = .pushing ∨ s.gate.isSet = false)
    (hr : ∀ i, t.wait i = .submitting ∨ t.wait i = .ready →
      (s.wait i = .submitting ∨ s.wait i = .ready) ∨ s.gate.isSet = true)
    (hsub : t.submitted ≠ [] → s.gate.isSet = true)
    (hres : ∀ i g, t.result i = some g → s.result i = some g ∨ (g = s.gate ∧ s.gate.isSet = true)) : Inv arg t := by
  have hleft : ∀ l, Left arg s l → Left arg t l := by
    unfold Left
    rw [hg, hcalls]
    exact fun _ => id
  refine ⟨?_, ?_, ?_, ?_, ?_, ?_, ?_, ?_, ?_, ?_, ?_⟩
  · rw [hg, hcall]
    exact fun h => (hs.empty h).imp_left fun he => (hw h).trans he
  · rw [hg]
    exact fun i hi => (hp i hi).elim (hs.pushing i) id
  · rw [hg]
    exact fun i hi => (hr i hi).elim (hs.submitting i) id
  · rw [hg]
    exact hsub
  · rw [hg, hcall]
    exact hs.flushing
  · rw [hg, hcall]
    exact hs.returned
  · rw [hcall, hcalls]
    exact hs.pending
  · rw [hcall]
    exact fun j l hj => hleft l (hs.storing j l hj)
  · rw [hg, hcalls]
    exact hs.called
  · rw [hg, hcalls]
    exact hs.value
  · rw [hg, hcalls]
    intro i g hi
    rcases hres i g hi with h | ⟨rfl, hset⟩
    · exact hs.result i g h
    · exact ⟨hset, fun o v ho hv => hs.value o v ho hv hset⟩

section Calls
variable [DecidableEq J]

/-- A further call does not touch the word, and there is more than one now. -/
private theorem inv_call {s : State W J (Word T) O} (hs : Inv arg s) {j : J} (o : O) (hc : s.call j = .idle) :
    Inv arg ({ s with calls := s.calls ++ [o] }.setCall j (.pending (stores (arg o)))) := by
  -- the only call so far means that there was none before, and so nothing has happened
  have hnil : ∀ o', s.calls ++ [o] = [o'] → s.calls = [] := by
    intro o' ho
    have := congrArg List.length ho
    simpa using this
  have hnew : ∀ o', s.calls ++ [o] = [o'] → s.gate.isSet ≠ true := fun o' ho hset => hs.called hset (hnil o' ho)
  refine ⟨fun h => ?_, hs.pushing, hs.submitting, hs.submitted, fun j' k hj => ?_, fun j' hj => ?_, fun j' l hj => ?_,
    fun j' l hj => ?_, fun _ => by simp, fun o' v ho _ hset => absurd hset (hnew o' ho), fun i g hi => ?_⟩
  · refine (hs.empty h).imp_right fun ⟨j', k, hj⟩ => ⟨j', k, ?_⟩
    have hne : j' ≠ j := by
      rintro rfl
      rw [hc] at hj
      cases hj
    rwa [State.setCall_call, Function.update_of_ne hne]
  · exact hs.flushing j' k (State.setCall_other hj nofun)
  · exact hs.returned j' (State.setCall_other hj nofun)
  · rcases State.setCall_cases hj with ⟨-, hj⟩ | ⟨-, hj⟩
    · cases hj
      exact ⟨o, by simp, rfl⟩
    · obtain ⟨o', ho, hl⟩ := hs.pending j' l hj
      exact ⟨o', by simp [ho], hl⟩
  · rcases State.setCall_cases hj with ⟨-, hj⟩ | ⟨-, hj⟩
    · cases hj
    · obtain ⟨o', ho, hl⟩ := hs.storing j' l hj
      refine ⟨o', by simp [ho], hl.imp_right fun hl => ⟨hl.1, fun v _ hone => ?_⟩⟩
      rw [hnil o' hone] at ho
      cases ho
  · obtain ⟨hset, -⟩ := hs.result i g hi
    exact ⟨hset, fun o' v ho _ => absurd hset (hnew o' ho)⟩

private theorem inv_enter {s : State W J (Word T) O} (hs : Inv arg s)
    (hfree : ∀ j, GatePlaces.flushing (s.call j) = false) {j : J} {l : List (Word T → Word T)}
    (hc : s.call j = .pending l) : Inv arg ({ s with holder := some (.call j) }.setCall j (.inside l)) := by
  obtain ⟨o, ho, rfl⟩ := hs.pending j l hc
  have hin : CallPc.inside (stores (arg o)) = .storing (stores (arg o)) := by
    cases arg o <;> rfl
  rw [hin]
  refine ⟨fun h => ?_, hs.pushing, hs.submitting, hs.submitted, fun j' k hj => ?_, fun j' hj => ?_, fun j' l hj => ?_,
    fun j' l hj => ?_, hs.called, hs.value, hs.result⟩
  · rcases hs.empty h with he | ⟨j', k, hj⟩
    · exact .inl he
    · have := hfree j'
      rw [hj] at this
      cases this
  · exact hs.flushing j' k (State.setCall_other hj nofun)
  · exact hs.returned j' (State.setCall_other hj nofun)
  · exact hs.pending j' l (State.setCall_other hj nofun)
  · rcases State.setCall_cases hj with ⟨-, hj⟩ | ⟨-, hj⟩
    · cases hj
      exact ⟨o, ho, .inl rfl⟩
    · exact hs.storing j' l hj

/-- The value is written. -/
private theorem inv_write {s : State W J (Word T) O} (hs : Inv arg s) {j : J} {l : List (Word T → Word T)}
    (hc : s.call j = .storing l) (hhold : ∀ j', j' ≠ j → GatePlaces.flushing (s.call j') = false) {o : O} {v : T}
    (ho : o ∈ s.calls) (hv : arg o = some v) :
    Inv arg ({ s with gate := { s.gate with value := some v } }.setCall j (.storing [raise])) := by
  have hone : ∀ o' v', s.calls = [o'] → arg o' = some v' → v = v' := by
    intro o' v' h' hv'
    rw [h', List.mem_singleton] at ho
    subst ho
    exact Option.some.inj (hv.symm.trans hv')
  have hin : ∀ j', GatePlaces.flushing (s.call j') = true → j' = j := by
    intro j' hf
    by_contra hne
    cases (hhold j' hne).symm.trans hf
  refine ⟨fun h => ?_, hs.pushing, hs.submitting, hs.submitted, fun j' k hj => ?_, fun j' hj => ?_, fun j' l hj => ?_,
    fun j' l hj => ?_, hs.called, fun o' v' h' hv' _ => congrArg some (hone o' v' h' hv'), hs.result⟩
  · rcases hs.empty h with he | ⟨j', k, hj⟩
    · exact .inl he
    · obtain rfl := hin j' (by rw [hj]; rfl)
      cases hc.symm.trans hj
  · exact hs.flushing j' k (State.setCall_other hj nofun)
  · exact hs.returned j' (State.setCall_other hj nofun)
  · exact hs.pending j' l (State.setCall_other hj nofun)
  · rcases State.setCall_cases hj with ⟨-, hj⟩ | ⟨hne, hj⟩
    · cases hj
      exact ⟨o, ho, .inr ⟨rfl, fun v' hv' _ => hv.symm.trans hv'⟩⟩
    · exact absurd (hin j' (by rw [hj]; rfl)) hne

/-- The flag is raised. -/
private theorem inv_raise {s : State W J (Word T) O} (hs : Inv arg s) {j : J}
    (hwait : ∀ i, GatePlaces.suspending (s.wait i) = false)
    (hhold : ∀ j', j' ≠ j → GatePlaces.flushing (s.call j') = false) (hne : s.calls ≠ [])
    (hval : ∀ o v, s.calls = [o] → arg o = some v → s.gate.value = some v) :
    Inv arg ({ s with gate := raise s.gate }.setCall j (.flushing 0)) := by
  refine ⟨fun _ => .inr ⟨j, 0, by simp⟩, fun i hi => ?_, fun _ _ => rfl, fun _ => rfl, fun _ _ _ => rfl, fun _ _ => rfl,
    fun j' l hj => ?_, fun j' l hj => ?_, fun _ => hne, fun o v ho hv _ => hval o v ho hv,
    fun i g hi => ⟨rfl, (hs.result i g hi).2⟩⟩
  · have := hwait i
    rw [show s.wait i = .pushing from hi] at this
    cases this
  · exact hs.pending j' l (State.setCall_other hj nofun)
  · rcases State.setCall_cases hj with ⟨-, hj⟩ | ⟨hjj, hj⟩
    · cases hj
    · have := hhold j' hjj
      rw [hj] at this
      cases this

/-- A step inside the loop of submissions, or its end. -/
private theorem inv_flush {s t : State W J (Word T) O} (hs : Inv arg s) {j : J} {p : CallPc (Word T)} {k : Nat}
    (hc : s.call j = .flushing k) (hp : p = .flushing (k + 1) ∨ p = .returned)
    (hcall : t.call = Function.update s.call j p) (hg : t.gate = s.gate) (hcalls : t.calls = s.calls)
    (hwait : t.wait = s.wait) (hres : t.result = s.result) (hw : t.waiters = [] ∨ p = .flushing (k + 1)) :
    Inv arg t := by
  have hset := hs.flushing j k hc
  refine ⟨fun _ => ?_, ?_, ?_, fun _ => hg ▸ hset, fun _ _ _ => hg ▸ hset, fun _ _ => hg ▸ hset,
    fun j' l hj => ?_, fun j' l hj => ?_, ?_, ?_, ?_⟩
  · refine hw.imp_right fun hpk => ⟨j, k + 1, ?_⟩
    rw [hcall, Function.update_self, hpk]
  · rw [hwait, hg]
    exact hs.pushing
  · rw [hwait, hg]
    exact hs.submitting
  · rw [hcall] at hj
    rw [hcalls]
    rcases update_cases hj with ⟨-, hj⟩ | ⟨-, hj⟩
    · rcases hp with rfl | rfl <;> cases hj
    · exact hs.pending j' l hj
  · rw [hcall] at hj
    unfold Left
    rw [hcalls, hg]
    rcases update_cases hj with ⟨-, hj⟩ | ⟨-, hj⟩
    · rcases hp with rfl | rfl <;> cases hj
    · exact hs.storing j' l hj
  · rw [hg, hcalls]
    exact hs.called
  · rw [hg, hcalls]
    exact hs.value
  · rw [hg, hcalls, hres]
    exact hs.result

private theorem inv_store {s : State W J (Word T) O} (hs : Inv arg s) {j : J} {f : Word T → Word T}
    {left : List (Word T → Word T)} (hc : s.call j = .storing (f :: left))
    (hwait : ∀ i, GatePlaces.suspending (s.wait i) = false)
    (hhold : ∀ j', j' ≠ j → GatePlaces.flushing (s.call j') = false) :
    Inv arg ({ s with gate := f s.gate }.setCall j (.inside left)) := by
  obtain ⟨o, ho, hl⟩ := hs.storing j _ hc
  have hne : s.calls ≠ [] := List.ne_nil_of_mem ho
  rcases hl with hl | ⟨hl, hval⟩
  · cases hv : arg o with
    | some v =>
      rw [hv] at hl
      obtain ⟨rfl, rfl⟩ := List.cons.inj hl
      exact inv_write hs hc hhold ho hv
    | none =>
      rw [hv] at hl
      obtain ⟨rfl, rfl⟩ := List.cons.inj hl
      refine inv_raise hs hwait hhold hne fun o' v ho' hv' => ?_
      rw [ho', List.mem_singleton] at ho
      rw [← ho, hv] at hv'
      cases hv'
  · obtain ⟨rfl, rfl⟩ := List.cons.inj hl
    refine inv_raise hs hwait hhold hne fun o' v ho' hv' => ?_
    rw [ho', List.mem_singleton] at ho
    subst ho
    exact hval v hv' ho'

end Calls

theorem Inv.note {s : State W J (Word T) O} (hs : Inv arg s) (K : Kind (Word T) O) : Inv arg (s.note K) :=
  ⟨hs.empty, hs.pushing, hs.submitting, hs.submitted, hs.flushing, hs.returned, hs.pending, hs.storing, hs.called,
    hs.value, hs.result⟩

/-- The flag is up when a wait gets past its `co_await`. -/
theorem Inv.resumable {s : State W J (Word T) O} (hs : Inv arg s) {i : W} (hw : s.wait i = .ready ∨ i ∈ s.submitted) :
    s.gate.isSet = true :=
  hw.elim (fun h => hs.submitting i (.inr h)) fun h => hs.submitted (List.ne_nil_of_mem h)

/-- Neither write of `set` takes the flag down. -/
private theorem Inv.stays_set {s : State W J (Word T) O} (hs : Inv arg s) {j : J} {f : Word T → Word T}
    {left : List (Word T → Word T)} (hc : s.call j = .storing (f :: left)) (hset : s.gate.isSet = true) :
    (f s.gate).isSet = true := by
  obtain ⟨o, -, hl | ⟨hl, -⟩⟩ := hs.storing j _ hc
  · cases hv : arg o with
    | some v =>
      rw [hv] at hl
      obtain ⟨rfl, -⟩ := List.cons.inj hl
      exact hset
    | none =>
      rw [hv] at hl
      obtain ⟨rfl, -⟩ := List.cons.inj hl
      rfl
  · obtain ⟨rfl, -⟩ := List.cons.inj hl
    rfl

/-- The waiters are gone when the flag is up and no `set` is inside its section. -/
theorem Inv.no_waiters {s : State W J (Word T) O} (hs : Inv arg s) (hset : s.gate.isSet = true)
    (hfree : ∀ j, GatePlaces.flushing (s.call j) = false) : s.waiters = [] := by
  rcases hs.empty hset with he | ⟨j, k, hj⟩
  · exact he
  · have := hfree j
    rw [hj] at this
    cases this

variable [DecidableEq W] [DecidableEq J]

theorem inv_steps {l : Label W J O} {s t : State W J (Word T) O} (hp : GatePlaces.Inv s) (hs : Inv arg s)
    (h : Steps (kind arg) s l t) : Inv arg t := by
  cases h with
  | awaitReady i hw =>
    refine inv_wait hs rfl rfl rfl (fun _ => rfl) (fun x hx => ?_) (fun x hx => ?_) hs.submitted fun _ _ => .inl
    · rcases State.setWait_cases hx with ⟨-, hx⟩ | ⟨-, hx⟩
      · split at hx <;> cases hx
      · exact .inl hx
    · by_cases hset : s.gate.isSet = true
      · exact .inr hset
      · simp only [kind, hset, Bool.false_eq_true, if_false] at hx
        exact .inl (State.setWait_either hx (by decide) (by decide))
  | awaitSuspend i hw hh =>
    refine inv_wait hs rfl rfl rfl (fun _ => rfl) (fun x hx => ?_) (fun x hx => ?_) hs.submitted fun _ _ => .inl
    · by_cases hset : s.gate.isSet = true
      · simp only [kind, hset, if_true] at hx
        exact .inl (State.setWait_other hx (by decide))
      · exact .inr (by simpa using hset)
    · by_cases hset : s.gate.isSet = true
      · exact .inr hset
      · simp only [kind, hset, Bool.false_eq_true, if_false] at hx
        exact .inl (State.setWait_either hx (by decide) (by decide))
  | push i hw =>
    refine inv_wait hs rfl rfl rfl (fun hset => ?_) (fun x hx => ?_) (fun x hx => ?_) hs.submitted fun _ _ => .inl
    · cases (hs.pushing i hw).symm.trans hset
    · exact .inl (State.setWait_other hx (by decide))
    · exact .inl (State.setWait_either hx (by decide) (by decide))
  | submitSelf i hw =>
    refine inv_wait hs rfl rfl rfl (fun _ => rfl) (fun x hx => ?_) (fun x hx => ?_)
      (fun _ => hs.submitting i (.inl hw)) fun _ _ => .inl
    · exact .inl (State.setWait_other hx (by decide))
    · exact .inl (State.setWait_either hx (by decide) (by decide))
  | resume i hr hw =>
    refine inv_wait hs rfl rfl rfl (fun _ => rfl) (fun _ => .inl) (fun _ => .inl) hs.submitted fun x g hx => ?_
    rcases update_cases hx with ⟨-, hx⟩ | ⟨-, hx⟩
    · cases hx
      exact .inr ⟨rfl, hs.resumable hw⟩
    · exact .inl hx
  | call j o hc => exact inv_call hs o hc
  | enter j stores hc hh => exact inv_enter hs (hp.free hh).2 hc
  | store j f left hc =>
    obtain ⟨hhold, hwait⟩ := hp.alone (j := j) (by rw [hc]; rfl)
    exact inv_store hs hc hwait hhold
  | submit j k i hc hi => exact inv_flush hs hc (.inl rfl) rfl rfl rfl rfl rfl (.inr rfl)
  | leave j hc => exact inv_flush hs hc (.inr rfl) rfl rfl rfl rfl rfl (.inl rfl)

theorem inv_step {l : Label W J O} {s t : State W J (Word T) O} (hp : GatePlaces.Inv s) (hs : Inv arg s)
    (h : step (kind arg) l s = some t) : Inv arg t := by
  obtain ⟨u, hu, rfl⟩ := step_cases h
  exact (inv_steps hp hs hu).note _

theorem reach_inv {s : State W J (Word T) O} (h : Reachable (step (kind arg)) (init closed) s) : Inv arg s :=
  (h.invariant (fun s => GatePlaces.Inv s ∧ Inv arg s) ⟨GatePlaces.inv_init _, inv_init arg⟩
    fun _ _ _ _ hs ht => ⟨GatePlaces.inv_step hs.1 ht, inv_step hs.1 hs.2 ht⟩).2

/-- Once the flag is up, nobody is stored any more. -/
private theorem stays_empty {l : Label W J O} {s t : State W J (Word T) O} (hs : Inv arg s)
    (hset : s.gate.isSet = true) (he : s.waiters = []) (h : step (kind arg) l s = some t) :
    t.gate.isSet = true ∧ t.waiters = [] := by
  obtain ⟨u, hu, rfl⟩ := step_cases h
  cases hu with
  | push i hw => cases (hs.pushing i hw).symm.trans hset
  | store j f left hc => exact ⟨hs.stays_set hc hset, he⟩
  | leave j hc => exact ⟨hset, rfl⟩
  | awaitReady | awaitSuspend | submitSelf | resume | call | enter | submit => exact ⟨hset, he⟩

/-- Nobody gets past `co_await wait()` before the flag is up, and nobody is submitted
twice. Once a `set` has returned and none is inside its section, whoever is suspended
has been submitted, the stored ones in the order in which they were stored; then
`m_waiters` stays empty. With one call of `set`, every wait returns its value. -/
theorem event_exactly_once (arg : O → Option T) {s : State W J (Word T) O}
    (h : Reachable (step (kind arg)) (init closed) s) :
    (∀ i t, step (kind arg) (.resume i) s = some t → s.gate.isSet = true) ∧
    s.submitted.Nodup ∧
    ((∃ j, s.call j = .returned) → (∀ j, GatePlaces.flushing (s.call j) = false) →
      (∀ i, s.wait i = .suspended → s.submitted.count i = 1) ∧ s.submitted.filter (· ∈ s.stored) = s.stored) ∧
    (s.gate.isSet = true → (∀ j, GatePlaces.flushing (s.call j) = false) →
      ∀ t, Reachable (step (kind arg)) s t → t.waiters = []) ∧
    (∀ o v, s.calls = [o] → arg o = some v → ∀ i g, s.result i = some g → g.value = some v) := by
  have hp := GatePlaces.reach_inv h
  have hs := reach_inv h
  refine ⟨fun i t ht => ?_, hp.nodup, fun ⟨j, hj⟩ hfree => ?_, fun hset hfree t ht => ?_,
    fun o v ho hv i g hi => (hs.result i g hi).2 o v ho hv⟩
  · obtain ⟨u, hu, -⟩ := step_cases ht
    cases hu with
    | resume i hr hw => exact hs.resumable hw
  · have he := hs.no_waiters (hs.returned j hj) hfree
    refine ⟨fun i hi => hp.submitted_once hi (by simp [he]), ?_⟩
    have hord := hp.order
    rwa [he, List.drop_nil, List.append_nil] at hord
  · have hkeep := ht.invariant
      (fun t => GatePlaces.Inv t ∧ Inv arg t ∧ t.gate.isSet = true ∧ t.waiters = [])
      ⟨hp, hs, hset, hs.no_waiters hset hfree⟩ fun _ _ _ _ ⟨hp, hs, hset, he⟩ ht =>
        ⟨GatePlaces.inv_step hp ht, inv_step hp hs ht, stays_empty hs hset he ht⟩
    exact hkeep.2.2.2

/-- One wait is stored before `set`, one has seen the flag down and suspends after it,
one comes after it. -/
def threeWaits : List (Label (Fin 3) (Fin 1) Nat) :=
  [.awaitReady 0, .awaitSuspend 0, .suspendEnd 0, .awaitReady 1, .call 0 7, .enter 0, .store 0, .store 0, .submit 0,
    .leave 0, .awaitSuspend 1, .suspendEnd 1, .awaitReady 2, .resume 2, .resume 0, .resume 1]

theorem event_exactly_once_threeWaits : ∃ s : State (Fin 3) (Fin 1) (Word Nat) Nat,
    Reachable (step (event Nat)) (init closed) s ∧ (∀ i, (s.result i).isSome) ∧ s.submitted.Nodup ∧
    (∀ i, s.wait i = .suspended → s.submitted.count i = 1) ∧ ∀ i g, s.result i = some g → g.value = some 7 := by
  obtain ⟨s, hs⟩ : ∃ s, s ∈ exec (step (event Nat)) threeWaits (init closed) := ⟨_, rfl⟩
  have hr := Reachable.of_exec threeWaits hs
  obtain ⟨-, hn, hdone, -, hval⟩ := event_exactly_once some hr
  cases hs
  exact ⟨_, hr, by decide, hn, (hdone ⟨0, rfl⟩ (by decide)).1, hval 7 7 rfl rfl⟩

end TinyCoro.Comp.Event
