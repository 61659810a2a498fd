import TinyCoro.Comp.PcMoves

/-! What a coroutine that gets past `wait(mtx, cond)` may rely on: the predicate
is tested by the notifier, and not again when the mutex is granted. -/
namespace TinyCoro.Comp.PredicateWait
open Transition CondVar HandlePlaces NotifyPlaces PcMoves
variable {C M V D : Type}

def waitPred : Pc C M V D → Option (M × (D → Bool))
  | .queued (.wait _ m (some p)) => some (m, p)
  | .picked _ m (some p) => some (m, p)
  | .submitted (.wait _ m (some p)) => some (m, p)
  | _ => none

/-- The mutex and the predicate of the `wait(mtx, cond)` that completes with this
step, through `await_ready` or on being resumed. -/
def completes (l : C × Op M V D) (s : State C M V D) : Option (M × (D → Bool)) :=
  match l.2, s.pc l.1 with
  | .waitReady _ m (some p), .running => if p (s.shared m) then some (m, p) else none
  | .resume, .submitted (.wait _ m (some p)) => some (m, p)
  | _, _ => none

/-- The coroutine that completes a predicate wait owns the mutex, and the predicate holds. -/
def WaitPost (l : C × Op M V D) (s t : State C M V D) : Prop :=
  ∀ q ∈ completes l s, l.1 ∈ t.owners q.1 ∧ q.2 (t.shared q.1) = true

/-- The mutex is granted to a woken waiter only while its predicate holds. -/
def StillMet (l : C × Op M V D) (s : State C M V D) : Prop :=
  ∀ h ∈ grantee l s, ∀ q ∈ waitPred (s.pc h), q.2 (s.shared q.1) = true

instance (l : C × Op M V D) (s : State C M V D) : Decidable (StillMet l s) :=
  inferInstanceAs (Decidable (∀ h ∈ grantee l s, ∀ q ∈ waitPred (s.pc h), q.2 (s.shared q.1) = true))

def Granted (s : State C M V D) : Prop :=
  ∀ c v m p, s.pc c = .submitted (.wait v m (some p)) → p (s.shared m) = true

private theorem waitPred_queued {a : Await M V D} {m : M} {p : D → Bool}
    (h : (m, p) ∈ waitPred (.queued a : Pc C M V D)) : ∃ v, a = .wait v m (some p) := by
  unfold waitPred at h
  split at h <;> simp_all

private theorem waitPred_picked {v : V} {m m' : M} {cond : Cond D} {p : D → Bool}
    (h : (m, p) ∈ waitPred (.picked v m' cond : Pc C M V D)) : ∃ v', Await.wait v m' cond = .wait v' m (some p) := by
  cases cond with
  | none => cases h
  | some p' =>
    cases h
    exact ⟨v, rfl⟩

variable [DecidableEq C] [DecidableEq M] [DecidableEq V]

/-- Nobody else can change the data while a coroutine that was granted the mutex waits to be resumed. -/
private theorem submitted_shared {l : C × Op M V D} {s t : State C M V D} (hs : Inv s) (h : step l s = some t)
    {c : C} {a : Await M V D} (hp : s.pc c = .submitted a) (hc : c ≠ l.1) : t.shared a.mtx = s.shared a.mtx := by
  rcases step_shared h a.mtx with he | ⟨ho, _⟩
  · exact he
  · have hm := hs.owner c a.mtx (by rw [hp]; rfl)
    rw [((hs.mutex a.mtx).of_mem ho).2, List.mem_singleton] at hm
    exact absurd hm hc

private theorem grantee_shared {l : C × Op M V D} {s t : State C M V D} (h : step l s = some t) {c : C}
    (hc : grantee l s = some c) (m : M) : t.shared m = s.shared m := by
  rcases step_shared h m with he | ⟨_, f, hf⟩
  · exact he
  · simp [grantee, hf] at hc

private theorem granted_step {l : C × Op M V D} {s t : State C M V D} (hs : Inv s) (hg : Granted s)
    (ho : StillMet l s) (h : step l s = some t) : Granted t := by
  intro c v m p hp
  obtain ⟨d, op⟩ := l
  by_cases hc : c = d
  · have hm := step_self hs h
    rw [← hc, hp] at hm
    generalize s.pc c = q at hm
    cases hm
  · have hm := step_other hs h hc
    rw [hp] at hm
    generalize hq : s.pc c = q at hm
    cases hm with
    | stay =>
      have he : t.shared m = s.shared m := submitted_shared hs h hq hc
      rw [he]
      exact hg c v m p hq
    | grant _ hgr =>
      rw [grantee_shared h hgr]
      exact ho c hgr (m, p) (by rw [hq]; rfl)
    | take _ _ _ hgr =>
      rw [grantee_shared h hgr]
      exact ho c hgr (m, p) (by rw [hq]; rfl)

private theorem reach_granted {shared : M → D} {s : State C M V D} (h : Reach step StillMet (init shared) s) :
    Granted s := by
  have h0 : Granted (init shared : State C M V D) := fun _ _ _ _ hp => nomatch hp
  refine (h.invariant (fun s => Inv s ∧ Granted s) ⟨inv_init shared, h0⟩ ?_).2
  rintro l s t ho ⟨hs, hg⟩ ht
  exact ⟨inv_step hs ht, granted_step hs hg ho ht⟩

/-- A completed predicate wait finds the mutex owned and the predicate as it was at the grant. -/
private theorem waitPost_of_granted {l : C × Op M V D} {s t : State C M V D} (hs : Inv s) (hg : Granted s)
    (h : step l s = some t) : WaitPost l s t := by
  rintro ⟨m, p⟩ hq
  obtain ⟨c, op⟩ := l
  simp only [completes, Option.mem_def] at hq
  split at hq
  · rename_i v m' p' hp
    split at hq
    · rename_i hm
      cases hq
      simp only [step, hp] at h
      split at h
      · rename_i ho
        cases h
        simp [Cond.met, hm, ho]
      · cases h
    · cases hq
  · rename_i v m' p' hp
    cases hq
    simp only [step, hp, Option.some.injEq] at h
    rw [← h]
    exact ⟨hs.owner c m (by rw [hp]; rfl), hg c v m p hp⟩
  · cases hq

/-- A grant made while the predicate fails lets the waiter complete with it failing. -/
private theorem unmet_completes {l : C × Op M V D} {s t : State C M V D} (hs : Inv s) (h : step l s = some t)
    (ho : ¬ StillMet l s) : ∃ c u, step (c, .resume) t = some u ∧ ¬ WaitPost (c, .resume) t u := by
  simp only [StillMet, not_forall] at ho
  obtain ⟨c, hc, ⟨m, p⟩, hq, hf⟩ := ho
  obtain ⟨a, hta, hsa⟩ := grantee_submitted hs h hc
  have ha : ∃ v, a = .wait v m (some p) := by
    rcases hsa with hsa | ⟨v, m', cond, hsa, rfl⟩
    · rw [hsa] at hq
      exact waitPred_queued hq
    · rw [hsa] at hq
      exact waitPred_picked hq
  obtain ⟨v, rfl⟩ := ha
  refine ⟨c, t.goto c .running, by simp [step, hta], fun hw => hf ?_⟩
  have := (hw (m, p) (by simp [completes, hta])).2
  rw [← grantee_shared h hc m]
  exact this

/-- In every run whose grants are all made while the predicate of the woken waiter
holds, a completed predicate wait owns the mutex and finds its predicate true; a
grant made otherwise in any run lets its waiter complete with the predicate false. -/
theorem predicate_wait_post (shared : M → D) :
    (∀ s : State C M V D, Reach step StillMet (init shared) s → ∀ l t, step l s = some t → WaitPost l s t) ∧
    (∀ s : State C M V D, Reachable step (init shared) s → ∀ l t, step l s = some t → ¬ StillMet l s →
      ∃ c u, step (c, .resume) t = some u ∧ ¬ WaitPost (c, .resume) t u) :=
  ⟨fun _ hs _ _ ht => waitPost_of_granted (reachable_inv hs.reachable) (reach_granted hs) ht,
    fun _ hs _ _ ht ho => unmet_completes (reachable_inv hs) ht ho⟩

def oneConsumer : List (Fin 3 × Op Unit Unit Nat) :=
  [(0, .lockReady ()), (0, .waitReady () () (some (0 < ·))), (0, .waitUnlock), (0, .waitPush),
    (2, .lockReady ()), (2, .write () fun _ => 1), (2, .notifyAll ()), (2, .notifyNext), (2, .notifyEnqueue),
    (2, .notifyNext), (2, .unlock ())]

theorem predicate_wait_post_oneConsumer : ∃ s t : State (Fin 3) Unit Unit Nat,
    Reach step StillMet (init fun _ => 0) s ∧ step (0, .resume) s = some t ∧
    (completes (0, .resume) s).isSome ∧ WaitPost (0, .resume) s t := by
  obtain ⟨s, hs⟩ : ∃ s, s ∈ exec step oneConsumer (init fun _ => 0) := ⟨_, rfl⟩
  have hr := Reach.exec .start (by decide : Along step StillMet oneConsumer (init fun _ => 0)) hs
  cases hs
  exact ⟨_, _, hr, rfl, rfl, (predicate_wait_post fun _ => 0).1 _ hr _ _ rfl⟩

/-- Two consumers wait for an item and one notification wakes both; the first
that is granted the mutex takes the item and unlocks. -/
def twoConsumers : List (Fin 3 × Op Unit Unit Nat) :=
  [(0, .lockReady ()), (0, .waitReady () () (some (0 < ·))), (0, .waitUnlock), (0, .waitPush),
    (1, .lockReady ()), (1, .waitReady () () (some (0 < ·))), (1, .waitUnlock), (1, .waitPush),
    (2, .lockReady ()), (2, .write () fun _ => 1), (2, .notifyAll ()), (2, .notifyNext), (2, .notifyEnqueue),
    (2, .notifyNext), (2, .notifyEnqueue), (2, .notifyNext), (2, .unlock ()),
    (0, .resume), (0, .write () fun _ => 0), (0, .unlock ())]

theorem predicate_wait_post_twoConsumers : ¬ ∀ s : State (Fin 3) Unit Unit Nat,
    Reachable step (init fun _ => 0) s → ∀ l t, step l s = some t → WaitPost l s t := by
  intro h
  have hw := h _ (Reachable.of_exec twoConsumers rfl) (1, .resume) _ rfl
  exact absurd (hw ((), (0 < ·)) rfl).2 (by decide)

end TinyCoro.Comp.PredicateWait
