import TinyCoro.Comp.MutexOwner
import TinyCoro.Comp.PcMoves

/-! What a step does to the queue of a condition variable, and whom it makes the owner
of a mutex. -/
namespace TinyCoro.Comp.QueueMoves
open CondVar HandlePlaces PcMoves
set_option linter.unusedSectionVars false
variable {C M V D : Type}

/-- What a step of `c`, which takes it from one point to another, does to the condition
variable `v`. The predicates are those of the popped entries over the data of the mutexes. -/
inductive QueueMove (shared : M → D) (c : C) (v : V) :
    Op M V D → Pc C M V D → Pc C M V D → Queue C M D → Queue C M D → Prop
  | stay {op : Op M V D} {p q : Pc C M V D} {x : Queue C M D} : notifying p ≠ some v → notifying q ≠ some v →
      (∀ m cond, q ≠ .waiting v m cond) → op ≠ .notifyOne v → op ≠ .notifyAll v → QueueMove shared c v op p q x x
  | enter (m : M) (cond : Cond D) (ws : List (Waiter C M D)) :
      QueueMove shared c v .waitPush (.waitPush v m cond) (.waiting v m cond) ⟨none, ws⟩ ⟨none, ws ++ [⟨c, m, cond⟩]⟩
  | notifyOne (ws : List (Waiter C M D)) :
      QueueMove shared c v (.notifyOne v) .running (.notify v (min 1 ws.length)) ⟨none, ws⟩ ⟨some c, ws⟩
  | notifyAll (ws : List (Waiter C M D)) :
      QueueMove shared c v (.notifyAll v) .running (.notify v ws.length) ⟨none, ws⟩ ⟨some c, ws⟩
  | notified (o : Option C) (ws : List (Waiter C M D)) :
      QueueMove shared c v .notifyNext (.notify v 0) .running ⟨o, ws⟩ ⟨none, ws⟩
  | putBack (o : Option C) (n : Nat) (w : Waiter C M D) (rest : List (Waiter C M D)) :
      w.cond.unmet (shared w.mtx) = true →
      QueueMove shared c v .notifyNext (.notify v (n + 1)) (.notify v n) ⟨o, w :: rest⟩ ⟨o, rest ++ [w]⟩
  | pop (o : Option C) (n : Nat) (w : Waiter C M D) (rest : List (Waiter C M D)) :
      w.cond.unmet (shared w.mtx) = false →
      QueueMove shared c v .notifyNext (.notify v (n + 1)) (.notifyEnqueue v n w) ⟨o, w :: rest⟩ ⟨o, rest⟩
  | enqueue (n : Nat) (w : Waiter C M D) (x : Queue C M D) :
      QueueMove shared c v .notifyEnqueue (.notifyEnqueue v n w) (.notify v n) x x

variable [DecidableEq C] [DecidableEq M] [DecidableEq V] {s t : State C M V D} {c : C} {op : Op M V D}

@[simp] private theorem tryLockBy_cv (m : M) (fail : Pc C M V D) : (tryLockBy c m fail s).cv = s.cv := by
  unfold tryLockBy
  split <;> rfl

@[simp] private theorem unlockBy_cv (m : M) : (unlockBy c m s).cv = s.cv := by
  unfold unlockBy
  split <;> rfl

@[simp] private theorem suspendOn_cv (a : Await M V D) : (suspendOn c a s).cv = s.cv := by
  unfold suspendOn
  split <;> rfl

@[simp] private theorem examine_owners (v : V) (n : Nat) (w : Waiter C M D) (rest : List (Waiter C M D)) :
    (examine c v n w rest s).owners = s.owners := by
  unfold examine
  split <;> rfl

private def quiet : Op M V D → Bool
  | .waitPush | .notifyOne _ | .notifyAll _ | .notifyNext | .notifyEnqueue => false
  | _ => true

private theorem quiet_cv (hq : quiet op = true) (h : step (c, op) s = some t) : t.cv = s.cv := by
  simp only [step] at h
  split at h
  case h_10 | h_11 | h_12 | h_13 | h_14 | h_15 => cases hq
  case h_7 | h_8 =>
    split at h
    · cases h
      first | rfl | split <;> rfl
    · cases h
  case h_6 =>
    split at h
    · cases h
      exact unlockBy_cv _
    · cases h
  case h_17 => cases h
  all_goals
    cases h
    simp

omit [DecidableEq C] [DecidableEq M] [DecidableEq V] in
private theorem quiet_own {p q : Pc C M V D} (hq : quiet op = true) (h : Own op p q) :
    notifying p = none ∧ notifying q = none ∧ waitingOn q = none := by
  cases h with
  | enter | notifyOne | notifyAll | notified | putBack | pop | enqueue => cases hq
  | _ => exact ⟨rfl, rfl, rfl⟩

private theorem queue_quiet {p q : Pc C M V D} {x : Queue C M D} (v : V) (hq : quiet op = true) (h : Own op p q) :
    QueueMove s.shared c v op p q x x := by
  obtain ⟨hnp, hnq, hw⟩ := quiet_own hq h
  refine .stay (by simp [hnp]) (by simp [hnq]) ?_ ?_ ?_
  · rintro m cond rfl
    cases hw
  · rintro rfl
    cases hq
  · rintro rfl
    cases hq

/-- The one that notifies is not itself in the queue. -/
private theorem notifier_ne (hs : Inv s) {v : V} {n : Nat} {w : Waiter C M D} {rest : List (Waiter C M D)}
    (hp : s.pc c = .notify v n) (hq : (s.cv v).waiters = w :: rest) : c ≠ w.handle := by
  rintro rfl
  have hw := waiting_of_mem hs (v := v) (w := w) (by simp [hq])
  rw [hp] at hw
  cases hw

private theorem queue_examine (hs : Inv s) {v v' : V} {n : Nat} {w : Waiter C M D} {rest : List (Waiter C M D)}
    (hp : s.pc c = .notify v' (n + 1)) (hq : (s.cv v').waiters = w :: rest) :
    QueueMove s.shared c v .notifyNext (.notify v' (n + 1)) ((examine c v' n w rest s).pc c) (s.cv v)
      ((examine c v' n w rest s).cv v) := by
  have hne := notifier_ne hs hp hq
  by_cases hv : v = v'
  · subst hv
    obtain ⟨o, hx⟩ : ∃ o, s.cv v = ⟨o, w :: rest⟩ := ⟨(s.cv v).holder, by rw [← hq]⟩
    unfold examine
    split
    · rename_i hu
      simpa [hx] using QueueMove.putBack o n w rest hu
    · rename_i hu
      simpa [hx, hne] using QueueMove.pop o n w rest (by simpa using hu)
  · have hv' : v' ≠ v := Ne.symm hv
    unfold examine
    split
    · simp only [State.goto_pc, State.goto_cv, State.setCv_cv, Function.update_self, Function.update_of_ne hv]
      exact .stay (by simpa [notifying]) (by simpa [notifying]) (by simp) (by simp) (by simp)
    · simp only [State.goto_pc, State.goto_cv, State.setCv_cv, State.setCv_pc, Function.update_self,
        Function.update_of_ne hv, Function.update_of_ne hne]
      exact .stay (by simpa [notifying]) (by simpa [notifying]) (by simp) (by simp) (by simp)

/-- A notification begins or ends. -/
private theorem queue_holder {v v' : V} {o : Option C} {p q : Pc C M V D}
    (hsame : v = v' → QueueMove s.shared c v op p q (s.cv v) ⟨o, (s.cv v).waiters⟩)
    (hp : ∀ u, notifying p = some u → u = v') (hq : ∀ u, notifying q = some u → u = v') (hw : waitingOn q = none)
    (ho : v ≠ v' → op ≠ .notifyOne v ∧ op ≠ .notifyAll v) :
    QueueMove s.shared c v op p q (s.cv v) ((s.setCv v' { s.cv v' with holder := o }).cv v) := by
  by_cases hv : v = v'
  · subst hv
    simpa using hsame rfl
  · rw [State.setCv_cv, Function.update_of_ne hv]
    refine .stay (fun h => hv (hp v h)) (fun h => hv (hq v h)) ?_ (ho hv).1 (ho hv).2
    rintro m cond rfl
    cases hw

/-- A step changes a condition variable as the operation says. -/
theorem step_queue (hs : Inv s) (h : step (c, op) s = some t) (v : V) :
    QueueMove s.shared c v op (s.pc c) (t.pc c) (s.cv v) (t.cv v) := by
  by_cases hq : quiet op = true
  · rw [quiet_cv hq h]
    exact queue_quiet v hq (step_self hs h)
  simp only [step] at h
  split at h
  case h_10 v' m cond hp =>
    split at h
    · rename_i hf
      cases h
      rw [State.goto_pc, Function.update_self, State.goto_cv, State.setCv_cv, hp]
      by_cases hv : v = v'
      · subst hv
        obtain ⟨ws, hx⟩ : ∃ ws, s.cv v = ⟨none, ws⟩ := ⟨(s.cv v).waiters, by rw [← hf]⟩
        simpa [hx] using QueueMove.enter m cond ws
      · rw [Function.update_of_ne hv]
        refine .stay (by simp [notifying]) (by simp [notifying]) ?_ (by simp) (by simp)
        rintro _ _ ⟨⟩
        exact hv rfl
    · cases h
  case h_11 v' hp | h_12 v' hp =>
    split at h
    · rename_i hf
      cases h
      rw [State.goto_pc, Function.update_self, hp]
      refine queue_holder ?_ (by simp [notifying]) (fun u hu => (Option.some.inj hu).symm) rfl
        (fun hv => by simpa using Ne.symm hv)
      rintro rfl
      obtain ⟨ws, hx⟩ : ∃ ws, s.cv v = ⟨none, ws⟩ := ⟨(s.cv v).waiters, by rw [← hf]⟩
      rw [hx]
      first | exact .notifyOne ws | exact .notifyAll ws
    · cases h
  case h_13 v' hp =>
    cases h
    rw [State.goto_pc, Function.update_self, hp]
    refine queue_holder ?_ (fun u hu => (Option.some.inj hu).symm) (by simp [notifying]) rfl (fun _ => ⟨by simp, by simp⟩)
    rintro rfl
    exact .notified (s.cv v).holder (s.cv v).waiters
  case h_14 v' n hp =>
    split at h
    · rename_i w rest hw
      cases h
      rw [hp]
      exact queue_examine hs hp hw
    · cases h
  case h_15 v' n w hp =>
    cases h
    rw [State.goto_pc, Function.update_self, State.goto_cv, suspendOn_cv, hp]
    by_cases hv : v = v'
    · subst hv
      exact .enqueue n w (s.cv v)
    · have hv' : v' ≠ v := Ne.symm hv
      exact .stay (by simpa [notifying]) (by simpa [notifying]) (by simp) (by simp) (by simp)
  case h_17 => cases h
  all_goals exact absurd rfl hq

/-- While somebody else goes through the queue, a step leaves it alone. -/
theorem queue_kept (hs : Inv s) (h : step (c, op) s = some t) {v : V} {x : C} (hx : x ≠ c)
    (hn : notifying (s.pc x) = some v) : t.cv v = s.cv v := by
  have hold := (hs.hold v x).mpr hn
  have hc : notifying (s.pc c) ≠ some v := fun hc =>
    hx (Option.some.inj (hold.symm.trans ((hs.hold v c).mpr hc)))
  have hmove := step_queue hs h v
  generalize t.pc c = q at hmove
  generalize s.pc c = p at hmove hc
  generalize s.cv v = a at hmove hold ⊢
  generalize t.cv v = b at hmove ⊢
  cases hmove with
  | stay | enqueue => rfl
  | enter | notifyOne | notifyAll => cases hold
  | notified | putBack | pop => exact absurd rfl hc

/-- A waiter leaves the queue only when a notifier finds that its predicate does not fail. -/
theorem leaves_queue (hs : Inv s) (h : step (c, op) s = some t) {x : C} {v : V} {m : M} {cond : Cond D}
    (hx : s.pc x = .waiting v m cond) (ht : t.pc x ≠ .waiting v m cond) :
    cond.unmet (s.shared m) = false ∧ notifying (s.pc c) = some v := by
  have hin : (⟨x, m, cond⟩ : Waiter C M D) ∈ (s.cv v).waiters := (hs.wait v _).mpr (by simp [hx, waitingOn])
  have hout : (⟨x, m, cond⟩ : Waiter C M D) ∉ (t.cv v).waiters := fun hm =>
    ht (waiting_of_mem (NotifyPlaces.inv_step hs h) hm)
  have hmove := step_queue hs h v
  generalize t.pc c = q at hmove
  generalize s.pc c = p at hmove ⊢
  generalize s.cv v = a at hmove hin
  generalize t.cv v = b at hmove hout
  cases hmove with
  | pop o n w rest hu =>
    rcases List.mem_cons.mp hin with rfl | hin
    · exact ⟨hu, rfl⟩
    · exact absurd hin hout
  | enter => exact absurd (List.mem_append_left _ hin) hout
  | putBack o n w rest => exact absurd (by simpa [or_comm] using hin) hout
  | _ => exact absurd hin hout

private theorem suspendOn_owner {a : Await M V D} {m : M} {x : C} (hx : x ∈ (suspendOn c a s).owners m) :
    x ∈ s.owners m ∨ x = c ∧ (suspendOn c a s).pc x = .submitted a ∧ a.mtx = m := by
  rw [suspendOn_eq] at hx ⊢
  cases hl : (s.mtx a.mtx).locked with
  | true => exact .inl (by simpa [hl] using hx)
  | false =>
    by_cases hm : m = a.mtx
    · subst hm
      rcases (by simpa [hl] using hx : x ∈ s.owners a.mtx ∨ x = c) with hx | rfl
      · exact .inl hx
      · exact .inr ⟨rfl, by simp, rfl⟩
    · exact .inl (by simpa [hl, hm] using hx)

private theorem unlockBy_owner (hs : Inv s) {m m' : M} (ho : c ∈ s.owners m') {x : C}
    (hx : x ∈ (unlockBy c m' s).owners m) :
    (x ∈ s.owners m ∧ m ≠ m') ∨ ∃ a, (unlockBy c m' s).pc x = .submitted a ∧ a.mtx = m ∧ s.pc x = .queued a := by
  have hone := ((hs.mutex m').of_mem ho).2
  cases hw : (s.mtx m').waiters with
  | nil =>
    rw [unlockBy_release hw] at hx
    by_cases hm : m = m'
    · subst hm
      simp [hone] at hx
    · exact .inl ⟨by simpa [hm] using hx, hm⟩
  | cons h rest =>
    obtain ⟨a, hp, ha⟩ := queued_of_mem hs (m := m') (h := h) (by simp [hw])
    rw [unlockBy_handOff hw] at hx ⊢
    by_cases hm : m = m'
    · subst hm
      obtain rfl : x = h := by simpa [hone] using hx
      exact .inr ⟨a, by simp [hp, Pc.await], ha, hp⟩
    · exact .inl ⟨by simpa [hm] using hx, hm⟩

private theorem tryLockBy_owner {fail : Pc C M V D} {m m' : M} {x : C} (hr : s.pc c = .running)
    (hx : x ∈ (tryLockBy c m' fail s).owners m) :
    x ∈ s.owners m ∨ x = c ∧ m = m' ∧ (tryLockBy c m' fail s).pc x = .running := by
  rw [tryLockBy_eq] at hx ⊢
  cases hl : (s.mtx m').locked with
  | true => exact .inl (by simpa [hl] using hx)
  | false =>
    by_cases hm : m = m'
    · subst hm
      rcases (by simpa [hl] using hx : x ∈ s.owners m ∨ x = c) with hx | rfl
      · exact .inl hx
      · exact .inr ⟨rfl, rfl, by simpa using hr⟩
    · exact .inl (by simpa [hl, hm] using hx)

def locks (m : M) : Op M V D → Prop
  | .tryLock m' | .lockReady m' | .guardReady m' => m' = m
  | _ => False

/-- Whoever owns a mutex after a step has kept it, has just locked it, or has been granted it. -/
theorem owner_origin (hs : Inv s) (h : step (c, op) s = some t) {m : M} {x : C} (hx : x ∈ t.owners m) :
    (x ∈ s.owners m ∧ (x = c → op ≠ .unlock m ∧ ∀ v cond, s.pc c ≠ .waitUnlock v m cond)) ∨
      (x = c ∧ locks m op ∧ t.pc x = .running) ∨ ∃ a, t.pc x = .submitted a ∧ a.mtx = m := by
  simp only [step] at h
  split at h
  case h_1 m' hp | h_2 m' hp | h_3 m' hp =>
    cases h
    rcases tryLockBy_owner hp hx with hx | ⟨rfl, rfl, hr⟩
    · exact .inl ⟨hx, fun _ => ⟨by simp, by simp [hp]⟩⟩
    · exact .inr (.inl ⟨rfl, rfl, hr⟩)
  case h_4 m' hp | h_5 m' hp =>
    cases h
    rcases suspendOn_owner hx with hx | ⟨rfl, hpx, hm⟩
    · exact .inl ⟨hx, fun _ => ⟨by simp, by simp [hp]⟩⟩
    · exact .inr (.inr ⟨_, hpx, hm⟩)
  case h_6 m' hp =>
    split at h
    · rename_i ho
      cases h
      rcases unlockBy_owner hs ho hx with ⟨hx, hm⟩ | ⟨a, ha, hm, -⟩
      · refine .inl ⟨hx, fun _ => ⟨?_, by simp [hp]⟩⟩
        rintro ⟨⟩
        exact hm rfl
      · exact .inr (.inr ⟨a, ha, hm⟩)
    · cases h
  case h_9 v m' cond hp =>
    cases h
    rcases unlockBy_owner hs (hs.owner c m' (by rw [hp]; rfl)) hx with ⟨hx, hm⟩ | ⟨a, ha, hm, hpx⟩
    · refine .inl ⟨hx, fun _ => ⟨by simp, fun v' cond' hp' => hm ?_⟩⟩
      rw [hp] at hp'
      cases hp'
      rfl
    · have hne : x ≠ c := by
        rintro rfl
        rw [hp] at hpx
        cases hpx
      exact .inr (.inr ⟨a, by rwa [State.goto_pc, Function.update_of_ne hne], hm⟩)
  case h_15 v n w hp =>
    cases h
    rcases suspendOn_owner hx with hx | ⟨rfl, hpx, hm⟩
    · exact .inl ⟨hx, fun _ => ⟨by simp, by simp [hp]⟩⟩
    · have hne : w.handle ≠ c := by
        intro he
        have hpick := picked_of_enqueue hs hp
        rw [he, hp] at hpick
        cases hpick
      exact .inr (.inr ⟨_, by rwa [State.goto_pc, Function.update_of_ne hne], hm⟩)
  case h_17 => cases h
  -- the other operations leave the owners alone
  case h_7 hp | h_10 hp | h_11 hp | h_12 hp =>
    split at h
    · cases h
      exact .inl ⟨hx, fun _ => ⟨by simp, by simp [hp]⟩⟩
    · cases h
  case h_8 hp =>
    split at h
    · cases h
      exact .inl ⟨by split at hx <;> exact hx, fun _ => ⟨by simp, by simp [hp]⟩⟩
    · cases h
  case h_14 hp =>
    split at h
    · cases h
      exact .inl ⟨by simpa using hx, fun _ => ⟨by simp, by simp [hp]⟩⟩
    · cases h
  case h_13 hp | h_16 hp =>
    cases h
    exact .inl ⟨hx, fun _ => ⟨by simp, by simp [hp]⟩⟩

end TinyCoro.Comp.QueueMoves
