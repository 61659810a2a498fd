import TinyCoro.Comp.HandlePlaces

/-! The operations on condition variables keep every handle in one place, and so
does every step of every coroutine. -/
namespace TinyCoro.Comp.NotifyPlaces
open Transition CondVar HandlePlaces
set_option linter.unusedSectionVars false
variable {C M V D : Type} [DecidableEq C] [DecidableEq M] [DecidableEq V]

/-- A released waiter enters the queue of its condition variable. -/
private theorem inv_push {s : State C M V D} (hs : Inv s) {c : C} {v : V} {m : M} {cond : Cond D}
    (hp : s.pc c = .waitPush v m cond) :
    Inv ((s.setCv v { s.cv v with waiters := (s.cv v).waiters ++ [⟨c, m, cond⟩] }).goto c (.waiting v m cond)) := by
  have hc : ∀ v' w, w ∈ (s.cv v').waiters → w.handle ≠ c := by
    intro v' w hw he
    have h := (hs.wait v' w).mp hw
    rw [he, hp] at h
    cases h
  refine ⟨hs.mutex, fun m' x => ?_, hs.queue_nodup, fun v' w => ?_, fun v' => ?_, fun v' n => ?_, fun v' w => ?_,
    fun x m' hx => ?_⟩
  · rw [State.goto_pc, State.setCv_pc, view_update queuedOn (by rw [hp]; rfl)]
    exact hs.queue m' x
  · have hw := hs.wait v' w
    by_cases hv : v' = v
    · subst hv
      by_cases hwc : w.handle = c
      · obtain ⟨_, _, _⟩ := w
        have hnot : _ ∉ (s.cv v').waiters := fun hm => hc v' _ hm hwc
        simp only at hwc
        subst hwc
        simp [waitingOn, hnot, eq_comm]
      · have hne : w ≠ ⟨c, m, cond⟩ := by
          rintro rfl
          exact hwc rfl
        simpa [hwc, hne] using hw
    · by_cases hwc : w.handle = c
      · have hnot : w ∉ (s.cv v').waiters := fun hm => hc v' _ hm hwc
        simp [hv, hwc, waitingOn, hnot, Ne.symm hv]
      · simpa [hv, hwc] using hw
  · by_cases hv : v' = v
    · subst hv
      have hn := hs.wait_nodup v'
      simpa [List.nodup_append, hn] using fun w hw => hc v' w hw
    · simpa [hv] using hs.wait_nodup v'
  · rw [State.goto_pc, State.setCv_pc, view_update notifying (by rw [hp]; rfl)]
    by_cases hv : v' = v
    · subst hv
      simpa using hs.hold v' n
    · simpa [hv] using hs.hold v' n
  · have hk : pickedOn (.waiting v m cond : Pc C M V D) = pickedOn (s.pc c) := by rw [hp]; rfl
    have he : enqueuing (.waiting v m cond : Pc C M V D) = enqueuing (s.pc c) := by rw [hp]; rfl
    simp only [State.goto_pc, State.setCv_pc, view_update pickedOn hk, view_update enqueuing he]
    exact hs.pick v' w
  · by_cases hxc : x = c
    · subst hxc
      simp [owning] at hx
    · rw [State.goto_pc, Function.update_of_ne hxc] at hx
      exact hs.owner x m' hx

/-- A coroutine takes or gives back the spinlock of a condition variable. -/
private theorem inv_setHolder {s : State C M V D} (hs : Inv s) {c : C} {v : V} {p : Pc C M V D} {o : Option C}
    (hq : queuedOn p = queuedOn (s.pc c)) (hw : waitingOn p = waitingOn (s.pc c))
    (hk : pickedOn p = pickedOn (s.pc c)) (he : enqueuing p = enqueuing (s.pc c)) (ho : owning p = none)
    (hold : ∀ v' n, ((s.setCv v { s.cv v with holder := o }).cv v').holder = some n ↔
      notifying (((s.setCv v { s.cv v with holder := o }).goto c p).pc n) = some v') :
    Inv ((s.setCv v { s.cv v with holder := o }).goto c p) := by
  have hcv : ∀ v', ((s.setCv v { s.cv v with holder := o }).cv v').waiters = (s.cv v').waiters := by
    intro v'
    by_cases hv : v' = v
    · simp [hv]
    · simp [hv]
  refine ⟨hs.mutex, fun m' x => ?_, hs.queue_nodup, fun v' w => ?_, fun v' => ?_, hold, fun v' w => ?_,
    fun x m' hx => ?_⟩
  · rw [State.goto_pc, State.setCv_pc, view_update queuedOn hq]
    exact hs.queue m' x
  · rw [State.goto_pc, State.setCv_pc, view_update waitingOn hw]
    exact (hcv v') ▸ hs.wait v' w
  · exact (hcv v') ▸ hs.wait_nodup v'
  · simp only [State.goto_pc, State.setCv_pc, view_update pickedOn hk, view_update enqueuing he]
    exact hs.pick v' w
  · by_cases hxc : x = c
    · subst hxc
      simp [ho] at hx
    · rw [State.goto_pc, Function.update_of_ne hxc] at hx
      exact hs.owner x m' hx

/-- The spinlock is with the one that notifies, before and after `c` has taken it or given it
back. -/
private theorem hold_setHolder {s : State C M V D} (hs : Inv s) {c : C} {v : V} {p : Pc C M V D} {o : Option C}
    (hfree : ∀ n, (s.cv v).holder = some n → n = c) (hpc : ∀ v', notifying (s.pc c) = some v' → v' = v)
    (hnew : (o = some c ∧ notifying p = some v) ∨ (o = none ∧ notifying p = none)) (v' : V) (n : C) :
    ((s.setCv v { s.cv v with holder := o }).cv v').holder = some n ↔
      notifying (((s.setCv v { s.cv v with holder := o }).goto c p).pc n) = some v' := by
  have hn := hs.hold v' n
  by_cases hv : v' = v
  · subst hv
    by_cases hnc : n = c
    · subst hnc
      rcases hnew with ⟨rfl, h⟩ | ⟨rfl, h⟩ <;> simp [h]
    · have hout : notifying (s.pc n) ≠ some v' := fun h => hnc (hfree n (hn.mpr h))
      rcases hnew with ⟨rfl, -⟩ | ⟨rfl, -⟩ <;> simp [hnc, Ne.symm hnc, hout]
  · by_cases hnc : n = c
    · subst hnc
      have hout : (s.cv v').holder ≠ some n := fun h => hv (hpc v' (hn.mp h))
      rcases hnew with ⟨-, h⟩ | ⟨-, h⟩ <;> simp [hv, Ne.symm hv, h, hout]
    · simpa [hv, hnc] using hn

private theorem inv_notifyBegin {s : State C M V D} (hs : Inv s) {c : C} {v : V} (k : Nat)
    (hp : s.pc c = .running) (hf : (s.cv v).holder = none) :
    Inv ((s.setCv v { s.cv v with holder := some c }).goto c (.notify v k)) := by
  refine inv_setHolder hs (by rw [hp]; rfl) (by rw [hp]; rfl) (by rw [hp]; rfl) (by rw [hp]; rfl) rfl ?_
  refine hold_setHolder hs ?_ ?_ (.inl ⟨rfl, rfl⟩)
  · rw [hf]
    exact nofun
  · rw [hp]
    exact nofun

private theorem inv_notifyEnd {s : State C M V D} (hs : Inv s) {c : C} {v : V} {k : Nat}
    (hp : s.pc c = .notify v k) : Inv ((s.setCv v { s.cv v with holder := none }).goto c .running) := by
  have hc := (hs.hold v c).mpr (by rw [hp]; rfl)
  refine inv_setHolder hs (by rw [hp]; rfl) (by rw [hp]; rfl) (by rw [hp]; rfl) (by rw [hp]; rfl) rfl ?_
  refine hold_setHolder hs (fun n hn => ?_) (fun v' hv => ?_) (.inr ⟨rfl, rfl⟩)
  · exact (Option.some.inj (hc.symm.trans hn)).symm
  · rw [hp] at hv
    exact (Option.some.inj hv).symm

/-- Rotating the queue of a condition variable keeps every handle where it was. -/
private theorem inv_rotate {s : State C M V D} (hs : Inv s) {v : V} {w : Waiter C M D} {rest : List (Waiter C M D)}
    (hq : (s.cv v).waiters = w :: rest) : Inv (s.setCv v { s.cv v with waiters := rest ++ [w] }) := by
  refine ⟨hs.mutex, hs.queue, hs.queue_nodup, fun v' x => ?_, fun v' => ?_, fun v' n => ?_, hs.pick, hs.owner⟩
  · by_cases hv : v' = v
    · subst hv
      simpa [hq, or_comm] using hs.wait v' x
    · simpa [hv] using hs.wait v' x
  · by_cases hv : v' = v
    · subst hv
      have hn := hs.wait_nodup v'
      rw [hq] at hn
      have hperm : (w :: rest).Perm (rest ++ [w]) := (List.perm_append_singleton w rest).symm
      simpa using (hperm.map Waiter.handle).nodup_iff.mp hn
    · simpa [hv] using hs.wait_nodup v'
  · by_cases hv : v' = v
    · subst hv
      simpa using hs.hold v' n
    · simpa [hv] using hs.hold v' n

private theorem picked_inj {v v' : V} {w x : Waiter C M D} (hh : x.handle = w.handle)
    (h : pickedOn (.picked v w.mtx w.cond : Pc C M V D) = some (v', x.mtx, x.cond)) : v' = v ∧ x = w := by
  obtain ⟨xh, xm, xc⟩ := x
  obtain ⟨wh, wm, wc⟩ := w
  cases hh
  cases h
  exact ⟨rfl, rfl⟩

/-- Who has a popped entry in its hand after the notifier `c` took the entry `w`. -/
private theorem enqueuing_pop {s : State C M V D} {c : C} {v v' : V} {k n : Nat} {w x : Waiter C M D}
    (hne : w.handle ≠ c) (hp : s.pc c = .notify v k) (hpw : s.pc w.handle = .waiting v w.mtx w.cond) (y : C) :
    enqueuing (Function.update (Function.update s.pc c (.notifyEnqueue v n w)) w.handle (.picked v w.mtx w.cond) y) =
      some (v', x) ↔ (y = c ∧ v' = v ∧ x = w) ∨ (y ≠ c ∧ enqueuing (s.pc y) = some (v', x)) := by
  by_cases hyw : y = w.handle
  · subst hyw
    rw [Function.update_self, hpw]
    simp [enqueuing, hne]
  · rw [Function.update_of_ne hyw]
    by_cases hyc : y = c
    · subst hyc
      simp [enqueuing, eq_comm]
    · simp [hyc]

/-- Who waits after the notifier `c` took the front entry `w`. -/
private theorem wait_pop {s : State C M V D} (hs : Inv s) {c : C} {v : V} {k n : Nat} {w : Waiter C M D}
    {rest : List (Waiter C M D)} (hp : s.pc c = .notify v k) (hpw : s.pc w.handle = .waiting v w.mtx w.cond)
    (hq : (s.cv v).waiters = w :: rest) (v' : V) (x : Waiter C M D) :
    x ∈ ((s.setCv v { s.cv v with waiters := rest }).cv v').waiters ↔
      waitingOn (Function.update (Function.update s.pc c (.notifyEnqueue v n w)) w.handle
        (.picked v w.mtx w.cond) x.handle) = some (v', x.mtx, x.cond) := by
  have hn := hs.wait_nodup v
  rw [hq, List.map_cons, List.nodup_cons] at hn
  have hx := hs.wait v' x
  by_cases hxw : x.handle = w.handle
  · have hnot : x ∉ ((s.setCv v { s.cv v with waiters := rest }).cv v').waiters := by
      intro hm
      by_cases hv : v' = v
      · subst hv
        exact hn.1 (hxw ▸ List.mem_map_of_mem (f := Waiter.handle) (by simpa using hm))
      · have := hx.mp (by simpa [hv] using hm)
        rw [hxw, hpw] at this
        simp [waitingOn, Ne.symm hv] at this
    simpa [hxw, waitingOn] using hnot
  · have hpc : waitingOn (Function.update (Function.update s.pc c (.notifyEnqueue v n w)) w.handle
        (.picked v w.mtx w.cond) x.handle) = waitingOn (s.pc x.handle) := by
      rw [Function.update_of_ne hxw, view_update waitingOn (by rw [hp]; rfl)]
    rw [hpc, ← hx]
    by_cases hv : v' = v
    · subst hv
      have hxne : x ≠ w := by
        rintro rfl
        exact hxw rfl
      simp [hq, hxne]
    · simp [hv]

/-- Which popped waiters are in the hand of a notifier after `c` took the entry `w`. -/
private theorem pick_pop {s : State C M V D} (hs : Inv s) {c : C} {v : V} {k n : Nat} {w : Waiter C M D}
    (hne : w.handle ≠ c) (hp : s.pc c = .notify v k) (hpw : s.pc w.handle = .waiting v w.mtx w.cond) (v' : V)
    (x : Waiter C M D) :
    pickedOn (Function.update (Function.update s.pc c (.notifyEnqueue v n w)) w.handle (.picked v w.mtx w.cond)
        x.handle) = some (v', x.mtx, x.cond) ↔
      ∃ y, enqueuing (Function.update (Function.update s.pc c (.notifyEnqueue v n w)) w.handle
        (.picked v w.mtx w.cond) y) = some (v', x) := by
  have hx := hs.pick v' x
  simp only [enqueuing_pop hne hp hpw]
  by_cases hxw : x.handle = w.handle
  · have hnone : ¬ ∃ y, enqueuing (s.pc y) = some (v', x) := by
      rw [← hx, hxw, hpw]
      simp [pickedOn]
    rw [hxw, Function.update_self]
    constructor
    · intro h
      exact ⟨c, .inl ⟨rfl, picked_inj hxw h⟩⟩
    · rintro ⟨y, ⟨-, rfl, rfl⟩ | ⟨-, hy⟩⟩
      · rfl
      · exact absurd ⟨y, hy⟩ hnone
  · rw [Function.update_of_ne hxw, view_update pickedOn (by rw [hp]; rfl), hx]
    constructor
    · rintro ⟨y, hy⟩
      refine ⟨y, .inr ⟨?_, hy⟩⟩
      rintro rfl
      rw [hp] at hy
      cases hy
    · rintro ⟨y, ⟨-, -, rfl⟩ | ⟨-, hy⟩⟩
      · exact absurd rfl hxw
      · exact ⟨y, hy⟩

/-- A notifier takes the front entry in its hand. -/
private theorem inv_pop {s : State C M V D} (hs : Inv s) {c : C} {v : V} {k n : Nat} {w : Waiter C M D}
    {rest : List (Waiter C M D)} (hp : s.pc c = .notify v k) (hq : (s.cv v).waiters = w :: rest) :
    Inv (((s.setCv v { s.cv v with waiters := rest }).goto c (.notifyEnqueue v n w)).goto w.handle
      (.picked v w.mtx w.cond)) := by
  have hwp : waitingOn (s.pc w.handle) = some (v, w.mtx, w.cond) := (hs.wait v w).mp (by simp [hq])
  have hpw : s.pc w.handle = .waiting v w.mtx w.cond := by
    cases hpc : s.pc w.handle <;> simp [hpc, waitingOn] at hwp
    simp [hwp]
  have hne : w.handle ≠ c := by
    intro he
    rw [he, hp] at hpw
    cases hpw
  have hn := hs.wait_nodup v
  rw [hq, List.map_cons, List.nodup_cons] at hn
  -- a view that both moves leave alone
  have view {α : Type} (f : Pc C M V D → α) (hc : f (.notifyEnqueue v n w) = f (.notify v k))
      (hw : f (.picked v w.mtx w.cond) = f (.waiting v w.mtx w.cond)) (x : C) :
      f (Function.update (Function.update s.pc c (.notifyEnqueue v n w)) w.handle (.picked v w.mtx w.cond) x) =
        f (s.pc x) := by
    by_cases hx : x = w.handle
    · rw [hx, Function.update_self, hw, hpw]
    · rw [Function.update_of_ne hx, view_update f (by rw [hc, hp])]
  refine ⟨hs.mutex, fun m x => ?_, hs.queue_nodup, fun v' x => ?_, fun v' => ?_, fun v' x => ?_, fun v' x => ?_,
    fun x m hx => ?_⟩
  · simp only [State.goto_pc, State.setCv_pc, view queuedOn rfl rfl]
    exact hs.queue m x
  · exact wait_pop hs hp hpw hq v' x
  · by_cases hv : v' = v
    · subst hv
      simpa using hn.2
    · simpa [hv] using hs.wait_nodup v'
  · simp only [State.goto_pc, State.setCv_pc, view notifying rfl rfl]
    by_cases hv : v' = v
    · subst hv
      simpa using hs.hold v' x
    · simpa [hv] using hs.hold v' x
  · exact pick_pop hs hne hp hpw v' x
  · simp only [State.goto_pc, State.setCv_pc, view owning rfl rfl] at hx
    exact hs.owner x m hx

private theorem notifying_of_enqueuing {p : Pc C M V D} {v : V} {w : Waiter C M D} (h : enqueuing p = some (v, w)) :
    notifying p = some v := by
  cases p with
  | notifyEnqueue v' n w' =>
    cases h
    rfl
  | _ => cases h

/-- The handle of an entry that a notifier has popped. -/
private theorem handle_picked {s : State C M V D} (hs : Inv s) {c : C} {v : V} {n : Nat} {w : Waiter C M D}
    (hp : s.pc c = .notifyEnqueue v n w) : s.pc w.handle = .picked v w.mtx w.cond ∧ c ≠ w.handle := by
  have hpk : pickedOn (s.pc w.handle) = some (v, w.mtx, w.cond) := (hs.pick v w).mpr ⟨c, by rw [hp]; rfl⟩
  have hpw : s.pc w.handle = .picked v w.mtx w.cond := by
    cases hpc : s.pc w.handle <;> simp [hpc, pickedOn] at hpk
    simp [hpk]
  refine ⟨hpw, ?_⟩
  rintro rfl
  rw [hp] at hpw
  cases hpw

/-- The notifier has no popped entry any more, and the others have theirs. -/
private theorem enqueuing_letGo {s : State C M V D} (hs : Inv s) {c : C} {v v' : V} {n : Nat} {w x : Waiter C M D}
    (hp : s.pc c = .notifyEnqueue v n w) (y : C) :
    enqueuing (Function.update (Function.update s.pc w.handle .running) c (.notify v n) y) = some (v', x) ↔
      y ≠ c ∧ enqueuing (s.pc y) = some (v', x) := by
  obtain ⟨hpw, hne⟩ := handle_picked hs hp
  by_cases hyc : y = c
  · simp [hyc, enqueuing]
  · by_cases hyw : y = w.handle
    · simp [hyw, hne.symm, enqueuing, hpw]
    · simp [hyc, hyw]

private theorem pick_letGo {s : State C M V D} (hs : Inv s) {c : C} {v : V} {n : Nat} {w : Waiter C M D}
    (hp : s.pc c = .notifyEnqueue v n w) (v' : V) (x : Waiter C M D) :
    pickedOn (Function.update (Function.update s.pc w.handle .running) c (.notify v n) x.handle) = some (v', x.mtx, x.cond) ↔
      ∃ y, enqueuing (Function.update (Function.update s.pc w.handle .running) c (.notify v n) y) = some (v', x) := by
  obtain ⟨hpw, hne⟩ := handle_picked hs hp
  have hx := hs.pick v' x
  simp only [enqueuing_letGo hs hp]
  by_cases hxw : x.handle = w.handle
  · rw [hxw, Function.update_of_ne hne.symm, Function.update_self]
    refine ⟨fun h => by simp [pickedOn] at h, ?_⟩
    -- the only notifier with a popped entry for this condition variable is `c` itself
    rintro ⟨y, hyc, hy⟩
    have hxp := hx.mpr ⟨y, hy⟩
    rw [hxw, hpw] at hxp
    have hyv := (hs.hold v' y).mpr (notifying_of_enqueuing hy)
    have hcv := (hs.hold v c).mpr (by rw [hp]; rfl)
    simp only [pickedOn, Option.some.injEq, Prod.mk.injEq] at hxp
    rw [← hxp.1, hcv] at hyv
    exact absurd (Option.some.inj hyv).symm hyc
  · have hpx : pickedOn (Function.update (Function.update s.pc w.handle .running) c (.notify v n) x.handle) =
        pickedOn (s.pc x.handle) := by
      by_cases hxc : x.handle = c
      · rw [hxc, Function.update_self, hp]
        rfl
      · rw [Function.update_of_ne hxc, Function.update_of_ne hxw]
    rw [hpx, hx]
    constructor
    · rintro ⟨y, hy⟩
      refine ⟨y, ?_, hy⟩
      rintro rfl
      rw [hp] at hy
      simp only [enqueuing, Option.some.injEq, Prod.mk.injEq] at hy
      exact hxw (congrArg Waiter.handle hy.2).symm
    · rintro ⟨y, -, hy⟩
      exact ⟨y, hy⟩

/-- The popped waiter stops being kept by its notifier, which goes back to its loop. -/
private theorem inv_letGo {s : State C M V D} (hs : Inv s) {c : C} {v : V} {n : Nat} {w : Waiter C M D}
    (hp : s.pc c = .notifyEnqueue v n w) :
    Inv ((s.goto w.handle .running).goto c (.notify v n)) := by
  obtain ⟨hpw, -⟩ := handle_picked hs hp
  have view {α : Type} (f : Pc C M V D → α) (hc : f (.notify v n) = f (.notifyEnqueue v n w))
      (hw : f .running = f (.picked v w.mtx w.cond)) (x : C) :
      f (Function.update (Function.update s.pc w.handle .running) c (.notify v n) x) = f (s.pc x) := by
    by_cases hx : x = c
    · rw [hx, Function.update_self, hc, hp]
    · rw [Function.update_of_ne hx, view_update f (by rw [hw, hpw])]
  refine ⟨hs.mutex, fun m x => ?_, hs.queue_nodup, fun v' x => ?_, hs.wait_nodup, fun v' x => ?_, pick_letGo hs hp,
    fun x m hx => ?_⟩
  · simp only [State.goto_pc, view queuedOn rfl rfl]
    exact hs.queue m x
  · simp only [State.goto_pc, view waitingOn rfl rfl]
    exact hs.wait v' x
  · simp only [State.goto_pc, view notifying rfl rfl]
    exact hs.hold v' x
  · simp only [State.goto_pc, view owning rfl rfl] at hx
    exact hs.owner x m hx

private theorem suspendOn_goto {h c : C} (hne : h ≠ c) (a : Await M V D) (p q : Pc C M V D) (s : State C M V D) :
    (suspendOn h a s).goto c p = suspendOn h a ((s.goto h q).goto c p) := by
  rw [suspendOn_eq, suspendOn_eq]
  simp only [State.goto_mtx]
  split
  · simp only [State.goto, State.setMtx, Function.update_comm hne, Function.update_idem]
  · simp only [State.goto, State.setMtx, State.grant, State.submitTask, Function.update_comm hne, Function.update_idem]

private theorem unlockBy_goto {c : C} {m : M} {s : State C M V D} (hc : c ∉ (s.mtx m).waiters) (p : Pc C M V D) :
    (unlockBy c m s).goto c p = unlockBy c m (s.goto c p) := by
  cases hw : (s.mtx m).waiters with
  | nil =>
    rw [unlockBy_release hw, unlockBy_release (by simpa using hw)]
    rfl
  | cons h rest =>
    have hne : h ≠ c := by
      rintro rfl
      exact hc (by simp [hw])
    rw [unlockBy_handOff hw, unlockBy_handOff (by simpa using hw)]
    simp [State.goto, State.setMtx, State.grant, State.disown, State.submitTask, hne, Function.update_comm hne.symm]

private theorem inv_notifyEnqueue {s : State C M V D} (hs : Inv s) {c : C} {v : V} {n : Nat} {w : Waiter C M D}
    (hp : s.pc c = .notifyEnqueue v n w) :
    Inv ((CondVar.suspendOn w.handle (.wait v w.mtx w.cond) s).goto c (.notify v n)) := by
  have hne : w.handle ≠ c := by
    rintro he
    have hpk := (hs.pick v w).mpr ⟨c, by rw [hp]; rfl⟩
    rw [he, hp] at hpk
    cases hpk
  rw [suspendOn_goto hne _ _ .running]
  refine (inv_letGo hs hp).suspendOn ?_
  rw [State.goto_pc, Function.update_of_ne hne, State.goto_pc, Function.update_self]
  exact ⟨rfl, rfl, rfl, rfl, rfl⟩

private theorem inv_waitUnlock {s : State C M V D} (hs : Inv s) {c : C} {v : V} {m : M} {cond : Cond D}
    (hp : s.pc c = .waitUnlock v m cond) : Inv ((CondVar.unlockBy c m s).goto c (.waitPush v m cond)) := by
  have hc := hs.owner c m (by rw [hp]; rfl)
  have hq : c ∉ (s.mtx m).waiters := fun hm => by
    have h := (hs.queue m c).mp hm
    rw [hp] at h
    cases h
  rw [unlockBy_goto hq]
  refine Inv.unlockBy (hs.goto ?_ (by simp [owning])) hc (by simp [owning])
  rw [hp]
  exact ⟨rfl, rfl, rfl, rfl, rfl⟩

private theorem same_running {p q : Pc C M V D} (hq : q = .running) (h : SamePlace p .running) : SamePlace p q :=
  hq ▸ h

/-- Every step of every coroutine keeps the invariant. -/
theorem inv_step {l : C × Op M V D} {s t : State C M V D} (hs : Inv s) (h : step l s = some t) : Inv t := by
  obtain ⟨c, op⟩ := l
  simp only [step] at h
  split at h
  · rename_i m hp
    cases h
    exact hs.tryLockBy m (same_running hp ⟨rfl, rfl, rfl, rfl, rfl⟩) rfl
  · rename_i m hp
    cases h
    exact hs.tryLockBy m (same_running hp ⟨rfl, rfl, rfl, rfl, rfl⟩) rfl
  · rename_i m hp
    cases h
    exact hs.tryLockBy m (same_running hp ⟨rfl, rfl, rfl, rfl, rfl⟩) rfl
  · rename_i m hp
    cases h
    exact hs.suspendOn (by rw [hp]; exact ⟨rfl, rfl, rfl, rfl, rfl⟩)
  · rename_i m hp
    cases h
    exact hs.suspendOn (by rw [hp]; exact ⟨rfl, rfl, rfl, rfl, rfl⟩)
  · rename_i m hp
    split at h
    · cases h
      exact hs.unlockBy ‹_› (by simp [hp, owning])
    · cases h
  · split at h
    · cases h
      exact ⟨hs.mutex, hs.queue, hs.queue_nodup, hs.wait, hs.wait_nodup, hs.hold, hs.pick, hs.owner⟩
    · cases h
  · rename_i v m cond hp
    split at h
    · rename_i ho
      cases h
      split
      · exact hs
      · refine hs.goto (same_running hp ⟨rfl, rfl, rfl, rfl, rfl⟩) ?_
        rintro m' ⟨⟩
        exact ho
    · cases h
  · rename_i hp
    cases h
    exact inv_waitUnlock hs hp
  · rename_i hp
    split at h
    · cases h
      exact inv_push hs hp
    · cases h
  · rename_i v hp
    split at h
    · cases h
      exact inv_notifyBegin hs _ hp ‹_›
    · cases h
  · rename_i v hp
    split at h
    · cases h
      exact inv_notifyBegin hs _ hp ‹_›
    · cases h
  · rename_i v hp
    cases h
    exact inv_notifyEnd hs hp
  · rename_i v n hp
    split at h
    · rename_i w rest hq
      cases h
      unfold examine
      split
      · refine (inv_rotate hs hq).goto ?_ (by simp [owning])
        rw [State.setCv_pc, hp]
        exact ⟨rfl, rfl, rfl, rfl, rfl⟩
      · exact inv_pop hs hp hq
    · cases h
  · rename_i hp
    cases h
    exact inv_notifyEnqueue hs hp
  · rename_i hp
    cases h
    refine hs.goto ?_ (by simp [owning])
    rw [hp]
    exact ⟨rfl, rfl, rfl, rfl, rfl⟩
  · cases h

theorem reachable_inv {shared : M → D} {s : State C M V D} (h : Reachable step (init shared) s) : Inv s :=
  h.invariant Inv (inv_init shared) fun _ _ _ _ hs ht => inv_step hs ht

end TinyCoro.Comp.NotifyPlaces
