import TinyCoro.Client.Critical
import TinyCoro.Comp.QueueMoves

/-! Coroutines that take turns on shared data: each locks the mutex, waits until the data
says that it is its turn, changes the data, notifies and unlocks, once or in a loop. Every
step of such a coroutine is a step of `CondVar`. -/
namespace TinyCoro.Client.TurnTaking
open Transition TinyCoro.Comp CondVar HandlePlaces PcMoves MutexOwner QueueMoves Critical
variable {C D : Type}

/-- What the bodies differ in: the predicate of the wait, what is done to the data after it,
and whether `notify_all` is called or `notify_one`. The data never gives two a turn. -/
structure Rules (C D : Type) where
  turn : C → D → Bool
  act : C → D → D
  all : Bool
  alone : ∀ d a b, turn a d = true → turn b d = true → a = b

/-- Where a body stands; `left` is the number of turns that it has still to take. -/
inductive Local
  | start (left : Nat)
  | locked (left : Nat)
  | waited (left : Nat)
  | notify (left : Nat)
  | leaving (left : Nat)
  | finished
  deriving DecidableEq, Repr

def again : Nat → Local
  | 0 => .finished
  | n + 1 => .start (n + 1)

structure State (C D : Type) where
  base : CondVar.State C Unit Unit D
  loc : C → Local

def init (d : D) (rounds : C → Nat) : State C D := ⟨CondVar.init fun _ => d, fun c => again (rounds c)⟩

def call (R : Rules C D) (c : C) : Local → Option (Op Unit Unit D × Local)
  | .start left => some (.guardReady (), .locked left)
  | .locked left => some (.waitReady () () (some (R.turn c)), .waited left)
  | .waited left => some (.write () (R.act c), .notify (left - 1))
  | .notify left => some (if R.all then .notifyAll () else .notifyOne (), .leaving left)
  | .leaving left => some (.unlock (), again left)
  | .finished => none

inductive Label (C D : Type)
  | body (c : C)
  | lib (c : C) (op : Op Unit Unit D)

def Label.who : Label C D → C
  | .body c => c
  | .lib c _ => c

/-- What the coroutines are for: whoever has the turn, and turns left, takes one. -/
def play [DecidableEq C] (R : Rules C D) (c : C) (s : D × (C → Nat)) : Option (D × (C → Nat)) :=
  if R.turn c s.1 = true ∧ 0 < s.2 c then some (R.act c s.1, Function.update s.2 c (s.2 c - 1)) else none

def left : Local → Nat
  | .start n | .locked n | .waited n | .notify n | .leaving n => n
  | .finished => 0

def critical : Local → Bool
  | .start _ | .finished => false
  | _ => true

def holds (l : Local) (p : Pc C Unit Unit D) : Bool := critical l && (holding p || (owning p).isSome)

/-- How many entries of the queue a notifier has still to examine. -/
def remaining : Pc C Unit Unit D → Option Nat
  | .notify _ n | .notifyEnqueue _ n _ => some n
  | _ => none

/-- The points at which a coroutine can be, and what the data is there: it is the turn of
whoever has been woken, and not of whoever is about to release the mutex to wait. -/
inductive At (R : Rules C D) (d : D) (c : C) : Local → Pc C Unit Unit D → Prop
  | start (n : Nat) : At R d c (.start (n + 1)) .running
  | locked (n : Nat) : At R d c (.locked (n + 1)) .running
  | locking (n : Nat) : At R d c (.locked (n + 1)) (.guardSuspend ())
  | lockQueued (n : Nat) : At R d c (.locked (n + 1)) (.queued (.lockGuard ()))
  | lockGranted (n : Nat) : At R d c (.locked (n + 1)) (.submitted (.lockGuard ()))
  | acting (n : Nat) : R.turn c d = true → At R d c (.waited (n + 1)) .running
  | releasing (n : Nat) : R.turn c d = false → At R d c (.waited (n + 1)) (.waitUnlock () () (some (R.turn c)))
  | released (n : Nat) : At R d c (.waited (n + 1)) (.waitPush () () (some (R.turn c)))
  | waiting (n : Nat) : At R d c (.waited (n + 1)) (.waiting () () (some (R.turn c)))
  | picked (n : Nat) : R.turn c d = true → At R d c (.waited (n + 1)) (.picked () () (some (R.turn c)))
  | waitQueued (n : Nat) : R.turn c d = true → At R d c (.waited (n + 1)) (.queued (.wait () () (some (R.turn c))))
  | waitGranted (n : Nat) : R.turn c d = true → At R d c (.waited (n + 1)) (.submitted (.wait () () (some (R.turn c))))
  | notify (n : Nat) : At R d c (.notify n) .running
  | leaving (n : Nat) : At R d c (.leaving n) .running
  | notifying (n k : Nat) : At R d c (.leaving n) (.notify () k)
  | enqueuing (n k : Nat) (w : Waiter C Unit D) : At R d c (.leaving n) (.notifyEnqueue () k w)
  | finished : At R d c .finished .running

variable [DecidableEq C] {R : Rules C D}

def step (R : Rules C D) (l : Label C D) (s : State C D) : Option (State C D) :=
  match l with
  | .body c => match s.base.pc c, call R c (s.loc c) with
    | .running, some (op, next) =>
      (CondVar.step (c, op) s.base).map fun base => ⟨base, Function.update s.loc c next⟩
    | _, _ => none
  | .lib c op => if internal op then (CondVar.step (c, op) s.base).map fun base => { s with base := base } else none

/-- What every step keeps. The turns taken so far are a play of the rules. -/
structure Inv (R : Rules C D) (d₀ : D) (rounds : C → Nat) (s : State C D) : Prop where
  base : HandlePlaces.Inv s.base
  point : ∀ c, At R (s.base.shared ()) c (s.loc c) (s.base.pc c)
  owner : ∀ c, c ∈ s.base.owners () ↔ holds (s.loc c) (s.base.pc c) = true
  game : Reachable (play R) (d₀, rounds) (s.base.shared (), fun c => left (s.loc c))
  count : ∀ c n, remaining (s.base.pc c) = some n → n ≤ (s.base.cv ()).waiters.length

inductive Called (R : Rules C D) (c : C) : Op Unit Unit D → Local → Local → Prop
  | lock (n : Nat) : Called R c (.guardReady ()) (.start n) (.locked n)
  | wait (n : Nat) : Called R c (.waitReady () () (some (R.turn c))) (.locked n) (.waited n)
  | act (n : Nat) : Called R c (.write () (R.act c)) (.waited n) (.notify (n - 1))
  | notifyAll (n : Nat) : R.all = true → Called R c (.notifyAll ()) (.notify n) (.leaving n)
  | notifyOne (n : Nat) : R.all = false → Called R c (.notifyOne ()) (.notify n) (.leaving n)
  | unlock (n : Nat) : Called R c (.unlock ()) (.leaving n) (again n)

structure Taken (R : Rules C D) (c : C) (op : Op Unit Unit D) (s t : State C D) : Prop where
  base : CondVar.step (c, op) s.base = some t.base
  how : (s.base.pc c = .running ∧ ∃ next, Called R c op (s.loc c) next ∧ t.loc = Function.update s.loc c next) ∨
    (internal op = true ∧ t.loc = s.loc)

variable {d₀ d : D} {rounds : C → Nat} {s t : State C D} {c x : C} {op : Op Unit Unit D}

omit [DecidableEq C] in
private theorem called {l next : Local} (h : call R c l = some (op, next)) : Called R c op l next := by
  cases l with
  | start n =>
    cases h
    exact .lock n
  | locked n =>
    cases h
    exact .wait n
  | waited n =>
    cases h
    exact .act n
  | notify n =>
    cases ha : R.all with
    | true =>
      simp only [call, ha, if_true, Option.some.injEq, Prod.mk.injEq] at h
      obtain ⟨rfl, rfl⟩ := h
      exact .notifyAll n ha
    | false =>
      simp only [call, ha, Bool.false_eq_true, if_false, Option.some.injEq, Prod.mk.injEq] at h
      obtain ⟨rfl, rfl⟩ := h
      exact .notifyOne n ha
  | leaving n =>
    cases h
    exact .unlock n
  | finished => cases h

theorem step_taken {l : Label C D} (h : step R l s = some t) : ∃ op, Taken R l.who op s t := by
  cases l with
  | body c =>
    simp only [step] at h
    split at h
    · rename_i op next hp hc
      obtain ⟨b, hb, rfl⟩ := Option.map_eq_some_iff.mp h
      exact ⟨op, hb, .inl ⟨hp, next, called hc, rfl⟩⟩
    · cases h
  | lib c op =>
    simp only [step] at h
    split at h
    · rename_i hi
      obtain ⟨b, hb, rfl⟩ := Option.map_eq_some_iff.mp h
      exact ⟨op, hb, .inr ⟨hi, rfl⟩⟩
    · cases h

theorem Taken.loc_other (h : Taken R c op s t) (hx : x ≠ c) : t.loc x = s.loc x := by
  rcases h.how with ⟨-, next, -, ht⟩ | ⟨-, ht⟩
  · rw [ht, Function.update_of_ne hx]
  · rw [ht]

omit [DecidableEq C] in
/-- A suspended coroutine that is moved by somebody else. -/
private theorem At.moved {g : Prop} {l : Local} {p q : Pc C Unit Unit D} (h : At R d x l p) (hm : Moved g p q)
    (hpick : ∀ v m cond, p = .waiting v m cond → q ≠ p → cond.unmet d = false) : At R d x l q := by
  cases hm with
  | stay => exact h
  | grant =>
    cases h with
    | lockQueued n => exact .lockGranted n
    | waitQueued n ht => exact .waitGranted n ht
  | pick =>
    have hu := hpick _ _ _ rfl (by simp)
    cases h with
    | waiting n => exact .picked n (by simpa [Cond.unmet] using hu)
  | enqueue =>
    cases h with
    | picked n ht => exact .waitQueued n ht
  | take =>
    cases h with
    | picked n ht => exact .waitGranted n ht

omit [DecidableEq C] in
/-- The library goes on with a call. -/
private theorem At.internal {l : Local} {p q : Pc C Unit Unit D} (h : At R d c l p) (hown : Own op p q)
    (hi : internal op = true) : At R d c l q := by
  cases hown with
  | stay => exact h
  | guardQueue => cases h with | locking n => exact .lockQueued n
  | guardTake => cases h with | locking n => exact .lockGranted n
  | release => cases h with | releasing n => exact .released n
  | enter => cases h with | released n => exact .waiting n
  | notified => cases h with | notifying n => exact .leaving n
  | putBack => cases h with | notifying n => exact .notifying n _
  | pop => cases h with | notifying n => exact .enqueuing n _ _
  | enqueue => cases h with | enqueuing n => exact .notifying n _
  | resume =>
    cases h with
    | lockGranted n => exact .locked n
    | waitGranted n ht => exact .acting n ht
  | lockQueue | lockTake => cases h
  | lockFail | guardFail | wait | notifyOne | notifyAll => cases hi

omit [DecidableEq C] in
/-- The data has changed with the turn of somebody else. -/
private theorem At.write {d' : D} {l : Local} {p : Pc C Unit Unit D} (h : At R d x l p) (hx : R.turn x d ≠ true)
    (hp : owning p = none) : At R d' x l p := by
  cases h with
  | start n => exact .start n
  | locked n => exact .locked n
  | locking n => exact .locking n
  | lockQueued n => exact .lockQueued n
  | lockGranted n => exact .lockGranted n
  | released n => exact .released n
  | waiting n => exact .waiting n
  | notify n => exact .notify n
  | leaving n => exact .leaving n
  | notifying n k => exact .notifying n k
  | enqueuing n k w => exact .enqueuing n k w
  | finished => exact .finished
  | releasing => cases hp
  | acting _ ht | picked _ ht | waitQueued _ ht | waitGranted _ ht => exact absurd ht hx

omit [DecidableEq C] in
private theorem at_again (n : Nat) : At R d c (again n) .running := by
  cases n with
  | zero => exact .finished
  | succ n => exact .start n

/-- `await_ready` of the wait goes on if the predicate holds, and to the unlock otherwise. -/
private theorem waitReady_pc {b : CondVar.State C Unit Unit D} {p : D → Bool} (hr : s.base.pc c = .running)
    (h : CondVar.step (c, .waitReady () () (some p)) s.base = some b) :
    b.shared = s.base.shared ∧ (p (s.base.shared ()) = true ∧ b.pc c = .running ∨
      p (s.base.shared ()) = false ∧ b.pc c = .waitUnlock () () (some p)) := by
  simp only [CondVar.step, hr] at h
  split at h
  · cases h
    cases hp : p (s.base.shared ()) with
    | true => exact ⟨by simp [Cond.met, hp], .inl ⟨rfl, by simp [Cond.met, hp, hr]⟩⟩
    | false => exact ⟨by simp [Cond.met, hp], .inr ⟨rfl, by simp [Cond.met, hp]⟩⟩
  · cases h

/-- The next call of a body. -/
private theorem At.call {l next : Local} {b : CondVar.State C Unit Unit D} (hs : HandlePlaces.Inv s.base)
    (h : At R (s.base.shared ()) c l .running) (hr : s.base.pc c = .running) (hc : Called R c op l next)
    (hb : CondVar.step (c, op) s.base = some b) : At R (b.shared ()) c next (b.pc c) := by
  have hown := step_self hs hb
  rw [hr] at hown
  cases hc with
  | wait =>
    cases h with
    | locked n =>
      obtain ⟨hd, ⟨ht, hp⟩ | ⟨ht, hp⟩⟩ := waitReady_pc hr hb
      · rw [hp, hd]
        exact .acting n ht
      · rw [hp, hd]
        exact .releasing n ht
  | lock =>
    cases h with
    | start n =>
      generalize b.pc c = q at hown
      cases hown with
      | stay => exact .locked n
      | guardFail => exact .locking n
  | act n =>
    generalize b.pc c = q at hown
    cases hown
    exact .notify _
  | notifyAll n | notifyOne n =>
    generalize b.pc c = q at hown
    cases hown with
    | stay => exact .leaving n
    | _ => exact .notifying n _
  | unlock n =>
    generalize b.pc c = q at hown
    cases hown
    exact at_again n

@[simp] theorem left_again (n : Nat) : left (again n) = n := by
  cases n <;> rfl

omit [DecidableEq C] in
/-- A body takes its turn, or makes a call that is none. -/
private theorem Called.cases {l next : Local} (h : Called R c op l next) :
    (∃ n, l = .waited n ∧ op = .write () (R.act c) ∧ next = .notify (n - 1)) ∨
      (∀ f, op ≠ .write () f) ∧ left next = left l := by
  cases h with
  | act n => exact .inl ⟨n, rfl, rfl, rfl⟩
  | unlock n => exact .inr ⟨by simp, left_again n⟩
  | lock | wait | notifyAll | notifyOne => exact .inr ⟨by simp, rfl⟩

private theorem write_step {b b' : CondVar.State C Unit Unit D} {f : D → D}
    (h : CondVar.step (c, .write () f) b = some b') :
    c ∈ b.owners () ∧ b'.owners = b.owners ∧ b'.shared () = f (b.shared ()) := by
  cases hp : b.pc c with
  | running =>
    simp only [CondVar.step, hp] at h
    split at h
    · cases h
      exact ⟨‹_›, rfl, by simp⟩
    · cases h
  | _ => simp [CondVar.step, hp] at h

/-- A step is the turn of the coroutine that takes it, or leaves the data and the turns. -/
theorem Taken.data (hs : Inv R d₀ rounds s) (h : Taken R c op s t) :
    ((∀ f, op ≠ .write () f) ∧ t.base.shared () = s.base.shared () ∧ ∀ x, left (t.loc x) = left (s.loc x)) ∨
    (op = .write () (R.act c) ∧ (∃ n, t.loc c = .notify n) ∧ c ∈ t.base.owners () ∧
      play R c (s.base.shared (), fun x => left (s.loc x)) = some (t.base.shared (), fun x => left (t.loc x))) := by
  have hsame : (∀ f, op ≠ .write () f) → t.base.shared () = s.base.shared () := fun hw =>
    (step_shared h.base ()).resolve_right fun ⟨_, f, hf⟩ => hw f hf
  rcases h.how with ⟨hr, next, hc, ht⟩ | ⟨hi, ht⟩
  · rcases hc.cases with ⟨n, hl, rfl, rfl⟩ | ⟨hw, hleft⟩
    · obtain ⟨ho, hos, hd⟩ := write_step h.base
      have hp := hs.point c
      rw [hr, hl] at hp
      cases hp with
      | acting n hturn =>
        refine .inr ⟨rfl, ⟨n, by rw [ht, Function.update_self]; rfl⟩, hos ▸ ho, ?_⟩
        have hpos : 0 < left (s.loc c) := by
          rw [hl]
          exact Nat.succ_pos n
        rw [play, if_pos ⟨hturn, hpos⟩, hd, ht]
        congr 2
        funext x
        by_cases hx : x = c
        · subst hx
          rw [Function.update_self, Function.update_self]
          change left (s.loc x) - 1 = _
          rw [hl]
          rfl
        · rw [Function.update_of_ne hx, Function.update_of_ne hx]
    · refine .inl ⟨hw, hsame hw, fun x => ?_⟩
      rw [ht]
      by_cases hx : x = c
      · subst hx
        rw [Function.update_self, hleft]
      · rw [Function.update_of_ne hx]
  · have hw : ∀ f, op ≠ .write () f := by
      rintro f rfl
      cases hi
    exact .inl ⟨hw, hsame hw, fun x => by rw [ht]⟩

theorem play_turn {R : Rules C D} {p q : D × (C → Nat)} (h : play R c p = some q) : R.turn c p.1 = true := by
  unfold play at h
  split at h
  · rename_i hc
    exact hc.1
  · cases h

private theorem Taken.point (hs : Inv R d₀ rounds s) (h : Taken R c op s t) (x : C) :
    At R (t.base.shared ()) x (t.loc x) (t.base.pc x) := by
  by_cases hx : x = c
  · subst hx
    rcases h.how with ⟨hr, next, hc, ht⟩ | ⟨hi, ht⟩
    · rw [ht, Function.update_self]
      have hp := hs.point x
      rw [hr] at hp
      exact hp.call hs.base hr hc h.base
    · rw [ht]
      have hd : t.base.shared () = s.base.shared () :=
        (step_shared h.base ()).resolve_right fun ⟨_, f, hf⟩ => by rw [hf] at hi; cases hi
      rw [hd]
      exact (hs.point x).internal (step_self hs.base h.base) hi
  · rw [h.loc_other hx]
    have hp : At R (s.base.shared ()) x (s.loc x) (t.base.pc x) := by
      refine (hs.point x).moved (step_other hs.base h.base hx) fun v m cond hw hne => ?_
      rw [hw] at hne
      exact (leaves_queue hs.base h.base hw hne).1
    rcases h.data hs with ⟨-, hd, -⟩ | ⟨-, -, hc, hplay⟩
    · rw [hd]
      exact hp
    · refine hp.write (fun hx' => hx (R.alone _ _ _ hx' (play_turn hplay))) ?_
      cases ho : owning (t.base.pc x) with
      | none => rfl
      | some m => exact absurd (owner_unique (NotifyPlaces.inv_step hs.base h.base) hc
          ((NotifyPlaces.inv_step hs.base h.base).owner x m ho)) hx

omit [DecidableEq C] in
private theorem holds_moved {g : Prop} {l : Local} {p q : Pc C Unit Unit D} (hm : Moved g p q) (h : holds l p = true) :
    holds l q = true := by
  cases hm with
  | stay => exact h
  | grant | pick | enqueue | take => simp [holds, holding, owning] at h

omit [DecidableEq C] in
/-- The owner goes on with its body, short of the end of the section. -/
private theorem holds_call {l next : Local} {q : Pc C Unit Unit D} (hl : critical l = true)
    (hc : Called R c op l next) (hu : op ≠ .unlock ()) (hown : Own op .running q) : holds next q = true := by
  cases hc with
  | wait | act | notifyAll | notifyOne => cases hown <;> rfl
  | unlock => exact absurd rfl hu
  | lock => cases hl

omit [DecidableEq C] in
private theorem holds_internal {l : Local} {p q : Pc C Unit Unit D} (h : holds l p = true) (hown : Own op p q)
    (hi : internal op = true) (hp : ∀ cond, p ≠ .waitUnlock () () cond) : holds l q = true := by
  cases hown with
  | release v m cond => exact absurd rfl (hp cond)
  | lockQueue | lockTake | guardQueue | guardTake | enter => simp [holds, holding, owning] at h
  | lockFail | guardFail | wait => cases hi
  | _ =>
    simp only [holds, Bool.and_eq_true] at h
    simp [holds, h.1, holding, owning]

omit [DecidableEq C] in
private theorem critical_of_holds {l : Local} {p : Pc C Unit Unit D} (h : holds l p = true) : critical l = true := by
  simp only [holds, Bool.and_eq_true] at h
  exact h.1

private theorem Taken.owned (hs : Inv R d₀ rounds s) (h : Taken R c op s t) (hx : x ∈ t.base.owners ()) :
    holds (t.loc x) (t.base.pc x) = true := by
  rcases owner_origin hs.base h.base hx with ⟨ho, hne⟩ | ⟨rfl, hlock, hr⟩ | ⟨a, ha, -⟩
  · have hold := (hs.owner x).mp ho
    by_cases hxc : x = c
    · subst hxc
      obtain ⟨hu, hw⟩ := hne rfl
      have hown := step_self hs.base h.base
      rcases h.how with ⟨hr, next, hc, ht⟩ | ⟨hi, ht⟩
      · rw [ht, Function.update_self]
        rw [hr] at hown
        exact holds_call (critical_of_holds hold) hc hu hown
      · rw [ht]
        exact holds_internal hold hown hi (hw ())
    · rw [h.loc_other hxc]
      exact holds_moved (step_other hs.base h.base hxc) hold
  · rcases h.how with ⟨-, next, hc, ht⟩ | ⟨hi, -⟩
    · -- `lock_guard()` is the only call that takes a free mutex
      rw [ht, Function.update_self, hr]
      generalize s.loc x = l at hc
      cases hc with
      | lock => rfl
      | wait | act | notifyAll | notifyOne | unlock => cases hlock
    · cases op with
      | lockSuspend | waitUnlock | waitPush | notifyNext | notifyEnqueue | resume => cases hlock
      | _ => cases hi
  · have hp := h.point hs x
    rw [ha] at hp ⊢
    generalize t.loc x = l at hp
    cases hp <;> rfl

private theorem Taken.owns (hs : Inv R d₀ rounds s) (h : Taken R c op s t)
    (hx : holds (t.loc x) (t.base.pc x) = true) : x ∈ t.base.owners () := by
  have hb := NotifyPlaces.inv_step hs.base h.base
  have hcrit := critical_of_holds hx
  have hkept (hcs : critical (s.loc x) = true) (hu : x = c → op ≠ .unlock ()) (hh : holding (t.base.pc x) = true) :
      x ∈ t.base.owners () := by
    refine owner_step hs.base h.base (fun hp => (hs.owner x).mpr ?_) hu hh
    simp [holds, hcs, hp]
  cases ho : owning (t.base.pc x) with
  | some m => exact hb.owner x m ho
  | none =>
    have hh : holding (t.base.pc x) = true := by simpa [holds, hcrit, ho] using hx
    by_cases hxc : x = c
    · subst hxc
      rcases h.how with ⟨hr, next, hc, ht⟩ | ⟨hi, ht⟩
      · rw [ht, Function.update_self] at hcrit
        generalize hl : s.loc x = l at hc
        cases hc with
        | lock n => exact lock_owner h.base (.inr rfl) hh
        | unlock n => cases n <;> cases hcrit
        | wait | act | notifyAll | notifyOne => exact hkept (by rw [hl]; rfl) (by simp) hh
      · rw [ht] at hcrit
        refine hkept hcrit (fun _ => ?_) hh
        rintro rfl
        cases hi
    · exact hkept (h.loc_other hxc ▸ hcrit) (fun he => absurd he hxc) hh

/-- Nobody but the notifier takes entries out of the queue. -/
private theorem Taken.count (hs : Inv R d₀ rounds s) (h : Taken R c op s t) {n : Nat}
    (hx : remaining (t.base.pc x) = some n) : n ≤ (t.base.cv ()).waiters.length := by
  have hmove := step_queue hs.base h.base ()
  by_cases hxc : x = c
  · subst hxc
    have hcount := hs.count x
    generalize t.base.cv () = b at hmove ⊢
    generalize s.base.cv () = a at hmove hcount
    generalize t.base.pc x = q at hmove hx
    generalize s.base.pc x = p at hmove hcount
    cases hmove with
    | stay _ hq =>
      cases q with
      | notify | notifyEnqueue => exact absurd rfl hq
      | _ => cases hx
    | enter | notified => cases hx
    | notifyOne ws =>
      cases hx
      exact Nat.min_le_right 1 _
    | notifyAll ws =>
      cases hx
      exact Nat.le_refl _
    | putBack o k w rest =>
      cases hx
      have := hcount (n + 1) rfl
      simp only [List.length_append, List.length_cons] at this ⊢
      omega
    | pop o k w rest =>
      cases hx
      exact Nat.le_of_succ_le_succ (hcount (n + 1) rfl)
    | enqueue k w =>
      cases hx
      exact hcount n rfl
  · have hother := step_other hs.base h.base hxc
    have hp : remaining (s.base.pc x) = some n := by
      generalize t.base.pc x = q at hother hx
      generalize s.base.pc x = p at hother
      cases hother with
      | stay => exact hx
      | _ => cases hx
    have hnx : notifying (s.base.pc x) = some () := by
      cases hpx : s.base.pc x with
      | notify | notifyEnqueue => rfl
      | _ =>
        rw [hpx] at hp
        cases hp
    rw [queue_kept hs.base h.base hxc hnx]
    exact hs.count x n hp

theorem Taken.inv (hs : Inv R d₀ rounds s) (h : Taken R c op s t) : Inv R d₀ rounds t where
  base := NotifyPlaces.inv_step hs.base h.base
  point := h.point hs
  owner _ := ⟨h.owned hs, h.owns hs⟩
  count _ _ := h.count hs
  game := by
    rcases h.data hs with ⟨-, hd, hleft⟩ | ⟨-, -, -, hplay⟩
    · rw [hd, funext hleft]
      exact hs.game
    · exact hs.game.next trivial hplay

theorem inv_init : Inv R d₀ rounds (init d₀ rounds) where
  base := HandlePlaces.inv_init _
  point c := at_again _
  owner c := by
    cases hn : rounds c <;> simp [init, hn, again, holds, critical, CondVar.init]
  count c n h := by cases h
  game := by
    have hleft : (fun c => left ((init d₀ rounds).loc c)) = rounds := funext fun c => left_again _
    rw [hleft]
    exact .start

theorem inv_step {l : Label C D} (hs : Inv R d₀ rounds s) (h : step R l s = some t) : Inv R d₀ rounds t := by
  obtain ⟨op, ht⟩ := step_taken h
  exact ht.inv hs

end TinyCoro.Client.TurnTaking
