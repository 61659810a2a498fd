import Mathlib.Logic.Function.Basic
import Mathlib.Data.List.Nodup
import Mathlib.Tactic.Simps.Basic
import TinyCoro.Comp.Mutex
import TinyCoro.Transition.Runs

/-! One mutex with every atomic access as a step of its own: the compare-exchange of
`try_lock` takes no lock and can run between the test and the push of a section under
the spinlock. The sections still act like the atomic operations of `Mutex`, and grants
are first come, first served. -/
namespace TinyCoro.Comp.MutexFifo
open Transition
variable {C : Type}

/-- Where the section under the spinlock stands. `test`, `push` and `submit` have a
handle in hand; `front` and `release` belong to the `unlock` of a coroutine, which
`back` names after the handle has been taken from the queue. -/
inductive Section (C : Type)
  | free
  | test (handle : C)
  | push (handle : C)
  | submit (handle : C) (back : Option C)
  | front (c : C)
  | release (c : C)
  | leave (back : Option C)

/-- `suspending` is between a failed `await_ready` and `await_suspend`; `parked` is
suspended on a condition variable; `inHand` is suspended with the handle in the hand of
the section. -/
inductive Pc
  | running
  | suspending
  | parked
  | inHand
  | queued
  | submitted
  | unlocking
  deriving DecidableEq, Repr

/-- `owner` is history, as are the last four lists: the handles given to `submit_task`,
those that `await_suspend` or `enqueue_waiter` was called with, those pushed to
`m_waiters` and those that `unlock` took from it, in the order of the steps. -/
structure State (C : Type) where
  mtx : Mutex C
  sect : Section C
  pc : C → Pc
  owner : Option C
  submissions : List C
  suspensions : List C
  queuedOrder : List C
  grantOrder : List C

def init : State C := ⟨.init, .free, fun _ => .running, none, [], [], [], []⟩

inductive Label (C : Type)
  | tryLock (c : C)
  | awaitReady (c : C)
  | suspendEnter (c : C)
  | enqueueEnter (handle : C)
  | compareExchange
  | push
  | submit
  | unlockEnter (c : C)
  | front
  | release
  | leave
  | resume (c : C)
  | park (c : C)
  deriving DecidableEq, Repr

variable [DecidableEq C]

namespace State

@[simps] def goto (c : C) (p : Pc) (s : State C) : State C := { s with pc := Function.update s.pc c p }

def exchange (c : C) (s : State C) : Bool × State C :=
  match s.mtx.tryLock with
  | (true, x) => (true, { s with mtx := x, owner := some c })
  | (false, x) => (false, { s with mtx := x })

def enter (handle : C) (s : State C) : State C :=
  { s with sect := .test handle, suspensions := s.suspensions ++ [handle] }.goto handle .inHand

end State

def step (l : Label C) (s : State C) : Option (State C) :=
  match l with
  | .tryLock c => if s.pc c = .running then some (s.exchange c).2 else none
  | .awaitReady c =>
    if s.pc c = .running then match s.exchange c with
      | (true, t) => some t
      | (false, t) => some (t.goto c .suspending)
    else none
  | .suspendEnter c => match s.sect with
    | .free => if s.pc c = .suspending then some (s.enter c) else none
    | _ => none
  | .enqueueEnter h => match s.sect with
    | .free => if s.pc h = .parked then some (s.enter h) else none
    | _ => none
  | .compareExchange => match s.sect with
    | .test h => match s.exchange h with
      | (true, t) => some { t with sect := .submit h none }
      | (false, t) => some { t with sect := .push h }
    | _ => none
  | .push => match s.sect with
    | .push h => some ({ s with
        mtx := { s.mtx with waiters := s.mtx.waiters ++ [h] }
        queuedOrder := s.queuedOrder ++ [h]
        sect := .leave none }.goto h .queued)
    | _ => none
  | .submit => match s.sect with
    | .submit h back => some ({ s with submissions := s.submissions ++ [h], sect := .leave back }.goto h .submitted)
    | _ => none
  | .unlockEnter c => match s.sect with
    | .free => if s.pc c = .running ∧ s.owner = some c then some ({ s with sect := .front c }.goto c .unlocking) else none
    | _ => none
  | .front => match s.sect with
    | .front c => match s.mtx.waiters with
      | h :: rest => some ({ s with
          mtx := { s.mtx with waiters := rest }
          owner := some h
          grantOrder := s.grantOrder ++ [h]
          sect := .submit h (some c) }.goto h .inHand)
      | [] => some { s with sect := .release c }
    | _ => none
  | .release => match s.sect with
    | .release c => some { s with mtx := { s.mtx with locked := false }, owner := none, sect := .leave (some c) }
    | _ => none
  | .leave => match s.sect with
    | .leave none => some { s with sect := .free }
    | .leave (some c) => some ({ s with sect := .free }.goto c .running)
    | _ => none
  | .resume c => if s.pc c = .submitted then some (s.goto c .running) else none
  | .park c => if s.pc c = .running then some (s.goto c .parked) else none

inductive Steps (s : State C) : Label C → State C → Prop
  | tryLock (c : C) (hp : s.pc c = .running) (hl : s.mtx.locked = false) :
    Steps s (.tryLock c) { s with mtx := { s.mtx with locked := true }, owner := some c }
  | tryLockFail (c : C) (hp : s.pc c = .running) (hl : s.mtx.locked = true) : Steps s (.tryLock c) s
  | awaitReady (c : C) (hp : s.pc c = .running) (hl : s.mtx.locked = false) :
    Steps s (.awaitReady c) { s with mtx := { s.mtx with locked := true }, owner := some c }
  | awaitReadyFail (c : C) (hp : s.pc c = .running) (hl : s.mtx.locked = true) :
    Steps s (.awaitReady c) (s.goto c .suspending)
  | suspendEnter (c : C) (hp : s.pc c = .suspending) (hf : s.sect = .free) : Steps s (.suspendEnter c) (s.enter c)
  | enqueueEnter (h : C) (hp : s.pc h = .parked) (hf : s.sect = .free) : Steps s (.enqueueEnter h) (s.enter h)
  | take (h : C) (hf : s.sect = .test h) (hl : s.mtx.locked = false) :
    Steps s .compareExchange
      { s with mtx := { s.mtx with locked := true }, owner := some h, sect := .submit h none }
  | found (h : C) (hf : s.sect = .test h) (hl : s.mtx.locked = true) : Steps s .compareExchange { s with sect := .push h }
  | push (h : C) (hf : s.sect = .push h) :
    Steps s .push ({ s with
      mtx := { s.mtx with waiters := s.mtx.waiters ++ [h] }
      queuedOrder := s.queuedOrder ++ [h]
      sect := .leave none }.goto h .queued)
  | submit (h : C) (back : Option C) (hf : s.sect = .submit h back) :
    Steps s .submit ({ s with submissions := s.submissions ++ [h], sect := .leave back }.goto h .submitted)
  | unlockEnter (c : C) (hp : s.pc c = .running) (ho : s.owner = some c) (hf : s.sect = .free) :
    Steps s (.unlockEnter c) ({ s with sect := .front c }.goto c .unlocking)
  | handOff (c h : C) (rest : List C) (hf : s.sect = .front c) (hw : s.mtx.waiters = h :: rest) :
    Steps s .front ({ s with
      mtx := { s.mtx with waiters := rest }
      owner := some h
      grantOrder := s.grantOrder ++ [h]
      sect := .submit h (some c) }.goto h .inHand)
  | empty (c : C) (hf : s.sect = .front c) (hw : s.mtx.waiters = []) : Steps s .front { s with sect := .release c }
  | release (c : C) (hf : s.sect = .release c) :
    Steps s .release { s with mtx := { s.mtx with locked := false }, owner := none, sect := .leave (some c) }
  | leave (hf : s.sect = .leave none) : Steps s .leave { s with sect := .free }
  | leaveBack (c : C) (hf : s.sect = .leave (some c)) : Steps s .leave ({ s with sect := .free }.goto c .running)
  | resume (c : C) (hp : s.pc c = .submitted) : Steps s (.resume c) (s.goto c .running)
  | park (c : C) (hp : s.pc c = .running) : Steps s (.park c) (s.goto c .parked)

omit [DecidableEq C] in
private theorem exchange_free (c : C) {s : State C} (hl : s.mtx.locked = false) :
    s.exchange c = (true, { s with mtx := { s.mtx with locked := true }, owner := some c }) := by
  simp [State.exchange, Mutex.tryLock, hl]

omit [DecidableEq C] in
private theorem exchange_locked (c : C) {s : State C} (hl : s.mtx.locked = true) : s.exchange c = (false, s) := by
  have hx : ({ s.mtx with locked := true } : Mutex C) = s.mtx := by rw [← hl]
  simp [State.exchange, Mutex.tryLock, hl, hx]

theorem step_cases {l : Label C} {s t : State C} (h : step l s = some t) : Steps s l t := by
  cases l with
  | tryLock c =>
    simp only [step] at h
    split at h <;> cases h
    rename_i hp
    cases hl : s.mtx.locked with
    | false =>
      rw [exchange_free c hl]
      exact .tryLock c hp hl
    | true =>
      rw [exchange_locked c hl]
      exact .tryLockFail c hp hl
  | awaitReady c =>
    simp only [step] at h
    split at h
    · rename_i hp
      cases hl : s.mtx.locked with
      | false =>
        rw [exchange_free c hl] at h
        cases h
        exact .awaitReady c hp hl
      | true =>
        rw [exchange_locked c hl] at h
        cases h
        exact .awaitReadyFail c hp hl
    · cases h
  | suspendEnter c | enqueueEnter c =>
    simp only [step] at h
    split at h
    · split at h <;> cases h
      constructor <;> assumption
    · cases h
  | compareExchange =>
    simp only [step] at h
    split at h
    · rename_i c hf
      cases hl : s.mtx.locked with
      | false =>
        rw [exchange_free c hl] at h
        cases h
        exact .take c hf hl
      | true =>
        rw [exchange_locked c hl] at h
        cases h
        exact .found c hf hl
    · cases h
  | push | submit | release =>
    simp only [step] at h
    split at h <;> cases h
    constructor
    assumption
  | unlockEnter c =>
    simp only [step] at h
    split at h
    · split at h <;> cases h
      rename_i hf hp
      exact .unlockEnter c hp.1 hp.2 hf
    · cases h
  | front =>
    simp only [step] at h
    split at h
    · split at h <;> cases h
      · exact .handOff _ _ _ ‹_› ‹_›
      · exact .empty _ ‹_› ‹_›
    · cases h
  | leave =>
    simp only [step] at h
    split at h <;> cases h
    · exact .leave ‹_›
    · exact .leaveBack _ ‹_›
  | resume c | park c =>
    simp only [step] at h
    split at h <;> cases h
    constructor
    assumption

def hand : Section C → Option C
  | .test h | .push h | .submit h _ => some h
  | _ => none

def unlocker : Section C → Option C
  | .front c | .release c => some c
  | .submit _ back | .leave back => back
  | _ => none

def owed : Pc → Nat
  | .inHand | .queued => 1
  | _ => 0

structure Places (s : State C) : Prop where
  queue : ∀ c, c ∈ s.mtx.waiters ↔ s.pc c = .queued
  hand : ∀ c, hand s.sect = some c ↔ s.pc c = .inHand
  unlocker : ∀ c, unlocker s.sect = some c → s.pc c = .unlocking
  count : ∀ c, s.suspensions.count c = s.submissions.count c + owed (s.pc c)

structure Inv (s : State C) : Prop where
  places : Places s
  nodup : s.mtx.waiters.Nodup
  order : s.queuedOrder = s.grantOrder ++ s.mtx.waiters
  held : s.mtx.locked = true ↔ s.owner ≠ none
  free : s.mtx.locked = false → s.mtx.waiters = []
  front : ∀ c, s.sect = .front c ∨ s.sect = .release c → s.owner = some c
  release : ∀ c, s.sect = .release c → s.mtx.waiters = []
  push : ∀ h, s.sect = .push h → s.mtx.locked = true

theorem inv_init : Inv (init : State C) :=
  ⟨⟨by simp [init, Mutex.init], by simp [init, hand], by simp [init, unlocker], by simp [init, owed]⟩,
    by simp [init, Mutex.init], by simp [init, Mutex.init], by simp [init, Mutex.init], by simp [init, Mutex.init],
    by simp [init], by simp [init], by simp [init]⟩

/-- One coroutine moves, and everything else is where it was. -/
private theorem Places.move {s t : State C} (hs : Places s) {c : C} {p : Pc} (hpc : t.pc = Function.update s.pc c p)
    (hq : ∀ x, x ≠ c → (x ∈ t.mtx.waiters ↔ x ∈ s.mtx.waiters)) (hqc : c ∈ t.mtx.waiters ↔ p = .queued)
    (hh : ∀ x, x ≠ c → (MutexFifo.hand t.sect = some x ↔ MutexFifo.hand s.sect = some x))
    (hhc : MutexFifo.hand t.sect = some c ↔ p = .inHand)
    (hu : ∀ x, x ≠ c → MutexFifo.unlocker t.sect = some x → MutexFifo.unlocker s.sect = some x)
    (huc : MutexFifo.unlocker t.sect = some c → p = .unlocking)
    (hn : ∀ x, x ≠ c → t.suspensions.count x = s.suspensions.count x ∧ t.submissions.count x = s.submissions.count x)
    (hnc : t.suspensions.count c = t.submissions.count c + owed p) : Places t := by
  refine ⟨fun x => ?_, fun x => ?_, fun x => ?_, fun x => ?_⟩
  all_goals
    rw [hpc]
    by_cases hx : x = c
  · rw [hx, Function.update_self]
    exact hqc
  · rw [Function.update_of_ne hx, hq x hx]
    exact hs.queue x
  · rw [hx, Function.update_self]
    exact hhc
  · rw [Function.update_of_ne hx, hh x hx]
    exact hs.hand x
  · rw [hx, Function.update_self]
    exact huc
  · rw [Function.update_of_ne hx]
    exact fun h => hs.unlocker x (hu x hx h)
  · rw [hx, Function.update_self]
    exact hnc
  · rw [Function.update_of_ne hx, (hn x hx).1, (hn x hx).2]
    exact hs.count x

/-- A coroutine that moves outside of the mutex. -/
private theorem Places.goto {s : State C} (hs : Places s) {c : C} {p : Pc}
    (hu : MutexFifo.unlocker s.sect = some c → p = .unlocking) (ho : owed (s.pc c) = 0) (hp : owed p = 0) :
    Places (s.goto c p) := by
  have hnone : ∀ q : Pc, owed q = 0 → q ≠ .queued ∧ q ≠ .inHand := by
    intro q hq
    constructor <;> rintro rfl <;> cases hq
  refine hs.move rfl (fun _ _ => .rfl) ?_ (fun _ _ => .rfl) ?_ (fun _ _ => id) hu (fun _ _ => ⟨rfl, rfl⟩) ?_
  · exact iff_of_false (fun h => (hnone _ ho).1 ((hs.queue c).mp h)) (hnone p hp).1
  · exact iff_of_false (fun h => (hnone _ ho).2 ((hs.hand c).mp h)) (hnone p hp).2
  · rw [hp]
    have := hs.count c
    rwa [ho] at this

/-- The places do not look at the flag and the history of grants. -/
private theorem Places.same {s t : State C} (hs : Places s) (hpc : t.pc = s.pc)
    (hw : t.mtx.waiters = s.mtx.waiters) (hh : MutexFifo.hand t.sect = MutexFifo.hand s.sect)
    (hu : ∀ c, MutexFifo.unlocker t.sect = some c → MutexFifo.unlocker s.sect = some c)
    (hn : t.suspensions = s.suspensions) (hb : t.submissions = s.submissions) : Places t := by
  refine ⟨?_, ?_, ?_, ?_⟩
  · rw [hpc, hw]
    exact hs.queue
  · rw [hpc, hh]
    exact hs.hand
  · rw [hpc]
    exact fun c h => hs.unlocker c (hu c h)
  · rw [hpc, hn, hb]
    exact hs.count

private theorem Inv.goto {s : State C} (hs : Inv s) {c : C} {p : Pc} (hc : s.pc c ≠ .unlocking)
    (ho : owed (s.pc c) = 0) (hp : owed p = 0) : Inv (s.goto c p) :=
  ⟨hs.places.goto (fun h => absurd (hs.places.unlocker c h) hc) ho hp, hs.nodup, hs.order, hs.held, hs.free, hs.front,
    hs.release, hs.push⟩

/-- A successful compare-exchange. The mutex was free, so nobody is queued and no
`unlock` is under way. -/
private theorem Inv.take {s : State C} (hs : Inv s) (c : C) (hl : s.mtx.locked = false) {x : Section C}
    (hh : hand x = hand s.sect) (hu : ∀ c, unlocker x = some c → unlocker s.sect = some c)
    (hf : ∀ c, x = .front c ∨ x = .release c → s.sect = x) :
    Inv { s with mtx := { s.mtx with locked := true }, owner := some c, sect := x } := by
  have hno : ∀ c, ¬ (x = .front c ∨ x = .release c) := by
    intro c hx
    have ho := hs.front c (by rw [hf c hx]; exact hx)
    have := hs.held.mpr (by simp [ho])
    cases hl.symm.trans this
  exact ⟨hs.places.same rfl rfl hh hu rfl rfl, hs.nodup, hs.order, by simp, nofun, fun c hc => absurd hc (hno c),
    fun c hc => absurd (.inr hc) (hno c), fun _ _ => rfl⟩

private theorem Inv.enter {s : State C} (hs : Inv s) {c : C} (ho : owed (s.pc c) = 0) (hf : s.sect = .free) :
    Inv (s.enter c) := by
  have hcount := hs.places.count c
  rw [ho] at hcount
  refine ⟨hs.places.move rfl (fun _ _ => .rfl) ?_ (fun x hx => ?_) ?_ nofun nofun (fun x hx => ⟨?_, rfl⟩) ?_, hs.nodup,
    hs.order, hs.held, hs.free, nofun, nofun, nofun⟩
  · refine iff_of_false (fun h => ?_) nofun
    change c ∈ s.mtx.waiters at h
    rw [(hs.places.queue c).mp h] at ho
    cases ho
  · rw [hf]
    exact iff_of_false (fun h => hx (Option.some.inj h).symm) nofun
  · exact iff_of_true rfl rfl
  · simp [State.enter, Ne.symm hx]
  · simpa [State.enter, owed] using hcount

private theorem Inv.pushed {s : State C} (hs : Inv s) {h : C} (hf : s.sect = .push h) :
    Inv ({ s with
      mtx := { s.mtx with waiters := s.mtx.waiters ++ [h] }
      queuedOrder := s.queuedOrder ++ [h]
      sect := .leave none }.goto h .queued) := by
  have hp : s.pc h = .inHand := (hs.places.hand h).mp (by rw [hf]; rfl)
  have hnot : h ∉ s.mtx.waiters := by
    rw [hs.places.queue, hp]
    nofun
  have hcount := hs.places.count h
  rw [hp] at hcount
  refine ⟨hs.places.move rfl (fun x hx => ?_) ?_ (fun x hx => ?_) ?_ nofun nofun (fun _ _ => ⟨rfl, rfl⟩) hcount, ?_, ?_,
    hs.held, fun hl => ?_, nofun, nofun, nofun⟩
  · simp [hx]
  · simp
  · rw [hf]
    exact iff_of_false nofun (fun h => hx (Option.some.inj h).symm)
  · exact iff_of_false nofun nofun
  · exact hs.nodup.append (by simp) (by simpa using hnot)
  · simp [hs.order]
  · cases (hs.push h hf).symm.trans hl

private theorem Inv.submitted {s : State C} (hs : Inv s) {h : C} {back : Option C} (hf : s.sect = .submit h back) :
    Inv ({ s with submissions := s.submissions ++ [h], sect := .leave back }.goto h .submitted) := by
  have hp : s.pc h = .inHand := (hs.places.hand h).mp (by rw [hf]; rfl)
  have hcount := hs.places.count h
  rw [hp] at hcount
  refine ⟨hs.places.move rfl (fun _ _ => .rfl) ?_ (fun x hx => ?_) ?_ (fun x _ hx => ?_) (fun hx => ?_)
    (fun x hx => ⟨rfl, ?_⟩) ?_, hs.nodup, hs.order, hs.held, hs.free, nofun, nofun, nofun⟩
  · refine iff_of_false (fun hm => ?_) nofun
    cases hp.symm.trans ((hs.places.queue h).mp hm)
  · rw [hf]
    exact iff_of_false nofun (fun h => hx (Option.some.inj h).symm)
  · exact iff_of_false nofun nofun
  · rw [hf]
    exact hx
  · have := hs.places.unlocker h (by rw [hf]; exact hx)
    cases hp.symm.trans this
  · simp [Ne.symm hx]
  · simpa [owed] using hcount

private theorem Inv.unlockEnter {s : State C} (hs : Inv s) {c : C} (hp : s.pc c = .running) (ho : s.owner = some c)
    (hf : s.sect = .free) : Inv ({ s with sect := .front c }.goto c .unlocking) := by
  have hcount := hs.places.count c
  rw [hp] at hcount
  refine ⟨hs.places.move rfl (fun _ _ => .rfl) ?_ (fun _ _ => by rw [hf]; exact .rfl) ?_ (fun x hx hu => ?_) (fun _ => rfl)
    (fun _ _ => ⟨rfl, rfl⟩) hcount, hs.nodup, hs.order, hs.held, hs.free, fun x hx => ?_, nofun, nofun⟩
  · refine iff_of_false (fun hm => ?_) nofun
    cases hp.symm.trans ((hs.places.queue c).mp hm)
  · exact iff_of_false nofun nofun
  · exact absurd (Option.some.inj hu).symm hx
  · rcases hx with hx | hx <;> cases hx
    exact ho

private theorem Inv.handOff {s : State C} (hs : Inv s) {c h : C} {rest : List C} (hf : s.sect = .front c)
    (hw : s.mtx.waiters = h :: rest) :
    Inv ({ s with
      mtx := { s.mtx with waiters := rest }
      owner := some h
      grantOrder := s.grantOrder ++ [h]
      sect := .submit h (some c) }.goto h .inHand) := by
  have hp : s.pc h = .queued := (hs.places.queue h).mp (by simp [hw])
  have hn := hs.nodup
  rw [hw, List.nodup_cons] at hn
  have hcount := hs.places.count h
  rw [hp] at hcount
  have hl : s.mtx.locked = true := by
    by_contra hl
    simp [hs.free (by simpa using hl)] at hw
  refine ⟨hs.places.move rfl (fun x hx => ?_) ?_ (fun x hx => ?_) ?_ (fun x _ hu => ?_) (fun hu => ?_)
    (fun _ _ => ⟨rfl, rfl⟩) hcount, hn.2, ?_, ?_, fun h => ?_, nofun, nofun, nofun⟩
  · simp [hw, hx]
  · exact iff_of_false hn.1 nofun
  · rw [hf]
    exact iff_of_false (fun h => hx (Option.some.inj h).symm) nofun
  · exact iff_of_true rfl rfl
  · rw [hf]
    exact hu
  · have := hs.places.unlocker h (by rw [hf]; exact hu)
    cases hp.symm.trans this
  · simp [hs.order, hw]
  · simpa using hl
  · cases hl.symm.trans h

private theorem Inv.released {s : State C} (hs : Inv s) {c : C} (hf : s.sect = .release c) :
    Inv { s with mtx := { s.mtx with locked := false }, owner := none, sect := .leave (some c) } := by
  have hw := hs.release c hf
  exact ⟨hs.places.same rfl rfl (by rw [hf]; rfl) (by rw [hf]; exact fun _ => id) rfl rfl, hs.nodup, hs.order, by simp,
    fun _ => hw, nofun, nofun, nofun⟩

theorem inv_step {l : Label C} {s t : State C} (hs : Inv s) (h : step l s = some t) : Inv t := by
  cases step_cases h with
  | tryLock c hp hl | awaitReady c hp hl => exact hs.take c hl rfl (fun _ => id) fun _ _ => rfl
  | tryLockFail c hp hl => exact hs
  | awaitReadyFail c hp hl => exact hs.goto (by simp [hp]) (by rw [hp]; rfl) rfl
  | suspendEnter c hp hf | enqueueEnter c hp hf => exact hs.enter (by rw [hp]; rfl) hf
  | take c hf hl => exact hs.take c hl (by rw [hf]; rfl) nofun (by simp)
  | found c hf hl =>
    exact ⟨hs.places.same rfl rfl (by rw [hf]; rfl) nofun rfl rfl, hs.nodup, hs.order, hs.held, hs.free, nofun, nofun,
      fun _ _ => hl⟩
  | push c hf => exact hs.pushed hf
  | submit c back hf => exact hs.submitted hf
  | unlockEnter c hp ho hf => exact hs.unlockEnter hp ho hf
  | handOff c x rest hf hw => exact hs.handOff hf hw
  | empty c hf hw =>
    refine ⟨hs.places.same rfl rfl (by rw [hf]; rfl) (by rw [hf]; exact fun _ => id) rfl rfl, hs.nodup, hs.order, hs.held,
      hs.free, fun x hx => ?_, fun _ _ => hw, nofun⟩
    rcases hx with hx | hx <;> cases hx
    exact hs.front c (.inl hf)
  | release c hf => exact hs.released hf
  | leave hf =>
    exact ⟨hs.places.same rfl rfl (by rw [hf]; rfl) nofun rfl rfl, hs.nodup, hs.order, hs.held, hs.free, nofun, nofun,
      nofun⟩
  | leaveBack c hf =>
    have hp : s.pc c = .unlocking := hs.places.unlocker c (by rw [hf]; rfl)
    have hpl : Places { s with sect := .free } := hs.places.same rfl rfl (by rw [hf]; rfl) nofun rfl rfl
    exact ⟨hpl.goto nofun (by change owed (s.pc c) = 0; rw [hp]; rfl) rfl, hs.nodup, hs.order, hs.held, hs.free, nofun,
      nofun, nofun⟩
  | resume c hp | park c hp => exact hs.goto (by simp [hp]) (by rw [hp]; rfl) rfl

theorem reachable_inv {s : State C} (h : Reachable step init s) : Inv s :=
  h.invariant Inv inv_init fun _ _ _ _ hs ht => inv_step hs ht

/-- Seen from the flag and the queue, every step is nothing or one of the atomic
operations: the lock that excludes the other sections makes up for the compare-exchange
of `try_lock`, which does not take it. -/
theorem step_atomic {l : Label C} {s t : State C} (hs : Inv s) (h : step l s = some t) :
    t.mtx = s.mtx ∨ t.mtx = s.mtx.tryLock.2 ∨ (∃ c, t.mtx = (s.mtx.lockOrQueue c).2) ∨ t.mtx = s.mtx.unlock.2 := by
  cases step_cases h with
  | tryLock c hp hl | awaitReady c hp hl => exact .inr (.inl rfl)
  | take c hf hl =>
    refine .inr (.inr (.inl ⟨c, ?_⟩))
    simp [Mutex.lockOrQueue, Mutex.tryLock, hl]
  | push c hf =>
    refine .inr (.inr (.inl ⟨c, ?_⟩))
    simp [Mutex.lockOrQueue, Mutex.tryLock, hs.push c hf]
  | handOff c x rest hf hw =>
    refine .inr (.inr (.inr ?_))
    simp [Mutex.unlock, hw]
  | release c hf =>
    refine .inr (.inr (.inr ?_))
    simp [Mutex.unlock, hs.release c hf]
  | tryLockFail | awaitReadyFail | suspendEnter | enqueueEnter | found | submit | unlockEnter | empty | leave | leaveBack
  | resume | park => exact .inl rfl

/-- Only `unlock` takes a coroutine from the queue, and makes it the owner. -/
private theorem queued_until_granted {l : Label C} {s t : State C} (hs : Inv s) (h : step l s = some t) {c : C}
    (hc : s.pc c = .queued) : t.pc c = .queued ∨ (l = .front ∧ t.owner = some c) := by
  have hset : ∀ x p, s.pc x ≠ .queued → Function.update s.pc x p c = .queued := by
    intro x p hx
    rwa [Function.update_of_ne (by rintro rfl; exact hx hc)]
  have hhand : ∀ x, hand s.sect = some x → s.pc x ≠ .queued := by
    intro x hx
    rw [(hs.places.hand x).mp hx]
    nofun
  cases step_cases h with
  | tryLock | tryLockFail | awaitReady | take | found | empty | release | leave => exact .inl hc
  | awaitReadyFail x hp | suspendEnter x hp | enqueueEnter x hp | unlockEnter x hp | resume x hp | park x hp =>
    exact .inl (hset x _ (by simp [hp]))
  | push x hf => exact .inl (hset x _ (hhand x (by rw [hf]; rfl)))
  | submit x back hf => exact .inl (hset x _ (hhand x (by rw [hf]; rfl)))
  | handOff x y rest hf hw =>
    by_cases hy : c = y
    · exact .inr ⟨rfl, by rw [hy]; rfl⟩
    · exact .inl ((Function.update_of_ne hy ..).trans hc)
  | leaveBack x hf =>
    refine .inl (hset x _ ?_)
    rw [hs.places.unlocker x (by rw [hf]; rfl)]
    nofun

/-- While somebody is queued, only `unlock` makes an owner. -/
private theorem no_barging {l : Label C} {s t : State C} (hs : Inv s) (h : step l s = some t) {c : C}
    (hw : s.mtx.waiters ≠ []) (ho : t.owner = some c) : s.owner = some c ∨ l = .front := by
  have hl : s.mtx.locked ≠ false := fun hl => hw (hs.free hl)
  cases step_cases h with
  | tryLock x hp hf | awaitReady x hp hf => exact absurd hf hl
  | take x hf hx => exact absurd hx hl
  | handOff => exact .inr rfl
  | release => cases ho
  | tryLockFail | awaitReadyFail | suspendEnter | enqueueEnter | found | push | submit | unlockEnter | empty | leave
  | leaveBack | resume | park => exact .inl ho

/-- Whoever found the mutex locked is pushed to `m_waiters` and is there once until
`unlock` makes it the owner, in the order of the pushes; nobody becomes the owner in
another way while somebody is queued; and every suspension has one submission, which is
still to come exactly as long as the handle is queued or in the hand of the section. -/
theorem mutex_grants_fifo {s : State C} (h : Reachable step init s) :
    (∀ c, s.sect = .push c → ∃ t, step .push s = some t ∧ t.pc c = .queued) ∧
    (∀ c, s.pc c = .queued → s.mtx.waiters.count c = 1) ∧
    (∀ l t c, step l s = some t → s.pc c = .queued → t.pc c = .queued ∨ (l = .front ∧ t.owner = some c)) ∧
    s.queuedOrder = s.grantOrder ++ s.mtx.waiters ∧
    (∀ l t c, step l s = some t → s.mtx.waiters ≠ [] → t.owner = some c → s.owner = some c ∨ l = .front) ∧
    (∀ c, s.suspensions.count c = s.submissions.count c + owed (s.pc c)) := by
  have hs := reachable_inv h
  refine ⟨fun c hf => ?_, fun c hc => ?_, fun l t c ht => queued_until_granted hs ht, hs.order,
    fun l t c ht => no_barging hs ht, hs.places.count⟩
  · exact ⟨_, by simp only [step, hf]; rfl, Function.update_self ..⟩
  · exact List.count_eq_one_of_mem hs.nodup ((hs.places.queue c).mpr hc)

/-- Two coroutines queue behind the owner, the second one from a condition variable,
and a third one tries the lock in between; then the owner unlocks. -/
def twoQueued : List (Label (Fin 4)) :=
  [.park 2, .tryLock 0, .awaitReady 1, .suspendEnter 1, .compareExchange, .tryLock 3, .push, .leave, .enqueueEnter 2,
    .compareExchange, .push, .leave, .unlockEnter 0, .front, .submit, .leave]

theorem mutex_grants_fifo_twoQueued : ∃ s : State (Fin 4), Reachable step init s ∧ s.owner = some 1 ∧
    s.queuedOrder = [1, 2] ∧ s.queuedOrder = s.grantOrder ++ s.mtx.waiters ∧ s.pc 2 = .queued ∧
    s.mtx.waiters.count 2 = 1 ∧ ∀ c, s.suspensions.count c = s.submissions.count c + owed (s.pc c) := by
  obtain ⟨s, hs⟩ : ∃ s, s ∈ exec step twoQueued init := ⟨_, rfl⟩
  have hr := Reachable.of_exec twoQueued hs
  obtain ⟨-, hone, -, horder, -, hcount⟩ := mutex_grants_fifo hr
  cases hs
  exact ⟨_, hr, rfl, rfl, horder, rfl, hone 2 rfl, hcount⟩

end TinyCoro.Comp.MutexFifo
