import TinyCoro.Comp.Event
import TinyCoro.Runtime.Dispatcher

/-! `submit_to_scheduler` of programs that may or may not have called `scheduler::init`.
Tasks on the scheduler's contexts and on stand-alone ones call it directly, and through
events, latches and wait groups, which are the `Gate`s. -/
namespace TinyCoro.Runtime.Submission
open Transition TinyCoro.Comp

/-- The static scheduler: `m_ctx_cnt`, the size of `m_ctxs`, and `m_dispatcher`. -/
structure Sched where
  ctxCnt : BitVec 64
  size : Nat
  dispatcher : Dispatcher
  deriving DecidableEq, Repr

def Sched.zero : Sched := ⟨0, 0, .zero⟩

/-- `init_impl`. The loop that makes the contexts counts in `int`, so there is no program to
speak of with 2^31 contexts or more. -/
def initImpl (ctxCnt : BitVec 64) : Option Sched :=
  if ctxCnt.toNat < 2 ^ 31 then some ⟨ctxCnt, ctxCnt.toNat, .init ctxCnt⟩ else none

/-- The count that `init` passes on, where `hardware_concurrency()` returns `hardware`. -/
def effective (ctxCnt : BitVec 64) (hardware : BitVec 32) : BitVec 64 :=
  if ctxCnt = 0 then hardware.setWidth 64 else ctxCnt

/-- A call of `dispatch()`: the divisor, what it returned, and the size of `m_ctxs`. -/
structure Dispatched where
  ctxCnt : BitVec 64
  index : Option (BitVec 64)
  size : Nat
  deriving DecidableEq, Repr

def Dispatched.Safe (d : Dispatched) : Prop := 0 < d.ctxCnt.toNat ∧ ∃ i, d.index = some i ∧ i.toNat < d.size

variable {ι : Type} {W J G O : ι → Type}

/-- `gate x` are the events, latches and wait groups. A division by 0 ends the program. The
last two are history: the counts of the calls of `init`, and the calls of `dispatch()`. -/
structure State (ι : Type) (W J G O : ι → Type) where
  sched : Sched
  gate : (x : ι) → Gate.State (W x) (J x) (G x) (O x)
  crashed : Bool
  inits : List (BitVec 64)
  dispatched : List Dispatched

inductive Label (ι : Type) (W J O : ι → Type)
  | init (ctxCnt : BitVec 64) (hardware : BitVec 32)
  | submit
  | gate (x : ι) (l : Gate.Label (W x) (J x) (O x))

def init (word : (x : ι) → G x) : State ι W J G O := ⟨.zero, fun x => Gate.init (word x), false, [], []⟩

def State.dispatch (s : State ι W J G O) : State ι W J G O :=
  let (index, dispatcher) := s.sched.dispatcher.dispatch
  { s with
    sched := { s.sched with dispatcher := dispatcher }
    crashed := index.isNone
    dispatched := s.dispatched ++ [⟨s.sched.dispatcher.ctxCnt, index, s.sched.size⟩] }

section
variable [DecidableEq ι] [∀ x, DecidableEq (W x)] [∀ x, DecidableEq (J x)] (K : (x : ι) → Gate.Kind (G x) (O x))

/-- A step of a gate that submits a handle goes through the dispatcher. -/
def step (l : Label ι W J O) (s : State ι W J G O) : Option (State ι W J G O) :=
  if s.crashed then none
  else match l with
    | .init ctxCnt hardware => (initImpl (effective ctxCnt hardware)).map fun sched =>
      { s with sched := sched, inits := s.inits ++ [effective ctxCnt hardware] }
    | .submit => some s.dispatch
    | .gate x l => (Gate.step (K x) l (s.gate x)).map fun g =>
      let t := { s with gate := Function.update s.gate x g }
      if (s.gate x).submitted.length < g.submitted.length then t.dispatch else t

def dispatches (l : Label ι W J O) (s : State ι W J G O) : Bool :=
  match l with
  | .init _ _ => false
  | .submit => true
  | .gate x l => (Gate.step (K x) l (s.gate x)).any fun g => (s.gate x).submitted.length < g.submitted.length

def Initialised (l : Label ι W J O) (s : State ι W J G O) : Prop :=
  dispatches K l s = true → s.inits.getLast?.any (· ≠ 0) = true

instance (l : Label ι W J O) (s : State ι W J G O) : Decidable (Initialised K l s) := inferInstanceAs (Decidable (_ → _))

end

def Safe (s : State ι W J G O) : Prop := ∀ d ∈ s.dispatched, d.Safe

structure Inv (s : State ι W J G O) : Prop where
  divisor : s.sched.dispatcher.ctxCnt = s.inits.getLast?.getD 0
  size : s.sched.size = (s.inits.getLast?.getD 0).toNat

theorem inv_init (word : (x : ι) → G x) : Inv (init word : State ι W J G O) := ⟨rfl, rfl⟩

section
variable {s : State ι W J G O}

/-- The divisor is positive and bounds the index. -/
theorem safe_dispatch (hs : Inv s) : Safe s.dispatch ↔ Safe s ∧ s.inits.getLast?.any (· ≠ 0) = true := by
  have hnew : Safe s.dispatch ↔
      Safe s ∧ Dispatched.Safe ⟨s.sched.dispatcher.ctxCnt, s.sched.dispatcher.dispatch.1, s.sched.size⟩ := by
    simp [Safe, State.dispatch, List.mem_append, or_imp, forall_and]
  rw [hnew]
  refine and_congr_right fun _ => ?_
  have hdiv : s.inits.getLast?.any (· ≠ 0) = true ↔ s.sched.dispatcher.ctxCnt ≠ 0 := by
    rw [hs.divisor]
    cases s.inits.getLast? with
    | none => simp
    | some n => simp
  rw [hdiv]
  constructor
  · rintro ⟨hpos, -⟩ h0
    rw [h0] at hpos
    exact absurd hpos (Nat.lt_irrefl 0)
  · intro hne
    refine ⟨Dispatcher.ctxCnt_pos hne, _, Dispatcher.dispatch_some hne, ?_⟩
    rw [Dispatcher.dispatch_index, hs.size, ← hs.divisor]
    exact Nat.mod_lt _ (Dispatcher.ctxCnt_pos hne)

theorem inv_dispatch (hs : Inv s) : Inv s.dispatch := ⟨hs.divisor, hs.size⟩

variable [DecidableEq ι] [∀ x, DecidableEq (W x)] [∀ x, DecidableEq (J x)] {K : (x : ι) → Gate.Kind (G x) (O x)}

theorem safe_step {l : Label ι W J O} {t : State ι W J G O} (hs : Inv s) (h : step K l s = some t) :
    Inv t ∧ (Safe t ↔ Safe s ∧ Initialised K l s) := by
  unfold step at h
  split at h
  · cases h
  · cases l with
    | init ctxCnt hardware =>
      obtain ⟨sched, hsched, rfl⟩ := Option.map_eq_some_iff.mp h
      obtain ⟨-, hsched⟩ := Option.ite_none_right_eq_some.mp hsched
      cases hsched
      refine ⟨⟨by simp [Dispatcher.init], by simp⟩, ?_⟩
      exact ⟨fun h => ⟨h, nofun⟩, And.left⟩
    | submit =>
      cases h
      exact ⟨inv_dispatch hs, (safe_dispatch hs).trans (and_congr_right fun _ => ⟨fun h _ => h, fun h => h rfl⟩)⟩
    | gate x l =>
      obtain ⟨g, hg, rfl⟩ := Option.map_eq_some_iff.mp h
      have hs' : Inv { s with gate := Function.update s.gate x g } := ⟨hs.divisor, hs.size⟩
      split
      · rename_i hlt
        have hd : dispatches K (.gate x l) s = true := by simp [dispatches, hg, hlt]
        exact ⟨inv_dispatch hs', (safe_dispatch hs').trans (and_congr_right fun _ => ⟨fun h _ => h, fun h => h hd⟩)⟩
      · rename_i hlt
        have hd : dispatches K (.gate x l) s = false := by simpa [dispatches, hg] using hlt
        refine ⟨hs', fun h => ⟨h, fun h' => ?_⟩, And.left⟩
        rw [hd] at h'
        cases h'

/-- All calls of `dispatch()` in a run are safe exactly if each of them comes after a
`scheduler::init` and the last one before it had a positive count. -/
theorem dispatch_safe_iff (word : (x : ι) → G x) (ls : List (Label ι W J O)) {t : State ι W J G O}
    (h : exec (step K) ls (init word) = some t) : Safe t ↔ Along (step K) (Initialised K) ls (init word) := by
  have hiff : Safe t ↔ Safe (init word : State ι W J G O) ∧ Along (step K) (Initialised K) ls (init word) :=
    holds_iff_along (I := Inv) (P := Safe) (fun _ _ _ => safe_step) (inv_init word) h
  rw [hiff]
  exact and_iff_right fun d hd => (List.not_mem_nil hd).elim

end

/-- One event with one waiter and one call of `set()`. -/
abbrev OneEvent := State Unit (fun _ => Fin 1) (fun _ => Fin 1) (fun _ => Event.Word Empty) (fun _ => Unit)

/-- A task waits for the event, and another sets it. -/
def waitAndSet : List (Label Unit (fun _ => Fin 1) (fun _ => Fin 1) (fun _ => Unit)) :=
  [.gate () (.awaitReady 0), .gate () (.awaitSuspend 0), .gate () (.suspendEnd 0), .gate () (.call 0 ()),
    .gate () (.enter 0), .gate () (.store 0), .gate () (.submit 0)]

theorem dispatch_safe_initialised : ∃ t : OneEvent, exec (step fun _ => Event.eventVoid) (.init 0 4 :: .submit :: waitAndSet)
    (init fun _ => Event.closed) = some t ∧ t.dispatched = [⟨4, some 0, 4⟩, ⟨4, some 1, 4⟩] ∧ Safe t := by
  obtain ⟨t, ht⟩ : ∃ t : OneEvent, t ∈ exec (step fun _ => Event.eventVoid) (.init 0 4 :: .submit :: waitAndSet)
    (init fun _ => Event.closed) := ⟨_, rfl⟩
  have hsafe := (dispatch_safe_iff _ _ ht).mpr (by decide)
  cases ht
  exact ⟨_, rfl, by decide, hsafe⟩

/-- Both tasks are on a stand-alone context and nobody has called `scheduler::init`. -/
theorem dispatch_divides_by_zero : ¬ ∀ ls (t : OneEvent),
    exec (step fun _ => Event.eventVoid) ls (init fun _ => Event.closed) = some t → Safe t := by
  intro h
  have hp : exec (step fun _ => Event.eventVoid) waitAndSet (init fun _ => Event.closed : OneEvent) = some _ := rfl
  have hpos := (h _ _ hp ⟨0, none, 0⟩ (by decide)).1
  exact absurd hpos (by decide)

end TinyCoro.Runtime.Submission
