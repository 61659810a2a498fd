import Mathlib.Data.List.Pairwise
import TinyCoro.Frame.Nested

/-! The frames of one root task as a stack: the coroutine that runs on top, and
under each coroutine the one that awaits it. -/
namespace TinyCoro.Frame.Stack
open Nested

def frames : Option Nat → List (Nat × Body) → Nat → Option Coroutine
  | _, [] => fun _ => none
  | above, (c, b) :: rest =>
    Function.update (frames (some c) rest) c (some ⟨b, rest.head?.map Prod.fst, rest.isEmpty, false, above⟩)

def heapOf (st : List (Nat × Body)) : Option Nat → Nat → Option Coroutine
  | none => frames none st
  | some n => Function.update (frames (some n) st) n (some ⟨.ret, st.head?.map Prod.fst, false, true, none⟩)

structure Valid (st : List (Nat × Body)) (back : Option Nat) (next : Nat) : Prop where
  desc : (next :: (back.toList ++ st.map Prod.fst)).Pairwise (· > ·)
  root : ∃ b, st.getLast? = some (0, b)

theorem frames_none (above : Option Nat) {st : List (Nat × Body)} {i : Nat} (h : i ∉ st.map Prod.fst) :
    frames above st i = none := by
  induction st generalizing above with
  | nil => rfl
  | cons x rest ih =>
    simp only [List.map_cons, List.mem_cons, not_or] at h
    rw [frames, Function.update_of_ne h.1]
    exact ih _ h.2

theorem frames_live (above : Option Nat) {st : List (Nat × Body)} {i : Nat} (h : i ∈ st.map Prod.fst) :
    ∃ f, frames above st i = some f ∧ f.final = false := by
  induction st generalizing above with
  | nil => cases h
  | cons x rest ih =>
    rw [frames]
    by_cases hi : i = x.1
    · rw [hi, Function.update_self]
      exact ⟨_, rfl, rfl⟩
    · rw [Function.update_of_ne hi]
      exact ih _ (by simpa [hi] using h)

section Runs
variable {h c next : Nat} {rest : List (Nat × Body)} {s : State}

namespace Valid

theorem reap {st : List (Nat × Body)} {n : Nat} (hv : Valid st (some n) next) : Valid st none next where
  desc := hv.desc.sublist ((List.sublist_cons_self n _).cons_cons next)
  root := hv.root

theorem final {b : Body} {x : Nat × Body} (hv : Valid ((c, b) :: x :: rest) none next) :
    Valid (x :: rest) (some c) next where
  desc := hv.desc
  root := by
    obtain ⟨r, hr⟩ := hv.root
    exact ⟨r, by rwa [List.getLast?_cons_cons] at hr⟩

theorem resume {b : Body} (hv : Valid ((c, b) :: rest) none next) (k : Body) :
    Valid ((c, k) :: rest) none next where
  desc := hv.desc
  root := by
    obtain ⟨r, hr⟩ := hv.root
    cases rest with
    | nil =>
      obtain ⟨rfl, -⟩ : c = 0 ∧ b = r := by simpa using hr
      exact ⟨k, rfl⟩
    | cons x rest => exact ⟨r, by rwa [List.getLast?_cons_cons] at hr ⊢⟩

theorem call {b : Body} (hv : Valid ((c, b) :: rest) none next) (child : Body) :
    Valid ((next, child) :: (c, b) :: rest) none (next + 1) where
  desc := by
    have hd := hv.desc
    simp only [Option.toList, List.nil_append, List.map_cons, List.pairwise_cons, List.mem_cons] at hd ⊢
    refine ⟨fun i hi => ?_, hd⟩
    rcases hi with rfl | hi
    · exact Nat.lt_succ_self _
    · exact Nat.lt_succ_of_lt (hd.1 i hi)
  root := by
    obtain ⟨r, hr⟩ := hv.root
    exact ⟨r, by rwa [List.getLast?_cons_cons]⟩

theorem zero_mem {st : List (Nat × Body)} {back : Option Nat} (hv : Valid st back next) : 0 ∈ st.map Prod.fst := by
  obtain ⟨r, hr⟩ := hv.root
  exact List.mem_map.mpr ⟨(0, r), List.mem_of_getLast? hr, rfl⟩

/-- Only the root has the number zero. -/
theorem top_zero {b : Body} (hv : Valid ((c, b) :: rest) none next) : c = 0 ↔ rest = [] := by
  constructor
  · rintro rfl
    cases rest with
    | nil => rfl
    | cons x rest =>
      have hd := hv.desc
      simp only [Option.toList, List.nil_append, List.map_cons, List.pairwise_cons] at hd
      exact absurd (hd.2.1 0 hv.final.zero_mem) (Nat.lt_irrefl 0)
  · rintro rfl
    obtain ⟨r, hr⟩ := hv.root
    simpa using congrArg (Option.map Prod.fst) hr

end Valid

/-- The temporary task object of a completed `co_await` destroys the child. -/
theorem run_reap {b : Body} {n : Nat} (hv : Valid ((c, b) :: rest) (some n) next)
    (hh : s.heap = heapOf ((c, b) :: rest) (some n)) (hp : s.pc = .running h c) :
    s.engineStep = some { s with heap := heapOf ((c, b) :: rest) none } := by
  have hd := hv.desc
  simp only [Option.toList, List.singleton_append, List.map_cons, List.pairwise_cons, List.mem_cons] at hd
  have hnc : n ≠ c := by
    have := hd.2.1 c (.inl rfl)
    omega
  have hn : n ∉ rest.map Prod.fst := by
    intro hm
    have := hd.2.1 n (.inr hm)
    omega
  have hcur : s.heap c = some ⟨b, rest.head?.map Prod.fst, rest.isEmpty, false, some n⟩ := by
    rw [hh, heapOf, Function.update_of_ne hnc.symm, frames, Function.update_self]
  have hrest : Function.update (frames (some c) rest) n none = frames (some c) rest := by
    rw [← frames_none (some c) hn]
    exact Function.update_eq_self n _
  simp only [State.engineStep, hp, hcur, Option.map_some, State.runStep, State.destroy, State.set, Option.some.injEq]
  rw [hh, heapOf, heapOf, Function.update_idem, frames, frames, Function.update_comm hnc.symm, hrest,
    Function.update_idem]

/-- The final suspend of an awaited coroutine transfers to the one that awaits it. -/
theorem run_final {p : Nat} {k : Body} (hh : s.heap = heapOf ((c, .ret) :: (p, k) :: rest) none)
    (hp : s.pc = .running h c) :
    s.engineStep = some { s with heap := heapOf ((p, k) :: rest) (some c), pc := .running h p } := by
  have hcur : s.heap c = some ⟨.ret, some p, false, false, none⟩ := by
    rw [hh, heapOf, frames, Function.update_self]
    rfl
  simp only [State.engineStep, hp, hcur, Option.map_some, State.runStep, State.goto, State.set, Option.some.injEq]
  rw [hh, heapOf, heapOf, frames, Function.update_idem]
  rfl

/-- The final suspend of the root returns to the engine. -/
theorem run_return (hh : s.heap = heapOf [(c, .ret)] none) (hp : s.pc = .running h c) :
    s.engineStep = some { s with
      heap := Function.update (fun _ => none) c (some ⟨.ret, none, true, true, none⟩), pc := .testing h } := by
  have hcur : s.heap c = some ⟨.ret, none, true, false, none⟩ := by
    rw [hh, heapOf, frames, Function.update_self]
    rfl
  simp only [State.engineStep, hp, hcur, Option.map_some, State.runStep, State.goto, State.set, Option.some.injEq]
  rw [hh, heapOf, frames, Function.update_idem]
  rfl

theorem run_suspend {k : Body} (hh : s.heap = heapOf ((c, .suspend k) :: rest) none) (hp : s.pc = .running h c) :
    s.engineStep = some { s with
      heap := heapOf ((c, k) :: rest) none, waiting := s.waiting ++ [c], pc := .testing h } := by
  have hcur : s.heap c = some ⟨.suspend k, rest.head?.map Prod.fst, rest.isEmpty, false, none⟩ := by
    rw [hh, heapOf, frames, Function.update_self]
  simp only [State.engineStep, hp, hcur, Option.map_some, State.runStep, State.set, Option.some.injEq]
  rw [hh, heapOf, heapOf, frames, frames, Function.update_idem]

theorem run_call {b k : Body} (hh : s.heap = heapOf ((c, .call b k) :: rest) none) (hp : s.pc = .running h c) :
    s.engineStep = some { s with
      heap := heapOf ((s.next, b) :: (c, k) :: rest) none, next := s.next + 1, pc := .running h s.next } := by
  have hcur : s.heap c = some ⟨.call b k, rest.head?.map Prod.fst, rest.isEmpty, false, none⟩ := by
    rw [hh, heapOf, frames, Function.update_self]
  simp only [State.engineStep, hp, hcur, Option.map_some, State.runStep, State.set, Option.some.injEq]
  rw [hh, heapOf, heapOf, frames, frames, frames, Function.update_idem]
  rfl

end Runs

/-! What is left to do in a stack, and where it can still suspend. -/

def suspends : Body → Bool
  | .ret => false
  | .suspend _ => true
  | .call child k => suspends child || suspends k

def nestedSuspends : Body → Bool
  | .ret => false
  | .suspend k => nestedSuspends k
  | .call child k => suspends child || nestedSuspends k

def loud : List (Nat × Body) → Bool
  | [] => false
  | [(_, b)] => nestedSuspends b
  | (_, b) :: rest => suspends b || loud rest

def size : Body → Nat
  | .ret => 2
  | .suspend k => size k + 1
  | .call child k => size child + size k + 1

def weight (st : List (Nat × Body)) (back : Option Nat) : Nat :=
  (st.map fun x => size x.2).sum + back.toList.length

def top : List (Nat × Body) → Nat
  | [] => 0
  | (c, _) :: _ => c

structure Running (h : Nat) (st : List (Nat × Body)) (back : Option Nat) (s : State) : Prop where
  heap : s.heap = heapOf st back
  valid : Valid st back s.next
  pc : s.pc = .running h (top st)
  queue : s.queue = []
  waiting : s.waiting = []

structure Parked (st : List (Nat × Body)) (s : State) : Prop where
  heap : s.heap = heapOf st none
  valid : Valid st none s.next
  place : s.waiting ++ s.queue = [top st]

structure Returned (s : State) : Prop where
  heap : s.heap = Function.update (fun _ => none) 0 (some ⟨.ret, none, true, true, none⟩)
  queue : s.queue = []
  waiting : s.waiting = []

theorem Valid.ids_of_top {st : List (Nat × Body)} {next : Nat} (hv : Valid st none next) (ht : top st = 0) :
    st.map Prod.fst = [0] := by
  cases st with
  | nil => simpa using hv.zero_mem
  | cons x rest =>
    obtain rfl := hv.top_zero.mp ht
    exact congrArg (fun c => [c]) ht

theorem loud_call (c next : Nat) (b k : Body) (rest : List (Nat × Body)) :
    loud ((next, b) :: (c, k) :: rest) = loud ((c, .call b k) :: rest) := by
  cases rest with
  | nil => rfl
  | cons x rest => exact (Bool.or_assoc _ _ _).symm

/-- What a step of the running coroutine leads to. -/
theorem Running.next {h : Nat} {st : List (Nat × Body)} {back : Option Nat} {s : State}
    (hr : Running h st back s) :
    ∃ t, s.engineStep = some t ∧ t.cleaned = s.cleaned ∧ t.deadDones = s.deadDones ∧
      ((∃ st' back', Running h st' back' t ∧ weight st' back' < weight st back ∧ loud st' = loud st) ∨
      (∃ st', Parked st' t ∧ t.pc = .testing h ∧ t.queue = [] ∧ weight st' none < weight st back ∧
        loud st = (decide (top st' ≠ 0) || loud st')) ∨
      (Returned t ∧ t.pc = .testing h ∧ loud st = false)) := by
  obtain ⟨hh, hv, hp, hq, hw⟩ := hr
  obtain ⟨⟨c, b⟩, rest, rfl⟩ : ∃ x rest, st = x :: rest := by
    refine List.exists_cons_of_ne_nil fun hnil => ?_
    subst hnil
    simpa using hv.zero_mem
  cases back with
  | some n =>
    refine ⟨_, run_reap hv hh hp, rfl, rfl, .inl ⟨(c, b) :: rest, none, ⟨rfl, hv.reap, hp, hq, hw⟩, ?_, rfl⟩⟩
    simp [weight]
  | none =>
    cases b with
    | ret =>
      cases rest with
      | nil =>
        obtain rfl : c = 0 := hv.top_zero.mpr rfl
        exact ⟨_, run_return hh hp, rfl, rfl, .inr (.inr ⟨⟨rfl, hq, hw⟩, rfl, rfl⟩)⟩
      | cons x rest =>
        refine ⟨_, run_final hh hp, rfl, rfl, .inl ⟨x :: rest, some c, ⟨rfl, hv.final, rfl, hq, hw⟩, ?_, ?_⟩⟩
        · simp [weight, size]
          omega
        · simp [loud, suspends]
    | suspend k =>
      refine ⟨_, run_suspend hh hp, rfl, rfl, .inr (.inl ⟨(c, k) :: rest, ⟨rfl, hv.resume k, ?_⟩, rfl, hq, ?_, ?_⟩)⟩
      · simp [hq, hw, top]
      · simp [weight, size]
      · have hz := hv.top_zero
        cases rest with
        | nil => simp [top, hz.mpr rfl, loud, nestedSuspends]
        | cons x rest => simp [top, mt hz.mp, loud, suspends]
    | call child k =>
      refine ⟨_, run_call hh hp, rfl, rfl,
        .inl ⟨(s.next, child) :: (c, k) :: rest, none, ⟨rfl, (hv.resume k).call child, rfl, hq, hw⟩, ?_, ?_⟩⟩
      · simp [weight, size]
        omega
      · exact loud_call c s.next child k rest

end TinyCoro.Frame.Stack
