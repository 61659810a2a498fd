import Mathlib.Data.List.Range
import TinyCoro.Frame.Task

/-! What one resume of a coroutine comes to, by induction over the tree of calls: the
direct evaluation, unless a task in it suspends or an exception gets into a promise that
cannot give it back. -/
namespace TinyCoro.Frame.Task
variable {T : Types} {r : Ret T}

namespace Body

def eval : {r : Ret T} → Body T r → Outcome r
  | _, .ret v => .ok v
  | _, .throw e => .error e
  | _, .suspend k => k.eval
  | _, .await child k => (k child.eval).eval

/-- The calls made in the direct evaluation, calls within calls included. -/
def calls : {r : Ret T} → Body T r → Nat
  | _, .ret _ => 0
  | _, .throw _ => 0
  | _, .suspend k => k.calls
  | _, .await child k => 1 + child.calls + (k child.eval).calls

/-- What happens in the direct evaluation of the call `self`, in order, when the calls
made in it are numbered from `next` on. -/
def trace (self next : Nat) : {r : Ret T} → Body T r → List (Event T)
  | _, .ret _ => []
  | _, .throw _ => []
  | _, .suspend k => k.trace self next
  | _, .await (c := c) child k =>
    .enter next ⟨c, child⟩ :: child.trace next (next + 1) ++
      .back self next ⟨c, child.eval⟩ :: (k child.eval).trace self (next + 1 + child.calls)

def suspends : {r : Ret T} → Body T r → Bool
  | _, .ret _ => false
  | _, .throw _ => false
  | _, .suspend _ => true
  | _, .await child k => child.suspends || (k child.eval).suspends

def suspendsUnder : {r : Ret T} → Body T r → Bool
  | _, .ret _ => false
  | _, .throw _ => false
  | _, .suspend k => k.suspendsUnder
  | _, .await child k => child.suspends || (k child.eval).suspendsUnder

def podThrows (b : Body T r) : Bool := r.isPod && !b.eval.isOk

def podThrowsUnder : {r : Ret T} → Body T r → Bool
  | _, .ret _ => false
  | _, .throw _ => false
  | _, .suspend k => k.podThrowsUnder
  | _, .await child k => child.podThrowsUnder || child.podThrows || (k child.eval).podThrowsUnder

end Body

def stored : Outcome r → Container r
  | .ok v => Container.none.returnValue v
  | .error e => Container.none.setException e

/-- Only the container of a `pod_type` does not give back what was stored. -/
theorem result_stored (b : Body T r) : (stored b.eval).result = if b.podThrows then none else some b.eval := by
  rw [Body.podThrows]
  cases b.eval with
  | ok v => cases r <;> simp [stored, Container.returnValue, Container.result, Except.isOk, Except.toBool]; rfl
  | error e =>
    cases r <;> simp [stored, Container.setException, Container.result, Ret.isPod, Except.isOk, Except.toBool]

def back (T : Types) : Option Nat → Control
  | some parent => .coroutine parent
  | none => T.offEnd

namespace State
variable {s t u : State T} {c : Nat} {parent : Option Nat}

abbrev Leads : State T → State T → Prop := Transition.Leads (·.control == .resumer) step

theorem Leads.step (hc : s.control = .coroutine c) (h : s.step = some t) : Leads s t := .single (by rw [hc]; rfl) h

theorem Leads.returns (h : Leads s t) (hc : t.control = .resumer) : ∃ n, ∀ fuel, n ≤ fuel → run fuel s = some t :=
  Transition.Leads.returns h (by rw [hc]; rfl)

theorem Leads.eq (h : Leads s t) (hc : t.control = .resumer) {fuel : Nat} (hr : run fuel s = some u) : u = t :=
  Transition.Leads.eq h (by rw [hc]; rfl) hr

theorem Leads.run_eq (h : Leads s t) : ∃ n, ∀ fuel, run (fuel + n) s = run fuel t := h

theorem Leads.terminates (h : Leads s t) (hc : t.control = .terminated) (fuel : Nat) : run fuel s = none :=
  Transition.Leads.stuck h (by rw [hc]; rfl) (by simp only [State.step, hc]) fuel

theorem step_start {b : Body T r} (hs : s.control = .coroutine c)
    (hc : s.heap c = some ⟨r, parent, .start b, .none⟩) :
    s.step = some { s with
      heap := Function.update s.heap c (some ⟨r, parent, .run b, .none⟩)
      log := s.log ++ [.enter c ⟨r, b⟩] } := by
  simp only [step, hs, hc, set]

theorem step_suspended {b : Body T r} (hs : s.control = .coroutine c)
    (hc : s.heap c = some ⟨r, parent, .suspended b, .none⟩) :
    s.step = some { s with heap := Function.update s.heap c (some ⟨r, parent, .run b, .none⟩) } := by
  simp only [step, hs, hc, set]

theorem step_suspend {b : Body T r} (hs : s.control = .coroutine c)
    (hc : s.heap c = some ⟨r, parent, .run (.suspend b), .none⟩) :
    s.step = some { s with
      heap := Function.update s.heap c (some ⟨r, parent, .suspended b, .none⟩)
      control := .resumer } := by
  simp only [step, hs, hc, set]

theorem step_ret {v : r.Val} (hs : s.control = .coroutine c)
    (hc : s.heap c = some ⟨r, parent, .run (.ret v), .none⟩) :
    s.step = some { s with
      heap := Function.update s.heap c (some ⟨r, parent, .final, stored (.ok v)⟩)
      control := back T parent } := by
  cases parent <;> simp only [step, hs, hc, finish, set, Coroutine.finalAwaitSuspend, stored, back]

theorem step_throw {e : T.Exn} (hs : s.control = .coroutine c)
    (hc : s.heap c = some ⟨r, parent, .run (.throw e), .none⟩) :
    s.step = some { s with
      heap := Function.update s.heap c (some ⟨r, parent, .final, stored (.error e)⟩)
      control := back T parent } := by
  cases parent <;> simp only [step, hs, hc, finish, set, Coroutine.finalAwaitSuspend, stored, back]

/-- The child is new, so it is not done, and control goes to it. -/
theorem step_await {a : Ret T} {child : Body T a} {k : Outcome a → Body T r} {store : Container r}
    (hs : s.control = .coroutine c) (hc : s.heap c = some ⟨r, parent, .run (.await child k), store⟩)
    (hnew : s.heap s.next = none) :
    s.step = some { s with
      heap := Function.update (Function.update s.heap c (some ⟨r, parent, .awaiting s.next k, store⟩)) s.next
        (some ⟨a, some c, .start child, .none⟩)
      next := s.next + 1
      control := .coroutine s.next } := by
  have hne : s.next ≠ c := by
    intro he
    rw [he, hc] at hnew
    cases hnew
  have hcomm := Function.update_comm hne.symm (some ⟨r, parent, .awaiting s.next k, store⟩)
    (some ⟨a, none, .start child, .none⟩) s.heap
  simp only [step, hs, hc, create, set, ← hcomm]
  simp [awaitReady, done, awaitSuspend, Coroutine.done]

/-- A frame that awaits nothing is destroyed alone. -/
theorem destroy_single {heap : Nat → Option (Coroutine T)} {n fuel : Nat} {f : Coroutine T} (hn : heap n = some f)
    (hf : f.awaits = none) (hfuel : 0 < fuel) : destroy n fuel heap = Function.update heap n none := by
  obtain ⟨m, rfl⟩ := Nat.exists_eq_add_of_lt hfuel
  simp [destroy, hn, hf]

/-- The child has ended, and its promise gives its outcome back. -/
theorem step_back {a : Ret T} {n : Nat} {k : Outcome a → Body T r} {p : Option Nat} {store : Container a}
    {o : Outcome a} (hs : s.control = .coroutine c) (hc : s.heap c = some ⟨r, parent, .awaiting n k, .none⟩)
    (hn : s.heap n = some ⟨a, p, .final, store⟩) (ho : store.result = some o) (hnext : 0 < s.next) :
    s.step = some { s with
      heap := Function.update (Function.update s.heap n none) c (some ⟨r, parent, .run (k o), .none⟩)
      log := s.log ++ [.back c n ⟨a, o⟩] } := by
  simp only [step, hs, hc, hn, Option.bind_some, Coroutine.outcome, dif_pos, ho, Option.map_some]
  rw [destroy_single hn rfl hnext]

/-- The child has ended, and its promise cannot give its outcome back. -/
theorem step_terminate {a : Ret T} {n : Nat} {k : Outcome a → Body T r} {p : Option Nat} {store : Container a}
    (hs : s.control = .coroutine c) (hc : s.heap c = some ⟨r, parent, .awaiting n k, .none⟩)
    (hn : s.heap n = some ⟨a, p, .final, store⟩) (ho : store.result = none) :
    s.step = some { s with control := .terminated } := by
  simp only [step, hs, hc, hn, Option.bind_some, Coroutine.outcome, dif_pos, ho, Option.map_some]

/-- A `co_await` up to the point where the body of the child begins to run. -/
theorem leads_enter {a : Ret T} {child : Body T a} {k : Outcome a → Body T r} (hs : s.control = .coroutine c)
    (hc : s.heap c = some ⟨r, parent, .run (.await child k), .none⟩) (hnew : s.heap s.next = none) :
    Leads s ⟨Function.update (Function.update s.heap c (some ⟨r, parent, .awaiting s.next k, .none⟩)) s.next
      (some ⟨a, some c, .run child, .none⟩), s.next + 1, .coroutine s.next,
      s.log ++ [.enter s.next ⟨a, child⟩]⟩ := by
  refine (Leads.step hs (step_await hs hc hnew)).trans ?_
  have hstart := Leads.step rfl (step_start (s := ⟨Function.update (Function.update s.heap c
    (some ⟨r, parent, .awaiting s.next k, .none⟩)) s.next (some ⟨a, some c, .start child, .none⟩), s.next + 1,
    .coroutine s.next, s.log⟩) rfl (Function.update_self ..))
  rwa [Function.update_idem] at hstart

/-- The way back from a child that has ended. -/
theorem leads_back {a : Ret T} {n next : Nat} {k : Outcome a → Body T r} {p : Option Nat} {store : Container a}
    {o : Outcome a} {heap : Nat → Option (Coroutine T)} {log : List (Event T)} (hne : c ≠ n) (hn : heap n = none)
    (ho : store.result = some o) (hnext : 0 < next) :
    Leads ⟨Function.update (Function.update heap c (some ⟨r, parent, .awaiting n k, .none⟩)) n
        (some ⟨a, p, .final, store⟩), next, .coroutine c, log⟩
      ⟨Function.update heap c (some ⟨r, parent, .run (k o), .none⟩), next, .coroutine c,
        log ++ [.back c n ⟨a, o⟩]⟩ := by
  have hc : Function.update (Function.update heap c (some ⟨r, parent, .awaiting n k, .none⟩)) n
      (some ⟨a, p, .final, store⟩) c = some ⟨r, parent, .awaiting n k, .none⟩ := by
    rw [Function.update_of_ne hne, Function.update_self]
  have hback := Leads.step rfl (step_back (s := ⟨Function.update (Function.update heap c
    (some ⟨r, parent, .awaiting n k, .none⟩)) n (some ⟨a, p, .final, store⟩), next, .coroutine c, log⟩) rfl hc
    (Function.update_self ..) ho hnext)
  have hheap : Function.update (Function.update (Function.update (Function.update heap c
      (some ⟨r, parent, .awaiting n k, .none⟩)) n (some ⟨a, p, .final, store⟩)) n none) c
      (some ⟨r, parent, .run (k o), .none⟩) = Function.update heap c (some ⟨r, parent, .run (k o), .none⟩) := by
    rw [Function.update_idem, Function.update_comm hne.symm, Function.update_idem, ← hn, Function.update_comm hne,
      Function.update_eq_self]
  rwa [hheap] at hback

end State

section Resume
variable {s : State T} {c : Nat} {parent : Option Nat}
open State

def Fresh (s : State T) : Prop := ∀ i, s.next ≤ i → s.heap i = none

theorem Fresh.lt (hf : Fresh s) {f : Coroutine T} (hc : s.heap c = some f) : c < s.next := by
  by_contra hle
  rw [hf c (Nat.le_of_not_lt hle)] at hc
  cases hc

/-- A coroutine with this body that is given control ends as the direct evaluation does,
after what happens in that; control goes on by its final suspend, and the other frames are
as before. -/
def Ends (b : Body T r) : Prop :=
  ∀ (s : State T) (c : Nat) (parent : Option Nat), s.control = .coroutine c →
    s.heap c = some ⟨r, parent, .run b, .none⟩ → Fresh s →
    Leads s ⟨Function.update s.heap c (some ⟨r, parent, .final, stored b.eval⟩), s.next + b.calls, back T parent,
      s.log ++ b.trace c s.next⟩

def awaitEntered (s : State T) (c : Nat) (parent : Option Nat) {a : Ret T} (child : Body T a)
    (k : Outcome a → Body T r) : State T :=
  ⟨Function.update (Function.update s.heap c (some ⟨r, parent, .awaiting s.next k, .none⟩)) s.next
    (some ⟨a, some c, .run child, .none⟩), s.next + 1, .coroutine s.next, s.log ++ [.enter s.next ⟨a, child⟩]⟩

def awaitReturned (s : State T) (c : Nat) (parent : Option Nat) {a : Ret T} (child : Body T a)
    (k : Outcome a → Body T r) : State T :=
  ⟨Function.update s.heap c (some ⟨r, parent, .run (k child.eval), .none⟩), s.next + 1 + child.calls, .coroutine c,
    s.log ++ [.enter s.next ⟨a, child⟩] ++ child.trace s.next (s.next + 1) ++ [.back c s.next ⟨a, child.eval⟩]⟩

theorem awaitEntered_fresh (hf : Fresh s) (hlt : c < s.next) {a : Ret T} (child : Body T a)
    (k : Outcome a → Body T r) : Fresh (awaitEntered s c parent child k) := by
  intro i hi
  change s.next + 1 ≤ i at hi
  simp only [awaitEntered, Function.update_of_ne (show i ≠ s.next by omega), Function.update_of_ne (show i ≠ c by omega)]
  exact hf i (by omega)

theorem awaitReturned_fresh (hf : Fresh s) (hlt : c < s.next) {a : Ret T} (child : Body T a)
    (k : Outcome a → Body T r) : Fresh (awaitReturned s c parent child k) := by
  intro i hi
  change s.next + 1 + child.calls ≤ i at hi
  simp only [awaitReturned, Function.update_of_ne (show i ≠ c by omega)]
  exact hf i (by omega)

/-- A whole `co_await` of a child that ends and gives its outcome back. -/
theorem leads_awaitReturned {a : Ret T} {child : Body T a} {k : Outcome a → Body T r} (hchild : Ends child)
    (hpod : child.podThrows = false) (hs : s.control = .coroutine c)
    (hc : s.heap c = some ⟨r, parent, .run (.await child k), .none⟩) (hf : Fresh s) :
    Leads s (awaitReturned s c parent child k) := by
  have hlt := hf.lt hc
  have hnew := hf s.next le_rfl
  have hrun := hchild (awaitEntered s c parent child k) s.next (some c) rfl (Function.update_self ..)
    (awaitEntered_fresh hf hlt child k)
  have hres : (stored child.eval).result = some child.eval := by rw [result_stored, hpod, if_neg nofun]
  refine (leads_enter hs hc hnew).trans (hrun.trans ?_)
  simp only [awaitEntered, Function.update_idem]
  exact leads_back hlt.ne hnew hres (by omega)

/-- Neither a suspension nor a lost exception keeps the coroutine from ending. -/
theorem ends (b : Body T r) (hsusp : b.suspends = false) (hpod : b.podThrowsUnder = false) : Ends b := by
  induction b with
  | ret v =>
    intro s c parent hs hc _
    simpa [Body.eval, Body.calls, Body.trace] using Leads.step hs (step_ret hs hc)
  | throw e =>
    intro s c parent hs hc _
    simpa [Body.eval, Body.calls, Body.trace] using Leads.step hs (step_throw hs hc)
  | suspend k ih => cases hsusp
  | await child k ihc ihk =>
    intro s c parent hs hc hf
    simp only [Body.suspends, Body.podThrowsUnder, Bool.or_eq_false_iff] at hsusp hpod
    have hret := leads_awaitReturned (ihc hsusp.1 hpod.1.1) hpod.1.2 hs hc hf
    have hrest := ihk child.eval hsusp.2 hpod.2 (awaitReturned s c parent child k) c parent rfl (Function.update_self ..)
      (awaitReturned_fresh hf (hf.lt hc) child k)
    refine hret.trans ?_
    simpa [awaitReturned, Body.eval, Body.calls, Body.trace, Nat.add_assoc] using hrest

/-- A coroutine of which the program does not see the end: the program is terminated, or
control is back with the resumer while the coroutine has not ended. -/
def Stops (b : Body T r) : Prop :=
  ∀ (s : State T) (c : Nat) (parent : Option Nat), s.control = .coroutine c →
    s.heap c = some ⟨r, parent, .run b, .none⟩ → Fresh s →
    ∃ t, Leads s t ∧ (t.control = .terminated ∨
      (t.control = .resumer ∧ t.done c = false ∧ ∀ i < s.next, i ≠ c → t.heap i = s.heap i))

/-- What an `await` does when the child does not give its outcome back: the program is
terminated, or the coroutine is left in this `co_await`. -/
theorem await_stops {a : Ret T} {child : Body T a} {k : Outcome a → Body T r}
    (hchild : Stops child ∨ (Ends child ∧ child.podThrows = true)) (hs : s.control = .coroutine c)
    (hc : s.heap c = some ⟨r, parent, .run (.await child k), .none⟩) (hf : Fresh s) :
    ∃ t, Leads s t ∧ (t.control = .terminated ∨
      (t.control = .resumer ∧ t.heap c = some ⟨r, parent, .awaiting s.next k, .none⟩ ∧
        ∀ i < s.next, i ≠ c → t.heap i = s.heap i)) := by
  have hlt := hf.lt hc
  have henter : Leads s (awaitEntered s c parent child k) := leads_enter hs hc (hf s.next le_rfl)
  have hfresh : Fresh (awaitEntered s c parent child k) := awaitEntered_fresh hf hlt child k
  have hown : (awaitEntered s c parent child k).heap s.next = some ⟨a, some c, .run child, .none⟩ :=
    Function.update_self ..
  have hother : (awaitEntered s c parent child k).heap c = some ⟨r, parent, .awaiting s.next k, .none⟩ := by
    simp only [awaitEntered]
    rw [Function.update_of_ne hlt.ne, Function.update_self]
  rcases hchild with hstop | ⟨hend, hpod⟩
  · obtain ⟨t, ht, hcase⟩ := hstop _ s.next (some c) rfl hown hfresh
    refine ⟨t, henter.trans ht, hcase.imp_right fun ⟨hres, _, hsame⟩ => ⟨hres, ?_, fun i hi hne => ?_⟩⟩
    · rw [hsame c (Nat.lt_succ_of_lt hlt) hlt.ne, hother]
    · rw [hsame i (Nat.lt_succ_of_lt hi) hi.ne]
      simp only [awaitEntered, Function.update_of_ne hi.ne, Function.update_of_ne hne]
  · -- the exception is rethrown where none may leave
    have hrun := hend _ s.next (some c) rfl hown hfresh
    have hres : (stored child.eval).result = none := by rw [result_stored, hpod, if_pos rfl]
    have hawait : Function.update (awaitEntered s c parent child k).heap s.next
        (some ⟨a, some c, .final, stored child.eval⟩) c = some ⟨r, parent, .awaiting s.next k, .none⟩ := by
      rw [Function.update_of_ne hlt.ne, hother]
    exact ⟨_, henter.trans (hrun.trans (Leads.step rfl (step_terminate rfl hawait (Function.update_self ..) hres))),
      .inl rfl⟩

theorem stops (b : Body T r) (h : b.suspends = true ∨ b.podThrowsUnder = true) : Stops b := by
  induction b with
  | ret v => rcases h with h | h <;> cases h
  | throw e => rcases h with h | h <;> cases h
  | suspend k ih =>
    intro s c parent hs hc hf
    refine ⟨_, Leads.step hs (step_suspend hs hc), .inr ⟨rfl, ?_, fun i _ hne => Function.update_of_ne hne ..⟩⟩
    simp [State.done, Coroutine.done]
  | await child k ihc ihk =>
    intro s c parent hs hc hf
    by_cases hgood : child.suspends = false ∧ child.podThrowsUnder = false ∧ child.podThrows = false
    · have hret := leads_awaitReturned (ends child hgood.1 hgood.2.1) hgood.2.2 hs hc hf
      have hk : (k child.eval).suspends = true ∨ (k child.eval).podThrowsUnder = true := by
        simpa [Body.suspends, Body.podThrowsUnder, hgood] using h
      obtain ⟨t, ht, hcase⟩ := ihk child.eval hk (awaitReturned s c parent child k) c parent rfl (Function.update_self ..)
        (awaitReturned_fresh hf (hf.lt hc) child k)
      refine ⟨t, hret.trans ht, hcase.imp_right fun ⟨hres, hdone, hsame⟩ => ⟨hres, hdone, fun i hi hne => ?_⟩⟩
      rw [hsame i (by simp only [awaitReturned]; omega) hne]
      exact Function.update_of_ne hne ..
    · have hbad : Stops child ∨ (Ends child ∧ child.podThrows = true) := by
        by_cases hin : child.suspends = true ∨ child.podThrowsUnder = true
        · exact .inl (ihc hin)
        · simp only [not_or, Bool.not_eq_true] at hin
          refine .inr ⟨ends child hin.1 hin.2, ?_⟩
          simpa [hin] using hgood
      obtain ⟨t, ht, hcase⟩ := await_stops hbad hs hc hf
      refine ⟨t, ht, hcase.imp_right fun ⟨hres, hawait, hsame⟩ => ⟨hres, ?_, hsame⟩⟩
      simp [State.done, hawait, Coroutine.done]

/-- Why a child does not give its outcome back. -/
theorem child_stops {a : Ret T} {child : Body T a}
    (h : ¬ (child.suspends = false ∧ child.podThrowsUnder = false ∧ child.podThrows = false)) :
    Stops child ∨ (Ends child ∧ child.podThrows = true) := by
  by_cases hin : child.suspends = true ∨ child.podThrowsUnder = true
  · exact .inl (stops child hin)
  · simp only [not_or, Bool.not_eq_true] at hin
    refine .inr ⟨ends child hin.1 hin.2, ?_⟩
    simpa [hin] using h

def begun (b : Body T r) : State T :=
  ⟨Function.update (fun _ => none) 0 (some ⟨r, none, .run b, .none⟩), 1, .coroutine 0, [.enter 0 ⟨r, b⟩]⟩

theorem begun_root (b : Body T r) : (begun b).heap 0 = some ⟨r, none, .run b, .none⟩ := by
  simp [begun]

theorem begun_fresh (b : Body T r) : Fresh (begun b) := by
  intro i hi
  change 1 ≤ i at hi
  simp only [begun, Function.update_of_ne (show i ≠ 0 by omega)]

theorem task_done (b : Body T r) : (task b).done 0 = false := by
  simp [task, create, State.set, State.done, Coroutine.done]

theorem leads_begun (b : Body T r) : Leads { task b with control := .coroutine 0 } (begun b) := by
  have hroot : (task b).heap 0 = some ⟨r, none, .start b, .none⟩ := by
    simp [task, create, State.set]
  have hstart := Leads.step (s := { task b with control := .coroutine 0 }) rfl (step_start rfl hroot)
  simpa [task, create, State.set, begun] using hstart

/-- `resume()` of a coroutine that has not ended, when the run is known. -/
theorem resume_leads {t : State T} {d : Bool} (h : Leads { s with control := .coroutine c } t)
    (hc : t.control = .resumer) (hs : s.done c = false) (ht : t.done c = d) :
    ∃ n, ∀ fuel, n ≤ fuel → s.resume fuel c = some (!d, t) := by
  obtain ⟨n, hn⟩ := h.returns hc
  refine ⟨n, fun fuel hf => ?_⟩
  rw [resume, hs, if_neg nofun, hn fuel hf, Option.map_some, ht]

/-- The calls begin in the order of their numbers, each once. -/
theorem entered_trace (b : Body T r) (self next : Nat) :
    (b.trace self next).filterMap Event.entered = List.range' next b.calls := by
  induction b generalizing self next with
  | ret v => rfl
  | throw e => rfl
  | suspend k ih => exact ih self next
  | await child k ihc ihk => exact entered_call (ihc next (next + 1)) (ihk child.eval self (next + 1 + child.calls))

end Resume
end TinyCoro.Frame.Task
