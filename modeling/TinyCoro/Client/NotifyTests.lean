import Mathlib.Algebra.BigOperators.Fin
import Mathlib.Data.Fintype.Fin
import TinyCoro.Client.TurnBound
import TinyCoro.Client.TurnWakeUp

/-! The coroutines `notify_all` and `notify_one` of the tests of the condition variable,
which append their ids to `vec` in turn. -/
namespace TinyCoro.Client
open Transition TurnTaking

namespace NotifyAll

structure Para where
  id : Nat
  vec : List Nat
  deriving DecidableEq, Repr

def rules (taskNum : Nat) : Rules (Fin taskNum) Para where
  turn id para := para.id == id
  act id para := { vec := para.vec ++ [id.val], id := para.id + 1 }
  all := true
  alone d a b ha hb := by
    rw [beq_iff_eq] at ha hb
    exact Fin.ext (ha.symm.trans hb)

def init (taskNum : Nat) : State (Fin taskNum) Para := TurnTaking.init ⟨0, []⟩ fun _ => 1

variable {taskNum : Nat}

structure Played (p : Para × (Fin taskNum → Nat)) : Prop where
  vec : p.1.vec = List.range p.1.id
  bound : p.1.id ≤ taskNum
  left : ∀ i, p.2 i = if i.val < p.1.id then 0 else 1

theorem played {p : Para × (Fin taskNum → Nat)} (h : Reachable (play (rules taskNum)) (⟨0, []⟩, fun _ => 1) p) :
    Played p := by
  refine h.invariant Played ⟨rfl, Nat.zero_le _, fun i => by simp⟩ ?_
  rintro i p q - hp hq
  unfold play at hq
  split at hq
  · rename_i hc
    cases hq
    have hi : p.1.id = i.val := by simpa [rules] using hc.1
    refine ⟨?_, ?_, fun j => ?_⟩
    · change p.1.vec ++ [i.val] = List.range (p.1.id + 1)
      rw [hp.vec, List.range_succ, hi]
    · change p.1.id + 1 ≤ taskNum
      omega
    · change Function.update p.2 i (p.2 i - 1) j = if j.val < p.1.id + 1 then 0 else 1
      have hleft := hp.left i
      rw [if_neg (by omega)] at hleft
      by_cases hj : j = i
      · subst hj
        rw [Function.update_self, hleft, if_pos (by omega)]
      · have hne : j.val ≠ i.val := fun h => hj (Fin.ext h)
        rw [Function.update_of_ne hj, hp.left j]
        congr 1
        simp only [eq_iff_iff]
        omega
  · cases hq

theorem played_live {p : Para × (Fin taskNum → Nat)} (hp : Played p) (h : ∃ c, 0 < p.2 c) :
    ∃ c, (rules taskNum).turn c p.1 = true ∧ 0 < p.2 c := by
  obtain ⟨c, hc⟩ := h
  have hcid : p.1.id ≤ c.val := by
    rw [hp.left] at hc
    split at hc
    · cases hc
    · omega
  refine ⟨⟨p.1.id, by omega⟩, by simp [rules], ?_⟩
  rw [hp.left, if_neg (by simp)]
  exact Nat.one_pos

theorem played_end {p : Para × (Fin taskNum → Nat)} (hp : Played p) :
    (∀ c, p.2 c = 0) ↔ p.1.vec = List.range taskNum := by
  rw [hp.vec]
  constructor
  · intro h
    have hle : taskNum ≤ p.1.id := by
      by_contra hlt
      have h0 := h ⟨p.1.id, by omega⟩
      rw [hp.left, if_neg (by simp)] at h0
      cases h0
    rw [Nat.le_antisymm hp.bound hle]
  · intro h c
    have hid : p.1.id = taskNum := by simpa using congrArg List.length h
    rw [hp.left, if_pos (by omega)]

theorem reachable_inv {s : State (Fin taskNum) Para} (h : Reachable (step (rules taskNum)) (init taskNum) s) :
    Inv (rules taskNum) ⟨0, []⟩ (fun _ => 1) s :=
  h.invariant _ inv_init fun _ _ _ _ => inv_step

/-- In every reachable state the ids in `vec` are `0, ..., id - 1` in this order, and exactly
the coroutines with these ids have taken their turn. -/
theorem notify_all_in_order {s : State (Fin taskNum) Para} (h : Reachable (step (rules taskNum)) (init taskNum) s) :
    (s.base.shared ()).vec = List.range (s.base.shared ()).id ∧ (s.base.shared ()).id ≤ taskNum ∧
    ∀ i, left (s.loc i) = 0 ↔ i.val < (s.base.shared ()).id := by
  have hp := played (reachable_inv h).game
  refine ⟨hp.vec, hp.bound, fun i => ?_⟩
  have hi := hp.left i
  simp only at hi
  rw [hi]
  split <;> simp_all

/-- The second waits until the first has notified it. -/
def twoTasks : List (Label (Fin 2) Para) :=
  [.body 1, .body 1, .lib 1 .waitUnlock, .lib 1 .waitPush, .body 0, .body 0, .body 0, .body 0, .lib 0 .notifyNext,
    .lib 0 .notifyEnqueue, .lib 0 .notifyNext, .body 0, .lib 1 .resume, .body 1, .body 1, .lib 1 .notifyNext, .body 1]

theorem notify_all_in_order_twoTasks : ∃ s, Reachable (step (rules 2)) (init 2) s ∧ (s.base.shared ()).id = 2 ∧
    (s.base.shared ()).vec = List.range (s.base.shared ()).id := by
  obtain ⟨s, hs⟩ : ∃ s, s ∈ exec (step (rules 2)) twoTasks (init 2) := ⟨_, rfl⟩
  have hr := Reachable.of_exec twoTasks hs
  have hvec := (notify_all_in_order hr).1
  cases hs
  exact ⟨_, hr, by decide, hvec⟩

/-- A run that cannot go on has left what the test asserts, and all coroutines finished,
exactly if none of its notifications fell between the unlock of the wait of the next in turn
and its entry into the queue. -/
theorem notify_all_ends {ls : List (Label (Fin taskNum) Para)} {t : State (Fin taskNum) Para}
    (he : exec (step (rules taskNum)) ls (init taskNum) = some t) (hst : Stuck (rules taskNum) t) :
    ((t.base.shared ()).vec = List.range taskNum ↔ Along (step (rules taskNum)) (NoGap (rules taskNum)) ls (init taskNum)) ∧
    ((∀ i, t.loc i = .finished) ↔ (t.base.shared ()).vec = List.range taskNum) := by
  have hs := reachable_inv (Reachable.of_exec ls he)
  have hend := ends_iff (.inl rfl) (fun p hp => played_live (played hp)) he hst
  have hvec := played_end (played hs.game)
  have hfin : (∀ i, t.loc i = .finished) ↔ (t.base.shared ()).vec = List.range taskNum := by
    rw [← hvec]
    exact forall_congr' fun i => finished_iff hs hst i
  exact ⟨by rw [← hfin]; exact hend, hfin⟩

/-- The second releases the mutex to wait, and the first takes its turn before the second is
in the queue. -/
def inTheGap : List (Label (Fin 2) Para) :=
  [.body 1, .body 1, .lib 1 .waitUnlock, .body 0, .body 0, .body 0, .body 0, .lib 0 .notifyNext, .body 0,
    .lib 1 .waitPush]

theorem notify_all_ends_inTheGap :
    (∃ t, exec (step (rules 2)) twoTasks (init 2) = some t ∧ Stuck (rules 2) t ∧
      (t.base.shared ()).vec = List.range 2) ∧
    ∃ t, exec (step (rules 2)) inTheGap (init 2) = some t ∧ Stuck (rules 2) t ∧
      (t.base.shared ()).vec ≠ List.range 2 := by
  constructor
  · obtain ⟨t, ht⟩ : ∃ t, exec (step (rules 2)) twoTasks (init 2) = some t := ⟨_, rfl⟩
    have hst : Stuck (rules 2) t := by
      cases ht
      refine stuck_of_points fun c => ?_
      match c with
      | 0 => exact .inl ⟨rfl, rfl⟩
      | 1 => exact .inl ⟨rfl, rfl⟩
    exact ⟨t, ht, hst, (notify_all_ends ht hst).1.mpr (by decide)⟩
  · obtain ⟨t, ht⟩ : ∃ t, exec (step (rules 2)) inTheGap (init 2) = some t := ⟨_, rfl⟩
    have hst : Stuck (rules 2) t := by
      cases ht
      refine stuck_of_points fun c => ?_
      match c with
      | 0 => exact .inl ⟨rfl, rfl⟩
      | 1 => exact .inr ⟨_, rfl⟩
    exact ⟨t, ht, hst, fun hv => absurd ((notify_all_ends ht hst).1.mp hv) (by decide)⟩

end NotifyAll

namespace NotifyOne

structure Para where
  state : Bool
  vec : List Nat
  deriving DecidableEq, Repr

/-- `notify_one(para, id, loop_num)` for the ids 0 and 1. -/
def rules : Rules (Fin 2) Para where
  turn id para := para.state == (id.val % 2 != 0)
  act id para := { state := !para.state, vec := para.vec ++ [id.val] }
  all := false
  alone d a b ha hb := by
    rw [beq_iff_eq] at ha hb
    revert a b
    cases d.state <;> decide

def init (loopNum : Nat) : State (Fin 2) Para := TurnTaking.init ⟨false, []⟩ fun _ => loopNum

variable {loopNum : Nat}

structure Played (loopNum : Nat) (p : Para × (Fin 2 → Nat)) : Prop where
  vec : p.1.vec = (List.range p.1.vec.length).map (· % 2)
  state : p.1.state = (p.1.vec.length % 2 != 0)
  zero : p.2 0 + (p.1.vec.length + 1) / 2 = loopNum
  one : p.2 1 + p.1.vec.length / 2 = loopNum

/-- It is the turn of the id that the length of `vec` gives. -/
theorem Played.turn_iff {p : Para × (Fin 2 → Nat)} (hp : Played loopNum p) (i : Fin 2) :
    rules.turn i p.1 = true ↔ i.val = p.1.vec.length % 2 := by
  have hi : i.val % 2 = i.val := Nat.mod_eq_of_lt i.isLt
  change (p.1.state == (i.val % 2 != 0)) = true ↔ _
  rw [hp.state, hi, beq_iff_eq, Bool.eq_iff_iff]
  simp only [bne_iff_ne, ne_eq]
  omega

theorem played {p : Para × (Fin 2 → Nat)} (h : Reachable (play rules) (⟨false, []⟩, fun _ => loopNum) p) :
    Played loopNum p := by
  refine h.invariant (Played loopNum) ⟨rfl, rfl, by simp, by simp⟩ ?_
  rintro i p q - hp hq
  unfold play at hq
  split at hq
  · rename_i hc
    cases hq
    have hi := (hp.turn_iff i).mp hc.1
    have hlen : (rules.act i p.1).vec.length = p.1.vec.length + 1 := List.length_append ..
    have hpos := hc.2
    have h0 := hp.zero
    have h1 := hp.one
    refine ⟨?_, ?_, ?_, ?_⟩
    · rw [hlen, List.range_succ, List.map_append, ← hp.vec]
      change p.1.vec ++ [i.val] = p.1.vec ++ [p.1.vec.length % 2]
      rw [hi]
    · rw [hlen]
      change (!p.1.state) = _
      rw [hp.state, Bool.eq_iff_iff]
      simp only [Bool.not_eq_true', bne_eq_false_iff_eq, bne_iff_ne, ne_eq]
      omega
    · rw [hlen]
      change Function.update p.2 i (p.2 i - 1) 0 + _ = loopNum
      match i with
      | 0 =>
        rw [Function.update_self]
        simp only [Fin.val_zero] at hi
        omega
      | 1 =>
        rw [Function.update_of_ne (by decide)]
        simp only [Fin.val_one] at hi
        omega
    · rw [hlen]
      change Function.update p.2 i (p.2 i - 1) 1 + _ = loopNum
      match i with
      | 0 =>
        rw [Function.update_of_ne (by decide)]
        simp only [Fin.val_zero] at hi
        omega
      | 1 =>
        rw [Function.update_self]
        simp only [Fin.val_one] at hi
        omega
  · cases hq

theorem played_live {p : Para × (Fin 2 → Nat)} (hp : Played loopNum p) (h : ∃ c, 0 < p.2 c) :
    ∃ c, rules.turn c p.1 = true ∧ 0 < p.2 c := by
  have h0 := hp.zero
  have h1 := hp.one
  have hsome : 0 < p.2 0 ∨ 0 < p.2 1 := by
    obtain ⟨c, hc⟩ := h
    match c with
    | 0 => exact .inl hc
    | 1 => exact .inr hc
  rcases Nat.mod_two_eq_zero_or_one p.1.vec.length with hm | hm
  · exact ⟨0, (hp.turn_iff 0).mpr hm.symm, by omega⟩
  · exact ⟨1, (hp.turn_iff 1).mpr hm.symm, by omega⟩

theorem played_end {p : Para × (Fin 2 → Nat)} (hp : Played loopNum p) :
    (∀ c, p.2 c = 0) ↔ p.1.vec = (List.range (2 * loopNum)).map (· % 2) := by
  have h0 := hp.zero
  have h1 := hp.one
  constructor
  · intro h
    have hc0 := h 0
    have hc1 := h 1
    have hlen : p.1.vec.length = 2 * loopNum := by omega
    rw [hp.vec, hlen]
  · intro h
    have hlen : p.1.vec.length = 2 * loopNum := by
      rw [h]
      simp
    intro c
    match c with
    | 0 => omega
    | 1 => omega

theorem reachable_inv {s : State (Fin 2) Para} (h : Reachable (step rules) (init loopNum) s) :
    Inv rules ⟨false, []⟩ (fun _ => loopNum) s :=
  h.invariant _ inv_init fun _ _ _ _ => inv_step

/-- In every reachable state the ids in `vec` alternate from 0 on, and `state` is the parity
of their number. -/
theorem notify_one_alternates {s : State (Fin 2) Para} (h : Reachable (step rules) (init loopNum) s) :
    (∀ (i : Nat) (hi : i < (s.base.shared ()).vec.length), (s.base.shared ()).vec.get ⟨i, hi⟩ = i % 2) ∧
    (s.base.shared ()).state = ((s.base.shared ()).vec.length % 2 != 0) ∧
    (s.base.shared ()).vec.length + left (s.loc 0) + left (s.loc 1) = 2 * loopNum := by
  have hp := played (reachable_inv h).game
  have h0 := hp.zero
  have h1 := hp.one
  refine ⟨fun i hi => ?_, hp.state, ?_⟩
  · have hget := List.getElem_of_eq hp.vec hi
    simpa using hget
  · simp only at h0 h1
    omega

/-- The second waits until the first has notified it. -/
def oneTurnEach : List (Label (Fin 2) Para) :=
  [.body 1, .body 1, .lib 1 .waitUnlock, .lib 1 .waitPush, .body 0, .body 0, .body 0, .body 0, .lib 0 .notifyNext,
    .lib 0 .notifyEnqueue, .lib 0 .notifyNext, .body 0, .lib 1 .resume, .body 1, .body 1, .lib 1 .notifyNext, .body 1]

theorem notify_one_alternates_oneTurnEach : ∃ s, Reachable (step rules) (init 1) s ∧
    (s.base.shared ()).vec.length = 2 ∧ (s.base.shared ()).state = false ∧
    (s.base.shared ()).vec.length + left (s.loc 0) + left (s.loc 1) = 2 := by
  obtain ⟨s, hs⟩ : ∃ s, s ∈ exec (step rules) oneTurnEach (init 1) := ⟨_, rfl⟩
  have hr := Reachable.of_exec oneTurnEach hs
  obtain ⟨-, hstate, hlen⟩ := notify_one_alternates hr
  have hvec : (s.base.shared ()).vec.length = 2 := by
    cases hs
    decide
  rw [hvec] at hstate
  exact ⟨s, hr, hvec, hstate, hlen⟩

/-- A run that cannot go on has left what the test asserts, and both coroutines finished,
exactly if none of its notifications fell between the unlock of the wait of the other and its
entry into the queue. -/
theorem notify_one_ends {ls : List (Label (Fin 2) Para)} {t : State (Fin 2) Para}
    (he : exec (step rules) ls (init loopNum) = some t) (hst : Stuck rules t) :
    ((t.base.shared ()).vec = (List.range (2 * loopNum)).map (· % 2) ↔
      Along (step rules) (NoGap rules) ls (init loopNum)) ∧
    ((∀ i, t.loc i = .finished) ↔ (t.base.shared ()).vec = (List.range (2 * loopNum)).map (· % 2)) := by
  have hs := reachable_inv (Reachable.of_exec ls he)
  have hend := ends_iff (.inr (by decide)) (fun p hp => played_live (played hp)) he hst
  have hvec := played_end (played hs.game)
  have hfin : (∀ i, t.loc i = .finished) ↔ (t.base.shared ()).vec = (List.range (2 * loopNum)).map (· % 2) := by
    rw [← hvec]
    exact forall_congr' fun i => finished_iff hs hst i
  exact ⟨by rw [← hfin]; exact hend, hfin⟩

/-- The second releases the mutex to wait, and the first takes its turn before the second is
in the queue. -/
def missedTurn : List (Label (Fin 2) Para) :=
  [.body 1, .body 1, .lib 1 .waitUnlock, .body 0, .body 0, .body 0, .body 0, .lib 0 .notifyNext, .body 0,
    .lib 1 .waitPush]

theorem notify_one_ends_missedTurn :
    (∃ t, exec (step rules) oneTurnEach (init 1) = some t ∧ Stuck rules t ∧ (t.base.shared ()).vec = [0, 1]) ∧
    ∃ t, exec (step rules) missedTurn (init 1) = some t ∧ Stuck rules t ∧ (t.base.shared ()).vec ≠ [0, 1] := by
  constructor
  · obtain ⟨t, ht⟩ : ∃ t, exec (step rules) oneTurnEach (init 1) = some t := ⟨_, rfl⟩
    have hst : Stuck rules t := by
      cases ht
      refine stuck_of_points fun c => ?_
      match c with
      | 0 => exact .inl ⟨rfl, rfl⟩
      | 1 => exact .inl ⟨rfl, rfl⟩
    exact ⟨t, ht, hst, (notify_one_ends ht hst).1.mpr (by decide)⟩
  · obtain ⟨t, ht⟩ : ∃ t, exec (step rules) missedTurn (init 1) = some t := ⟨_, rfl⟩
    have hst : Stuck rules t := by
      cases ht
      refine stuck_of_points fun c => ?_
      match c with
      | 0 => exact .inl ⟨rfl, rfl⟩
      | 1 => exact .inr ⟨_, rfl⟩
    exact ⟨t, ht, hst, fun hv => absurd ((notify_one_ends ht hst).1.mp hv) (by decide)⟩

end NotifyOne

/-- A run of either test takes a bounded number of steps, and can be continued to one that
cannot go on. -/
theorem notify_tests_end :
    (∀ (taskNum : Nat) (ls : List (Label (Fin taskNum) NotifyAll.Para)) t,
      exec (step (NotifyAll.rules taskNum)) ls (NotifyAll.init taskNum) = some t →
      ls.length ≤ taskNum * (2 * taskNum + 15) ∧
      ∃ more u, exec (step (NotifyAll.rules taskNum)) (ls ++ more) (NotifyAll.init taskNum) = some u ∧
        Stuck (NotifyAll.rules taskNum) u) ∧
    (∀ (loopNum : Nat) (ls : List (Label (Fin 2) NotifyOne.Para)) t,
      exec (step NotifyOne.rules) ls (NotifyOne.init loopNum) = some t → ls.length ≤ 38 * loopNum ∧
      ∃ more u, exec (step NotifyOne.rules) (ls ++ more) (NotifyOne.init loopNum) = some u ∧ Stuck NotifyOne.rules u) := by
  constructor
  · intro taskNum ls t he
    obtain ⟨hle, hmore⟩ := turns_bounded _ _ _ he
    exact ⟨by simpa using hle, hmore⟩
  · intro loopNum ls t he
    obtain ⟨hle, hmore⟩ := turns_bounded _ _ _ he
    refine ⟨?_, hmore⟩
    simp only [Fin.sum_univ_two, Fintype.card_fin] at hle
    omega

/-- The run that ends with a coroutine in the queue is within the bound too. -/
theorem notify_tests_end_inTheGap : ∃ t, exec (step (NotifyAll.rules 2)) NotifyAll.inTheGap (NotifyAll.init 2) = some t ∧
    NotifyAll.inTheGap.length ≤ 2 * (2 * 2 + 15) := by
  obtain ⟨t, ht⟩ : ∃ t, exec (step (NotifyAll.rules 2)) NotifyAll.inTheGap (NotifyAll.init 2) = some t := ⟨_, rfl⟩
  exact ⟨t, ht, (notify_tests_end.1 2 _ t ht).1⟩

end TinyCoro.Client
