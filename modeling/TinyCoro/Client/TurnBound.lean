import Mathlib.Algebra.BigOperators.Ring.Finset
import Mathlib.Algebra.Order.BigOperators.Group.Finset
import Mathlib.Data.Fintype.BigOperators
import Mathlib.Data.Fintype.List
import TinyCoro.Client.TurnTaking

/-! Coroutines that take turns come to an end: a number that every step lowers. -/
namespace TinyCoro.Client.TurnTaking
open Transition TinyCoro.Comp CondVar HandlePlaces PcMoves QueueMoves Critical
variable {C D : Type}

def progress : Pc C Unit Unit D → Nat
  | .running => 0
  | .submitted _ => 1
  | .queued _ => 2
  | .picked _ _ _ | .lockSuspend _ | .guardSuspend _ => 3
  | .waiting _ _ _ => 4
  | .waitPush _ _ _ => 5
  | .waitUnlock _ _ _ => 6
  | .notify _ n => 2 * n + 1
  | .notifyEnqueue _ n _ => 2 * n + 2

def turnSteps (N : Nat) : Nat := 2 * N + 15

def bodySteps (N : Nat) : Local → Nat
  | .start n => n * turnSteps N
  | .locked n => (n - 1) * turnSteps N + 2 * N + 11
  | .waited n => (n - 1) * turnSteps N + 2 * N + 4
  | .notify n => n * turnSteps N + 2 * N + 3
  | .leaving n => n * turnSteps N + 1
  | .finished => 0

def measure [Fintype C] (s : State C D) : Nat :=
  ∑ c, (bodySteps (Fintype.card C) (s.loc c) + progress (s.base.pc c))

variable {R : Rules C D} {d₀ : D} {rounds : C → Nat} {s t : State C D} {c x : C} {op : Op Unit Unit D}

private theorem progress_moved {g : Prop} {p q : Pc C Unit Unit D} (h : Moved g p q) : progress q ≤ progress p := by
  cases h with
  | stay => exact Nat.le_refl _
  | grant | pick | enqueue | take => simp [progress]

private theorem progress_internal {p q : Pc C Unit Unit D} (h : Own op p q) (hi : internal op = true)
    (hp : p ≠ .running) : progress q < progress p := by
  cases h with
  | stay => exact absurd rfl hp
  | lockFail | guardFail | wait | notifyOne | notifyAll => cases hi
  | putBack | pop | enqueue =>
    simp only [progress]
    omega
  | lockQueue | lockTake | guardQueue | guardTake | release | enter | notified | resume => simp [progress]

private theorem bodySteps_again (N n : Nat) : bodySteps N (again n) = n * turnSteps N := by
  cases n with
  | zero => simp [again, bodySteps]
  | succ n => rfl

private theorem bodySteps_call {N : Nat} {d : D} {l next : Local} {q : Pc C Unit Unit D} (hp : At R d c l .running)
    (hc : Called R c op l next) (hown : Own op .running q) (hq : ∀ n, remaining q = some n → n ≤ N) :
    bodySteps N next + progress q < bodySteps N l := by
  cases hc with
  | lock =>
    cases hp with
    | start n =>
      have hturn : (n + 1) * turnSteps N = n * turnSteps N + (2 * N + 15) := Nat.succ_mul n _
      cases hown <;> simp only [bodySteps, progress, Nat.add_sub_cancel] <;> omega
  | wait =>
    cases hp with
    | locked n => cases hown <;> simp only [bodySteps, progress, Nat.add_sub_cancel] <;> omega
  | act =>
    cases hp with
    | acting n =>
      cases hown
      simp only [bodySteps, progress, Nat.add_sub_cancel]
      omega
  | notifyAll n =>
    cases hown with
    | stay =>
      simp only [bodySteps, progress]
      omega
    | notifyAll v k =>
      have hk := hq k rfl
      simp only [bodySteps, progress]
      omega
  | notifyOne n =>
    cases hown with
    | stay =>
      simp only [bodySteps, progress]
      omega
    | notifyOne v k =>
      have hk := hq k rfl
      simp only [bodySteps, progress]
      omega
  | unlock n =>
    cases hown
    rw [bodySteps_again]
    exact Nat.lt_succ_self _

variable [DecidableEq C] [Fintype C]

omit [DecidableEq C] in
private theorem waiters_le (hs : HandlePlaces.Inv s.base) : (s.base.cv ()).waiters.length ≤ Fintype.card C := by
  simpa using (hs.wait_nodup ()).length_le_card

/-- Every step lowers what is left to do for the coroutine that takes it, and for nobody
else is there more to do. -/
theorem measure_step (hs : Inv R d₀ rounds s) (h : Taken R c op s t) : measure t < measure s := by
  have hc : bodySteps (Fintype.card C) (t.loc c) + progress (t.base.pc c) <
      bodySteps (Fintype.card C) (s.loc c) + progress (s.base.pc c) := by
    rcases h.how with ⟨hr, next, hc, ht⟩ | ⟨hi, ht⟩
    · have hp := hs.point c
      have hown := step_self hs.base h.base
      rw [hr] at hp hown
      rw [ht, Function.update_self, hr]
      refine bodySteps_call hp hc hown fun n hn => ?_
      have hs' := h.inv hs
      exact Nat.le_trans (hs'.count c n hn) (waiters_le hs'.base)
    · rw [ht]
      exact Nat.add_lt_add_left (progress_internal (step_self hs.base h.base) hi (internal_not_running hi h.base)) _
  refine Finset.sum_lt_sum (fun x _ => ?_) ⟨c, Finset.mem_univ c, hc⟩
  by_cases hx : x = c
  · rw [hx]
    exact Nat.le_of_lt hc
  · rw [h.loc_other hx]
    exact Nat.add_le_add_left (progress_moved (step_other hs.base h.base hx)) _

omit [DecidableEq C] in
private theorem measure_init : measure (init d₀ rounds) = (∑ c, rounds c) * turnSteps (Fintype.card C) := by
  rw [Finset.sum_mul]
  apply Finset.sum_congr rfl
  intro c _
  exact bodySteps_again _ _

theorem lowers (l : Label C D) (s t : State C D) (hs : Inv R d₀ rounds s) (h : step R l s = some t) :
    Inv R d₀ rounds t ∧ measure t < measure s := by
  obtain ⟨op, ht⟩ := step_taken h
  exact ⟨ht.inv hs, measure_step hs ht⟩

/-- No run takes more than `2 * n + 15` steps for each turn of `n` coroutines, and every run
can be continued to one that cannot go on. -/
theorem turns_bounded (R : Rules C D) (d₀ : D) (rounds : C → Nat) {ls : List (Label C D)}
    (he : exec (step R) ls (init d₀ rounds) = some t) :
    ls.length ≤ (∑ c, rounds c) * (2 * Fintype.card C + 15) ∧
    ∃ more u, exec (step R) (ls ++ more) (init d₀ rounds) = some u ∧ ∀ l, step R l u = none := by
  have hs : Inv R d₀ rounds t := (Reachable.of_exec ls he).invariant (Inv R d₀ rounds) inv_init fun _ _ _ _ => inv_step
  constructor
  · have hle := exec_length_le lowers inv_init he
    rw [measure_init] at hle
    exact Nat.le_trans (Nat.le_add_right _ _) hle
  · obtain ⟨more, u, hu, hlast⟩ := exists_exec_last lowers hs
    exact ⟨more, u, by rw [exec_append, he]; exact hu, hlast⟩

end TinyCoro.Client.TurnTaking
