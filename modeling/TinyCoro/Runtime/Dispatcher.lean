import TinyCoro.Runtime.Scheduler
import TinyCoro.Transition.Residues

/-! `dispatcher<round_robin>`: every call takes the next number of a shared counter, and the
context it names is the number modulo the count of contexts. -/
namespace TinyCoro.Runtime
open Transition

/-- The members of `dispatcher<round_robin>`, of type `size_t`. -/
structure Dispatcher where
  ctxCnt : BitVec 64
  cur : BitVec 64
  deriving DecidableEq, Repr

namespace Dispatcher
variable {Θ : Type}

def zero : Dispatcher := ⟨0, 0⟩

def init (ctxCnt : BitVec 64) : Dispatcher := ⟨ctxCnt, 0⟩

/-- `dispatch()`. The `fetch_add` is what happens to the shared counter; there is no index
where the count is 0. -/
def dispatch (d : Dispatcher) : Option (BitVec 64) × Dispatcher :=
  (if d.ctxCnt = 0 then none else some (d.cur % d.ctxCnt), { d with cur := d.cur + 1 })

/-- The calls of the threads in the order of their `fetch_add`, with what each returns. -/
def dispatches : List Θ → Dispatcher → List (Θ × Option (BitVec 64))
  | [], _ => []
  | θ :: θs, d => (θ, d.dispatch.1) :: dispatches θs d.dispatch.2

def chosen (i : Nat) (calls : List (Θ × Option (BitVec 64))) : Nat :=
  calls.countP fun x => x.2.any (·.toNat = i)

theorem dispatch_some {d : Dispatcher} (hn : d.ctxCnt ≠ 0) : d.dispatch.1 = some (d.cur % d.ctxCnt) := if_neg hn

theorem dispatch_index (d : Dispatcher) : (d.cur % d.ctxCnt).toNat = d.cur.toNat % d.ctxCnt.toNat := BitVec.toNat_umod

theorem ctxCnt_pos {d : Dispatcher} (hn : d.ctxCnt ≠ 0) : 0 < d.ctxCnt.toNat := by
  refine Nat.pos_of_ne_zero fun h => hn (BitVec.eq_of_toNat_eq ?_)
  rw [h]
  rfl

/-- Below 2^64 the counter does not wrap. -/
theorem dispatch_cur {d : Dispatcher} (hc : d.cur.toNat + 1 < 2 ^ 64) : d.dispatch.2.cur.toNat = d.cur.toNat + 1 := by
  have hone : (1 : BitVec 64).toNat = 1 := rfl
  rw [dispatch, BitVec.toNat_add, hone, Nat.mod_eq_of_lt hc]

theorem dispatches_lt (θs : List Θ) {d : Dispatcher} (hn : d.ctxCnt ≠ 0) :
    ∀ x ∈ dispatches θs d, ∃ i, x.2 = some i ∧ i.toNat < d.ctxCnt.toNat := by
  induction θs generalizing d with
  | nil => exact fun x hx => (List.not_mem_nil hx).elim
  | cons θ θs ih =>
    intro x hx
    rcases List.mem_cons.mp hx with rfl | hx
    · refine ⟨_, dispatch_some hn, ?_⟩
      rw [dispatch_index]
      exact Nat.mod_lt _ (ctxCnt_pos hn)
    · exact ih (d := d.dispatch.2) hn x hx

/-- The calls of a window choose a context as often as the numbers of the window have it as
their residue. -/
theorem chosen_eq_count (θs : List Θ) {d : Dispatcher} (hn : d.ctxCnt ≠ 0) (hk : d.cur.toNat + θs.length ≤ 2 ^ 64)
    (i : Nat) : chosen i (dispatches θs d) = Nat.count (fun j => (d.cur.toNat + j) % d.ctxCnt.toNat = i) θs.length := by
  induction θs generalizing d with
  | nil => rfl
  | cons θ θs ih =>
    have hfirst : d.dispatch.1.any (·.toNat = i) = decide (d.cur.toNat % d.ctxCnt.toNat = i) := by
      rw [dispatch_some hn, Option.any_some, dispatch_index]
    rw [List.length_cons] at hk
    have hrest : chosen i (dispatches θs d.dispatch.2) =
        Nat.count (fun j => (d.cur.toNat + (j + 1)) % d.ctxCnt.toNat = i) θs.length := by
      cases θs with
      | nil => rfl
      | cons θ' θs =>
        have hcur := dispatch_cur (d := d) (by rw [List.length_cons] at hk; omega)
        rw [ih (d := d.dispatch.2) hn (by rw [hcur]; omega), hcur]
        simp only [Nat.add_assoc, Nat.add_comm 1]
        rfl
    rw [dispatches, chosen, List.countP_cons, hfirst, List.length_cons, Nat.count_succ']
    change chosen i _ + _ = _
    rw [hrest]
    simp

/-- A window of `dispatch()` calls by any threads gives each context its share of them, up to
rounding. -/
theorem round_robin_balanced (d : Dispatcher) (θs : List Θ) (hn : d.ctxCnt ≠ 0) (hk : d.cur.toNat + θs.length ≤ 2 ^ 64) :
    (∀ x ∈ dispatches θs d, ∃ i, x.2 = some i ∧ i.toNat < d.ctxCnt.toNat) ∧
    ∀ i < d.ctxCnt.toNat, chosen i (dispatches θs d) = θs.length / d.ctxCnt.toNat ∨
      chosen i (dispatches θs d) = (θs.length + (d.ctxCnt.toNat - 1)) / d.ctxCnt.toNat := by
  refine ⟨dispatches_lt θs hn, fun i hi => ?_⟩
  rw [chosen_eq_count θs hn hk]
  exact count_window (ctxCnt_pos hn) hi _ _

/-- Two threads and three contexts, up to the last number before the counter wraps. -/
theorem round_robin_balanced_lastWindow :
    (∀ x ∈ dispatches [false, true, false, true, true, false, true] ⟨3, 18446744073709551609⟩,
      ∃ i, x.2 = some i ∧ i.toNat < 3) ∧
    ∀ i < 3,
      chosen i (dispatches [false, true, false, true, true, false, true] ⟨3, 18446744073709551609⟩) = 2 ∨
      chosen i (dispatches [false, true, false, true, true, false, true] ⟨3, 18446744073709551609⟩) = 3 :=
  round_robin_balanced ⟨3, 18446744073709551609⟩ _ (by decide) (by decide)

/-- The scheduler's tasks are dispatched in this way: its counter is a number that does not
wrap. -/
theorem sys_dispatch {n : Nat} [NeZero n] (s : Scheduler.Sys n) (hn : n < 2 ^ 64) (hc : s.cur < 2 ^ 64) :
    (dispatch ⟨.ofNat 64 n, .ofNat 64 s.cur⟩).1.map BitVec.toNat = some (Fin.ofNat n s.cur : Nat) := by
  have hcnt : (BitVec.ofNat 64 n).toNat = n := by rw [BitVec.toNat_ofNat, Nat.mod_eq_of_lt hn]
  have hne : BitVec.ofNat 64 n ≠ 0 := fun h => NeZero.ne n (by rw [← hcnt, h]; rfl)
  rw [dispatch_some hne, Option.map_some, dispatch_index, hcnt, BitVec.toNat_ofNat, Nat.mod_eq_of_lt hc]
  rfl

end Dispatcher
end TinyCoro.Runtime
