import Mathlib.Data.List.Range

/-! What happens in a run of nested calls, where `B` tells of a call and `O` of what it gives
back. -/
namespace TinyCoro.Frame
variable {B O : Type}

/-- A body begins to run, or a parent is resumed with what its child gives back. -/
inductive Event (B O : Type)
  | enter (c : Nat) (b : B)
  | back (p c : Nat) (o : O)

def Event.entered : Event B O → Option Nat
  | .enter c _ => some c
  | .back _ _ _ => none

def Event.returned : Event B O → Option Nat
  | .enter _ _ => none
  | .back _ c _ => some c

/-- The `next`-th call, with `n` calls in it, and `m` calls after it: they begin in the order
of their numbers. -/
theorem entered_call {inside after : List (Event B O)} {self next n m : Nat} {b : B} {o : O}
    (hin : inside.filterMap Event.entered = List.range' (next + 1) n)
    (hafter : after.filterMap Event.entered = List.range' (next + 1 + n) m) :
    (.enter next b :: inside ++ .back self next o :: after).filterMap Event.entered = List.range' next (1 + n + m) := by
  rw [List.filterMap_append, List.filterMap_cons, List.filterMap_cons, hin, hafter]
  simp only [Event.entered]
  rw [List.cons_append, List.range'_append_1, Nat.add_assoc 1, Nat.add_comm 1, List.range'_succ]

/-- Each of them returns once. -/
theorem returned_call {inside after : List (Event B O)} {self next n m : Nat} {b : B} {o : O}
    (hin : (inside.filterMap Event.returned).Perm (List.range' (next + 1) n))
    (hafter : (after.filterMap Event.returned).Perm (List.range' (next + 1 + n) m)) :
    ((.enter next b :: inside ++ .back self next o :: after).filterMap Event.returned).Perm
      (List.range' next (1 + n + m)) := by
  rw [List.filterMap_append, List.filterMap_cons, List.filterMap_cons]
  simp only [Event.returned]
  refine List.perm_middle.trans ?_
  rw [Nat.add_assoc 1, Nat.add_comm 1, List.range'_succ, ← List.range'_append_1]
  exact (hin.append hafter).cons next

end TinyCoro.Frame
