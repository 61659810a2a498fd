import Mathlib.Data.List.Basic

/-! A first-in-first-out carrier seen from outside: what it has accepted, what
it has delivered, and what is still under way, in one fixed order. -/
namespace TinyCoro.Transition

/-- The three lists cannot disagree: nothing is lost, repeated or reordered. -/
@[ext] structure Ledger (α : Type) where
  accepted : List α
  delivered : List α
  transit : List α
  law : delivered ++ transit = accepted

namespace Ledger
variable {α : Type}

def offer (g : Ledger α) (a : α) : Ledger α :=
  ⟨g.accepted ++ [a], g.delivered, g.transit ++ [a], by rw [← List.append_assoc, g.law]⟩

def take (g : Ledger α) (a : α) (rest : List α) (h : g.transit = a :: rest) : Ledger α :=
  ⟨g.accepted, g.delivered ++ [a], rest, by rw [List.append_assoc, List.singleton_append, ← h, g.law]⟩

/-- Withdraw the youngest part of what is under way. -/
def cut (g : Ledger α) (keep : List α) : Ledger α :=
  ⟨g.delivered ++ keep, g.delivered, keep, rfl⟩

/-- The moves of the carrier. A value handed straight over is offered and taken at once. -/
inductive Move : Ledger α → Ledger α → Prop
  | stay (g : Ledger α) : Move g g
  | offer (g : Ledger α) (a : α) : Move g (g.offer a)
  | take (g : Ledger α) (a : α) (rest : List α) (h : g.transit = a :: rest) : Move g (g.take a rest h)
  | handOver (g : Ledger α) (a : α) (h : (g.offer a).transit = [a]) : Move g ((g.offer a).take a [] h)
  | cut (g : Ledger α) (keep dropped : List α) (h : g.transit = keep ++ dropped) : Move g (g.cut keep)

@[simp] theorem offer_transit (g : Ledger α) (a : α) : (g.offer a).transit = g.transit ++ [a] := rfl

end Ledger
end TinyCoro.Transition
