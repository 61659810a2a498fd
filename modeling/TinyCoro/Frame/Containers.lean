import TinyCoro.Frame.Task
import TinyCoro.Transition.Runs

/-! The two `container` templates that keep the outcome of a task: the one with a
`std::variant` and the one of `pod_type`, a union and a state written by hand. -/
namespace TinyCoro.Frame.Containers
open Transition
variable {T Exn : Type}

inductive Pointer (Exn : Type)
  | null
  | exception (e : Exn)
  | wild
  deriving DecidableEq, Repr

/-- The bytes of the union of `m_value` and `m_exception_ptr`. A write of one member leaves
bytes that can also be read as the other. -/
structure Layout (T Exn : Type) where
  Bytes : Type
  write (v : T) (b : Bytes) : Bytes
  read (b : Bytes) : T
  point (e : Exn) (b : Bytes) : Bytes
  pointer (b : Bytes) : Pointer Exn
  read_write (v : T) (b : Bytes) : read (write v b) = v
  pointer_point (e : Exn) (b : Bytes) : pointer (point e b) = .exception e

inductive ValueState
  | none
  | value
  | exception
  deriving DecidableEq, Repr

/-- The `container` of `pod_type`. `held` lists the exceptions of which it still has a
reference: a value written over the pointer gives none back. -/
structure Pod (L : Layout T Exn) where
  bytes : L.Bytes
  state : ValueState
  held : List Exn

inductive Variant (T Exn : Type)
  | unset
  | value (v : T)
  | exception (e : Exn)

inductive Call (T Exn : Type)
  | returnValue (v : T)
  | setException (e : Exn)
  | result

/-- What the caller sees of a call. After `terminates` and `undefined` it sees nothing more. -/
inductive Answer (T Exn : Type)
  | returned
  | value (v : T)
  | throws (e : Exn)
  | terminates
  | undefined
  deriving DecidableEq, Repr

variable [DecidableEq Exn]

namespace Pod
variable {L : Layout T Exn}

/-- `container()`, which does not initialise the union. -/
def fresh (b : L.Bytes) : Pod L := ⟨b, .none, []⟩

def returnValue (v : T) (c : Pod L) : Pod L := ⟨L.write v c.bytes, .value, c.held⟩

/-- The release of what the bytes point to; undefined if the container has no reference of it. -/
def release (c : Pod L) : Option (List Exn) :=
  match L.pointer c.bytes with
  | .null => some c.held
  | .exception old => if old ∈ c.held then some (c.held.erase old) else none
  | .wild => none

/-- The assignment to `m_exception_ptr` releases what the bytes point to before. -/
def setException (e : Exn) (c : Pod L) : Option (Pod L) := do
  let held ← c.release
  return ⟨L.point e c.bytes, .exception, e :: held⟩

/-- `result()`, whose `noexcept` makes the rethrown exception end the program; `zero` is `T{}`. -/
def result (zero : T) (c : Pod L) : Answer T Exn :=
  match c.state with
  | .value => .value (L.read c.bytes)
  | .exception => .terminates
  | .none => .value zero

def step (call : Call T Exn) (c : Pod L) : Option (Pod L) :=
  match call with
  | .returnValue v => some (c.returnValue v)
  | .setException e => c.setException e
  | .result => match c.state with
    | .exception => none
    | _ => some c

def answer (zero : T) (call : Call T Exn) (c : Pod L) : Answer T Exn :=
  match call with
  | .returnValue _ => .returned
  | .setException e => if (c.setException e).isSome then .returned else .undefined
  | .result => c.result zero

end Pod

namespace Variant

def returnValue (v : T) (_ : Variant T Exn) : Variant T Exn := .value v

/-- The placement of a new variant, with the exception, over the old one. -/
def setException (e : Exn) (_ : Variant T Exn) : Variant T Exn := .exception e

def neverSet : String := "The return value was never set, did you execute the coroutine?"

/-- All three overloads of `result()` answer alike. -/
def result (runtimeError : String → Exn) : Variant T Exn → Answer T Exn
  | .value v => .value v
  | .exception e => .throws e
  | .unset => .throws (runtimeError neverSet)

def step (call : Call T Exn) (c : Variant T Exn) : Option (Variant T Exn) :=
  match call with
  | .returnValue v => some (c.returnValue v)
  | .setException e => some (c.setException e)
  | .result => some c

def answer (runtimeError : String → Exn) (call : Call T Exn) (c : Variant T Exn) : Answer T Exn :=
  match call with
  | .returnValue _ | .setException _ => .returned
  | .result => c.result runtimeError

end Variant

section
variable {L : Layout T Exn}

/-- The bytes read as a null pointer or as that of an exception which the container still
has a reference of. -/
def Owns (c : Pod L) : Prop := L.pointer c.bytes = .null ∨ ∃ e ∈ c.held, L.pointer c.bytes = .exception e

/-- A result is asked for while a value is stored, and an exception is written over a pointer
that the container owns. -/
def Fits (call : Call T Exn) (c : Pod L) : Prop :=
  match call with
  | .returnValue _ => True
  | .setException _ => Owns c
  | .result => c.state = .value

inductive Alike : Pod L → Variant T Exn → Prop
  | unset (b : L.Bytes) (held : List Exn) : Alike ⟨b, .none, held⟩ .unset
  | value (b : L.Bytes) (held : List Exn) : Alike ⟨b, .value, held⟩ (.value (L.read b))
  | exception (b : L.Bytes) (e : Exn) (held : List Exn) (hb : L.pointer b = .exception e) :
    Alike ⟨b, .exception, held⟩ (.exception e)

omit [DecidableEq Exn] in
theorem alike_returnValue (v : T) (c : Pod L) (g : Variant T Exn) : Alike (c.returnValue v) (g.returnValue v) := by
  have h := Alike.value (L := L) (L.write v c.bytes) c.held
  rw [L.read_write] at h
  exact h

theorem release_isSome {c : Pod L} : c.release.isSome ↔ Owns c := by
  unfold Pod.release Owns
  cases hp : L.pointer c.bytes with
  | null => simp
  | exception old => simp
  | wild => simp

theorem setException_eq {e : Exn} {c : Pod L} (h : Owns c) :
    ∃ held, c.setException e = some ⟨L.point e c.bytes, .exception, held⟩ := by
  obtain ⟨held, hr⟩ := Option.isSome_iff_exists.mp (release_isSome.mpr h)
  exact ⟨e :: held, by simp [Pod.setException, hr]⟩

theorem setException_none {e : Exn} {c : Pod L} (h : ¬ Owns c) : c.setException e = none := by
  have hr := Option.not_isSome_iff_eq_none.mp (mt release_isSome.mp h)
  simp [Pod.setException, hr]

variable {zero : T} {runtimeError : String → Exn} {call : Call T Exn} {c : Pod L} {g : Variant T Exn}

theorem alike_step (h : Alike c g) (hf : Fits call c) :
    c.answer zero call = g.answer runtimeError call ∧
      ∃ t t', c.step call = some t ∧ g.step call = some t' ∧ Alike t t' := by
  cases call with
  | returnValue v => exact ⟨rfl, _, _, rfl, rfl, alike_returnValue v c g⟩
  | setException e =>
    obtain ⟨held, hset⟩ := setException_eq (e := e) hf
    refine ⟨?_, _, _, hset, rfl, .exception _ e held (L.pointer_point e c.bytes)⟩
    rw [Pod.answer, hset]
    rfl
  | result =>
    cases h with
    | value b held => exact ⟨rfl, _, _, rfl, rfl, .value b held⟩
    | unset | exception => cases hf

theorem answers_differ (h : Alike c g) (hf : ¬ Fits call c) : c.answer zero call ≠ g.answer runtimeError call := by
  cases call with
  | returnValue v => exact absurd trivial hf
  | setException e =>
    rw [Pod.answer, setException_none hf]
    exact nofun
  | result =>
    cases h with
    | value b held => exact absurd rfl hf
    | unset | exception => exact nofun

end

/-- From a fresh container on, whatever its bytes, the two answer alike exactly if every
`result()` finds a value stored last and every `set_exception()` a pointer to release that is
null or was stored here and not released since. -/
theorem containers_alike_iff (L : Layout T Exn) (b : L.Bytes) (zero : T) (runtimeError : String → Exn)
    (calls : List (Call T Exn)) :
    answers Pod.step (Pod.answer zero) calls (Pod.fresh b) =
        answers Variant.step (Variant.answer runtimeError) calls .unset ↔
      Along Pod.step Fits calls (Pod.fresh b) := by
  apply answers_eq_iff (R := Alike)
  · intro call c g h hf
    exact alike_step h hf
  · intro call c g h hf
    exact answers_differ h hf
  · exact .unset b []

def word : Layout (BitVec 64) (Fin 2) where
  Bytes := BitVec 64
  write v _ := v
  read b := b
  point e _ := if e = 0 then 4096 else 4112
  pointer b := if b = 0 then .null else if b = 4096 then .exception 0 else if b = 4112 then .exception 1 else .wild
  read_write _ _ := rfl
  pointer_point e _ := by
    revert e
    decide

/-- The first `result()` comes before anything is stored. -/
theorem containers_differ_unset : ¬ ∀ calls : List (Call (BitVec 64) (Fin 2)),
    answers Pod.step (Pod.answer 0) calls (Pod.fresh (L := word) (0 : BitVec 64)) =
      answers Variant.step (Variant.answer fun _ => 1) calls .unset :=
  fun h => absurd (h [.result]) (by decide)

section Task
variable {Ty : Task.Types} {r : Task.Ret Ty}

def Answer.outcome : Answer T Exn → Option (Except Exn T)
  | .value v => some (.ok v)
  | .throws e => some (.error e)
  | _ => none

def Variant.store : Variant r.Val Ty.Exn → Task.Container r
  | .unset => .none
  | .value v => .value v
  | .exception e => .exception e

/-- The stores of the tasks are these containers. -/
theorem variant_store {o : Ty.Other} (g : Variant (Ty.other o) Ty.Exn) :
    (Variant.store (r := .other o) g).result = (g.result Ty.runtimeError).outcome := by
  cases g with
  | unset | value | exception => rfl

theorem pod_store {p : Ty.Pod} {L : Layout (Ty.pod p) Ty.Exn} {c : Pod L} {g : Variant (Ty.pod p) Ty.Exn} (h : Alike c g) :
    (Variant.store (r := .pod p) g).result = (c.result (Ty.podInit p)).outcome := by
  cases h with
  | unset | value | exception => rfl

end Task
end TinyCoro.Frame.Containers
