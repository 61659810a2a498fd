import TinyCoro.Queue.Index
import TinyCoro.Transition.Owners
import TinyCoro.Transition.Runs

/-! The queue itself, one step for each access of a shared variable. A call takes a ticket
from `head_` or `tail_`, and then waits for the slot of the ticket to be free, or filled. -/
namespace TinyCoro.Queue
open Transition
variable {Θ α : Type}

inductive SlotState
  | empty
  | storing
  | stored
  | loading
  deriving DecidableEq, Repr

/-- What the calls return; `refused` is the false of `try_push` and `try_pop`. -/
inductive Answer (α : Type)
  | pushed
  | popped (a : α)
  | refused
  | size (n : Unsigned)
  deriving DecidableEq, Repr

/-- Where a thread is: outside with the answer of its last call, or before the access named.
`store` and `load` are the loops around the compare-and-exchange of `do_push_any` and
`do_pop_any`, and `spin` says whether the thread is in the inner one. -/
inductive Pc (α : Type)
  | out (answer : Option (Answer α))
  | pushHead (a : α)
  | tryPushHead (a : α)
  | tryPushTail (a : α) (head : Unsigned)
  | tryPushExchange (a : α) (head : Unsigned)
  | store (spin : Bool) (a : α) (head : Unsigned)
  | storeElement (a : α) (head : Unsigned)
  | storeEnd (head : Unsigned)
  | popTail
  | tryPopTail
  | tryPopHead (tail : Unsigned)
  | tryPopExchange (tail : Unsigned)
  | load (spin : Bool) (tail : Unsigned)
  | loadElement (tail : Unsigned)
  | loadEnd (tail : Unsigned) (a : α)
  | sizeFirst (headFirst : Bool)
  | sizeSecond (headFirst : Bool) (first : Unsigned)
  deriving DecidableEq, Repr

/-- The fields from `pushed` on are history: the elements in the order of their tickets, the
number of tickets that pops took, the ticket of the last call of each thread, counted without
wrapping, the ticket of the push that used a slot last, how often a slot has been emptied, and
for each element that was taken the tickets of its pop and of its push. -/
structure State (Θ α : Type) where
  head : Unsigned
  tail : Unsigned
  states : Unsigned → SlotState
  elements : Unsigned → α
  pc : Θ → Pc α
  pushed : List α
  popped : Nat
  ticket : Θ → Nat
  source : Unsigned → Nat
  rounds : Unsigned → Nat
  given : List (Nat × Nat)

/-- The calls, the next access of the call under way, and a weak exchange that fails although
it need not. In `was_size` the compiler chooses which counter is loaded first. -/
inductive Op (α : Type)
  | push (a : α)
  | tryPush (a : α)
  | pop
  | tryPop
  | wasSize (headFirst : Bool)
  | work
  | spurious
  deriving DecidableEq, Repr

/-- `elements_` holds values that were constructed by default. -/
def init (a : α) : State Θ α where
  head := 0
  tail := 0
  states _ := .empty
  elements _ := a
  pc _ := .out none
  pushed := []
  popped := 0
  ticket _ := 0
  source _ := 0
  rounds _ := 0
  given := []

def wasSize (head tail : Unsigned) : Unsigned := .ofInt 32 (max (head - tail).toInt 0)

def isFull (g : Shape) (head tail : Unsigned) : Bool := decide (g.size.toInt ≤ (head - tail).toInt)

def isEmpty (head tail : Unsigned) : Bool := decide ((head - tail).toInt ≤ 0)

namespace State
variable [DecidableEq Θ]

def goto (θ : Θ) (p : Pc α) (s : State Θ α) : State Θ α := { s with pc := Function.update s.pc θ p }

def takeHead (θ : Θ) (a : α) (s : State Θ α) : State Θ α :=
  { s with
    head := s.head + 1
    pushed := s.pushed ++ [a]
    ticket := Function.update s.ticket θ s.pushed.length }.goto θ (.store false a s.head)

def takeTail (θ : Θ) (s : State Θ α) : State Θ α :=
  { s with
    tail := s.tail + 1
    popped := s.popped + 1
    ticket := Function.update s.ticket θ s.popped }.goto θ (.load false s.tail)

def claim (i : Unsigned) (θ : Θ) (a : α) (head : Unsigned) (s : State Θ α) : State Θ α :=
  { s with
    states := Function.update s.states i .storing
    source := Function.update s.source i (s.ticket θ) }.goto θ (.storeElement a head)

def write (i : Unsigned) (θ : Θ) (a : α) (head : Unsigned) (s : State Θ α) : State Θ α :=
  { s with elements := Function.update s.elements i a }.goto θ (.storeEnd head)

def publish (i : Unsigned) (θ : Θ) (s : State Θ α) : State Θ α :=
  { s with states := Function.update s.states i .stored }.goto θ (.out (some .pushed))

def grab (i : Unsigned) (θ : Θ) (tail : Unsigned) (s : State Θ α) : State Θ α :=
  { s with
    states := Function.update s.states i .loading
    given := s.given ++ [(s.ticket θ, s.source i)] }.goto θ (.loadElement tail)

def release (i : Unsigned) (θ : Θ) (a : α) (s : State Θ α) : State Θ α :=
  { s with
    states := Function.update s.states i .empty
    rounds := Function.update s.rounds i (s.rounds i + 1) }.goto θ (.out (some (.popped a)))

end State

variable [DecidableEq Θ]

def work (g : Shape) (θ : Θ) (s : State Θ α) : Option (State Θ α) :=
  match s.pc θ with
  | .out _ => none
  | .pushHead a => some (s.takeHead θ a)
  | .tryPushHead a => some (s.goto θ (.tryPushTail a s.head))
  | .tryPushTail a head =>
    some (s.goto θ (if isFull g head s.tail then .out (some .refused) else .tryPushExchange a head))
  | .tryPushExchange a head => some (if s.head = head then s.takeHead θ a else s.goto θ (.tryPushTail a s.head))
  | .store false a head =>
    some (if s.states (g.index head) = .empty then s.claim (g.index head) θ a head else s.goto θ (.store true a head))
  | .store true a head => some (s.goto θ (.store (decide (s.states (g.index head) ≠ .empty)) a head))
  | .storeElement a head => some (s.write (g.index head) θ a head)
  | .storeEnd head => some (s.publish (g.index head) θ)
  | .popTail => some (s.takeTail θ)
  | .tryPopTail => some (s.goto θ (.tryPopHead s.tail))
  | .tryPopHead tail => some (s.goto θ (if isEmpty s.head tail then .out (some .refused) else .tryPopExchange tail))
  | .tryPopExchange tail => some (if s.tail = tail then s.takeTail θ else s.goto θ (.tryPopHead s.tail))
  | .load false tail =>
    some (if s.states (g.index tail) = .stored then s.grab (g.index tail) θ tail else s.goto θ (.load true tail))
  | .load true tail => some (s.goto θ (.load (decide (s.states (g.index tail) ≠ .stored)) tail))
  | .loadElement tail => some (s.goto θ (.loadEnd tail (s.elements (g.index tail))))
  | .loadEnd tail a => some (s.release (g.index tail) θ a)
  | .sizeFirst headFirst => some (s.goto θ (.sizeSecond headFirst (if headFirst then s.head else s.tail)))
  | .sizeSecond headFirst first =>
    some (s.goto θ (.out (some (.size (if headFirst then wasSize first s.tail else wasSize s.head first)))))

/-- An exchange that fails loads the counter, which here has not changed, and goes on as if it had. -/
def spurious (θ : Θ) (s : State Θ α) : Option (State Θ α) :=
  match s.pc θ with
  | .tryPushExchange a _ => some (s.goto θ (.tryPushTail a s.head))
  | .tryPopExchange _ => some (s.goto θ (.tryPopHead s.tail))
  | .store false a head => some (s.goto θ (.store true a head))
  | .load false tail => some (s.goto θ (.load true tail))
  | _ => none

def enter (θ : Θ) (p : Pc α) (s : State Θ α) : Option (State Θ α) :=
  match s.pc θ with
  | .out _ => some (s.goto θ p)
  | _ => none

def step (g : Shape) (l : Θ × Op α) (s : State Θ α) : Option (State Θ α) :=
  match l.2 with
  | .push a => enter l.1 (.pushHead a) s
  | .tryPush a => enter l.1 (.tryPushHead a) s
  | .pop => enter l.1 .popTail s
  | .tryPop => enter l.1 .tryPopTail s
  | .wasSize headFirst => enter l.1 (.sizeFirst headFirst) s
  | .work => work g l.1 s
  | .spurious => spurious l.1 s

def Pc.idle : Pc α → Bool
  | .store .. | .storeElement .. | .storeEnd .. | .load .. | .loadElement .. | .loadEnd .. => false
  | _ => true

def Op.entry : Op α → Option (Pc α)
  | .push a => some (.pushHead a)
  | .tryPush a => some (.tryPushHead a)
  | .pop => some .popTail
  | .tryPop => some .tryPopTail
  | .wasSize headFirst => some (.sizeFirst headFirst)
  | .work | .spurious => none

/-- In `try_push` (true) or `try_pop` (false), before the ticket. -/
def Pc.attempt : Pc α → Option Bool
  | .tryPushHead _ | .tryPushTail .. | .tryPushExchange .. => some true
  | .tryPopTail | .tryPopHead _ | .tryPopExchange _ => some false
  | _ => none

/-- What a thread does between its calls, and in them before it has a ticket. -/
inductive Idles (s : State Θ α) (θ : Θ) : Op α → Pc α → Prop
  | enter (op : Op α) (p : Pc α) (a : Option (Answer α)) (h : s.pc θ = .out a) (hp : op.entry = some p) : Idles s θ op p
  | attempt (op : Op α) (p : Pc α) (b : Bool) (h : (s.pc θ).attempt = some b)
    (hp : p.attempt = some b ∨ p = .out (some .refused)) : Idles s θ op p
  | sizeFirst (b : Bool) (h : s.pc θ = .sizeFirst b) : Idles s θ .work (.sizeSecond b (if b then s.head else s.tail))
  | sizeSecond (b : Bool) (first : Unsigned) (h : s.pc θ = .sizeSecond b first) :
    Idles s θ .work (.out (some (.size (if b then wasSize first s.tail else wasSize s.head first))))

inductive Steps (g : Shape) (s : State Θ α) (θ : Θ) : Op α → State Θ α → Prop
  | idle (op : Op α) (p : Pc α) (h : Idles s θ op p) : Steps g s θ op (s.goto θ p)
  | spinStore (op : Op α) (b b' : Bool) (a : α) (head : Unsigned) (hp : s.pc θ = .store b a head) :
    Steps g s θ op (s.goto θ (.store b' a head))
  | spinLoad (op : Op α) (b b' : Bool) (tail : Unsigned) (hp : s.pc θ = .load b tail) :
    Steps g s θ op (s.goto θ (.load b' tail))
  | takeHead (a : α) (hp : s.pc θ = .pushHead a ∨ s.pc θ = .tryPushExchange a s.head) : Steps g s θ .work (s.takeHead θ a)
  | takeTail (hp : s.pc θ = .popTail ∨ s.pc θ = .tryPopExchange s.tail) : Steps g s θ .work (s.takeTail θ)
  | claim (a : α) (head : Unsigned) (hp : s.pc θ = .store false a head) (he : s.states (g.index head) = .empty) :
    Steps g s θ .work (s.claim (g.index head) θ a head)
  | write (a : α) (head : Unsigned) (hp : s.pc θ = .storeElement a head) :
      Steps g s θ .work (s.write (g.index head) θ a head)
  | publish (head : Unsigned) (hp : s.pc θ = .storeEnd head) : Steps g s θ .work (s.publish (g.index head) θ)
  | grab (tail : Unsigned) (hp : s.pc θ = .load false tail) (he : s.states (g.index tail) = .stored) :
    Steps g s θ .work (s.grab (g.index tail) θ tail)
  | read (tail : Unsigned) (hp : s.pc θ = .loadElement tail) :
    Steps g s θ .work (s.goto θ (.loadEnd tail (s.elements (g.index tail))))
  | release (tail : Unsigned) (a : α) (hp : s.pc θ = .loadEnd tail a) : Steps g s θ .work (s.release (g.index tail) θ a)

section
variable {g : Shape} {s t : State Θ α} {θ : Θ} {op : Op α}

theorem work_cases (h : work g θ s = some t) : Steps g s θ .work t := by
  unfold work at h
  split at h
  · cases h
  · cases h
    exact .takeHead _ (.inl ‹_›)
  · cases h
    exact .idle _ _ (.attempt _ _ _ (by rw [‹s.pc θ = _›]; rfl) (.inl rfl))
  · rename_i a head hp
    cases h
    refine .idle _ _ (.attempt _ _ _ (by rw [hp]; rfl) ?_)
    split
    · exact .inr rfl
    · exact .inl rfl
  · rename_i a head hp
    cases h
    split
    · rename_i hh
      exact .takeHead _ (.inr (by rw [hp, hh]))
    · exact .idle _ _ (.attempt _ _ _ (by rw [hp]; rfl) (.inl rfl))
  · rename_i a head hp
    cases h
    split
    · exact .claim _ _ hp ‹_›
    · exact .spinStore _ _ _ _ _ hp
  · cases h
    exact .spinStore _ _ _ _ _ ‹_›
  · cases h
    exact .write _ _ ‹_›
  · cases h
    exact .publish _ ‹_›
  · cases h
    exact .takeTail (.inl ‹_›)
  · cases h
    exact .idle _ _ (.attempt _ _ _ (by rw [‹s.pc θ = _›]; rfl) (.inl rfl))
  · rename_i tail hp
    cases h
    refine .idle _ _ (.attempt _ _ _ (by rw [hp]; rfl) ?_)
    split
    · exact .inr rfl
    · exact .inl rfl
  · rename_i tail hp
    cases h
    split
    · rename_i hh
      exact .takeTail (.inr (by rw [hp, hh]))
    · exact .idle _ _ (.attempt _ _ _ (by rw [hp]; rfl) (.inl rfl))
  · rename_i tail hp
    cases h
    split
    · exact .grab _ hp ‹_›
    · exact .spinLoad _ _ _ _ hp
  · cases h
    exact .spinLoad _ _ _ _ ‹_›
  · cases h
    exact .read _ ‹_›
  · cases h
    exact .release _ _ ‹_›
  · cases h
    exact .idle _ _ (.sizeFirst _ ‹_›)
  · cases h
    exact .idle _ _ (.sizeSecond _ _ ‹_›)

theorem spurious_cases (h : spurious θ s = some t) : Steps g s θ .spurious t := by
  unfold spurious at h
  split at h
  · cases h
    exact .idle _ _ (.attempt _ _ _ (by rw [‹s.pc θ = _›]; rfl) (.inl rfl))
  · cases h
    exact .idle _ _ (.attempt _ _ _ (by rw [‹s.pc θ = _›]; rfl) (.inl rfl))
  · cases h
    exact .spinStore _ _ _ _ _ ‹_›
  · cases h
    exact .spinLoad _ _ _ _ ‹_›
  · cases h

theorem enter_cases {p : Pc α} (hp : op.entry = some p) (h : enter θ p s = some t) : Steps g s θ op t := by
  unfold enter at h
  split at h
  · cases h
    exact .idle _ _ (.enter op p _ ‹_› hp)
  · cases h

theorem step_cases (h : step g (θ, op) s = some t) : Steps g s θ op t := by
  cases op with
  | work => exact work_cases h
  | spurious => exact spurious_cases h
  | push a => exact enter_cases rfl h
  | tryPush a => exact enter_cases rfl h
  | pop => exact enter_cases rfl h
  | tryPop => exact enter_cases rfl h
  | wasSize b => exact enter_cases rfl h

end
end TinyCoro.Queue
