import TinyCoro.Client.Critical
import TinyCoro.Comp.Channel
import TinyCoro.Comp.WaitGroup

/-! Producers that send into a channel, consumers that drain it and merge what they have
got under a mutex, and a coroutine that closes the channel when a wait group says that
the producers are done. The channel, the wait group and the mutex are the machines of
`Channel`, `Gate` and `CondVar`, side by side. -/
namespace TinyCoro.Client.FanIn
open TinyCoro.Comp Critical
open WaitGroup (waitGroup)

/-- Where `producer` stands; `i` is the variable of its loop. At `done` it is inside
`wg.done()`. -/
inductive Producer
  | loop (i : Nat)
  | sending (i : Nat)
  | done
  | finished
  deriving DecidableEq, Repr

abbrev Item : Type := BitVec 32

/-- Where `consumer` stands; `vec` is its own vector. The insertion into `para.vec` reads
it in one step and writes it in the next. -/
inductive Consumer
  | loop (vec : List Item)
  | receiving (vec : List Item)
  | merge (vec : List Item)
  | locked (vec : List Item)
  | inserting (vec old : List Item)
  | unlock
  | finished
  deriving DecidableEq, Repr

inductive Closer
  | start
  | waiting
  | released
  | finished
  deriving DecidableEq, Repr

/-- The data of the mutex is `para.vec`. -/
structure State (P K : Nat) where
  ch : Channel.State Item
  wg : Gate.State Unit (Fin P) (BitVec 32) WaitGroup.Op
  mtx : CondVar.State (Fin K) Unit Empty (List Item)
  prod : Fin P → Producer
  cons : Fin K → Consumer
  closer : Closer

variable {P K : Nat}

/-- The test calls `wg.add(producer_num)` before it submits anything. -/
def init : State P K where
  ch := Channel.init
  wg := Gate.init ((WaitGroup.add (BitVec.ofNat 32 P)).fetch 0)
  mtx := CondVar.init fun _ => []
  prod _ := .loop 0
  cons _ := .loop []
  closer := .start

/-- `id * num_per_producer + i`, what producer `p` sends in its iteration `i`. The overflow of
the `int`, which the language leaves undefined, wraps. -/
def sendId (N : Nat) (p : Fin P) (i : Nat) : Item := .ofNat 32 p * .ofNat 32 N + .ofNat 32 i

def sendName (N : Nat) (p : Fin P) (i : Nat) : Nat := p * N + i

/-- The name of the awaiter of consumer `k` after it has received `n` values. -/
def recvId (k : Fin K) (n : Nat) : Nat := n * K + k

namespace State

@[simps] def setProd (p : Fin P) (x : Producer) (s : State P K) : State P K :=
  { s with prod := Function.update s.prod p x }

@[simps] def setCons (k : Fin K) (x : Consumer) (s : State P K) : State P K :=
  { s with cons := Function.update s.cons k x }

def channel (capacity : Nat) (l : Channel.Label Item) (s : State P K) : Option (State P K) :=
  (Channel.step capacity l s.ch).map fun ch => { s with ch := ch }

def group (l : Gate.Label Unit (Fin P) WaitGroup.Op) (s : State P K) : Option (State P K) :=
  (Gate.step waitGroup l s.wg).map fun wg => { s with wg := wg }

def mutex (k : Fin K) (op : CondVar.Op Unit Empty (List Item)) (s : State P K) : Option (State P K) :=
  (CondVar.step (k, op) s.mtx).map fun mtx => { s with mtx := mtx }

end State

/-- A send or a receive is over when its awaiter has been answered, and `done` when the
call has returned. The result of a send is not looked at. -/
def producer (N capacity : Nat) (p : Fin P) (s : State P K) : Option (State P K) :=
  match s.prod p with
  | .loop i =>
    if i < N then (s.setProd p (.sending i)).channel capacity (.sendReady (sendName N p i) (sendId N p i))
    else (s.setProd p .done).group (.call p .done)
  | .sending i => match s.ch.sendAw (sendName N p i) with
    | some ⟨_, _, .answered⟩ => some (s.setProd p (.loop (i + 1)))
    | _ => none
  | .done => match s.wg.call p with
    | .returned => some (s.setProd p .finished)
    | _ => none
  | .finished => none

def consumer (capacity : Nat) (k : Fin K) (s : State P K) : Option (State P K) :=
  match s.cons k with
  | .loop vec => (s.setCons k (.receiving vec)).channel capacity (.recvReady (recvId k vec.length))
  | .receiving vec => match s.ch.recvAw (recvId k vec.length) with
    | some ⟨some data, .answered⟩ => some (s.setCons k (.loop (vec ++ [data])))
    | some ⟨none, .answered⟩ => some (s.setCons k (.merge vec))
    | _ => none
  | .merge vec => (s.setCons k (.locked vec)).mutex k (.lockReady ())
  | .locked vec => some (s.setCons k (.inserting vec (s.mtx.shared ())))
  | .inserting vec old => some ({ s with mtx := { s.mtx with shared := fun _ => old ++ vec } }.setCons k .unlock)
  | .unlock => (s.setCons k .finished).mutex k (.unlock ())
  | .finished => none

def close (capacity : Nat) (s : State P K) : Option (State P K) :=
  match s.closer with
  | .start => { s with closer := .waiting }.group (.awaitReady ())
  | .waiting => { s with closer := .released }.group (.resume ())
  | .released => { s with closer := .finished }.channel capacity .close
  | .finished => none

/-- The first three are steps of the bodies, and with the others the library goes on with
what has been called. -/
inductive Label (P K : Nat)
  | producer (p : Fin P)
  | consumer (k : Fin K)
  | close
  | sendSuspend (p : Fin P)
  | recvSuspend (k : Fin K)
  | group (l : Gate.Label Unit (Fin P) WaitGroup.Op)
  | mutex (k : Fin K) (op : CondVar.Op Unit Empty (List Item))

/-- The steps the wait group goes through on its own once a call or a wait has begun. -/
def inner : Gate.Label Unit (Fin P) WaitGroup.Op → Bool
  | .awaitReady _ | .resume _ | .call _ _ => false
  | _ => true

def step (N capacity : Nat) (l : Label P K) (s : State P K) : Option (State P K) :=
  match l with
  | .producer p => producer N capacity p s
  | .consumer k => match s.mtx.pc k with
    | .running => consumer capacity k s
    | _ => none
  | .close => close capacity s
  | .sendSuspend p => match s.prod p with
    | .sending i => s.channel capacity (.sendSuspend (sendName N p i) p)
    | _ => none
  | .recvSuspend k => match s.cons k with
    | .receiving vec => s.channel capacity (.recvSuspend (recvId k vec.length) (P + k))
    | _ => none
  | .group l => if inner l then s.group l else none
  | .mutex k op => if internal op then s.mutex k op else none

end TinyCoro.Client.FanIn
