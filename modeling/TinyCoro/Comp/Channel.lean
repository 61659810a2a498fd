import Mathlib.Logic.Function.Basic
import TinyCoro.Transition.Runs

/-! The channel: a bounded buffer between suspended senders and receivers.
Awaiters live in the frames of their coroutines and are reached through
pointers, so they are kept in a heap beside the channel. -/
namespace TinyCoro.Comp.Channel
open Transition

/-- Where one await stands: `await_ready` answered false, stored in the channel
with its coroutine suspended, or completed with its result. -/
inductive Phase
  | retry | pending | answered
  deriving DecidableEq, Repr

structure SendAwaiter (T : Type) where
  value : T
  result : Bool
  phase : Phase

structure RecvAwaiter (T : Type) where
  result : Option T
  phase : Phase

/-- An entry of `m_senders` or `m_receivers`: a coroutine handle and a pointer to its awaiter. -/
structure Pending where
  handle : Nat
  aw : Nat
  deriving DecidableEq, Repr

/-- The channel with the awaiters it points to. `submitted` lists the handles
given to `submit_task`. The two arrival lists are history: an await arrives at
the step in which it completes or is stored. -/
structure State (T : Type) where
  buffer : List T
  closed : Bool
  senders : List Pending
  receivers : List Pending
  sendAw : Nat → Option (SendAwaiter T)
  recvAw : Nat → Option (RecvAwaiter T)
  submitted : List Nat
  sendArrivals : List Nat
  recvArrivals : List Nat

variable {T : Type}

def init : State T := ⟨[], false, [], [], fun _ => none, fun _ => none, [], [], []⟩

def wakeSender (p : Pending) (rest : List Pending) (result : Bool) (s : State T) : State T :=
  { s with
    senders := rest
    sendAw := Function.update s.sendAw p.aw
      ((s.sendAw p.aw).map fun aw => { aw with result := result, phase := .answered })
    submitted := s.submitted ++ [p.handle] }

def wakeReceiver (p : Pending) (rest : List Pending) (result : Option T) (s : State T) : State T :=
  { s with
    receivers := rest
    recvAw := Function.update s.recvAw p.aw
      ((s.recvAw p.aw).map fun aw => { aw with result := result, phase := .answered })
    submitted := s.submitted ++ [p.handle] }

/-- `try_send_locked`. The answer false is `none`; otherwise the value of
`result` on return comes with the new state. A closed channel leaves it as it was. -/
def trySendLocked (capacity : Nat) (value : T) (result : Bool) (s : State T) : Option (Bool × State T) :=
  if s.closed then some (result, s)
  else match s.receivers with
    | p :: rest => some (true, wakeReceiver p rest (some value) s)
    | [] =>
      if s.buffer.length < capacity then some (true, { s with buffer := s.buffer ++ [value] })
      else none

/-- `try_recv_locked`. Taking from the buffer refills it from the first blocked sender. -/
def tryRecvLocked (s : State T) : Option (Option T × State T) :=
  match s.buffer with
  | v :: rest =>
    match s.senders with
    | p :: ps => some (some v, wakeSender p ps true
        { s with buffer := rest ++ ((s.sendAw p.aw).map SendAwaiter.value).toList })
    | [] => some (some v, { s with buffer := rest })
  | [] => if s.closed then some (none, s) else none

/-- The first loop of `close`: every blocked sender is answered false and submitted. -/
def closeSenders : List Pending → State T → State T
  | [], s => s
  | p :: ps, s => closeSenders ps (wakeSender p ps false s)

/-- The second loop of `close`: every blocked receiver is answered `nullopt` and submitted. -/
def closeReceivers : List Pending → State T → State T
  | [], s => s
  | p :: ps, s => closeReceivers ps (wakeReceiver p ps none s)

def close (s : State T) : State T :=
  let s := closeSenders s.senders { s with closed := true }
  closeReceivers s.receivers s

def sendDone (a : Nat) (aw : SendAwaiter T) (r : Bool × State T) : State T :=
  { r.2 with
    sendAw := Function.update r.2.sendAw a (some { aw with result := r.1, phase := .answered })
    sendArrivals := r.2.sendArrivals ++ [a] }

def recvDone (a : Nat) (r : Option T × State T) : State T :=
  { r.2 with
    recvAw := Function.update r.2.recvAw a (some ⟨r.1, .answered⟩)
    recvArrivals := r.2.recvArrivals ++ [a] }

/-- `send_awaiter::await_ready` of a freshly constructed awaiter, whose `m_result` is false. -/
def sendAwaitReady (capacity a : Nat) (value : T) (s : State T) : State T :=
  match trySendLocked capacity value false s with
  | some r => sendDone a ⟨value, false, .retry⟩ r
  | none => { s with sendAw := Function.update s.sendAw a (some ⟨value, false, .retry⟩) }

/-- `send_awaiter::await_suspend`: try again under the lock, else store the handle. -/
def sendAwaitSuspend (capacity a handle : Nat) (aw : SendAwaiter T) (s : State T) : State T :=
  match trySendLocked capacity aw.value aw.result s with
  | some r => sendDone a aw r
  | none => { s with
      senders := s.senders ++ [⟨handle, a⟩]
      sendAw := Function.update s.sendAw a (some { aw with phase := .pending })
      sendArrivals := s.sendArrivals ++ [a] }

def recvAwaitReady (a : Nat) (s : State T) : State T :=
  match tryRecvLocked s with
  | some r => recvDone a r
  | none => { s with recvAw := Function.update s.recvAw a (some ⟨none, .retry⟩) }

def recvAwaitSuspend (a handle : Nat) (aw : RecvAwaiter T) (s : State T) : State T :=
  match tryRecvLocked s with
  | some r => recvDone a r
  | none => { s with
      receivers := s.receivers ++ [⟨handle, a⟩]
      recvAw := Function.update s.recvAw a (some { aw with phase := .pending })
      recvArrivals := s.recvArrivals ++ [a] }

inductive Label (T : Type)
  | sendReady (a : Nat) (value : T)
  | sendSuspend (a handle : Nat)
  | recvReady (a : Nat)
  | recvSuspend (a handle : Nat)
  | close

/-- An awaiter is constructed once, and `await_suspend` follows only a false `await_ready`. -/
def step (capacity : Nat) : Label T → State T → Option (State T)
  | .sendReady a v, s => match s.sendAw a with
    | none => some (sendAwaitReady capacity a v s)
    | some _ => none
  | .sendSuspend a h, s => match s.sendAw a with
    | some aw => if aw.phase = .retry then some (sendAwaitSuspend capacity a h aw s) else none
    | none => none
  | .recvReady a, s => match s.recvAw a with
    | none => some (recvAwaitReady a s)
    | some _ => none
  | .recvSuspend a h, s => match s.recvAw a with
    | some aw => if aw.phase = .retry then some (recvAwaitSuspend a h aw s) else none
    | none => none
  | .close, s => some (close s)

/-- What an arrived receive has been handed, if anything. -/
def received (s : State T) (a : Nat) : Option T := (s.recvAw a).bind RecvAwaiter.result

def SendAwaiter.refused (aw : SendAwaiter T) : Bool := aw.phase = .answered && !aw.result

/-- The value of an arrived send that has not been answered false. -/
def carried (s : State T) (a : Nat) : Option T :=
  (s.sendAw a).bind fun aw => if aw.refused then none else some aw.value

def handed (s : State T) : List T := s.recvArrivals.filterMap (received s)

def blocked (s : State T) : List T :=
  s.senders.filterMap fun p => (s.sendAw p.aw).map SendAwaiter.value

def sent (s : State T) : List T := s.sendArrivals.filterMap (carried s)

end TinyCoro.Comp.Channel
