import TinyCoro.Comp.Channel

/-! The invariant of the channel: stored receivers mean an empty buffer, stored
senders a full one, and arrivals are answered in order. -/
namespace TinyCoro.Comp.ChannelShape
open Transition Channel
variable {T : Type}

structure Arrived (phase : Nat → Option Phase) (arrivals : List Nat) (stored : List Pending) : Prop where
  split : ∃ done, arrivals = done ++ stored.map Pending.aw ∧ ∀ a ∈ done, phase a = some .answered
  pending : ∀ p ∈ stored, phase p.aw = some .pending
  nodup : (stored.map Pending.aw).Nodup

namespace Arrived
variable {phase : Nat → Option Phase} {arrivals : List Nat} {stored : List Pending}

theorem phase_mem (h : Arrived phase arrivals stored) {a : Nat} (ha : a ∈ arrivals) :
    phase a = some .answered ∨ phase a = some .pending := by
  obtain ⟨done, rfl, hd⟩ := h.split
  rcases List.mem_append.mp ha with ha | ha
  · exact .inl (hd a ha)
  · obtain ⟨p, hp, rfl⟩ := List.mem_map.mp ha
    exact .inr (h.pending p hp)

theorem fresh (h : Arrived phase arrivals stored) {a : Nat}
    (ha : phase a = none ∨ phase a = some .retry) : a ∉ arrivals := by
  intro hm
  rcases h.phase_mem hm with hp | hp <;> simp [hp] at ha

theorem fresh_stored (h : Arrived phase arrivals stored) {a : Nat}
    (ha : phase a = none ∨ phase a = some .retry) : a ∉ stored.map Pending.aw := by
  intro hm
  obtain ⟨p, hp, rfl⟩ := List.mem_map.mp hm
  simp [h.pending p hp] at ha

theorem retry (h : Arrived phase arrivals stored) {a : Nat} (ha : phase a = none) :
    Arrived (Function.update phase a (some .retry)) arrivals stored := by
  have hs := h.fresh_stored (.inl ha)
  have hf := h.fresh (.inl ha)
  obtain ⟨done, rfl, hd⟩ := h.split
  refine ⟨⟨done, rfl, fun b hb => ?_⟩, fun p hp => ?_, h.nodup⟩
  · rw [Function.update_of_ne (by intro he; exact hf (he ▸ List.mem_append_left _ hb))]
    exact hd b hb
  · rw [Function.update_of_ne (by intro he; exact hs (he ▸ List.mem_map_of_mem hp))]
    exact h.pending p hp

theorem complete (h : Arrived phase arrivals []) {a : Nat} :
    Arrived (Function.update phase a (some .answered)) (arrivals ++ [a]) [] := by
  obtain ⟨done, rfl, hd⟩ := h.split
  refine ⟨⟨done ++ [a], by simp, fun b hb => ?_⟩, by simp, by simp⟩
  by_cases hba : b = a
  · rw [hba, Function.update_self]
  · rw [Function.update_of_ne hba]
    exact hd b (by simpa [hba] using hb)

theorem store (h : Arrived phase arrivals stored) {a : Nat} (handle : Nat)
    (ha : phase a = some .retry) :
    Arrived (Function.update phase a (some .pending)) (arrivals ++ [a]) (stored ++ [⟨handle, a⟩]) := by
  have hs := h.fresh_stored (.inr ha)
  have hf := h.fresh (.inr ha)
  obtain ⟨done, rfl, hd⟩ := h.split
  refine ⟨⟨done, by simp, fun b hb => ?_⟩, fun p hp => ?_, ?_⟩
  · rw [Function.update_of_ne (by intro he; exact hf (he ▸ List.mem_append_left _ hb))]
    exact hd b hb
  · rcases List.mem_append.mp hp with hq | hq
    · rw [Function.update_of_ne (by intro he; exact hs (he ▸ List.mem_map_of_mem hq))]
      exact h.pending p hq
    · rw [List.mem_singleton.mp hq, Function.update_self]
  · rw [List.map_append, List.nodup_append]
    refine ⟨h.nodup, by simp, ?_⟩
    rintro b hb c hc rfl
    simp only [List.map_cons, List.map_nil, List.mem_singleton] at hc
    exact hs (hc ▸ hb)

theorem answer {p : Pending} {rest : List Pending} (h : Arrived phase arrivals (p :: rest)) :
    Arrived (Function.update phase p.aw (some .answered)) arrivals rest := by
  obtain ⟨done, rfl, hd⟩ := h.split
  have hn := h.nodup
  rw [List.map_cons, List.nodup_cons] at hn
  refine ⟨⟨done ++ [p.aw], by simp, fun b hb => ?_⟩, fun q hq => ?_, hn.2⟩
  · by_cases hb' : b = p.aw
    · rw [hb', Function.update_self]
    · rw [Function.update_of_ne hb']
      exact hd b (by simpa [hb'] using hb)
  · rw [Function.update_of_ne (by intro he; exact hn.1 (he ▸ List.mem_map_of_mem hq))]
    exact h.pending q (List.mem_cons_of_mem _ hq)

end Arrived

def sendPhase (s : State T) : Nat → Option Phase := Option.map SendAwaiter.phase ∘ s.sendAw
def recvPhase (s : State T) : Nat → Option Phase := Option.map RecvAwaiter.phase ∘ s.recvAw

/-- The facts every critical section of the channel restores. -/
structure Shape (capacity : Nat) (s : State T) : Prop where
  bound : s.buffer.length ≤ capacity
  receivers_empty : s.receivers ≠ [] → s.buffer = [] ∧ s.closed = false
  senders_full : s.senders ≠ [] → s.buffer.length = capacity ∧ s.closed = false
  sends : Arrived (sendPhase s) s.sendArrivals s.senders
  recvs : Arrived (recvPhase s) s.recvArrivals s.receivers
  unsent : ∀ a aw, s.sendAw a = some aw → aw.phase ≠ .answered → aw.result = false
  unreceived : ∀ a aw, s.recvAw a = some aw → aw.phase ≠ .answered → aw.result = none

/-- What a send that gets its answer at once has done to the channel. -/
theorem trySendLocked_cases {capacity : Nat} {v : T} {r0 r : Bool} {s t : State T}
    (h : trySendLocked capacity v r0 s = some (r, t)) :
    (s.closed = true ∧ r = r0 ∧ t = s) ∨
    (s.closed = false ∧ r = true ∧ ∃ p rest, s.receivers = p :: rest ∧
      t = wakeReceiver p rest (some v) s) ∨
    (s.closed = false ∧ r = true ∧ s.receivers = [] ∧ s.buffer.length < capacity ∧
      t = { s with buffer := s.buffer ++ [v] }) := by
  unfold trySendLocked at h
  split at h
  · rename_i hc
    cases h
    exact .inl ⟨hc, rfl, rfl⟩
  · rename_i hc
    have hc : s.closed = false := by simpa using hc
    split at h
    · rename_i p rest hr
      cases h
      exact .inr (.inl ⟨hc, rfl, p, rest, hr, rfl⟩)
    · rename_i hr
      split at h
      · rename_i hb
        cases h
        exact .inr (.inr ⟨hc, rfl, hr, hb, rfl⟩)
      · cases h

theorem trySendLocked_none {capacity : Nat} {v : T} {r0 : Bool} {s : State T}
    (h : trySendLocked capacity v r0 s = none) :
    s.closed = false ∧ s.receivers = [] ∧ capacity ≤ s.buffer.length := by
  unfold trySendLocked at h
  split at h
  · cases h
  · rename_i hc
    split at h
    · cases h
    · rename_i hr
      split at h
      · cases h
      · rename_i hb
        exact ⟨by simpa using hc, hr, by omega⟩

/-- What a receive that gets its answer at once has done to the channel. -/
theorem tryRecvLocked_cases {r : Option T} {s t : State T} (h : tryRecvLocked s = some (r, t)) :
    (∃ v rest p ps, s.buffer = v :: rest ∧ s.senders = p :: ps ∧ r = some v ∧
      t = wakeSender p ps true { s with buffer := rest ++ ((s.sendAw p.aw).map SendAwaiter.value).toList }) ∨
    (∃ v rest, s.buffer = v :: rest ∧ s.senders = [] ∧ r = some v ∧ t = { s with buffer := rest }) ∨
    (s.buffer = [] ∧ s.closed = true ∧ r = none ∧ t = s) := by
  unfold tryRecvLocked at h
  split at h
  · rename_i v rest hb
    split at h
    · rename_i p ps hs
      cases h
      exact .inl ⟨v, rest, p, ps, hb, hs, rfl, rfl⟩
    · rename_i hs
      cases h
      exact .inr (.inl ⟨v, rest, hb, hs, rfl, rfl⟩)
  · rename_i hb
    split at h
    · rename_i hc
      cases h
      exact .inr (.inr ⟨hb, hc, rfl, rfl⟩)
    · cases h

theorem tryRecvLocked_none {s : State T} (h : tryRecvLocked s = none) :
    s.buffer = [] ∧ s.closed = false := by
  unfold tryRecvLocked at h
  split at h
  · split at h <;> cases h
  · rename_i hb
    split at h
    · cases h
    · rename_i hc
      exact ⟨hb, by simpa using hc⟩

inductive Steps (capacity : Nat) (s : State T) : Label T → State T → Prop
  | send (a : Nat) (v : T) (r : Bool × State T) (ha : s.sendAw a = none)
    (h : trySendLocked capacity v false s = some r) :
    Steps capacity s (.sendReady a v) (sendDone a ⟨v, false, .retry⟩ r)
  | sendRetry (a : Nat) (v : T) (ha : s.sendAw a = none) (h : trySendLocked capacity v false s = none) :
    Steps capacity s (.sendReady a v) { s with sendAw := Function.update s.sendAw a (some ⟨v, false, .retry⟩) }
  | sendAgain (a handle : Nat) (aw : SendAwaiter T) (r : Bool × State T) (ha : s.sendAw a = some aw)
    (hp : aw.phase = .retry) (h : trySendLocked capacity aw.value aw.result s = some r) :
    Steps capacity s (.sendSuspend a handle) (sendDone a aw r)
  | sendStore (a handle : Nat) (aw : SendAwaiter T) (ha : s.sendAw a = some aw) (hp : aw.phase = .retry)
    (h : trySendLocked capacity aw.value aw.result s = none) :
    Steps capacity s (.sendSuspend a handle) { s with
      senders := s.senders ++ [⟨handle, a⟩]
      sendAw := Function.update s.sendAw a (some { aw with phase := .pending })
      sendArrivals := s.sendArrivals ++ [a] }
  | recv (a : Nat) (r : Option T × State T) (ha : s.recvAw a = none) (h : tryRecvLocked s = some r) :
    Steps capacity s (.recvReady a) (recvDone a r)
  | recvRetry (a : Nat) (ha : s.recvAw a = none) (h : tryRecvLocked s = none) :
    Steps capacity s (.recvReady a) { s with recvAw := Function.update s.recvAw a (some ⟨none, .retry⟩) }
  | recvAgain (a handle : Nat) (aw : RecvAwaiter T) (r : Option T × State T) (ha : s.recvAw a = some aw)
    (hp : aw.phase = .retry) (h : tryRecvLocked s = some r) :
    Steps capacity s (.recvSuspend a handle) (recvDone a r)
  | recvStore (a handle : Nat) (aw : RecvAwaiter T) (ha : s.recvAw a = some aw) (hp : aw.phase = .retry)
    (h : tryRecvLocked s = none) :
    Steps capacity s (.recvSuspend a handle) { s with
      receivers := s.receivers ++ [⟨handle, a⟩]
      recvAw := Function.update s.recvAw a (some { aw with phase := .pending })
      recvArrivals := s.recvArrivals ++ [a] }
  | close : Steps capacity s .close (close s)

theorem step_cases {capacity : Nat} {l : Label T} {s t : State T} (h : step capacity l s = some t) :
    Steps capacity s l t := by
  cases l with
  | sendReady a v =>
    simp only [step] at h
    split at h <;> cases h
    unfold sendAwaitReady
    split
    · exact .send a v _ ‹_› ‹_›
    · exact .sendRetry a v ‹_› ‹_›
  | sendSuspend a handle =>
    simp only [step] at h
    split at h
    · split at h <;> cases h
      unfold sendAwaitSuspend
      split
      · exact .sendAgain a handle _ _ ‹_› ‹_› ‹_›
      · exact .sendStore a handle _ ‹_› ‹_› ‹_›
    · cases h
  | recvReady a =>
    simp only [step] at h
    split at h <;> cases h
    unfold recvAwaitReady
    split
    · exact .recv a _ ‹_› ‹_›
    · exact .recvRetry a ‹_› ‹_›
  | recvSuspend a handle =>
    simp only [step] at h
    split at h
    · split at h <;> cases h
      unfold recvAwaitSuspend
      split
      · exact .recvAgain a handle _ _ ‹_› ‹_› ‹_›
      · exact .recvStore a handle _ ‹_› ‹_› ‹_›
    · cases h
  | close =>
    cases h
    exact .close

theorem Shape.senders_nil {capacity : Nat} {s : State T} (hs : Shape capacity s)
    (h : s.buffer.length < capacity ∨ s.closed = true) : s.senders = [] := by
  by_contra hne
  obtain ⟨hf, ho⟩ := hs.senders_full hne
  rcases h with h | h
  · omega
  · simp [ho] at h

theorem Shape.receivers_nil {capacity : Nat} {s : State T} (hs : Shape capacity s)
    (h : s.buffer ≠ [] ∨ s.closed = true) : s.receivers = [] := by
  by_contra hne
  obtain ⟨hb, ho⟩ := hs.receivers_empty hne
  rcases h with h | h
  · exact h hb
  · simp [ho] at h

theorem Shape.recvAw_stored {capacity : Nat} {s : State T} (hs : Shape capacity s) {p : Pending}
    (hp : p ∈ s.receivers) : ∃ aw, s.recvAw p.aw = some aw ∧ aw.phase = .pending := by
  simpa [recvPhase] using hs.recvs.pending p hp

theorem Shape.sendAw_stored {capacity : Nat} {s : State T} (hs : Shape capacity s) {p : Pending}
    (hp : p ∈ s.senders) : ∃ aw, s.sendAw p.aw = some aw ∧ aw.phase = .pending := by
  simpa [sendPhase] using hs.sends.pending p hp

theorem sendPhase_update (f : Nat → Option (SendAwaiter T)) (a : Nat) (aw : SendAwaiter T) :
    Option.map SendAwaiter.phase ∘ Function.update f a (some aw) =
      Function.update (Option.map SendAwaiter.phase ∘ f) a (some aw.phase) := by
  rw [Function.comp_update, Option.map_some]

theorem recvPhase_update (f : Nat → Option (RecvAwaiter T)) (a : Nat) (aw : RecvAwaiter T) :
    Option.map RecvAwaiter.phase ∘ Function.update f a (some aw) =
      Function.update (Option.map RecvAwaiter.phase ∘ f) a (some aw.phase) := by
  rw [Function.comp_update, Option.map_some]

/-- A new state of one send awaiter, with the lists to match. -/
private theorem Shape.setSend {capacity a : Nat} {s : State T} (hs : Shape capacity s) (aw : SendAwaiter T)
    {arrivals : List Nat} {senders : List Pending}
    (hb : Arrived (Function.update (sendPhase s) a (some aw.phase)) arrivals senders)
    (ho : senders ≠ [] → s.buffer.length = capacity ∧ s.closed = false)
    (hr : aw.phase ≠ .answered → aw.result = false) : Shape capacity { s with
      sendAw := Function.update s.sendAw a (some aw), sendArrivals := arrivals, senders := senders } := by
  refine ⟨hs.bound, hs.receivers_empty, ho, ?_, hs.recvs, fun b aw' hb hp => ?_, hs.unreceived⟩
  · rw [sendPhase, sendPhase_update]
    exact hb
  · simp only [Function.update_apply] at hb
    split at hb
    · cases hb
      exact hr hp
    · exact hs.unsent b aw' hb hp

/-- A new state of one receive awaiter, with the lists to match. -/
private theorem Shape.setRecv {capacity a : Nat} {s : State T} (hs : Shape capacity s) (aw : RecvAwaiter T)
    {arrivals : List Nat} {receivers : List Pending}
    (hb : Arrived (Function.update (recvPhase s) a (some aw.phase)) arrivals receivers)
    (ho : receivers ≠ [] → s.buffer = [] ∧ s.closed = false)
    (hr : aw.phase ≠ .answered → aw.result = none) : Shape capacity { s with
      recvAw := Function.update s.recvAw a (some aw), recvArrivals := arrivals, receivers := receivers } := by
  refine ⟨hs.bound, ho, hs.senders_full, hs.sends, ?_, hs.unsent, fun b aw' hb hp => ?_⟩
  · rw [recvPhase, recvPhase_update]
    exact hb
  · simp only [Function.update_apply] at hb
    split at hb
    · cases hb
      exact hr hp
    · exact hs.unreceived b aw' hb hp

private theorem Shape.submit {capacity : Nat} {s : State T} (hs : Shape capacity s) (handles : List Nat) :
    Shape capacity { s with submitted := handles } :=
  ⟨hs.bound, hs.receivers_empty, hs.senders_full, hs.sends, hs.recvs, hs.unsent, hs.unreceived⟩

/-- Answering the first stored receiver and taking it off the list keeps the shape. -/
theorem Shape.wakeReceiver {capacity : Nat} {s : State T} (hs : Shape capacity s)
    {p : Pending} {rest : List Pending} (hr : s.receivers = p :: rest) (r : Option T) :
    Shape capacity (wakeReceiver p rest r s) := by
  obtain ⟨aw, haw, _⟩ := hs.recvAw_stored (p := p) (by simp [hr])
  have hne : s.receivers ≠ [] := by simp [hr]
  have hw := hs.setRecv { aw with result := r, phase := .answered }
    (hr ▸ hs.recvs : Arrived (recvPhase s) s.recvArrivals (p :: rest)).answer (fun _ => hs.receivers_empty hne)
    fun h => absurd rfl h
  rw [Channel.wakeReceiver, haw]
  exact hw.submit _

/-- Answering the first stored sender and taking it off the list keeps the shape,
if the buffer stays full or nobody else is stored. -/
theorem Shape.wakeSender {capacity : Nat} {s : State T} (hs : Shape capacity s)
    {p : Pending} {ps : List Pending} (hr : s.senders = p :: ps) (r : Bool) :
    Shape capacity (wakeSender p ps r s) := by
  obtain ⟨aw, haw, _⟩ := hs.sendAw_stored (p := p) (by simp [hr])
  have hne : s.senders ≠ [] := by simp [hr]
  have hw := hs.setSend { aw with result := r, phase := .answered }
    (hr ▸ hs.sends : Arrived (sendPhase s) s.sendArrivals (p :: ps)).answer (fun _ => hs.senders_full hne)
    fun h => absurd rfl h
  rw [Channel.wakeSender, haw]
  exact hw.submit _

theorem Shape.trySend {capacity : Nat} (hcap : 0 < capacity) {v : T} {r0 r : Bool} {s t : State T}
    (hs : Shape capacity s) (h : trySendLocked capacity v r0 s = some (r, t)) :
    Shape capacity t ∧ t.senders = [] := by
  rcases trySendLocked_cases h with ⟨hc, _, rfl⟩ | ⟨hc, _, p, rest, hr, rfl⟩ | ⟨hc, _, hr, hb, rfl⟩
  · exact ⟨hs, hs.senders_nil (.inr hc)⟩
  · have hb := (hs.receivers_empty (by simp [hr])).1
    exact ⟨hs.wakeReceiver hr _, hs.senders_nil (.inl (by simpa [hb] using hcap))⟩
  · have hn := hs.senders_nil (.inl hb)
    refine ⟨⟨by simpa using Nat.succ_le_of_lt hb, fun hne => absurd hr hne, fun hne => absurd hn hne,
      hs.sends, hs.recvs, hs.unsent, hs.unreceived⟩, hn⟩

private theorem Shape.sendDone {capacity : Nat} {s : State T} (hs : Shape capacity s) (hn : s.senders = [])
    (a : Nat) (aw : SendAwaiter T) (r : Bool) : Shape capacity (sendDone a aw (r, s)) := by
  have ha := (hn ▸ hs.sends : Arrived (sendPhase s) s.sendArrivals []).complete (a := a)
  rw [← hn] at ha
  exact hs.setSend _ ha hs.senders_full fun h => absurd rfl h

theorem Shape.tryRecv {capacity : Nat} {r : Option T} {s t : State T}
    (hs : Shape capacity s) (h : tryRecvLocked s = some (r, t)) : Shape capacity t ∧ t.receivers = [] := by
  rcases tryRecvLocked_cases h with ⟨v, rest, p, ps, hb, hq, _, rfl⟩ | ⟨v, rest, hb, hq, _, rfl⟩ | ⟨hb, hc, _, rfl⟩
  · have hn := hs.receivers_nil (.inl (by simp [hb]))
    obtain ⟨aw, haw, _⟩ := hs.sendAw_stored (p := p) (by simp [hq])
    have hl : (rest ++ ((s.sendAw p.aw).map SendAwaiter.value).toList).length = s.buffer.length := by
      simp [haw, hb]
    have hw := hs.wakeSender hq true
    refine ⟨⟨?_, fun hne => absurd hn hne, ?_, hw.sends, hw.recvs, hw.unsent, hw.unreceived⟩, hn⟩
    · exact hl ▸ hs.bound
    · intro hne
      exact ⟨hl.trans (hs.senders_full (by simp [hq])).1, (hs.senders_full (by simp [hq])).2⟩
  · have hn := hs.receivers_nil (.inl (by simp [hb]))
    have hl := hs.bound
    rw [hb, List.length_cons] at hl
    exact ⟨⟨Nat.le_of_succ_le hl, fun hne => absurd hn hne, fun hne => absurd hq hne,
      hs.sends, hs.recvs, hs.unsent, hs.unreceived⟩, hn⟩
  · exact ⟨hs, hs.receivers_nil (.inr hc)⟩

private theorem Shape.recvDone {capacity : Nat} {s : State T} (hs : Shape capacity s) (hn : s.receivers = [])
    (a : Nat) (r : Option T) : Shape capacity (recvDone a (r, s)) := by
  have ha := (hn ▸ hs.recvs : Arrived (recvPhase s) s.recvArrivals []).complete (a := a)
  rw [← hn] at ha
  exact hs.setRecv _ ha hs.receivers_empty fun h => absurd rfl h

theorem Shape.closeSenders {capacity : Nat} {s : State T} (hs : Shape capacity s)
    (ps : List Pending) (hp : s.senders = ps) :
    Shape capacity (closeSenders ps s) ∧ (closeSenders ps s).senders = [] := by
  induction ps generalizing s with
  | nil => exact ⟨hs, hp⟩
  | cons p ps ih => exact ih (hs.wakeSender hp false) rfl

theorem Shape.closeReceivers {capacity : Nat} {s : State T} (hs : Shape capacity s)
    (ps : List Pending) (hp : s.receivers = ps) :
    Shape capacity (closeReceivers ps s) ∧ (closeReceivers ps s).receivers = [] ∧
      (closeReceivers ps s).senders = s.senders := by
  induction ps generalizing s with
  | nil => exact ⟨hs, hp, rfl⟩
  | cons p ps ih => exact ih (hs.wakeReceiver hp none) rfl

private theorem closeSenders_closed (ps : List Pending) (s : State T) (c : Bool) :
    closeSenders ps { s with closed := c } = { closeSenders ps s with closed := c } := by
  induction ps generalizing s with
  | nil => rfl
  | cons p ps ih => exact ih (wakeSender p ps false s)

private theorem closeReceivers_closed (ps : List Pending) (s : State T) (c : Bool) :
    closeReceivers ps { s with closed := c } = { closeReceivers ps s with closed := c } := by
  induction ps generalizing s with
  | nil => rfl
  | cons p ps ih => exact ih (wakeReceiver p ps none s)

theorem closeSenders_receivers (ps : List Pending) (s : State T) :
    (closeSenders ps s).receivers = s.receivers := by
  induction ps generalizing s with
  | nil => rfl
  | cons p ps ih => exact ih _

/-- `close` empties both lists and only then matters to the flag. -/
theorem close_eq (s : State T) :
    close s = { closeReceivers s.receivers (closeSenders s.senders s) with closed := true } := by
  unfold close
  rw [closeSenders_closed, closeReceivers_closed]
  simp only [closeSenders_receivers]

private theorem Shape.close {capacity : Nat} {s : State T} (hs : Shape capacity s) : Shape capacity (close s) := by
  obtain ⟨h1, hn1⟩ := hs.closeSenders s.senders rfl
  obtain ⟨h2, hn2, he⟩ := h1.closeReceivers s.receivers (closeSenders_receivers _ _)
  rw [close_eq]
  exact ⟨h2.bound, fun hne => absurd hn2 hne, fun hne => absurd (he.trans hn1) hne,
    h2.sends, h2.recvs, h2.unsent, h2.unreceived⟩

/-- Every critical section of the channel restores its shape. -/
theorem shape_step {capacity : Nat} (hcap : 0 < capacity) {l : Label T} {s t : State T}
    (hs : Shape capacity s) (h : step capacity l s = some t) : Shape capacity t := by
  replace h := step_cases h
  cases h with
  | send a v r ha h =>
    obtain ⟨ht, hn⟩ := hs.trySend hcap h
    exact ht.sendDone hn a _ r.1
  | sendRetry a v ha h => exact hs.setSend _ (hs.sends.retry (by simp [sendPhase, ha])) hs.senders_full fun _ => rfl
  | sendAgain a handle aw r ha hp h =>
    obtain ⟨ht, hn⟩ := hs.trySend hcap h
    exact ht.sendDone hn a _ r.1
  | sendStore a handle aw ha hp h =>
    obtain ⟨hc, -, hb⟩ := trySendLocked_none h
    exact hs.setSend _ (hs.sends.store handle (by simp [sendPhase, ha, hp]))
      (fun _ => ⟨Nat.le_antisymm hs.bound hb, hc⟩) fun _ => hs.unsent a aw ha (by simp [hp])
  | recv a r ha h =>
    obtain ⟨ht, hn⟩ := hs.tryRecv h
    exact ht.recvDone hn a r.1
  | recvRetry a ha h => exact hs.setRecv _ (hs.recvs.retry (by simp [recvPhase, ha])) hs.receivers_empty fun _ => rfl
  | recvAgain a handle aw r ha hp h =>
    obtain ⟨ht, hn⟩ := hs.tryRecv h
    exact ht.recvDone hn a r.1
  | recvStore a handle aw ha hp h =>
    exact hs.setRecv _ (hs.recvs.store handle (by simp [recvPhase, ha, hp])) (fun _ => tryRecvLocked_none h)
      fun _ => hs.unreceived a aw ha (by simp [hp])
  | close => exact hs.close

theorem shape_init (capacity : Nat) : Shape capacity (init : State T) := by
  have h0 : Arrived (fun _ => none) [] [] := ⟨⟨[], rfl, by simp⟩, by simp, by simp⟩
  exact ⟨Nat.zero_le _, by simp [init], by simp [init], h0, h0, by simp [init], by simp [init]⟩

theorem reachable_shape {capacity : Nat} (hcap : 0 < capacity) {s : State T} (h : Reachable (step capacity) init s) :
    Shape capacity s := by
  induction h with
  | start => exact shape_init capacity
  | next _ _ ht ih => exact shape_step hcap ih ht

def meeting (v : T) : List (Label T) := [.sendReady 0 v, .sendSuspend 0 0, .recvReady 0, .recvSuspend 0 1]

/-- A sender and a receiver are never suspended at the same time exactly when the
channel has room for at least one value. -/
theorem no_stuck_pair_iff [Inhabited T] (capacity : Nat) :
    (∀ s : State T, Reachable (step capacity) init s → ¬ (s.senders ≠ [] ∧ s.receivers ≠ [])) ↔ 1 ≤ capacity := by
  refine ⟨fun h => ?_, fun hcap s hs ⟨hq, hr⟩ => ?_⟩
  · by_contra hcap
    obtain rfl : capacity = 0 := by omega
    exact h _ (Reachable.of_exec (meeting default) rfl) ⟨nofun, nofun⟩
  · have hshape := reachable_shape hcap hs
    have hfull := (hshape.senders_full hq).1
    rw [(hshape.receivers_empty hr).1, List.length_nil] at hfull
    omega

theorem stuck_pair_noCapacity : ¬ ∀ s : State Nat, Reachable (step 0) init s → ¬ (s.senders ≠ [] ∧ s.receivers ≠ []) :=
  fun h => h _ (Reachable.of_exec (meeting 1) rfl) ⟨nofun, nofun⟩

end TinyCoro.Comp.ChannelShape
