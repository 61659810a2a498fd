import Mathlib.Data.List.Nodup
import TinyCoro.Comp.ChannelShape

/-! What holds of the channel for every capacity, zero included, where senders are not
answered in the order of their arrival: each await is in one place, and what has been
accepted is what has been handed over and what is in the buffer. -/
namespace TinyCoro.Comp.ChannelBook
open Transition Channel ChannelShape
variable {T : Type}

/-- Which awaits have arrived and which of them are stored, in whatever order. -/
structure Book (phase : Nat → Option Phase) (arrivals : List Nat) (stored : List Pending) : Prop where
  arrived : ∀ a, a ∈ arrivals ↔ phase a = some .answered ∨ phase a = some .pending
  nodup : arrivals.Nodup
  waiting : ∀ a, a ∈ stored.map Pending.aw ↔ phase a = some .pending
  waiting_nodup : (stored.map Pending.aw).Nodup

namespace Book
variable {phase : Nat → Option Phase} {arrivals : List Nat} {stored : List Pending}

theorem fresh (h : Book phase arrivals stored) {a : Nat} (ha : phase a = none ∨ phase a = some .retry) :
    a ∉ arrivals ∧ a ∉ stored.map Pending.aw := by
  rw [h.arrived, h.waiting]
  rcases ha with ha | ha <;> simp [ha]

theorem retry (h : Book phase arrivals stored) {a : Nat} (ha : phase a = none) :
    Book (Function.update phase a (some .retry)) arrivals stored := by
  refine ⟨fun b => ?_, h.nodup, fun b => ?_, h.waiting_nodup⟩
  · by_cases hb : b = a
    · simp [hb, h.arrived, ha]
    · simp [hb, h.arrived]
  · by_cases hb : b = a
    · subst hb
      simp [h.waiting, ha]
    · rw [h.waiting, Function.update_of_ne hb]

private theorem nodup_concat (h : Book phase arrivals stored) {a : Nat}
    (ha : phase a = none ∨ phase a = some .retry) : (arrivals ++ [a]).Nodup := by
  rw [List.nodup_append]
  refine ⟨h.nodup, by simp, ?_⟩
  rintro b hb c hc rfl
  rw [List.mem_singleton] at hc
  exact (h.fresh ha).1 (hc ▸ hb)

theorem complete (h : Book phase arrivals stored) {a : Nat} (ha : phase a = none ∨ phase a = some .retry) :
    Book (Function.update phase a (some .answered)) (arrivals ++ [a]) stored := by
  refine ⟨fun b => ?_, h.nodup_concat ha, fun b => ?_, h.waiting_nodup⟩
  · by_cases hb : b = a
    · simp [hb]
    · simp [hb, h.arrived]
  · by_cases hb : b = a
    · subst hb
      rw [Function.update_self]
      exact iff_of_false (h.fresh ha).2 (by simp)
    · rw [h.waiting, Function.update_of_ne hb]

theorem store (h : Book phase arrivals stored) {a : Nat} (handle : Nat) (ha : phase a = some .retry) :
    Book (Function.update phase a (some .pending)) (arrivals ++ [a]) (stored ++ [⟨handle, a⟩]) := by
  refine ⟨fun b => ?_, h.nodup_concat (.inr ha), fun b => ?_, ?_⟩
  · by_cases hb : b = a
    · simp [hb]
    · simp [hb, h.arrived]
  · rw [List.map_append, List.mem_append, h.waiting]
    by_cases hb : b = a <;> simp [hb]
  · rw [List.map_append, List.nodup_append]
    refine ⟨h.waiting_nodup, by simp, ?_⟩
    rintro b hb c hc rfl
    simp only [List.map_cons, List.map_nil, List.mem_singleton] at hc
    exact (h.fresh (.inr ha)).2 (hc ▸ hb)

theorem answer {p : Pending} {rest : List Pending} (h : Book phase arrivals (p :: rest)) :
    Book (Function.update phase p.aw (some .answered)) arrivals rest := by
  have hn := h.waiting_nodup
  rw [List.map_cons, List.nodup_cons] at hn
  have hp : phase p.aw = some .pending := (h.waiting p.aw).mp (by simp)
  refine ⟨fun b => ?_, h.nodup, fun b => ?_, hn.2⟩
  · by_cases hb : b = p.aw
    · simp [hb, h.arrived, hp]
    · simp [hb, h.arrived]
  · by_cases hb : b = p.aw
    · subst hb
      rw [Function.update_self]
      exact iff_of_false hn.1 (by simp)
    · rw [Function.update_of_ne hb, ← h.waiting, List.map_cons, List.mem_cons]
      exact (or_iff_right hb).symm

/-- All the stored awaits are answered. -/
theorem answerAll (h : Book phase arrivals stored) {phase' : Nat → Option Phase}
    (hin : ∀ a ∈ stored.map Pending.aw, phase' a = some .answered)
    (hout : ∀ a, a ∉ stored.map Pending.aw → phase' a = phase a) : Book phase' arrivals [] := by
  refine ⟨fun a => ?_, h.nodup, fun a => ?_, by simp⟩
  · rw [h.arrived]
    by_cases ha : a ∈ stored.map Pending.aw
    · simp [hin a ha, (h.waiting a).mp ha]
    · rw [hout a ha]
  · by_cases ha : a ∈ stored.map Pending.aw
    · simp [hin a ha]
    · rw [hout a ha, ← h.waiting]
      simpa using ha

end Book

/-- `nullopt`: a receive has been told that nothing comes only when that is so. -/
structure Core (s : State T) : Prop where
  receivers_empty : s.receivers ≠ [] → s.buffer = [] ∧ s.closed = false
  senders_open : s.senders ≠ [] → s.closed = false
  sends : Book (sendPhase s) s.sendArrivals s.senders
  recvs : Book (recvPhase s) s.recvArrivals s.receivers
  unsent : ∀ a aw, s.sendAw a = some aw → aw.phase ≠ .answered → aw.result = false
  unreceived : ∀ a aw, s.recvAw a = some aw → aw.phase ≠ .answered → aw.result = none
  nullopt : ∀ a aw, s.recvAw a = some aw → aw.phase = .answered → aw.result = none → s.closed = true ∧ s.buffer = []

def granted (s : State T) (a : Nat) : Option T :=
  (s.sendAw a).bind fun aw => if aw.phase = .answered ∧ aw.result = true then some aw.value else none

def accepted (s : State T) : List T := s.sendArrivals.filterMap (granted s)

/-- What has been accepted has been handed over or is in the buffer. -/
def Tallied (s : State T) : Prop := (handed s ++ s.buffer).Perm (accepted s)

section Lists
variable {α β : Type} [DecidableEq α] {l : List α} {f : α → Option β} {a : α}

private theorem filterMap_update_fresh (ha : a ∉ l) (r : Option β) :
    l.filterMap (Function.update f a r) = l.filterMap f := by
  apply List.filterMap_congr
  intro b hb
  rw [Function.update_of_ne]
  rintro rfl
  exact ha hb

private theorem filterMap_update_perm (hn : l.Nodup) (ha : a ∈ l) (hf : f a = none) (r : Option β) :
    (l.filterMap (Function.update f a r)).Perm (l.filterMap f ++ r.toList) := by
  induction l with
  | nil => cases ha
  | cons b l ih =>
    rw [List.nodup_cons] at hn
    by_cases hb : b = a
    · subst hb
      rw [List.filterMap_cons, List.filterMap_cons, Function.update_self, hf, filterMap_update_fresh hn.1]
      cases r with
      | none => simp
      | some v => exact (List.perm_append_singleton v _).symm
    · have hmem : a ∈ l := (List.mem_cons.mp ha).resolve_left (Ne.symm hb)
      rw [List.filterMap_cons, List.filterMap_cons, Function.update_of_ne hb]
      cases f b with
      | none => exact ih hn.2 hmem
      | some v => exact (ih hn.2 hmem).cons v

end Lists

theorem core_init : Core (init : State T) := by
  have h0 : Book (fun _ => none) [] [] := ⟨by simp, by simp, by simp, by simp⟩
  exact ⟨by simp [init], by simp [init], h0, h0, by simp [init], by simp [init], by simp [init]⟩

variable {s : State T} {a : Nat} {p : Pending} {ps : List Pending}

theorem Core.sendAw_stored (hs : Core s) (hq : s.senders = p :: ps) :
    ∃ aw, s.sendAw p.aw = some aw ∧ aw.phase = .pending := by
  simpa [sendPhase] using (hs.sends.waiting p.aw).mp (by simp [hq])

theorem Core.recvAw_stored (hs : Core s) (hq : s.receivers = p :: ps) :
    ∃ aw, s.recvAw p.aw = some aw ∧ aw.phase = .pending := by
  simpa [recvPhase] using (hs.recvs.waiting p.aw).mp (by simp [hq])

/-- A new state of one send awaiter, with the lists to match. -/
private theorem Core.setSend (hs : Core s) (aw : SendAwaiter T) {arrivals : List Nat} {senders : List Pending}
    (hb : Book (Function.update (sendPhase s) a (some aw.phase)) arrivals senders)
    (ho : senders ≠ [] → s.closed = false) (hr : aw.phase ≠ .answered → aw.result = false) :
    Core { s with sendAw := Function.update s.sendAw a (some aw), sendArrivals := arrivals, senders := senders } := by
  refine ⟨hs.receivers_empty, ho, ?_, hs.recvs, fun b aw' hb hp => ?_, hs.unreceived, hs.nullopt⟩
  · rw [sendPhase, sendPhase_update]
    exact hb
  · simp only [Function.update_apply] at hb
    split at hb
    · cases hb
      exact hr hp
    · exact hs.unsent b aw' hb hp

/-- A new state of one receive awaiter, with the lists to match. -/
private theorem Core.setRecv (hs : Core s) (aw : RecvAwaiter T) {arrivals : List Nat} {receivers : List Pending}
    (hb : Book (Function.update (recvPhase s) a (some aw.phase)) arrivals receivers)
    (ho : receivers ≠ [] → s.buffer = [] ∧ s.closed = false) (hr : aw.phase ≠ .answered → aw.result = none)
    (hn : aw.phase = .answered → aw.result = none → s.closed = true ∧ s.buffer = []) :
    Core { s with recvAw := Function.update s.recvAw a (some aw), recvArrivals := arrivals, receivers := receivers } := by
  refine ⟨ho, hs.senders_open, hs.sends, ?_, hs.unsent, fun b aw' hb hp => ?_, fun b aw' hb hp => ?_⟩
  · rw [recvPhase, recvPhase_update]
    exact hb
  · simp only [Function.update_apply] at hb
    split at hb
    · cases hb
      exact hr hp
    · exact hs.unreceived b aw' hb hp
  · simp only [Function.update_apply] at hb
    split at hb
    · cases hb
      exact hn hp
    · exact hs.nullopt b aw' hb hp

private theorem Core.submit (hs : Core s) (handles : List Nat) : Core { s with submitted := handles } :=
  ⟨hs.receivers_empty, hs.senders_open, hs.sends, hs.recvs, hs.unsent, hs.unreceived, hs.nullopt⟩

theorem Core.sendDone (hs : Core s) (ha : sendPhase s a = none ∨ sendPhase s a = some .retry) (aw : SendAwaiter T)
    (r : Bool) : Core (sendDone a aw (r, s)) :=
  hs.setSend _ (hs.sends.complete ha) hs.senders_open fun h => absurd rfl h

theorem Core.recvDone (hs : Core s) (ha : recvPhase s a = none ∨ recvPhase s a = some .retry) {r : Option T}
    (hr : r = none → s.closed = true ∧ s.buffer = []) : Core (recvDone a (r, s)) :=
  hs.setRecv _ (hs.recvs.complete ha) hs.receivers_empty (fun h => absurd rfl h) fun _ => hr

theorem Core.wakeSender (hs : Core s) (hq : s.senders = p :: ps) (r : Bool) : Core (wakeSender p ps r s) := by
  obtain ⟨aw, haw, -⟩ := hs.sendAw_stored hq
  have hne : s.senders ≠ [] := by simp [hq]
  have hc := hs.setSend { aw with result := r, phase := .answered }
    (hq ▸ hs.sends : Book (sendPhase s) s.sendArrivals (p :: ps)).answer (fun _ => hs.senders_open hne)
    fun h => absurd rfl h
  rw [Channel.wakeSender, haw]
  exact hc.submit _

theorem Core.wakeReceiver (hs : Core s) (hq : s.receivers = p :: ps) (v : T) :
    Core (wakeReceiver p ps (some v) s) := by
  obtain ⟨aw, haw, -⟩ := hs.recvAw_stored hq
  have hne : s.receivers ≠ [] := by simp [hq]
  have hc := hs.setRecv { aw with result := some v, phase := .answered }
    (hq ▸ hs.recvs : Book (recvPhase s) s.recvArrivals (p :: ps)).answer (fun _ => hs.receivers_empty hne)
    (fun h => absurd rfl h) nofun
  rw [Channel.wakeReceiver, haw]
  exact hc.submit _

theorem Core.setBuffer (hs : Core s) (buffer : List T) (hr : s.receivers = [])
    (hb : s.closed = true → s.buffer = [] → buffer = []) : Core { s with buffer := buffer } :=
  ⟨fun h => absurd hr h, hs.senders_open, hs.sends, hs.recvs, hs.unsent, hs.unreceived,
    fun a aw ha hp hn => ⟨(hs.nullopt a aw ha hp hn).1, hb (hs.nullopt a aw ha hp hn).1 (hs.nullopt a aw ha hp hn).2⟩⟩

private theorem granted_update (s : State T) (aw : SendAwaiter T) :
    granted { s with sendAw := Function.update s.sendAw a (some aw) } = Function.update (granted s) a
      (if aw.phase = .answered ∧ aw.result = true then some aw.value else none) := by
  funext b
  by_cases hb : b = a
  · subst hb
    simp [granted]
  · simp [granted, hb]

theorem received_update (s : State T) (aw : RecvAwaiter T) :
    received { s with recvAw := Function.update s.recvAw a (some aw) } =
      Function.update (received s) a aw.result := by
  funext b
  by_cases hb : b = a
  · subst hb
    simp [received]
  · simp [received, hb]

theorem accepted_sendDone (hs : Core s) (ha : sendPhase s a = none ∨ sendPhase s a = some .retry)
    (aw : SendAwaiter T) (r : Bool) :
    accepted (sendDone a aw (r, s)) = accepted s ++ if r then [aw.value] else [] := by
  have hg := granted_update (a := a) s { aw with result := r, phase := .answered }
  change (s.sendArrivals ++ [a]).filterMap (granted { s with sendAw := Function.update s.sendAw a _ }) = _
  rw [hg, List.filterMap_append, filterMap_update_fresh (hs.sends.fresh ha).1]
  cases r <;> simp [accepted]

theorem handed_recvDone (hs : Core s) (ha : recvPhase s a = none ∨ recvPhase s a = some .retry) (r : Option T) :
    handed (recvDone a (r, s)) = handed s ++ r.toList := by
  have hg := received_update (a := a) s ⟨r, .answered⟩
  change (s.recvArrivals ++ [a]).filterMap (received { s with recvAw := Function.update s.recvAw a _ }) = _
  rw [hg, List.filterMap_append, filterMap_update_fresh (hs.recvs.fresh ha).1]
  cases r <;> simp [handed]

theorem accepted_wakeSender (hs : Core s) (hq : s.senders = p :: ps) {aw : SendAwaiter T}
    (haw : s.sendAw p.aw = some aw) :
    (accepted (wakeSender p ps true s)).Perm (accepted s ++ [aw.value]) := by
  have hp : sendPhase s p.aw = some .pending := (hs.sends.waiting p.aw).mp (by simp [hq])
  have hg := granted_update (a := p.aw) s { aw with result := true, phase := .answered }
  have hnone : granted s p.aw = none := by
    rw [sendPhase, Function.comp_apply, haw, Option.map_some, Option.some_inj] at hp
    simp [granted, haw, hp]
  have hperm := filterMap_update_perm hs.sends.nodup ((hs.sends.arrived p.aw).mpr (.inr hp)) hnone (some aw.value)
  change (s.sendArrivals.filterMap (granted { s with sendAw := Function.update s.sendAw p.aw _ })).Perm _
  rw [haw, Option.map_some, hg, if_pos ⟨rfl, rfl⟩]
  exact hperm

theorem handed_wakeReceiver (hs : Core s) (hq : s.receivers = p :: ps) (v : T) :
    (handed (wakeReceiver p ps (some v) s)).Perm (handed s ++ [v]) := by
  have hp : recvPhase s p.aw = some .pending := (hs.recvs.waiting p.aw).mp (by simp [hq])
  obtain ⟨aw, haw, hph⟩ := hs.recvAw_stored hq
  have hg := received_update (a := p.aw) s { aw with result := some v, phase := .answered }
  have hnone : received s p.aw = none := by
    simp [received, haw, hs.unreceived p.aw aw haw (by simp [hph])]
  have hperm := filterMap_update_perm hs.recvs.nodup ((hs.recvs.arrived p.aw).mpr (.inr hp)) hnone (some v)
  change (s.recvArrivals.filterMap (received { s with recvAw := Function.update s.recvAw p.aw _ })).Perm _
  rw [haw, Option.map_some, hg]
  exact hperm

/-- A send answered at once is refused, handed over or buffered. -/
private theorem trySend_book {capacity : Nat} {t : State T} (hs : Core s) (hb : Tallied s)
    (ha : sendPhase s a = none ∨ sendPhase s a = some .retry) (aw : SendAwaiter T) (hr : aw.result = false) {r : Bool}
    (h : trySendLocked capacity aw.value aw.result s = some (r, t)) :
    Core (sendDone a aw (r, t)) ∧ Tallied (sendDone a aw (r, t)) := by
  rcases trySendLocked_cases h with ⟨hc, rfl, rfl⟩ | ⟨hc, rfl, p, rest, hp, rfl⟩ | ⟨hc, rfl, hp, hl, rfl⟩
  · refine ⟨hs.sendDone ha aw _, ?_⟩
    rw [Tallied, accepted_sendDone hs ha, hr, if_neg nofun, List.append_nil]
    exact hb
  · have ht := hs.wakeReceiver hp aw.value
    refine ⟨ht.sendDone ha aw true, ?_⟩
    rw [Tallied, accepted_sendDone ht ha]
    -- stored receivers mean an empty buffer, so the value is the last one handed over
    have hempty := (hs.receivers_empty (by simp [hp])).1
    rw [Tallied, hempty, List.append_nil] at hb
    change (handed (wakeReceiver p rest (some aw.value) s) ++ s.buffer).Perm (accepted s ++ [aw.value])
    rw [hempty, List.append_nil]
    exact (handed_wakeReceiver hs hp aw.value).trans (hb.append_right _)
  · have ht := hs.setBuffer (s.buffer ++ [aw.value]) hp (by simp [hc])
    refine ⟨ht.sendDone ha aw true, ?_⟩
    rw [Tallied, accepted_sendDone ht ha]
    change (handed s ++ (s.buffer ++ [aw.value])).Perm (accepted s ++ [aw.value])
    rw [← List.append_assoc]
    exact hb.append_right _

/-- A receive answered at once takes the oldest value, or learns that none will come. -/
private theorem tryRecv_book {t : State T} (hs : Core s) (hb : Tallied s)
    (ha : recvPhase s a = none ∨ recvPhase s a = some .retry) {r : Option T} (h : tryRecvLocked s = some (r, t)) :
    Core (recvDone a (r, t)) ∧ Tallied (recvDone a (r, t)) := by
  rcases tryRecvLocked_cases h with
    ⟨v, rest, p, ps, hv, hq, rfl, rfl⟩ | ⟨v, rest, hv, hq, rfl, rfl⟩ | ⟨hv, hc, rfl, rfl⟩
  · obtain ⟨aw, haw, -⟩ := hs.sendAw_stored hq
    have hrecv : s.receivers = [] := by
      by_contra hne
      simp [(hs.receivers_empty hne).1] at hv
    have hopen : s.closed = false := hs.senders_open (by simp [hq])
    have hm := hs.setBuffer (rest ++ ((s.sendAw p.aw).map SendAwaiter.value).toList) hrecv (by simp [hopen])
    have ht := hm.wakeSender hq true
    refine ⟨ht.recvDone ha nofun, ?_⟩
    rw [Tallied, handed_recvDone ht ha]
    have hperm := accepted_wakeSender hm hq haw
    rw [Tallied, hv] at hb
    change (handed s ++ [v] ++ (rest ++ ((s.sendAw p.aw).map SendAwaiter.value).toList)).Perm _
    refine List.Perm.trans ?_ hperm.symm
    rw [haw]
    change (handed s ++ [v] ++ (rest ++ [aw.value])).Perm (accepted s ++ [aw.value])
    rw [← List.append_assoc, List.append_assoc (handed s), List.singleton_append]
    exact hb.append_right _
  · have hrecv : s.receivers = [] := by
      by_contra hne
      simp [(hs.receivers_empty hne).1] at hv
    have ht := hs.setBuffer rest hrecv (by simp [hv])
    refine ⟨ht.recvDone ha nofun, ?_⟩
    rw [Tallied, handed_recvDone ht ha]
    rw [Tallied, hv] at hb
    change (handed s ++ [v] ++ rest).Perm (accepted s)
    rwa [List.append_assoc, List.singleton_append]
  · refine ⟨hs.recvDone ha fun _ => ⟨hc, hv⟩, ?_⟩
    rw [Tallied, handed_recvDone hs ha, Option.toList_none, List.append_nil]
    exact hb

def refuse (aw : SendAwaiter T) : SendAwaiter T := { aw with result := false, phase := .answered }

def dismiss (aw : RecvAwaiter T) : RecvAwaiter T := { aw with result := none, phase := .answered }

private theorem closeSenders_eq (ps : List Pending) (s : State T) (hp : s.senders = ps) : closeSenders ps s =
    { s with
      senders := []
      sendAw := fun a => if a ∈ ps.map Pending.aw then (s.sendAw a).map refuse else s.sendAw a
      submitted := s.submitted ++ ps.map Pending.handle } := by
  induction ps generalizing s with
  | nil =>
    cases s
    cases hp
    simp [closeSenders]
  | cons p ps ih =>
    rw [closeSenders, ih _ rfl]
    simp only [wakeSender, List.map_cons, List.append_assoc, List.singleton_append, State.mk.injEq, true_and, and_true]
    funext a
    by_cases ha : a = p.aw
    · subst ha
      cases s.sendAw p.aw <;> simp [refuse]
    · simp [ha]

private theorem closeReceivers_eq (ps : List Pending) (s : State T) (hp : s.receivers = ps) : closeReceivers ps s =
    { s with
      receivers := []
      recvAw := fun a => if a ∈ ps.map Pending.aw then (s.recvAw a).map dismiss else s.recvAw a
      submitted := s.submitted ++ ps.map Pending.handle } := by
  induction ps generalizing s with
  | nil =>
    cases s
    cases hp
    simp [closeReceivers]
  | cons p ps ih =>
    rw [closeReceivers, ih _ rfl]
    simp only [wakeReceiver, List.map_cons, List.append_assoc, List.singleton_append, State.mk.injEq, true_and, and_true]
    funext a
    by_cases ha : a = p.aw
    · subst ha
      cases s.recvAw p.aw <;> simp [dismiss]
    · simp [ha]

/-- Both loops of `close` at once. -/
theorem close_spec (s : State T) : close s =
    { s with
      closed := true
      senders := []
      receivers := []
      sendAw := fun a => if a ∈ s.senders.map Pending.aw then (s.sendAw a).map refuse else s.sendAw a
      recvAw := fun a => if a ∈ s.receivers.map Pending.aw then (s.recvAw a).map dismiss else s.recvAw a
      submitted := s.submitted ++ (s.senders ++ s.receivers).map Pending.handle } := by
  simp only [close, closeSenders_eq s.senders { s with closed := true } rfl]
  rw [closeReceivers_eq s.receivers { s with
    closed := true
    senders := []
    sendAw := fun a => if a ∈ s.senders.map Pending.aw then (s.sendAw a).map refuse else s.sendAw a
    submitted := s.submitted ++ s.senders.map Pending.handle } rfl]
  rw [List.map_append, List.append_assoc]

private theorem Core.close (hs : Core s) : Core (close s) := by
  rw [close_spec]
  refine ⟨nofun, nofun, hs.sends.answerAll (fun a ha => ?_) fun a ha => ?_,
    hs.recvs.answerAll (fun a ha => ?_) fun a ha => ?_, fun a aw ha hp => ?_, fun a aw ha hp => ?_,
    fun a aw ha hp hn => ⟨rfl, ?_⟩⟩
  · obtain ⟨aw, haw, -⟩ := Option.map_eq_some_iff.mp ((hs.sends.waiting a).mp ha)
    simp only [sendPhase, Function.comp_apply, if_pos ha, haw]
    rfl
  · simp only [sendPhase, Function.comp_apply, if_neg ha]
  · obtain ⟨aw, haw, -⟩ := Option.map_eq_some_iff.mp ((hs.recvs.waiting a).mp ha)
    simp only [recvPhase, Function.comp_apply, if_pos ha, haw]
    rfl
  · simp only [recvPhase, Function.comp_apply, if_neg ha]
  · simp only at ha
    split at ha
    · obtain ⟨aw', -, rfl⟩ := Option.map_eq_some_iff.mp ha
      exact absurd rfl hp
    · exact hs.unsent a aw ha hp
  · simp only at ha
    split at ha
    · obtain ⟨aw', -, rfl⟩ := Option.map_eq_some_iff.mp ha
      exact absurd rfl hp
    · exact hs.unreceived a aw ha hp
  · simp only at ha
    split at ha
    · rename_i hmem
      refine (hs.receivers_empty ?_).1
      rintro hnil
      simp [hnil] at hmem
    · exact (hs.nullopt a aw ha hp hn).2

theorem received_close (hs : Core s) : received (Channel.close s) = received s := by
  funext a
  rw [close_spec]
  by_cases ha : a ∈ s.receivers.map Pending.aw
  · obtain ⟨aw, haw, hph⟩ := Option.map_eq_some_iff.mp ((hs.recvs.waiting a).mp ha)
    simp only [received, if_pos ha, haw]
    simp [dismiss, hs.unreceived a aw haw (by simp [hph])]
  · simp only [received, if_neg ha]

private theorem granted_close (hs : Core s) : granted (Channel.close s) = granted s := by
  funext a
  rw [close_spec]
  by_cases ha : a ∈ s.senders.map Pending.aw
  · obtain ⟨aw, haw, hph⟩ := Option.map_eq_some_iff.mp ((hs.sends.waiting a).mp ha)
    simp only [granted, if_pos ha, haw]
    simp [refuse, hph]
  · simp only [granted, if_neg ha]

/-- `close` accepts nothing, hands nothing over and leaves the buffer. -/
private theorem tallied_close (hs : Core s) (hb : Tallied s) : Tallied (Channel.close s) := by
  rw [Tallied, handed, accepted, granted_close hs, received_close hs, close_spec]
  exact hb

private theorem book_sendRetry (hs : Core s) (hb : Tallied s) (v : T) (hp : sendPhase s a = none) :
    Core { s with sendAw := Function.update s.sendAw a (some ⟨v, false, .retry⟩) } ∧
    Tallied { s with sendAw := Function.update s.sendAw a (some ⟨v, false, .retry⟩) } := by
  refine ⟨hs.setSend _ (hs.sends.retry hp) hs.senders_open fun _ => rfl, ?_⟩
  have hg := granted_update (a := a) s ⟨v, false, .retry⟩
  change (handed s ++ s.buffer).Perm
    (s.sendArrivals.filterMap (granted { s with sendAw := Function.update s.sendAw a _ }))
  rw [hg, filterMap_update_fresh (hs.sends.fresh (.inl hp)).1]
  exact hb

private theorem tallied_sendStore (hs : Core s) (hb : Tallied s) (handle : Nat) (aw : SendAwaiter T)
    (hp : sendPhase s a = some .retry) : Tallied { s with
      senders := s.senders ++ [⟨handle, a⟩]
      sendAw := Function.update s.sendAw a (some { aw with phase := .pending })
      sendArrivals := s.sendArrivals ++ [a] } := by
  have hg := granted_update (a := a) s { aw with phase := .pending }
  change (handed s ++ s.buffer).Perm
    ((s.sendArrivals ++ [a]).filterMap (granted { s with sendAw := Function.update s.sendAw a _ }))
  rw [hg, List.filterMap_append, filterMap_update_fresh (hs.sends.fresh (.inr hp)).1]
  simpa [Tallied, accepted] using hb

private theorem book_recvRetry (hs : Core s) (hb : Tallied s) (hp : recvPhase s a = none) :
    Core { s with recvAw := Function.update s.recvAw a (some ⟨none, .retry⟩) } ∧
    Tallied { s with recvAw := Function.update s.recvAw a (some ⟨none, .retry⟩) } := by
  refine ⟨hs.setRecv _ (hs.recvs.retry hp) hs.receivers_empty (fun _ => rfl) nofun, ?_⟩
  have hg := received_update (a := a) s ⟨none, .retry⟩
  change ((s.recvArrivals.filterMap (received { s with recvAw := Function.update s.recvAw a _ })) ++ s.buffer).Perm
    (accepted s)
  rw [hg, filterMap_update_fresh (hs.recvs.fresh (.inl hp)).1]
  exact hb

private theorem tallied_recvStore (hs : Core s) (hb : Tallied s) (handle : Nat) {aw : RecvAwaiter T}
    (hp : recvPhase s a = some .retry) (hres : aw.result = none) : Tallied { s with
      receivers := s.receivers ++ [⟨handle, a⟩]
      recvAw := Function.update s.recvAw a (some { aw with phase := .pending })
      recvArrivals := s.recvArrivals ++ [a] } := by
  have hg := received_update (a := a) s { aw with phase := .pending }
  change (((s.recvArrivals ++ [a]).filterMap (received { s with recvAw := Function.update s.recvAw a _ })) ++
    s.buffer).Perm (accepted s)
  rw [hg, List.filterMap_append, filterMap_update_fresh (hs.recvs.fresh (.inr hp)).1, hres]
  simpa [Tallied, handed] using hb

/-- Every critical section of the channel keeps its books, whatever the capacity. -/
theorem book_step {capacity : Nat} {l : Label T} {t : State T} (hs : Core s) (hb : Tallied s)
    (h : step capacity l s = some t) : Core t ∧ Tallied t := by
  replace h := step_cases h
  cases h with
  | send a v r ha h => exact trySend_book hs hb (.inl (by simp [sendPhase, ha])) ⟨v, false, .retry⟩ rfl h
  | sendRetry a v ha h => exact book_sendRetry hs hb v (by simp [sendPhase, ha])
  | sendAgain a handle aw r ha hp h =>
    exact trySend_book hs hb (.inr (by simp [sendPhase, ha, hp])) aw (hs.unsent a aw ha (by simp [hp])) h
  | sendStore a handle aw ha hp h =>
    have hph : sendPhase s a = some .retry := by simp [sendPhase, ha, hp]
    refine ⟨?_, tallied_sendStore hs hb handle aw hph⟩
    exact hs.setSend _ (hs.sends.store handle hph) (fun _ => (trySendLocked_none h).1) fun _ =>
      hs.unsent a aw ha (by simp [hp])
  | recv a r ha h => exact tryRecv_book hs hb (.inl (by simp [recvPhase, ha])) h
  | recvRetry a ha h => exact book_recvRetry hs hb (by simp [recvPhase, ha])
  | recvAgain a handle aw r ha hp h => exact tryRecv_book hs hb (.inr (by simp [recvPhase, ha, hp])) h
  | recvStore a handle aw ha hp h =>
    have hph : recvPhase s a = some .retry := by simp [recvPhase, ha, hp]
    have hres := hs.unreceived a aw ha (by simp [hp])
    refine ⟨?_, tallied_recvStore hs hb handle hph hres⟩
    exact hs.setRecv _ (hs.recvs.store handle hph) (fun _ => tryRecvLocked_none h) (fun _ => hres) (by simp)
  | close => exact ⟨hs.close, tallied_close hs hb⟩

theorem reach_book {capacity : Nat} (h : Reachable (step capacity) init s) : Core s ∧ Tallied s := by
  induction h with
  | start => exact ⟨core_init, .refl _⟩
  | next _ _ ht ih => exact book_step ih.1 ih.2 ht

end TinyCoro.Comp.ChannelBook
