import TinyCoro.Comp.ChannelBook

/-! Closing a channel: whoever is stored is sent away, nobody is stored any more, and
the buffer is drained in order. -/
namespace TinyCoro.Comp.ChannelClose
open Transition Channel ChannelShape ChannelBook
variable {T : Type} {capacity : Nat} {s t : State T}

def sendOf : Label T → Option Nat
  | .sendReady a _ | .sendSuspend a _ => some a
  | _ => none

def recvOf : Label T → Option Nat
  | .recvReady a | .recvSuspend a _ => some a
  | _ => none

def results (capacity : Nat) : List (Label T) → State T → List (Option T)
  | [], _ => []
  | l :: ls, s => match step capacity l s with
    | none => []
    | some t => ((recvOf l).map (received t)).toList ++ results capacity ls t

theorem closed_empty (hs : Core s) (hc : s.closed = true) : s.senders = [] ∧ s.receivers = [] := by
  refine ⟨?_, ?_⟩
  · by_contra hne
    cases hc.symm.trans (hs.senders_open hne)
  · by_contra hne
    cases hc.symm.trans (hs.receivers_empty hne).2

/-- Closing a closed channel changes nothing. -/
theorem close_closed (hs : Core s) (hc : s.closed = true) : close s = s := by
  obtain ⟨hq, hr⟩ := closed_empty hs hc
  rw [close_spec, hq, hr, ← hc]
  cases s
  cases hq
  cases hr
  simp

private theorem tryRecv_closed (hc : s.closed = true) (hq : s.senders = []) :
    tryRecvLocked s = some (s.buffer.head?, { s with buffer := s.buffer.tail }) := by
  unfold tryRecvLocked
  cases hb : s.buffer with
  | nil =>
    simp only [hc, if_true, List.head?_nil, List.tail_nil]
    rw [← hb, ← hc]
  | cons v rest =>
    rw [hq]
    rfl

/-- What a step can do once the channel is closed. -/
theorem closed_cases (hs : Core s) (hc : s.closed = true) {l : Label T} (h : step capacity l s = some t) :
    (∃ a aw, sendOf l = some a ∧ recvOf l = none ∧ (sendPhase s a = none ∨ sendPhase s a = some .retry) ∧
      t = sendDone a aw (false, s)) ∨
    (∃ a, sendOf l = none ∧ recvOf l = some a ∧ (recvPhase s a = none ∨ recvPhase s a = some .retry) ∧
      t = recvDone a (s.buffer.head?, { s with buffer := s.buffer.tail })) ∨
    (sendOf l = none ∧ recvOf l = none ∧ t = s) := by
  have hsend : ∀ (v : T) r, trySendLocked capacity v r s = some (r, s) := fun v r => by simp [trySendLocked, hc]
  have hrecv := tryRecv_closed hc (closed_empty hs hc).1
  replace h := step_cases h
  cases h with
  | send a v r ha h =>
    obtain rfl := Option.some.inj ((hsend v false).symm.trans h)
    exact .inl ⟨a, ⟨v, false, .retry⟩, rfl, rfl, .inl (by simp [sendPhase, ha]), rfl⟩
  | sendAgain a handle aw r ha hp h =>
    obtain rfl := Option.some.inj ((hsend aw.value aw.result).symm.trans h)
    rw [hs.unsent a aw ha (by simp [hp])]
    exact .inl ⟨a, aw, rfl, rfl, .inr (by simp [sendPhase, ha, hp]), rfl⟩
  | recv a r ha h =>
    obtain rfl := Option.some.inj (hrecv.symm.trans h)
    exact .inr (.inl ⟨a, rfl, rfl, .inl (by simp [recvPhase, ha]), rfl⟩)
  | recvAgain a handle aw r ha hp h =>
    obtain rfl := Option.some.inj (hrecv.symm.trans h)
    exact .inr (.inl ⟨a, rfl, rfl, .inr (by simp [recvPhase, ha, hp]), rfl⟩)
  | sendRetry a v ha h => cases (hsend v false).symm.trans h
  | sendStore a handle aw ha hp h => cases (hsend aw.value aw.result).symm.trans h
  | recvRetry a ha h => cases hrecv.symm.trans h
  | recvStore a handle aw ha hp h => cases hrecv.symm.trans h
  | close => exact .inr (.inr ⟨rfl, rfl, close_closed hs hc⟩)

/-- A step on a closed channel: it stays closed, submits nobody, and an answer once
given stays. -/
private theorem closed_step (hs : Core s) (hc : s.closed = true) {l : Label T} (h : step capacity l s = some t) :
    t.closed = true ∧ t.submitted = s.submitted ∧
    (∀ a aw, s.sendAw a = some aw → aw.phase = .answered → t.sendAw a = some aw) ∧
    (∀ a aw, s.recvAw a = some aw → aw.phase = .answered → t.recvAw a = some aw) := by
  rcases closed_cases hs hc h with ⟨a, aw, -, -, ha, rfl⟩ | ⟨a, -, -, ha, rfl⟩ | ⟨-, -, rfl⟩
  · refine ⟨hc, rfl, fun b x hb hx => ?_, fun _ _ hb _ => hb⟩
    have hne : b ≠ a := by
      rintro rfl
      simp [sendPhase, hb, hx] at ha
    simpa [sendDone, hne] using hb
  · refine ⟨hc, rfl, fun _ _ hb _ => hb, fun b x hb hx => ?_⟩
    have hne : b ≠ a := by
      rintro rfl
      simp [recvPhase, hb, hx] at ha
    simpa [recvDone, hne] using hb
  · exact ⟨hc, rfl, fun _ _ hb _ => hb, fun _ _ hb _ => hb⟩

/-- A run on a closed channel hands out the buffer from its front, and then nothing. -/
theorem results_closed (hs : Core s) (hb : Tallied s) (hc : s.closed = true) {ls : List (Label T)}
    (h : exec (step capacity) ls s = some t) :
    results capacity ls s = (List.range (ls.countP fun l => (recvOf l).isSome)).map (s.buffer[·]?) := by
  induction ls generalizing s with
  | nil => rfl
  | cons l ls ih =>
    obtain ⟨m, hm, h⟩ := exec_cons_some h
    obtain ⟨hs', hb'⟩ := book_step hs hb hm
    have hrec := ih hs' hb' (closed_step hs hc hm).1 h
    rw [results, hm]
    rcases closed_cases hs hc hm with ⟨a, aw, -, hl, ha, rfl⟩ | ⟨a, -, hl, ha, rfl⟩ | ⟨-, hl, rfl⟩
    · rw [show (sendDone a aw (false, s)).buffer = s.buffer from rfl] at hrec
      simpa [hl] using hrec
    · have hfirst : received (recvDone a (s.buffer.head?, { s with buffer := s.buffer.tail })) a = s.buffer.head? := by
        simp [received, recvDone]
      simp only [hl, Option.map_some, hfirst, hrec]
      rw [List.countP_cons_of_pos (by simp [hl]), List.range_succ_eq_map]
      simp [recvDone, List.head?_eq_getElem?, Function.comp_def]
    · simpa [hl] using hrec

/-- What a step of `send` or `recv` gets from a closed channel. -/
private theorem closed_answers (hs : Core s) (hc : s.closed = true) {l : Label T} (h : step capacity l s = some t) :
    (∀ a ∈ sendOf l, (∃ aw, t.sendAw a = some aw ∧ aw.phase = .answered ∧ aw.result = false) ∧ t.buffer = s.buffer) ∧
    (∀ a ∈ recvOf l, ∃ aw, t.recvAw a = some aw ∧ aw.phase = .answered) := by
  rcases closed_cases hs hc h with ⟨a, aw, hl, hl', -, rfl⟩ | ⟨a, hl, hl', -, rfl⟩ | ⟨hl, hl', rfl⟩
  · rw [hl, hl']
    refine ⟨fun b hb => ?_, nofun⟩
    cases hb
    exact ⟨⟨_, Function.update_self .., rfl, rfl⟩, rfl⟩
  · rw [hl, hl']
    refine ⟨nofun, fun b hb => ?_⟩
    cases hb
    exact ⟨_, Function.update_self .., rfl⟩
  · rw [hl, hl']
    exact ⟨nofun, nofun⟩

/-- What `close` leaves behind stays so. -/
private theorem closed_run (hs : Core s) (hb : Tallied s) (hc : s.closed = true)
    (h : Reachable (step capacity) s t) : Core t ∧ t.closed = true ∧ t.submitted = s.submitted ∧
    (∀ a aw, s.sendAw a = some aw → aw.phase = .answered → t.sendAw a = some aw) ∧
    (∀ a aw, s.recvAw a = some aw → aw.phase = .answered → t.recvAw a = some aw) := by
  suffices Tallied t ∧ Core t ∧ t.closed = true ∧ t.submitted = s.submitted ∧
      (∀ a aw, s.sendAw a = some aw → aw.phase = .answered → t.sendAw a = some aw) ∧
      (∀ a aw, s.recvAw a = some aw → aw.phase = .answered → t.recvAw a = some aw) from this.2
  induction h with
  | start => exact ⟨hb, hs, hc, rfl, fun _ _ h _ => h, fun _ _ h _ => h⟩
  | next _ _ ht ih =>
    obtain ⟨hbm, hsm, hcm, hsub, hsend, hrecv⟩ := ih
    obtain ⟨hst, hbt⟩ := book_step hsm hbm ht
    obtain ⟨hct, hsub', hsend', hrecv'⟩ := closed_step hsm hcm ht
    exact ⟨hbt, hst, hct, hsub'.trans hsub, fun a aw ha hp => hsend' a aw (hsend a aw ha hp) hp,
      fun a aw ha hp => hrecv' a aw (hrecv a aw ha hp) hp⟩

/-- After `close` nobody is stored in any later state. Whoever was stored is submitted
once and answered false or `nullopt`; every later send is refused and leaves the buffer,
every later receive is answered at once, with the buffer in order and then `nullopt`;
closing again changes nothing. At any time, a receive is answered `nullopt` only when
the channel is closed and all that was accepted has been handed over. -/
theorem channel_close_final (capacity : Nat) {s : State T} (h : Reachable (step capacity) init s) :
    (∀ a aw, s.sendAw a = some aw → aw.phase = .pending → (s.senders.map Pending.aw).count a = 1) ∧
    (∀ a aw, s.recvAw a = some aw → aw.phase = .pending → (s.receivers.map Pending.aw).count a = 1) ∧
    (∀ t, Reachable (step capacity) (close s) t → t.senders = [] ∧ t.receivers = [] ∧
      t.submitted = s.submitted ++ (s.senders ++ s.receivers).map Pending.handle ∧
      (∀ a aw, s.sendAw a = some aw → aw.phase = .pending → t.sendAw a = some ⟨aw.value, false, .answered⟩) ∧
      (∀ a aw, s.recvAw a = some aw → aw.phase = .pending → t.recvAw a = some ⟨none, .answered⟩) ∧
      (∀ l u, step capacity l t = some u →
        (∀ a ∈ sendOf l, (∃ aw, u.sendAw a = some aw ∧ aw.phase = .answered ∧ aw.result = false) ∧
          u.buffer = t.buffer) ∧
        (∀ a ∈ recvOf l, ∃ aw, u.recvAw a = some aw ∧ aw.phase = .answered)) ∧
      close t = t) ∧
    (∀ ls t, exec (step capacity) ls (close s) = some t →
      results capacity ls (close s) = (List.range (ls.countP fun l => (recvOf l).isSome)).map (s.buffer[·]?)) ∧
    (∀ a aw, s.recvAw a = some aw → aw.phase = .answered → aw.result = none →
      s.closed = true ∧ (handed s).Perm (accepted s)) := by
  obtain ⟨hs, hb⟩ := reach_book h
  obtain ⟨hs', hb'⟩ := book_step hs hb (show step capacity .close s = some (close s) from rfl)
  have hspec := close_spec s
  have hsend : ∀ a aw, s.sendAw a = some aw → aw.phase = .pending → a ∈ s.senders.map Pending.aw := fun a aw ha hp =>
    (hs.sends.waiting a).mpr (by simp [sendPhase, ha, hp])
  have hrecv : ∀ a aw, s.recvAw a = some aw → aw.phase = .pending → a ∈ s.receivers.map Pending.aw := fun a aw ha hp =>
    (hs.recvs.waiting a).mpr (by simp [recvPhase, ha, hp])
  have hc : (close s).closed = true := by rw [hspec]
  refine ⟨fun a aw ha hp => List.count_eq_one_of_mem hs.sends.waiting_nodup (hsend a aw ha hp),
    fun a aw ha hp => List.count_eq_one_of_mem hs.recvs.waiting_nodup (hrecv a aw ha hp), fun t ht => ?_,
    fun ls t ht => ?_, fun a aw ha hp hn => ?_⟩
  · obtain ⟨hst, hct, hsub, hkeep, hkeep'⟩ := closed_run hs' hb' hc ht
    obtain ⟨hq, hr⟩ := closed_empty hst hct
    refine ⟨hq, hr, by rw [hsub, hspec], fun a aw ha hp => hkeep a _ ?_ rfl, fun a aw ha hp => hkeep' a _ ?_ rfl,
      fun l u hu => closed_answers hst hct hu, close_closed hst hct⟩
    · rw [hspec]
      simp only [if_pos (hsend a aw ha hp), ha]
      rfl
    · rw [hspec]
      simp only [if_pos (hrecv a aw ha hp), ha]
      rfl
  · rw [results_closed hs' hb' hc ht, hspec]
  · obtain ⟨hclosed, hempty⟩ := hs.nullopt a aw ha hp hn
    rw [Tallied, hempty, List.append_nil] at hb
    exact ⟨hclosed, hb⟩

def oneBlocked : List (Label Nat) := [.sendReady 0 7, .sendReady 1 8, .sendSuspend 1 20]

theorem channel_close_final_oneBlocked : ∃ s : State Nat, Reachable (step 1) init s ∧ s.senders ≠ [] ∧
    (close s).submitted = [20] ∧ (close s).sendAw 1 = some ⟨8, false, .answered⟩ ∧
    results 1 [.recvReady 0, .sendReady 2 9, .recvReady 1] (close s) = [some 7, none] := by
  obtain ⟨s, hs⟩ : ∃ s, s ∈ exec (step 1) oneBlocked init := ⟨_, rfl⟩
  have hr := Reachable.of_exec oneBlocked hs
  obtain ⟨-, -, hlater, hdrain, -⟩ := channel_close_final 1 hr
  cases hs
  obtain ⟨-, -, hsub, hsend, -⟩ := hlater _ .start
  exact ⟨_, hr, nofun, hsub, hsend 1 ⟨8, false, .pending⟩ rfl rfl, hdrain _ _ rfl⟩

end TinyCoro.Comp.ChannelClose
