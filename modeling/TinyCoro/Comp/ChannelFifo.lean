import TinyCoro.Transition.Ledger
import TinyCoro.Comp.ChannelShape

/-! The channel refines a first-in-first-out ledger: every critical section is a
move of the ledger, on each of the paths hand-off, buffering and refill. -/
namespace TinyCoro.Comp.ChannelFifo
open Transition Channel ChannelShape
variable {T : Type}

def Balanced (s : State T) : Prop := handed s ++ (s.buffer ++ blocked s) = sent s

def ledger (s : State T) (h : Balanced s) : Ledger T := ⟨sent s, handed s, s.buffer ++ blocked s, h⟩

def Moves (s t : State T) : Prop :=
  ∀ hs : Balanced s, ∃ ht : Balanced t, Ledger.Move (ledger s hs) (ledger t ht)

private theorem Moves.stay {s t : State T} (h1 : handed t = handed s)
    (h2 : t.buffer ++ blocked t = s.buffer ++ blocked s) (h3 : sent t = sent s) : Moves s t := by
  intro hs
  have ht : Balanced t := by rw [Balanced, h1, h2, h3]; exact hs
  refine ⟨ht, ?_⟩
  rw [show ledger t ht = ledger s hs from Ledger.ext h3 h1 h2]
  exact .stay _

private theorem Moves.offer {s t : State T} (v : T) (h1 : handed t = handed s)
    (h2 : t.buffer ++ blocked t = s.buffer ++ blocked s ++ [v]) (h3 : sent t = sent s ++ [v]) : Moves s t := by
  intro hs
  have ht : Balanced t := by rw [Balanced, h1, h2, h3, ← hs]; simp only [List.append_assoc]
  refine ⟨ht, ?_⟩
  rw [show ledger t ht = (ledger s hs).offer v from Ledger.ext h3 h1 h2]
  exact .offer _ v

private theorem Moves.take {s t : State T} (v : T) (h1 : handed t = handed s ++ [v])
    (h2 : s.buffer ++ blocked s = v :: (t.buffer ++ blocked t)) (h3 : sent t = sent s) : Moves s t := by
  intro hs
  have ht : Balanced t := by rw [Balanced, h1, h3, ← hs, h2]; simp only [List.append_assoc, List.singleton_append]
  refine ⟨ht, ?_⟩
  rw [show ledger t ht = (ledger s hs).take v _ h2 from Ledger.ext h3 h1 rfl]
  exact .take _ v _ h2

private theorem Moves.handOver {s t : State T} (v : T) (h1 : handed t = handed s ++ [v])
    (h2 : s.buffer ++ blocked s = []) (h2' : t.buffer ++ blocked t = []) (h3 : sent t = sent s ++ [v]) :
    Moves s t := by
  intro hs
  have he : handed s = sent s := by rw [← hs, h2, List.append_nil]
  have ht : Balanced t := by rw [Balanced, h1, h3, h2', List.append_nil, he]
  have ho : ((ledger s hs).offer v).transit = [v] := by
    rw [Ledger.offer_transit]
    exact congrArg (· ++ [v]) h2
  refine ⟨ht, ?_⟩
  rw [show ledger t ht = ((ledger s hs).offer v).take v [] ho from Ledger.ext h3 h1 h2']
  exact .handOver _ v ho

private theorem Moves.cut {s t : State T} (h1 : handed t = handed s) (h2 : t.buffer = s.buffer)
    (h3 : blocked t = []) (ht : Balanced s → Balanced t) : Moves s t := by
  intro hs
  refine ⟨ht hs, ?_⟩
  have hb : t.buffer ++ blocked t = s.buffer := by rw [h3, List.append_nil, h2]
  have ha : sent t = handed s ++ s.buffer := by rw [← ht hs, hb, h1]
  rw [show ledger t (ht hs) = (ledger s hs).cut s.buffer from Ledger.ext ha h1 hb]
  exact .cut _ _ _ rfl

private theorem filterMap_stored {capacity : Nat} {s : State T} (hs : Shape capacity s) :
    (s.receivers.map Pending.aw).filterMap (received s) = [] := by
  rw [List.filterMap_eq_nil_iff]
  intro a ha
  obtain ⟨p, hp, rfl⟩ := List.mem_map.mp ha
  obtain ⟨aw, haw, hph⟩ := hs.recvAw_stored hp
  simp [received, haw, hs.unreceived p.aw aw haw (by simp [hph])]

private theorem filterMap_blocked {capacity : Nat} {s : State T} (hs : Shape capacity s) :
    (s.senders.map Pending.aw).filterMap (carried s) = blocked s := by
  rw [List.filterMap_map, blocked]
  apply List.filterMap_congr
  intro p hp
  obtain ⟨aw, haw, hph⟩ := hs.sendAw_stored hp
  simp [carried, haw, SendAwaiter.refused, hph]

/-- A woken receiver is the oldest one without a value, so its value comes last. -/
private theorem handed_wake {capacity : Nat} {s : State T} (hs : Shape capacity s)
    {p : Pending} {rest : List Pending} (hr : s.receivers = p :: rest) (r : Option T) :
    handed (wakeReceiver p rest r s) = handed s ++ r.toList := by
  obtain ⟨aw, haw, hph⟩ := hs.recvAw_stored (p := p) (by simp [hr])
  have hw := filterMap_stored (hs.wakeReceiver hr r)
  have hn := filterMap_stored hs
  obtain ⟨done, hd, ha⟩ := hs.recvs.split
  have hsame : done.filterMap (received (wakeReceiver p rest r s)) =
      done.filterMap (received s) := by
    apply List.filterMap_congr
    intro a hm
    have hne : a ≠ p.aw := by
      rintro rfl
      have := ha _ hm
      simp [recvPhase, haw, hph] at this
    simp [received, Channel.wakeReceiver, hne]
  have hself : received (wakeReceiver p rest r s) p.aw = r := by
    simp [received, Channel.wakeReceiver, haw]
  change List.filterMap _ (rest.map Pending.aw) = [] at hw
  rw [hr] at hd hn
  calc handed (wakeReceiver p rest r s)
      = (done ++ (p :: rest).map Pending.aw).filterMap (received (wakeReceiver p rest r s)) := by rw [← hd]; rfl
    _ = done.filterMap (received s) ++ r.toList := by
      rw [List.map_cons, List.filterMap_append, hsame, List.filterMap_cons, hself]
      cases r <;> simp [hw]
    _ = handed s ++ r.toList := by rw [handed, hd, List.filterMap_append, hn, List.append_nil]

/-- Answering a stored sender true leaves its value among the carried ones. -/
private theorem carried_accept {capacity : Nat} {s : State T} (hs : Shape capacity s)
    {p : Pending} {ps : List Pending} (hq : s.senders = p :: ps) :
    carried (wakeSender p ps true s) = carried s := by
  obtain ⟨aw, haw, hph⟩ := hs.sendAw_stored (p := p) (by simp [hq])
  funext a
  by_cases ha : a = p.aw
  · simp [carried, Channel.wakeSender, ha, haw, SendAwaiter.refused, hph]
  · simp [carried, Channel.wakeSender, ha]

private theorem blocked_wake (p : Pending) (ps : List Pending) (r : Bool) (s : State T) :
    blocked (wakeSender p ps r s) = ps.filterMap fun q => (s.sendAw q.aw).map SendAwaiter.value := by
  apply List.filterMap_congr
  intro q _
  by_cases hq : q.aw = p.aw
  · simp [Channel.wakeSender, hq, Function.comp_def]
  · simp [Channel.wakeSender, hq]

/-- Answering the first stored sender false takes its value, and no other, off both sides. -/
private theorem balanced_refuse {capacity : Nat} {s : State T} (hs : Shape capacity s)
    {p : Pending} {ps : List Pending} (hq : s.senders = p :: ps) (hb : Balanced s) :
    Balanced (wakeSender p ps false s) := by
  obtain ⟨aw, haw, hph⟩ := hs.sendAw_stored (p := p) (by simp [hq])
  have hw := filterMap_blocked (hs.wakeSender hq false)
  have hv := filterMap_blocked hs
  obtain ⟨done, hd, ha⟩ := hs.sends.split
  have hsame : done.filterMap (carried (wakeSender p ps false s)) = done.filterMap (carried s) := by
    apply List.filterMap_congr
    intro a hm
    have hne : a ≠ p.aw := by
      rintro rfl
      have := ha _ hm
      simp [sendPhase, haw, hph] at this
    simp [carried, Channel.wakeSender, hne]
  have hself : carried (wakeSender p ps false s) p.aw = none := by
    simp [carried, Channel.wakeSender, haw, SendAwaiter.refused]
  have hold : handed s ++ s.buffer = done.filterMap (carried s) := by
    have hsum : handed s ++ s.buffer ++ blocked s = done.filterMap (carried s) ++ blocked s := by
      rw [List.append_assoc, hb, sent, hd, List.filterMap_append, hv]
    exact List.append_cancel_right hsum
  rw [hq] at hd
  change List.filterMap _ (ps.map Pending.aw) = _ at hw
  calc handed s ++ (s.buffer ++ blocked (wakeSender p ps false s))
      = done.filterMap (carried s) ++ blocked (wakeSender p ps false s) := by rw [← hold, List.append_assoc]
    _ = (done ++ (p :: ps).map Pending.aw).filterMap (carried (wakeSender p ps false s)) := by
      rw [List.map_cons, List.filterMap_append, hsame, List.filterMap_cons, hself, hw]
    _ = sent (wakeSender p ps false s) := by rw [← hd]; rfl

private theorem sent_done {capacity : Nat} {s : State T} (hs : Shape capacity s) {a : Nat}
    (ha : sendPhase s a = none ∨ sendPhase s a = some .retry) (aw : SendAwaiter T) (r : Bool) :
    sent (sendDone a aw (r, s)) = sent s ++ if r then [aw.value] else [] := by
  have hf := hs.sends.fresh ha
  have hsame : s.sendArrivals.filterMap (carried (sendDone a aw (r, s))) = sent s := by
    apply List.filterMap_congr
    intro b hb
    have hne : b ≠ a := fun he => hf (he ▸ hb)
    simp [carried, sendDone, hne]
  have hself : carried (sendDone a aw (r, s)) a = if r then some aw.value else none := by
    cases r <;> simp [carried, sendDone, SendAwaiter.refused]
  calc sent (sendDone a aw (r, s))
      = (s.sendArrivals ++ [a]).filterMap (carried (sendDone a aw (r, s))) := rfl
    _ = sent s ++ if r then [aw.value] else [] := by
      rw [List.filterMap_append, hsame, List.filterMap_cons, hself]
      cases r <;> simp

private theorem handed_done {capacity : Nat} {s : State T} (hs : Shape capacity s) {a : Nat}
    (ha : recvPhase s a = none ∨ recvPhase s a = some .retry) (r : Option T) :
    handed (recvDone a (r, s)) = handed s ++ r.toList := by
  have hf := hs.recvs.fresh ha
  have hsame : s.recvArrivals.filterMap (received (recvDone a (r, s))) = handed s := by
    apply List.filterMap_congr
    intro b hb
    have hne : b ≠ a := fun he => hf (he ▸ hb)
    simp [received, recvDone, hne]
  have hself : received (recvDone a (r, s)) a = r := by simp [received, recvDone]
  calc handed (recvDone a (r, s))
      = (s.recvArrivals ++ [a]).filterMap (received (recvDone a (r, s))) := rfl
    _ = handed s ++ r.toList := by
      rw [List.filterMap_append, hsame, List.filterMap_cons, hself]
      cases r <;> simp

/-- A send answered at once is refused, handed over or buffered. -/
private theorem moves_trySend {capacity : Nat} (hcap : 0 < capacity) {s t : State T} (hs : Shape capacity s)
    {a : Nat} (ha : sendPhase s a = none ∨ sendPhase s a = some .retry) (aw : SendAwaiter T)
    (hr : aw.result = false) {r : Bool}
    (h : trySendLocked capacity aw.value aw.result s = some (r, t)) : Moves s (sendDone a aw (r, t)) := by
  obtain ⟨ht, hn⟩ := hs.trySend hcap h
  have hb : blocked (sendDone a aw (r, t)) = [] := by simp [blocked, sendDone, hn]
  rcases trySendLocked_cases h with ⟨hc, rfl, rfl⟩ | ⟨hc, rfl, p, rest, hp, rfl⟩ | ⟨hc, rfl, hp, hl, rfl⟩
  · have hq : blocked t = [] := by simp [blocked, hn]
    have hsent := sent_done hs ha aw aw.result
    simp only [hr, Bool.false_eq_true, if_false, List.append_nil] at hsent
    refine .stay rfl ?_ (by rw [hr]; exact hsent)
    rw [hb, hq]
    rfl
  · obtain ⟨he, _⟩ := hs.receivers_empty (by simp [hp])
    have hq : blocked s = [] := by rw [blocked, hs.senders_nil (.inl (by simpa [he] using hcap))]; rfl
    refine .handOver aw.value (handed_wake hs hp (some aw.value)) (by rw [he, hq]; rfl) ?_ (sent_done ht ha aw true)
    rw [hb, List.append_nil]
    exact he
  · have hq : blocked s = [] := by rw [blocked, hs.senders_nil (.inl hl)]; rfl
    refine .offer aw.value rfl ?_ (sent_done ht ha aw true)
    rw [hb, hq, List.append_nil, List.append_nil]
    rfl

private theorem moves_sendRetry {capacity : Nat} {s : State T} (hs : Shape capacity s) (a : Nat) (v : T)
    (hp : sendPhase s a = none) :
    Moves s { s with sendAw := Function.update s.sendAw a (some ⟨v, false, .retry⟩) } := by
  refine .stay rfl (congrArg _ (List.filterMap_congr fun p hm => ?_)) (List.filterMap_congr fun b hb => ?_)
  · have hne : p.aw ≠ a := fun he => hs.sends.fresh_stored (.inl hp) (he ▸ List.mem_map_of_mem hm)
    simp [hne]
  · have hne : b ≠ a := fun he => hs.sends.fresh (.inl hp) (he ▸ hb)
    simp [carried, hne]

private theorem moves_sendStore {capacity : Nat} {s : State T} (hs : Shape capacity s) (a handle : Nat)
    (aw : SendAwaiter T) (hp : sendPhase s a = some .retry) : Moves s { s with
      senders := s.senders ++ [⟨handle, a⟩]
      sendAw := Function.update s.sendAw a (some { aw with phase := .pending })
      sendArrivals := s.sendArrivals ++ [a] } := by
  refine .offer aw.value rfl ?_ ?_
  · have hsame : s.senders.filterMap (fun p => (Function.update s.sendAw a
        (some { aw with phase := .pending }) p.aw).map SendAwaiter.value) = blocked s := by
      apply List.filterMap_congr
      intro p hm
      have hne : p.aw ≠ a := fun he => hs.sends.fresh_stored (.inr hp) (he ▸ List.mem_map_of_mem hm)
      simp [hne]
    simp [blocked, List.filterMap_append, hsame]
  · have hsame : s.sendArrivals.filterMap (carried { s with
        senders := s.senders ++ [⟨handle, a⟩]
        sendAw := Function.update s.sendAw a (some { aw with phase := .pending })
        sendArrivals := s.sendArrivals ++ [a] }) = sent s := by
      apply List.filterMap_congr
      intro b hb
      have hne : b ≠ a := fun he => hs.sends.fresh (.inr hp) (he ▸ hb)
      simp [carried, hne]
    rw [sent, List.filterMap_append, hsame]
    simp [carried, SendAwaiter.refused]

/-- A receive answered at once takes the oldest value, or learns that none will come. -/
private theorem moves_tryRecv {capacity : Nat} {s t : State T} (hs : Shape capacity s)
    {a : Nat} (ha : recvPhase s a = none ∨ recvPhase s a = some .retry) {r : Option T}
    (h : tryRecvLocked s = some (r, t)) : Moves s (recvDone a (r, t)) := by
  obtain ⟨ht, hn⟩ := hs.tryRecv h
  rcases tryRecvLocked_cases h with
    ⟨v, rest, p, ps, hb, hq, rfl, rfl⟩ | ⟨v, rest, hb, hq, rfl, rfl⟩ | ⟨hb, hc, rfl, rfl⟩
  · obtain ⟨aw, haw, _⟩ := hs.sendAw_stored (p := p) (by simp [hq])
    refine .take v (handed_done ht ha (some v)) ?_ ?_
    · have hw := blocked_wake p ps true s
      change s.buffer ++ blocked s = v :: ((rest ++ ((s.sendAw p.aw).map SendAwaiter.value).toList) ++
        blocked (wakeSender p ps true s))
      rw [hw, hb, blocked, hq, haw]
      simp [haw]
    · exact congrArg (s.sendArrivals.filterMap ·) (carried_accept hs hq)
  · refine .take v (handed_done ht ha (some v)) ?_ rfl
    rw [hb]
    rfl
  · exact .stay (by simpa using handed_done hs ha none) rfl rfl

private theorem moves_recvRetry {capacity : Nat} {s : State T} (hs : Shape capacity s) (a : Nat)
    (hp : recvPhase s a = none) :
    Moves s { s with recvAw := Function.update s.recvAw a (some ⟨none, .retry⟩) } := by
  refine .stay (List.filterMap_congr fun b hb => ?_) rfl rfl
  have hne : b ≠ a := fun he => hs.recvs.fresh (.inl hp) (he ▸ hb)
  simp [received, hne]

private theorem moves_recvStore {capacity : Nat} {s : State T} (hs : Shape capacity s) (a handle : Nat)
    {aw : RecvAwaiter T} (ha : s.recvAw a = some aw) (hr : aw.phase = .retry) : Moves s { s with
      receivers := s.receivers ++ [⟨handle, a⟩]
      recvAw := Function.update s.recvAw a (some { aw with phase := .pending })
      recvArrivals := s.recvArrivals ++ [a] } := by
  have hp : recvPhase s a = some .retry := by simp [recvPhase, ha, hr]
  refine .stay ?_ rfl rfl
  have hsame : s.recvArrivals.filterMap (received { s with
      receivers := s.receivers ++ [⟨handle, a⟩]
      recvAw := Function.update s.recvAw a (some { aw with phase := .pending })
      recvArrivals := s.recvArrivals ++ [a] }) = handed s := by
    apply List.filterMap_congr
    intro b hb
    have hne : b ≠ a := fun he => hs.recvs.fresh (.inr hp) (he ▸ hb)
    simp [received, hne]
  rw [handed, List.filterMap_append, hsame]
  simp [received, hs.unreceived a aw ha (by simp [hr])]

private theorem closeSenders_balanced {capacity : Nat} {s : State T} (hs : Shape capacity s)
    (ps : List Pending) (hp : s.senders = ps) (hb : Balanced s) :
    Balanced (closeSenders ps s) ∧ handed (closeSenders ps s) = handed s ∧
      (closeSenders ps s).buffer = s.buffer := by
  induction ps generalizing s with
  | nil => exact ⟨hb, rfl, rfl⟩
  | cons p ps ih => exact ih (hs.wakeSender hp false) rfl (balanced_refuse hs hp hb)

private theorem closeReceivers_balanced {capacity : Nat} {s : State T} (hs : Shape capacity s)
    (ps : List Pending) (hp : s.receivers = ps) (hb : Balanced s) :
    Balanced (closeReceivers ps s) ∧ handed (closeReceivers ps s) = handed s ∧
      (closeReceivers ps s).buffer = s.buffer := by
  induction ps generalizing s with
  | nil => exact ⟨hb, rfl, rfl⟩
  | cons p ps ih =>
    have hw : handed (wakeReceiver p ps none s) = handed s := by simpa using handed_wake hs hp none
    have hb' : Balanced (wakeReceiver p ps none s) := by
      rw [Balanced, hw]
      exact hb
    obtain ⟨h1, h2, h3⟩ := ih (hs.wakeReceiver hp none) rfl hb'
    exact ⟨h1, h2.trans hw, h3⟩

private theorem moves_close {capacity : Nat} {s : State T} (hs : Shape capacity s) : Moves s (close s) := by
  obtain ⟨h1, hn1⟩ := hs.closeSenders s.senders rfl
  obtain ⟨_, _, he⟩ := h1.closeReceivers s.receivers (closeSenders_receivers _ _)
  intro hb
  obtain ⟨hb1, hh1, hu1⟩ := closeSenders_balanced hs s.senders rfl hb
  obtain ⟨hb2, hh2, hu2⟩ := closeReceivers_balanced h1 s.receivers (closeSenders_receivers _ _) hb1
  rw [close_eq]
  refine Moves.cut (hh2.trans hh1) (hu2.trans hu1) ?_ (fun _ => hb2) hb
  rw [blocked, show ({ closeReceivers s.receivers (closeSenders s.senders s) with
    closed := true } : State T).senders = [] from he.trans hn1]
  rfl

/-- Every critical section of the channel is a move of the ledger it stands for. -/
theorem step_moves {capacity : Nat} (hcap : 0 < capacity) {l : Label T} {s t : State T}
    (hs : Shape capacity s) (h : step capacity l s = some t) : Moves s t := by
  replace h := step_cases h
  cases h with
  | send a v r ha h => exact moves_trySend hcap hs (.inl (by simp [sendPhase, ha])) ⟨v, false, .retry⟩ rfl h
  | sendRetry a v ha h => exact moves_sendRetry hs a v (by simp [sendPhase, ha])
  | sendAgain a handle aw r ha hp h =>
    exact moves_trySend hcap hs (.inr (by simp [sendPhase, ha, hp])) aw (hs.unsent a aw ha (by simp [hp])) h
  | sendStore a handle aw ha hp h => exact moves_sendStore hs a handle aw (by simp [sendPhase, ha, hp])
  | recv a r ha h => exact moves_tryRecv hs (.inl (by simp [recvPhase, ha])) h
  | recvRetry a ha h => exact moves_recvRetry hs a (by simp [recvPhase, ha])
  | recvAgain a handle aw r ha hp h => exact moves_tryRecv hs (.inr (by simp [recvPhase, ha, hp])) h
  | recvStore a handle aw ha hp h => exact moves_recvStore hs a handle ha hp
  | close => exact moves_close hs

private theorem reachable_balanced {capacity : Nat} (hcap : 0 < capacity) {s : State T}
    (h : Reachable (step capacity) init s) : Shape capacity s ∧ Balanced s := by
  refine h.invariant (fun s => Shape capacity s ∧ Balanced s) ⟨shape_init capacity, rfl⟩ ?_
  rintro l s t - ⟨hs, hb⟩ ht
  obtain ⟨hb', _⟩ := step_moves hcap hs ht hb
  exact ⟨shape_step hcap hs ht, hb'⟩

/-- In every reachable state the values handed over, buffered and blocked are,
in this order, the values of the sends not answered false, and the buffer is
within its capacity: nothing is lost, duplicated or reordered on any path. -/
theorem channel_exactly_once_fifo (capacity : Nat) (hcap : 1 ≤ capacity) (s : State T)
    (h : Reachable (step capacity) init s) :
    handed s ++ s.buffer ++ blocked s = sent s ∧ s.buffer.length ≤ capacity := by
  obtain ⟨hs, hb⟩ := reachable_balanced hcap h
  exact ⟨(List.append_assoc _ _ _).trans hb, hs.bound⟩

/-- A schedule with a direct hand-off, a buffered send, a blocked sender that
refills the buffer, and a close that refuses another blocked sender. -/
def mixedSchedule : List (Label Nat) :=
  [.recvReady 0, .recvSuspend 0 10, .sendReady 0 7, .sendReady 1 8, .sendReady 2 9, .sendSuspend 2 20,
    .recvReady 1, .sendReady 3 5, .sendSuspend 3 30, .close]

theorem channel_exactly_once_fifo_mixed : ∃ s : State Nat,
    exec (step 1) mixedSchedule init = some s ∧ handed s = [7, 8] ∧ s.buffer = [9] ∧
    s.submitted = [10, 20, 30] ∧
    handed s ++ s.buffer ++ blocked s = sent s ∧ s.buffer.length ≤ 1 :=
  ⟨_, rfl, by decide, by decide, by decide,
    channel_exactly_once_fifo 1 (by decide) _ (Reachable.of_exec mixedSchedule rfl)⟩

end TinyCoro.Comp.ChannelFifo
