import TinyCoro.Comp.ChannelClose

/-! What one step of the channel does to each awaiter: an answered one stays, and only a
closed channel or its closing answers false. -/
namespace TinyCoro.Comp.ChannelMoves
open Transition Channel ChannelShape ChannelBook ChannelClose
variable {T : Type} {s t : State T} {l : Label T} {a : Nat}

inductive SendMove (s : State T) (l : Label T) (a : Nat) : Option (SendAwaiter T) → Option (SendAwaiter T) → Prop
  | stay (x : Option (SendAwaiter T)) : SendMove s l a x x
  | begin (aw : SendAwaiter T) (hl : l = .sendReady a aw.value)
    (hr : aw.phase = .answered → aw.result = false → s.closed = true) : SendMove s l a none (some aw)
  | go (aw aw' : SendAwaiter T) (hp : aw.phase ≠ .answered) (hv : aw'.value = aw.value)
    (hr : aw'.phase = .answered → aw'.result = false → s.closed = true ∨ l = .close) :
    SendMove s l a (some aw) (some aw')

inductive RecvMove (l : Label T) (a : Nat) : Option (RecvAwaiter T) → Option (RecvAwaiter T) → Prop
  | stay (x : Option (RecvAwaiter T)) : RecvMove l a x x
  | begin (aw : RecvAwaiter T) (hl : l = .recvReady a) : RecvMove l a none (some aw)
  | go (aw aw' : RecvAwaiter T) (hp : aw.phase ≠ .answered) : RecvMove l a (some aw) (some aw')

private theorem sendMove_update {x : SendAwaiter T} (h : SendMove s l a (s.sendAw a) (some x)) (b : Nat) :
    SendMove s l b (s.sendAw b) (Function.update s.sendAw a (some x) b) := by
  by_cases hb : b = a
  · subst hb
    rwa [Function.update_self]
  · rw [Function.update_of_ne hb]
    exact .stay _

private theorem recvMove_update {x : RecvAwaiter T} (h : RecvMove l a (s.recvAw a) (some x)) (b : Nat) :
    RecvMove l b (s.recvAw b) (Function.update s.recvAw a (some x) b) := by
  by_cases hb : b = a
  · subst hb
    rwa [Function.update_self]
  · rw [Function.update_of_ne hb]
    exact .stay _

/-- A stored sender whose value is taken into the buffer. -/
private theorem wakeSender_moves (hs : Core s) {p : Pending} {ps : List Pending} (hq : s.senders = p :: ps) (b : Nat) :
    SendMove s l b (s.sendAw b) ((wakeSender p ps true s).sendAw b) := by
  obtain ⟨aw, haw, hp⟩ := hs.sendAw_stored hq
  simp only [wakeSender, haw, Option.map_some]
  exact sendMove_update (by rw [haw]; exact .go _ _ (by simp [hp]) rfl (by simp)) b

private theorem wakeReceiver_moves (hs : Core s) {p : Pending} {ps : List Pending} (hq : s.receivers = p :: ps)
    (v : T) (b : Nat) : RecvMove l b (s.recvAw b) ((wakeReceiver p ps (some v) s).recvAw b) := by
  obtain ⟨aw, haw, hp⟩ := hs.recvAw_stored hq
  simp only [wakeReceiver, haw, Option.map_some]
  exact recvMove_update (by rw [haw]; exact .go _ _ (by simp [hp])) b

/-- A send that is answered at once. -/
private theorem trySend_moves {capacity : Nat} (hs : Core s) (aw : SendAwaiter T) {r : Bool} {u : State T}
    (h : trySendLocked capacity aw.value aw.result s = some (r, u))
    (ha : (r = false → s.closed = true) → SendMove s l a (s.sendAw a) (some { aw with result := r, phase := .answered })) :
    (∀ b, SendMove s l b (s.sendAw b) ((sendDone a aw (r, u)).sendAw b)) ∧
    ∀ b, RecvMove l b (s.recvAw b) ((sendDone a aw (r, u)).recvAw b) := by
  rcases trySendLocked_cases h with ⟨hc, hr, rfl⟩ | ⟨-, rfl, p, rest, hp, rfl⟩ | ⟨-, rfl, hp, -, rfl⟩
  · exact ⟨sendMove_update (ha fun _ => hc), fun _ => .stay _⟩
  · exact ⟨sendMove_update (ha nofun), wakeReceiver_moves hs hp aw.value⟩
  · exact ⟨sendMove_update (ha nofun), fun _ => .stay _⟩

/-- A receive that is answered at once. -/
private theorem tryRecv_moves (hs : Core s) {r : Option T} {u : State T} (h : tryRecvLocked s = some (r, u))
    (ha : RecvMove l a (s.recvAw a) (some ⟨r, .answered⟩)) :
    (∀ b, SendMove s l b (s.sendAw b) ((recvDone a (r, u)).sendAw b)) ∧
    ∀ b, RecvMove l b (s.recvAw b) ((recvDone a (r, u)).recvAw b) := by
  rcases tryRecvLocked_cases h with ⟨v, rest, p, ps, -, hq, rfl, rfl⟩ | ⟨v, rest, -, -, rfl, rfl⟩ | ⟨-, -, rfl, rfl⟩
  · exact ⟨wakeSender_moves hs hq, recvMove_update ha⟩
  · exact ⟨fun _ => .stay _, recvMove_update ha⟩
  · exact ⟨fun _ => .stay _, recvMove_update ha⟩

private theorem close_moves (hs : Core s) :
    (∀ b, SendMove s .close b (s.sendAw b) ((close s).sendAw b)) ∧
    ∀ b, RecvMove .close b (s.recvAw b) ((close s).recvAw b) := by
  rw [close_spec]
  refine ⟨fun b => ?_, fun b => ?_⟩
  · by_cases hb : b ∈ s.senders.map Pending.aw
    · obtain ⟨aw, haw, hp⟩ := Option.map_eq_some_iff.mp ((hs.sends.waiting b).mp hb)
      simp only [if_pos hb, haw]
      exact .go _ _ (by simp [hp]) rfl fun _ _ => .inr rfl
    · simp only [if_neg hb]
      exact .stay _
  · by_cases hb : b ∈ s.receivers.map Pending.aw
    · obtain ⟨aw, haw, hp⟩ := Option.map_eq_some_iff.mp ((hs.recvs.waiting b).mp hb)
      simp only [if_pos hb, haw]
      exact .go _ _ (by simp [hp])
    · simp only [if_neg hb]
      exact .stay _

theorem step_moves {capacity : Nat} (hs : Core s) (h : step capacity l s = some t) :
    (∀ b, SendMove s l b (s.sendAw b) (t.sendAw b)) ∧ ∀ b, RecvMove l b (s.recvAw b) (t.recvAw b) := by
  replace h := step_cases h
  cases h with
  | send a v r ha h =>
    refine trySend_moves hs ⟨v, false, .retry⟩ h fun hr => ?_
    rw [ha]
    exact .begin _ rfl fun _ => hr
  | sendRetry a v ha h => exact ⟨sendMove_update (by rw [ha]; exact .begin _ rfl nofun), fun _ => .stay _⟩
  | sendAgain a handle aw r ha hp h =>
    refine trySend_moves hs aw h fun hr => ?_
    rw [ha]
    exact .go _ _ (by simp [hp]) rfl fun _ h => .inl (hr h)
  | sendStore a handle aw ha hp h =>
    exact ⟨sendMove_update (by rw [ha]; exact .go _ _ (by simp [hp]) rfl nofun), fun _ => .stay _⟩
  | recv a r ha h => exact tryRecv_moves hs h (by rw [ha]; exact .begin _ rfl)
  | recvRetry a ha h => exact ⟨fun _ => .stay _, recvMove_update (by rw [ha]; exact .begin _ rfl)⟩
  | recvAgain a handle aw r ha hp h => exact tryRecv_moves hs h (by rw [ha]; exact .go _ _ (by simp [hp]))
  | recvStore a handle aw ha hp h =>
    exact ⟨fun _ => .stay _, recvMove_update (by rw [ha]; exact .go _ _ (by simp [hp]))⟩
  | close => exact close_moves hs

inductive Handing (s : State T) (l : Label T) (t : State T) : Prop
  | none (hr : received t = received s) (hh : handed t = handed s)
  | one (a : Nat) (v : T) (ha : received s a = .none) (hr : received t = Function.update (received s) a (some v))
    (hh : (handed t).Perm (handed s ++ [v]))
    (hl : l = .recvReady a ∨ ∃ aw, s.recvAw a = some aw ∧ aw.phase ≠ .answered)

private theorem received_none (hs : Core s) (ha : recvPhase s a = none ∨ recvPhase s a = some .retry) :
    received s a = none := by
  cases haw : s.recvAw a with
  | none => simp [received, haw]
  | some aw =>
    have hp : aw.phase = .retry := by simpa [recvPhase, haw] using ha
    simp [received, haw, hs.unreceived a aw haw (by simp [hp])]

private theorem trySend_handing {capacity : Nat} (hs : Core s) (aw : SendAwaiter T) {r : Bool} {u : State T}
    (h : trySendLocked capacity aw.value aw.result s = some (r, u)) : Handing s l (sendDone a aw (r, u)) := by
  rcases trySendLocked_cases h with ⟨hc, hr, rfl⟩ | ⟨-, rfl, p, rest, hq, rfl⟩ | ⟨-, rfl, hp, -, rfl⟩
  · exact .none rfl rfl
  · obtain ⟨w, hw, hp⟩ := hs.recvAw_stored hq
    have hnone : received s p.aw = none := by
      simp [received, hw, hs.unreceived p.aw w hw (by simp [hp])]
    refine .one p.aw aw.value hnone ?_ (handed_wakeReceiver hs hq aw.value) (.inr ⟨w, hw, by simp [hp]⟩)
    have hg := received_update (a := p.aw) s { w with result := some aw.value, phase := .answered }
    rw [← hg, sendDone, wakeReceiver, hw]
    rfl
  · exact .none rfl rfl

/-- What a receive finds at its end is what it is handed. -/
private theorem tryRecv_handing (hs : Core s) (ha : recvPhase s a = none ∨ recvPhase s a = some .retry)
    (hl : l = .recvReady a ∨ ∃ aw, s.recvAw a = some aw ∧ aw.phase ≠ .answered) {r : Option T} {u : State T}
    (h : tryRecvLocked s = some (r, u)) : Handing s l (recvDone a (r, u)) := by
  obtain ⟨haw, harr⟩ : u.recvAw = s.recvAw ∧ u.recvArrivals = s.recvArrivals := by
    rcases tryRecvLocked_cases h with ⟨v, rest, p, ps, -, -, -, rfl⟩ | ⟨v, rest, -, -, -, rfl⟩ | ⟨-, -, -, rfl⟩
    · exact ⟨rfl, rfl⟩
    · exact ⟨rfl, rfl⟩
    · exact ⟨rfl, rfl⟩
  have hrec : received (recvDone a (r, u)) = Function.update (received s) a r := by
    rw [← received_update s ⟨r, .answered⟩, ← haw]
    rfl
  have hhand : handed (recvDone a (r, u)) = handed s ++ r.toList := by
    rw [← handed_recvDone hs ha r]
    change (u.recvArrivals ++ [a]).filterMap (received (recvDone a (r, u))) = _
    rw [harr, hrec, ← received_update s ⟨r, .answered⟩]
    rfl
  cases r with
  | none =>
    refine .none (hrec.trans ?_) (hhand.trans (List.append_nil _))
    exact Function.update_eq_self_iff.mpr (received_none hs ha).symm
  | some v => exact .one a v (received_none hs ha) hrec (.of_eq hhand) hl

/-- A receive that begins or is stored has been handed nothing. -/
private theorem handing_wait (hs : Core s) (ha : recvPhase s a = none ∨ recvPhase s a = some .retry) (p : Phase)
    {arrivals : List Nat} (hn : arrivals = s.recvArrivals ∨ arrivals = s.recvArrivals ++ [a])
    {receivers : List Pending} : Handing s l { s with
      recvAw := Function.update s.recvAw a (some ⟨none, p⟩), recvArrivals := arrivals, receivers := receivers } := by
  have hnone := received_none hs ha
  have hrec : received { s with recvAw := Function.update s.recvAw a (some ⟨none, p⟩) } = received s := by
    rw [received_update]
    exact Function.update_eq_self_iff.mpr hnone.symm
  refine .none hrec ?_
  change arrivals.filterMap (received { s with recvAw := Function.update s.recvAw a _ }) = _
  rw [hrec]
  rcases hn with rfl | rfl
  · rfl
  · rw [List.filterMap_append]
    simp [hnone, handed]

private theorem close_handing (hs : Core s) : Handing s l (close s) := by
  have hrec := received_close hs
  refine .none hrec ?_
  rw [handed, hrec, close_spec]
  rfl

theorem step_handing {capacity : Nat} (hs : Core s) (h : step capacity l s = some t) : Handing s l t := by
  replace h := step_cases h
  cases h with
  | send a v r ha h => exact trySend_handing hs ⟨v, false, .retry⟩ h
  | sendRetry a v ha h => exact .none rfl rfl
  | sendAgain a handle aw r ha hp h => exact trySend_handing hs aw h
  | sendStore a handle aw ha hp h => exact .none rfl rfl
  | recv a r ha h => exact tryRecv_handing hs (.inl (by simp [recvPhase, ha])) (.inl rfl) h
  | recvRetry a ha h => exact handing_wait hs (.inl (by simp [recvPhase, ha])) .retry (.inl rfl)
  | recvAgain a handle aw r ha hp h =>
    exact tryRecv_handing hs (.inr (by simp [recvPhase, ha, hp])) (.inr ⟨aw, ha, by simp [hp]⟩) h
  | recvStore a handle aw ha hp h =>
    have hnone := hs.unreceived a aw ha (by simp [hp])
    simp only [hnone]
    exact handing_wait hs (.inr (by simp [recvPhase, ha, hp])) .pending (.inr rfl)
  | close => exact close_handing hs

private theorem trySend_closed {capacity : Nat} {v : T} {r0 : Bool} {r : Bool × State T}
    (h : trySendLocked capacity v r0 s = some r) : r.2.closed = s.closed := by
  rcases trySendLocked_cases h with ⟨-, -, h⟩ | ⟨-, -, p, rest, -, h⟩ | ⟨-, -, -, -, h⟩
  · rw [h]
  · rw [h]
    rfl
  · rw [h]

private theorem tryRecv_closed {r : Option T × State T} (h : tryRecvLocked s = some r) : r.2.closed = s.closed := by
  rcases tryRecvLocked_cases h with ⟨v, rest, p, ps, -, -, -, h⟩ | ⟨v, rest, -, -, -, h⟩ | ⟨-, -, -, h⟩
  · rw [h]
    rfl
  · rw [h]
  · rw [h]

/-- Nothing but `close` closes the channel. -/
theorem step_closed {capacity : Nat} (h : step capacity l s = some t) (hc : t.closed = true) :
    s.closed = true ∨ l = .close := by
  replace h := step_cases h
  cases h with
  | send a v r ha h | sendAgain a handle aw r ha hp h => exact .inl ((trySend_closed h).symm.trans hc)
  | recv a r ha h | recvAgain a handle aw r ha hp h => exact .inl ((tryRecv_closed h).symm.trans hc)
  | sendRetry | sendStore | recvRetry | recvStore => exact .inl hc
  | close => exact .inr rfl

/-- Nothing comes into a closed channel. -/
theorem drained_step {capacity : Nat} (hs : Core s) (hc : s.closed = true ∧ s.buffer = [])
    (h : step capacity l s = some t) : t.closed = true ∧ t.buffer = [] := by
  rcases closed_cases hs hc.1 h with ⟨a, aw, -, -, -, rfl⟩ | ⟨a, -, -, -, rfl⟩ | ⟨-, -, rfl⟩
  · exact hc
  · exact ⟨hc.1, congrArg List.tail hc.2⟩
  · exact hc

end TinyCoro.Comp.ChannelMoves
