import Mathlib.Algebra.Order.BigOperators.Group.Finset
import Mathlib.Data.Fintype.Card
import TinyCoro.Client.FanIn
import TinyCoro.Comp.ChannelMoves
import TinyCoro.Transition.Parties

/-! Everything that is sent arrives: no send is refused, since the channel is closed only
when all of them are over, and what the consumers have merged in the end is what has
been sent. -/
namespace TinyCoro.Client.FanInDelivery
open Transition TinyCoro.Comp HandlePlaces PcMoves MutexOwner Critical ChannelMoves FanIn
open WaitGroup (waitGroup)
variable {P K : Nat}

def sent (N : Nat) : Producer → Nat
  | .loop i | .sending i => i
  | .done | .finished => N

def past : Producer → Bool
  | .done | .finished => true
  | _ => false

/-- The consumer has been told that nothing more comes. -/
def stopped : Consumer → Bool
  | .loop _ | .receiving _ => false
  | _ => true

def critical : Consumer → Bool
  | .locked _ | .inserting _ _ | .unlock => true
  | _ => false

def released : Closer → Bool
  | .released | .finished => true
  | _ => false

def held (received : Nat → Option Item) (k : Fin K) : Consumer → Multiset Item
  | .loop vec | .merge vec | .locked vec | .inserting vec _ => vec
  | .receiving vec => vec + (received (recvId k vec.length)).toList
  | .unlock | .finished => 0

/-- Every send is by a producer, whose present one is the only one that can be under way,
and has been accepted when it is over. -/
structure Sends (N : Nat) (ch : Channel.State Item) (prod : Fin P → Producer) : Prop where
  named : ∀ a aw, ch.sendAw a = some aw → aw.value = .ofNat 32 a ∧ a < P * N
  granted : ∀ a aw, ch.sendAw a = some aw → aw.phase = .answered → aw.result = true
  current : ∀ a aw, ch.sendAw a = some aw → aw.phase ≠ .answered → ∃ p i, prod p = .sending i ∧ a = sendName N p i
  answered : ∀ p i, i < sent N (prod p) → ∃ aw, ch.sendAw (sendName N p i) = some aw ∧ aw.phase = .answered

structure Recvs (ch : Channel.State Item) (cons : Fin K → Consumer) (vec : List Item) : Prop where
  current : ∀ a aw, ch.recvAw a = some aw → aw.phase ≠ .answered →
    ∃ k vec, cons k = .receiving vec ∧ a = recvId k vec.length
  drained : ∀ k, stopped (cons k) = true → ch.closed = true ∧ ch.buffer = []
  balance : (Channel.handed ch : Multiset Item) = vec + ∑ k, held (Channel.received ch) k (cons k)

structure Waits (s : State P K) : Prop where
  counts : CountDown.Inv (BitVec.ofNat 32 P) s.wg
  calls : s.wg.calls.length = ∑ p, (past (s.prod p)).toNat
  zero : released s.closer = true ∨ s.ch.closed = true → s.wg.gate = 0

structure Merges (mtx : CondVar.State (Fin K) Unit Empty (List Item)) (cons : Fin K → Consumer) : Prop where
  places : HandlePlaces.Inv mtx
  own : ∀ k, critical (cons k) = true → holding (mtx.pc k) = true → k ∈ mtx.owners ()
  fresh : ∀ k vec old, cons k = .inserting vec old → mtx.pc k = .running ∧ old = mtx.shared ()

structure Inv (N : Nat) (s : State P K) : Prop where
  core : ChannelBook.Core s.ch
  tallied : ChannelBook.Tallied s.ch
  sends : Sends N s.ch s.prod
  recvs : Recvs s.ch s.cons (s.mtx.shared ())
  waits : Waits s
  merges : Merges s.mtx s.cons

variable {N capacity : Nat} {s t : State P K}

theorem inv_init : Inv N (init : State P K) := by
  refine ⟨ChannelBook.core_init, .refl _, ⟨nofun, nofun, nofun, nofun⟩, ⟨nofun, nofun, ?_⟩, ⟨?_, ?_, ?_⟩,
    ⟨HandlePlaces.inv_init _, nofun, nofun⟩⟩
  · simp [init, held, Channel.handed, Channel.init, CondVar.init]
  · have : (WaitGroup.add (BitVec.ofNat 32 P)).fetch 0 = BitVec.ofNat 32 P := BitVec.zero_add _
    rw [init, this]
    exact CountDown.inv_init _
  · simp [init, Gate.init, past]
  · simp [init, released, Channel.init]

section Channel
variable {ch ch' : Channel.State Item} {l : Channel.Label Item} {prod : Fin P → Producer} {cons : Fin K → Consumer}
  {vec : List Item}

/-- A step of the channel. A send can be refused only when no producer is sending. -/
theorem Sends.step (hs : Sends N ch prod) (hcore : ChannelBook.Core ch) (h : Channel.step capacity l ch = some ch')
    (hc : ch.closed = true ∨ l = .close → ∀ p i, prod p ≠ .sending i)
    (hl : ∀ a v, l = .sendReady a v → v = .ofNat 32 a ∧ a < P * N ∧ ∃ p i, prod p = .sending i ∧ a = sendName N p i) :
    Sends N ch' prod := by
  have hmoves := (step_moves hcore h).1
  refine ⟨fun a aw ha => ?_, fun a aw ha hp => ?_, fun a aw ha hp => ?_, fun p i hi => ?_⟩
  · have hm := hmoves a
    rw [ha] at hm
    generalize hold : ch.sendAw a = old at hm
    cases hm with
    | stay => exact hs.named a aw hold
    | begin _ hl' hr =>
      obtain ⟨hv, ha, -⟩ := hl a aw.value hl'
      exact ⟨hv, ha⟩
    | go aw' _ hp hv hr => exact hv ▸ hs.named a aw' hold
  · have hm := hmoves a
    rw [ha] at hm
    generalize hold : ch.sendAw a = old at hm
    cases hm with
    | stay => exact hs.granted a aw hold hp
    | begin _ hl' hr =>
      obtain ⟨-, -, p, i, hpi, -⟩ := hl a aw.value hl'
      by_contra hres
      exact hc (.inl (hr hp (by simpa using hres))) p i hpi
    | go aw' _ hp' hv hr =>
      obtain ⟨p, i, hpi, -⟩ := hs.current a aw' hold hp'
      by_contra hres
      exact hc (hr hp (by simpa using hres)) p i hpi
  · have hm := hmoves a
    rw [ha] at hm
    generalize hold : ch.sendAw a = old at hm
    cases hm with
    | stay => exact hs.current a aw hold hp
    | begin _ hl' hr => exact (hl a aw.value hl').2.2
    | go aw' _ hp' hv hr => exact hs.current a aw' hold hp'
  · obtain ⟨aw, haw, hp⟩ := hs.answered p i hi
    have hm := hmoves (sendName N p i)
    rw [haw] at hm
    generalize ch'.sendAw (sendName N p i) = new at hm ⊢
    cases hm with
    | stay => exact ⟨aw, rfl, hp⟩
    | go _ aw' hp' hv hr => exact absurd hp hp'

theorem recvId_inj {k x : Fin K} {n m : Nat} (h : recvId k n = recvId x m) : k = x := by
  have hmod := congrArg (· % K) h
  simp only [recvId, Nat.mul_add_mod_self_right, Nat.mod_eq_of_lt k.isLt, Nat.mod_eq_of_lt x.isLt] at hmod
  exact Fin.ext hmod

/-- The value goes to the consumer whose present receive the awaiter is. -/
private theorem held_update {r : Nat → Option Item} {k : Fin K} {own : List Item} (v : Item)
    (hk : cons k = .receiving own) (hr : r (recvId k own.length) = none) :
    ∑ x, held (Function.update r (recvId k own.length) (some v)) x (cons x) = ∑ x, held r x (cons x) + {v} := by
  have hmove := sum_move (i := k) (d := 0) (e := {v}) (f := fun x => held r x (cons x))
    (g := fun x => held (Function.update r (recvId k own.length) (some v)) x (cons x)) (fun x hx => ?_) ?_
  · simpa using hmove
  · cases hc : cons x with
    | receiving vec => simp [held, Function.update_of_ne fun he => hx (recvId_inj he)]
    | _ => rfl
  · simp only [hk, held, Function.update_self, hr]
    simp

/-- A step of the channel. Whoever is handed a value is a consumer in its present receive. -/
theorem Recvs.step (hs : Recvs ch cons vec) (hcore : ChannelBook.Core ch) (h : Channel.step capacity l ch = some ch')
    (hl : ∀ a, l = .recvReady a → ∃ k vec, cons k = .receiving vec ∧ a = recvId k vec.length) :
    Recvs ch' cons vec := by
  refine ⟨fun a aw ha hp => ?_, fun k hk => drained_step hcore (hs.drained k hk) h, ?_⟩
  · have hm := (step_moves hcore h).2 a
    rw [ha] at hm
    generalize hold : ch.recvAw a = old at hm
    cases hm with
    | stay => exact hs.current a aw hold hp
    | begin _ hl' => exact hl a hl'
    | go aw' _ hp' => exact hs.current a aw' hold hp'
  · cases step_handing hcore h with
    | none hr hh => rw [hr, hh, hs.balance]
    | one a v ha hr hh hl' =>
      obtain ⟨k, own, hk, rfl⟩ : ∃ k own, cons k = .receiving own ∧ a = recvId k own.length := by
        rcases hl' with hl' | ⟨aw, haw, hp⟩
        · exact hl a hl'
        · exact hs.current a aw haw hp
      rw [hr, held_update v hk ha, ← add_assoc, ← hs.balance]
      exact Multiset.coe_eq_coe.mpr hh

end Channel

/-- A consumer goes on, with what it holds and `para.vec` the same in all. -/
theorem Recvs.move {ch : Channel.State Item} {cons : Fin K → Consumer} {vec new : List Item} (hs : Recvs ch cons vec)
    {k : Fin K} {x : Consumer}
    (hcur : ∀ own, cons k = .receiving own →
      x = .receiving own ∨ ∀ aw, ch.recvAw (recvId k own.length) = some aw → aw.phase = .answered)
    (hstop : stopped x = true → ch.closed = true ∧ ch.buffer = [])
    (hheld : held (Channel.received ch) k x + new = held (Channel.received ch) k (cons k) + vec) :
    Recvs ch (Function.update cons k x) new := by
  refine ⟨fun a aw ha hp => ?_, ?_, ?_⟩
  · obtain ⟨y, own, hy, rfl⟩ := hs.current a aw ha hp
    by_cases hyk : y = k
    · subst hyk
      rcases hcur own hy with rfl | hans
      · exact ⟨y, own, by rw [Function.update_self], rfl⟩
      · exact absurd (hans aw ha) hp
    · exact ⟨y, own, by rw [Function.update_of_ne hyk, hy], rfl⟩
  · apply (Function.forall_update_iff cons fun _ c => stopped c = true → ch.closed = true ∧ ch.buffer = []).mpr
    exact ⟨hstop, fun y _ => hs.drained y⟩
  · have hmove := sum_move (i := k) (f := fun y => held (Channel.received ch) y (cons y))
      (g := fun y => held (Channel.received ch) y (Function.update cons k x y)) (fun y hy => by
        rw [Function.update_of_ne hy]) (by rw [Function.update_self]; exact hheld)
    rw [hs.balance, add_comm, ← hmove, add_comm]

section Mutex
variable {mtx mtx' : CondVar.State (Fin K) Unit Empty (List Item)} {cons : Fin K → Consumer} {k : Fin K} {x : Consumer}
  {op : CondVar.Op Unit Empty (List Item)}

/-- A step of the body outside the library. -/
theorem Merges.move (hs : Merges mtx cons) (hcrit : critical x = true → critical (cons k) = true)
    (hins : ∀ vec old, x = .inserting vec old → mtx.pc k = .running ∧ old = mtx.shared ()) :
    Merges mtx (Function.update cons k x) := by
  refine ⟨hs.places, ?_, ?_⟩
  · apply (Function.forall_update_iff cons fun y c =>
      critical c = true → holding (mtx.pc y) = true → y ∈ mtx.owners ()).mpr
    exact ⟨fun hx => hs.own k (hcrit hx), fun y _ => hs.own y⟩
  · apply (Function.forall_update_iff cons fun y c =>
      ∀ vec old, c = .inserting vec old → mtx.pc y = .running ∧ old = mtx.shared ()).mpr
    exact ⟨hins, fun y _ => hs.fresh y⟩

/-- A step of the mutex. -/
theorem Merges.step (hs : Merges mtx cons) (h : CondVar.step (k, op) mtx = some mtx') (hw : ∀ f, op ≠ .write () f)
    (hins : ∀ vec old, x ≠ .inserting vec old)
    (hc : critical x = true → holding (mtx'.pc k) = true → k ∈ mtx'.owners ()) :
    Merges mtx' (Function.update cons k x) ∧ mtx'.shared () = mtx.shared () := by
  have hsh : mtx'.shared () = mtx.shared () := (step_shared h ()).resolve_right fun ⟨_, f, hf⟩ => hw f hf
  refine ⟨⟨NotifyPlaces.inv_step hs.places h, ?_, ?_⟩, hsh⟩
  · refine own_step (q := fun y => critical (Function.update cons k x y) = true) hs.places h hs.own (fun y hy => ?_)
      fun hk => hc (by simpa using hk)
    rw [Function.update_of_ne hy]
    exact id
  · apply (Function.forall_update_iff cons fun y c =>
      ∀ vec old, c = .inserting vec old → mtx'.pc y = .running ∧ old = mtx'.shared ()).mpr
    refine ⟨fun vec old hx => absurd hx (hins vec old), fun y hyk vec old hy => ?_⟩
    obtain ⟨hrun, hold⟩ := hs.fresh y vec old hy
    exact ⟨running_kept hs.places h hyk hrun, hold.trans hsh.symm⟩

/-- The owner writes `para.vec`, so nobody else has read it. -/
theorem Merges.write (hs : Merges mtx cons) {vec old : List Item}
    (hk : cons k = .inserting vec old) (hx : ∀ vec old, x ≠ .inserting vec old) (shared : Unit → List Item) :
    Merges { mtx with shared := shared } (Function.update cons k x) := by
  have hin : ∀ y vec old, cons y = .inserting vec old → y ∈ mtx.owners () := by
    intro y vec old hy
    exact hs.own y (by rw [hy]; rfl) (by rw [(hs.fresh y vec old hy).1]; rfl)
  refine ⟨inv_shared hs.places _, ?_, ?_⟩
  · apply (Function.forall_update_iff cons fun y c =>
      critical c = true → holding (mtx.pc y) = true → y ∈ mtx.owners ()).mpr
    exact ⟨fun _ _ => hin k vec old hk, fun y _ => hs.own y⟩
  · apply (Function.forall_update_iff cons fun y c =>
      ∀ vec old, c = .inserting vec old → mtx.pc y = .running ∧ old = shared ()).mpr
    refine ⟨fun vec old h => absurd h (hx vec old), fun y hyk vec' old' hy => ?_⟩
    exact absurd (owner_unique hs.places (hin k vec old hk) (hin y vec' old' hy)) hyk

end Mutex

/-- All the producers have called `wg.done()` when the counter is at 0. -/
theorem Waits.all_past (hP : P < 2 ^ 31) (hs : Waits s) (h : s.wg.gate = 0) (p : Fin P) : past (s.prod p) = true := by
  have hsum : ∑ p, (past (s.prod p)).toNat = ∑ _p : Fin P, 1 := by
    rw [← hs.calls, hs.counts.gate_zero h, BitVec.toNat_ofNat, Nat.mod_eq_of_lt (by omega)]
    simp
  have hone := (Finset.sum_eq_sum_iff_of_le fun p _ => Bool.toNat_le _).mp hsum p (Finset.mem_univ p)
  exact Bool.toNat_eq_one.mp hone

/-- The wait group goes on without a new call. -/
theorem Waits.step (hs : Waits s) {l : Gate.Label Unit (Fin P) WaitGroup.Op}
    {wg : Gate.State Unit (Fin P) (BitVec 32) WaitGroup.Op} (h : Gate.step waitGroup l s.wg = some wg)
    (hl : l.called = none) : Waits { s with wg := wg } := by
  have hok : CountDown.AtMost waitGroup (BitVec.ofNat 32 P) l s.wg := by
    intro o ho
    rw [hl] at ho
    cases ho
  refine ⟨CountDown.inv_step WaitGroup.counter hs.counts hok h, ?_, fun hc => hs.counts.zero_step hok h (hs.zero hc)⟩
  rcases GateOpen.gate_cases hs.counts.plain h with ⟨j, o, rfl, -⟩ | ⟨-, -, hcalls, -⟩
  · cases hl
  · rw [hcalls]
    exact hs.calls

/-- A producer calls `wg.done()`, for the first time. -/
theorem Waits.done (hP : P < 2 ^ 31) (hs : Waits s) {p : Fin P} (hp : past (s.prod p) = false)
    {wg : Gate.State Unit (Fin P) (BitVec 32) WaitGroup.Op} (h : Gate.step waitGroup (.call p .done) s.wg = some wg) :
    Waits { s.setProd p .done with wg := wg } := by
  have hsum : ∑ x, (past (Function.update s.prod p .done x)).toNat = ∑ x, (past (s.prod x)).toNat + 1 := by
    refine sum_move (i := p) (d := 0) (fun x hx => ?_) ?_
    · rw [Function.update_of_ne hx]
    · rw [Function.update_self, hp]
      rfl
  have hle : ∑ x, (past (Function.update s.prod p .done x)).toNat ≤ P := by
    have := Finset.sum_le_sum fun (x : Fin P) (_ : x ∈ Finset.univ) =>
      Bool.toNat_le (past (Function.update s.prod p .done x))
    simpa using this
  have hok : CountDown.AtMost waitGroup (BitVec.ofNat 32 P) (.call p .done) s.wg := by
    rintro o ⟨⟩
    refine ⟨rfl, ?_⟩
    rw [hs.calls, BitVec.toNat_ofNat, Nat.mod_eq_of_lt (by omega)]
    omega
  refine ⟨CountDown.inv_step WaitGroup.counter hs.counts hok h, ?_, fun hc => hs.counts.zero_step hok h (hs.zero hc)⟩
  rcases GateOpen.gate_cases hs.counts.plain h with ⟨j, o, -, -, hcalls, -⟩ | ⟨hl, -⟩
  · rw [hcalls, List.length_append, List.length_singleton, hs.calls]
    exact hsum.symm
  · cases hl

private theorem sending_of_not_past {x : Producer} (h : past x = true) (i : Nat) : x ≠ .sending i := by
  rintro rfl
  cases h

/-- A step of the channel, which is closed only after the last `wg.done()`. -/
private theorem inv_channel (hP : P < 2 ^ 31) (hs : Inv N s) {l : Channel.Label Item}
    (h : s.channel capacity l = some t)
    (hsend : ∀ a v, l = .sendReady a v → v = .ofNat 32 a ∧ a < P * N ∧ ∃ p i, s.prod p = .sending i ∧ a = sendName N p i)
    (hrecv : ∀ a, l = .recvReady a → ∃ k vec, s.cons k = .receiving vec ∧ a = recvId k vec.length)
    (hclose : l = .close → s.wg.gate = 0) : Inv N t := by
  obtain ⟨ch, hch, rfl⟩ := Option.map_eq_some_iff.mp h
  obtain ⟨hcore, htallied⟩ := ChannelBook.book_step hs.core hs.tallied hch
  have hzero : s.ch.closed = true ∨ l = .close → s.wg.gate = 0 := fun hc =>
    hc.elim (fun hc => hs.waits.zero (.inr hc)) hclose
  refine ⟨hcore, htallied, hs.sends.step hs.core hch (fun hc p i => ?_) hsend, hs.recvs.step hs.core hch hrecv,
    ⟨hs.waits.counts, hs.waits.calls, fun hc => ?_⟩, hs.merges⟩
  · exact sending_of_not_past (hs.waits.all_past hP (hzero hc) p) i
  · rcases hc with hc | hc
    · exact hs.waits.zero (.inl hc)
    · exact hzero (step_closed hch hc)

private theorem inv_group (hs : Inv N s) {l : Gate.Label Unit (Fin P) WaitGroup.Op} (h : s.group l = some t)
    (hl : l.called = none) : Inv N t := by
  obtain ⟨wg, hwg, rfl⟩ := Option.map_eq_some_iff.mp h
  exact ⟨hs.core, hs.tallied, hs.sends, hs.recvs, hs.waits.step hwg hl, hs.merges⟩

/-- A producer goes on within its body, before or after the call of `wg.done()`. -/
private theorem inv_setProd (hs : Inv N s) {p : Fin P} {x : Producer}
    (hsends : Sends N s.ch (Function.update s.prod p x)) (hx : past x = past (s.prod p)) :
    Inv N (s.setProd p x) := by
  refine ⟨hs.core, hs.tallied, hsends, hs.recvs, ⟨hs.waits.counts, ?_, hs.waits.zero⟩, hs.merges⟩
  rw [State.setProd_wg, hs.waits.calls]
  apply Finset.sum_congr rfl
  apply (Function.forall_update_iff s.prod fun y c => y ∈ Finset.univ → (past (s.prod y)).toNat = (past c).toNat).mpr
  exact ⟨fun _ => by rw [hx], fun _ _ _ => rfl⟩

private theorem inv_setCons (hs : Inv N s) {k : Fin K} {x : Consumer}
    (hrecvs : Recvs s.ch (Function.update s.cons k x) (s.mtx.shared ()))
    (hmerges : Merges s.mtx (Function.update s.cons k x)) : Inv N (s.setCons k x) :=
  ⟨hs.core, hs.tallied, hs.sends, hrecvs, ⟨hs.waits.counts, hs.waits.calls, hs.waits.zero⟩, hmerges⟩

/-- A producer goes on, and its send, if there is one, is over or goes on too. -/
private theorem Sends.move {ch : Channel.State Item} {prod : Fin P → Producer} (hs : Sends N ch prod) {p : Fin P}
    {x : Producer} (hcur : ∀ i, prod p = .sending i →
      x = .sending i ∨ ∀ aw, ch.sendAw (sendName N p i) = some aw → aw.phase = .answered)
    (hans : ∀ i, i < sent N x → ∃ aw, ch.sendAw (sendName N p i) = some aw ∧ aw.phase = .answered) :
    Sends N ch (Function.update prod p x) := by
  refine ⟨hs.named, hs.granted, fun a aw ha hp => ?_, ?_⟩
  · obtain ⟨y, i, hy, rfl⟩ := hs.current a aw ha hp
    by_cases hyp : y = p
    · subst hyp
      rcases hcur i hy with rfl | hall
      · exact ⟨y, i, by rw [Function.update_self], rfl⟩
      · exact absurd (hall aw ha) hp
    · exact ⟨y, i, by rw [Function.update_of_ne hyp, hy], rfl⟩
  · apply (Function.forall_update_iff prod fun y x =>
      ∀ i, i < sent N x → ∃ aw, ch.sendAw (sendName N y i) = some aw ∧ aw.phase = .answered).mpr
    exact ⟨hans, fun y _ => hs.answered y⟩

private theorem sendName_lt {p : Fin P} {i : Nat} (hi : i < N) : sendName N p i < P * N :=
  calc (p : Nat) * N + i < p * N + N := by omega
    _ = (p + 1) * N := (Nat.succ_mul _ _).symm
    _ ≤ P * N := Nat.mul_le_mul_right N p.isLt

/-- The item of a send goes with the name of its awaiter. -/
private theorem sendId_eq (N : Nat) (p : Fin P) (i : Nat) : sendId N p i = .ofNat 32 (sendName N p i) := by
  rw [sendId, sendName, BitVec.ofNat_add, BitVec.ofNat_mul]

private theorem inv_producer (hP : P < 2 ^ 31) (hs : Inv N s) {p : Fin P} (h : producer N capacity p s = some t) :
    Inv N t := by
  have hans := hs.sends.answered p
  unfold producer at h
  split at h
  case h_1 i hl =>
    rw [hl] at hans
    split at h
    · -- the awaiter is created in the step in which the producer gets to it
      rename_i hi
      have hnext := inv_setProd (x := .sending i) hs
        (hs.sends.move (fun j hj => by rw [hl] at hj; cases hj) hans) (by rw [hl]; rfl)
      refine inv_channel hP hnext h ?_ nofun nofun
      rintro a v ⟨⟩
      exact ⟨sendId_eq N p i, sendName_lt hi, p, i, by simp, rfl⟩
    · rename_i hi
      obtain ⟨wg, hwg, rfl⟩ := Option.map_eq_some_iff.mp h
      refine ⟨hs.core, hs.tallied, hs.sends.move (fun j hj => ?_) fun j (hj : j < N) => ?_, hs.recvs,
        hs.waits.done hP (by rw [hl]; rfl) hwg, hs.merges⟩
      · rw [hl] at hj
        cases hj
      · exact hans j (show j < i by omega)
  case h_2 i hl =>
    split at h <;> cases h
    rename_i haw
    refine inv_setProd hs (hs.sends.move (fun j hj => ?_) fun j (hj : j < i + 1) => ?_) (by rw [hl]; rfl)
    · rw [hl] at hj
      cases hj
      refine .inr fun aw ha => ?_
      cases haw.symm.trans ha
      rfl
    · by_cases hji : j = i
      · subst hji
        exact ⟨_, haw, rfl⟩
      · rw [hl] at hans
        exact hans j (show j < i by omega)
  case h_3 hl =>
    split at h <;> cases h
    rw [hl] at hans
    refine inv_setProd hs (hs.sends.move (fun j hj => ?_) hans) (by rw [hl]; rfl)
    rw [hl] at hj
    cases hj
  case h_4 => cases h

/-- A step of the mutex, called by a consumer or gone on with. -/
private theorem inv_mutex (hs : Inv N s) {k : Fin K} {op : CondVar.Op Unit Empty (List Item)} {x : Consumer}
    (h : (s.setCons k x).mutex k op = some t) (hw : ∀ f, op ≠ .write () f) (hins : ∀ vec old, x ≠ .inserting vec old)
    (hrecv : ∀ own, s.cons k = .receiving own → x = .receiving own)
    (hstop : stopped x = true → stopped (s.cons k) = true)
    (hheld : held (Channel.received s.ch) k x = held (Channel.received s.ch) k (s.cons k))
    (hc : ∀ mtx, CondVar.step (k, op) s.mtx = some mtx → critical x = true → holding (mtx.pc k) = true →
      k ∈ mtx.owners ()) : Inv N t := by
  obtain ⟨mtx, hmtx, rfl⟩ := Option.map_eq_some_iff.mp h
  obtain ⟨hmerges, hsh⟩ := hs.merges.step hmtx hw hins (hc mtx hmtx)
  refine ⟨hs.core, hs.tallied, hs.sends, ?_, ⟨hs.waits.counts, hs.waits.calls, hs.waits.zero⟩, hmerges⟩
  refine hs.recvs.move (fun own hown => .inl (hrecv own hown)) (fun hx => hs.recvs.drained k (hstop hx)) ?_
  change _ + (mtx.shared () : Multiset Item) = _
  rw [hheld, hsh]

/-- A receive begins with an awaiter that is not yet there. -/
private theorem recvReady_fresh {ch ch' : Channel.State Item} {a : Nat}
    (h : Channel.step capacity (.recvReady a) ch = some ch') : Channel.received ch a = none := by
  have hnone : ch.recvAw a = none := by
    cases ChannelShape.step_cases h with
    | recv a r ha => exact ha
    | recvRetry a ha => exact ha
  simp [Channel.received, hnone]

private theorem inv_receive (hP : P < 2 ^ 31) (hs : Inv N s) {k : Fin K} {vec : List Item} (hl : s.cons k = .loop vec)
    (h : (s.setCons k (.receiving vec)).channel capacity (.recvReady (recvId k vec.length)) = some t) : Inv N t := by
  have hnext : Inv N (s.setCons k (.receiving vec)) := by
    obtain ⟨ch, hch, -⟩ := Option.map_eq_some_iff.mp h
    refine inv_setCons hs (hs.recvs.move (fun own hown => ?_) nofun ?_) (hs.merges.move nofun nofun)
    · rw [hl] at hown
      cases hown
    · have hnone := recvReady_fresh hch
      rw [State.setCons_ch] at hnone
      simp [held, hl, hnone]
  refine inv_channel hP hnext h nofun ?_ nofun
  rintro a ⟨⟩
  exact ⟨k, vec, by simp, rfl⟩

/-- A receive is over: the value goes to the consumer's vector, or there is none. -/
private theorem inv_received (hs : Inv N s) {k : Fin K} {vec : List Item} {r : Option Item} {x : Consumer}
    (hl : s.cons k = .receiving vec) (haw : s.ch.recvAw (recvId k vec.length) = some ⟨r, .answered⟩)
    (hcrit : critical x = false) (hheld : ∀ f, held f k x = vec + r.toList) (hstop : stopped x = true → r = none) :
    Inv N (s.setCons k x) := by
  refine inv_setCons hs (hs.recvs.move (fun own hown => .inr fun aw ha => ?_) (fun hx => ?_) ?_)
    (hs.merges.move (fun hx => by rw [hcrit] at hx; cases hx) fun _ _ hx => by rw [hx] at hcrit; cases hcrit)
  · rw [hl] at hown
    cases hown
    cases haw.symm.trans ha
    rfl
  · exact hs.core.nullopt _ _ haw rfl (hstop hx)
  · rw [hheld, hl]
    simp [held, Channel.received, haw]

private theorem inv_consumer (hP : P < 2 ^ 31) (hs : Inv N s) {k : Fin K} (hr : s.mtx.pc k = .running)
    (h : consumer capacity k s = some t) : Inv N t := by
  unfold consumer at h
  split at h
  case h_1 vec hl => exact inv_receive hP hs hl h
  case h_2 vec hl =>
    split at h
    case h_1 data haw =>
      cases h
      refine inv_received hs hl haw rfl (fun _ => ?_) nofun
      rw [held, Option.toList_some, Multiset.coe_add]
    case h_2 haw =>
      cases h
      refine inv_received hs hl haw rfl (fun _ => ?_) fun _ => rfl
      rw [held, Option.toList_none, Multiset.coe_add, List.append_nil]
    case h_3 => cases h
  case h_3 vec hl =>
    refine inv_mutex hs h nofun nofun (by rw [hl]; nofun) (fun _ => by rw [hl]; rfl) (by rw [hl]; rfl) ?_
    exact fun mtx hmtx _ hh => lock_owner hmtx (.inl rfl) hh
  case h_4 vec hl =>
    cases h
    refine inv_setCons hs (hs.recvs.move (by rw [hl]; nofun) (fun _ => ?_) (by rw [hl]; rfl))
      (hs.merges.move (fun _ => by rw [hl]; rfl) ?_)
    · exact hs.recvs.drained k (by rw [hl]; rfl)
    · rintro _ _ ⟨⟩
      exact ⟨hr, rfl⟩
  case h_5 vec old hl =>
    cases h
    obtain ⟨-, hold⟩ := hs.merges.fresh k vec old hl
    refine ⟨hs.core, hs.tallied, hs.sends, hs.recvs.move (by rw [hl]; nofun) (fun _ => ?_) ?_,
      ⟨hs.waits.counts, hs.waits.calls, hs.waits.zero⟩, hs.merges.write (x := .unlock) hl nofun _⟩
    · exact hs.recvs.drained k (by rw [hl]; rfl)
    · rw [hl]
      change 0 + ((old ++ vec : List Item) : Multiset Item) = vec + (s.mtx.shared () : List Item)
      rw [zero_add, ← hold, ← Multiset.coe_add, add_comm]
  case h_6 hl =>
    refine inv_mutex hs h nofun nofun (by rw [hl]; nofun) (fun _ => by rw [hl]; rfl) (by rw [hl]; rfl) ?_
    exact fun _ _ => nofun
  case h_7 => cases h

private theorem inv_setCloser (hs : Inv N s) {c : Closer} (h : released c = true → s.wg.gate = 0) :
    Inv N { s with closer := c } :=
  ⟨hs.core, hs.tallied, hs.sends, hs.recvs, ⟨hs.waits.counts, hs.waits.calls, fun hc =>
    hc.elim h fun hc => hs.waits.zero (.inr hc)⟩, hs.merges⟩

private theorem inv_close (hP : P < 2 ^ 31) (hs : Inv N s) (h : close capacity s = some t) : Inv N t := by
  unfold close at h
  split at h
  case h_1 => exact inv_group (inv_setCloser (c := .waiting) hs nofun) h rfl
  case h_2 =>
    obtain ⟨wg, hwg, -⟩ := Option.map_eq_some_iff.mp h
    exact inv_group (inv_setCloser hs fun _ => hs.waits.counts.resumed hwg) h rfl
  case h_3 hl =>
    have hzero : s.wg.gate = 0 := hs.waits.zero (.inl (by rw [hl]; rfl))
    exact inv_channel hP (inv_setCloser hs fun _ => hzero) h nofun nofun fun _ => hzero
  case h_4 => cases h

private theorem called_of_inner {l : Gate.Label Unit (Fin P) WaitGroup.Op} (h : inner l = true) : l.called = none := by
  cases l with
  | call => cases h
  | _ => rfl

theorem inv_step (hP : P < 2 ^ 31) {l : Label P K} (hs : Inv N s) (h : step N capacity l s = some t) : Inv N t := by
  unfold step at h
  split at h
  case h_1 p => exact inv_producer hP hs h
  case h_2 k =>
    split at h
    · exact inv_consumer hP hs ‹_› h
    · cases h
  case h_3 => exact inv_close hP hs h
  case h_4 p =>
    split at h
    · exact inv_channel hP hs h nofun nofun nofun
    · cases h
  case h_5 k =>
    split at h
    · exact inv_channel hP hs h nofun nofun nofun
    · cases h
  case h_6 l =>
    split at h
    · exact inv_group hs h (called_of_inner ‹_›)
    · cases h
  case h_7 k op =>
    split at h
    · rename_i hi
      obtain ⟨mtx, hmtx, -⟩ := Option.map_eq_some_iff.mp h
      have hself : s.setCons k (s.cons k) = s := by
        rw [State.setCons, Function.update_eq_self]
      rw [← hself] at h
      refine inv_mutex hs h (by rintro f rfl; cases hi) (fun vec old hk => ?_) (fun _ h => h) id rfl
        fun mtx hmtx hc hh => owner_step hs.merges.places hmtx (hs.merges.own k hc) (fun _ => by rintro rfl; cases hi) hh
      exact internal_not_running hi hmtx (hs.merges.fresh k vec old hk).1
    · cases h

/-- The values that a function gives for some numbers, if it follows another one where it
gives any. -/
private theorem filterMap_eq_map {β : Type} {f : Nat → Option β} {g : Nat → β} (h : ∀ a v, f a = some v → v = g a)
    (l : List Nat) : l.filterMap f = (l.filter fun a => (f a).isSome).map g := by
  induction l with
  | nil => rfl
  | cons a l ih =>
    cases hf : f a with
    | none => simp [hf, ih]
    | some v => simp [hf, ih, h a v hf]

/-- All that the producers send has been accepted when they are through. -/
theorem Inv.accepted (hs : Inv N s) (hprod : ∀ p, s.prod p = .finished) :
    (ChannelBook.accepted s.ch).Perm ((List.range (P * N)).map (BitVec.ofNat 32)) := by
  have hgrant : ∀ a v, ChannelBook.granted s.ch a = some v → v = .ofNat 32 a ∧ a < P * N := by
    intro a v hv
    obtain ⟨aw, haw, hv⟩ := Option.bind_eq_some_iff.mp hv
    split at hv <;> cases hv
    exact hs.sends.named a aw haw
  rw [ChannelBook.accepted, filterMap_eq_map fun a v ha => (hgrant a v ha).1]
  refine List.Perm.map _ ((List.perm_ext_iff_of_nodup (hs.core.sends.nodup.filter _) List.nodup_range).mpr fun a => ?_)
  rw [List.mem_range, List.mem_filter]
  constructor
  · rintro ⟨-, ha⟩
    obtain ⟨v, hv⟩ := Option.isSome_iff_exists.mp ha
    exact (hgrant a v hv).2
  · intro ha
    -- the send named `a` is the one of producer `a / N` in iteration `a % N`
    have hN : 0 < N := Nat.pos_of_ne_zero fun h0 => by simp [h0] at ha
    have hp : a / N < P := Nat.div_lt_of_lt_mul (by rwa [Nat.mul_comm] at ha)
    obtain ⟨aw, haw, hans⟩ := hs.sends.answered ⟨a / N, hp⟩ (a % N) (by
      rw [hprod]
      exact Nat.mod_lt a hN)
    have hid : sendName N ⟨a / N, hp⟩ (a % N) = a := Nat.div_add_mod' a N
    rw [hid] at haw
    refine ⟨(hs.core.sends.arrived a).mpr (.inl ?_), ?_⟩
    · simp [ChannelShape.sendPhase, haw, hans]
    · simp [ChannelBook.granted, haw, hans, hs.sends.granted a aw haw hans]

def Finished (s : State P K) : Prop :=
  (∀ p, s.prod p = .finished) ∧ (∀ k, s.cons k = .finished) ∧ s.closer = .finished

def Delivered (N : Nat) (s : State P K) : Prop :=
  ((s.mtx.shared ()).map BitVec.toInt).Perm ((List.range (P * N)).map Int.ofNat)

/-- No send is ever answered false, and as long as every item is an `int`, `para.vec` is a
permutation of `0, ..., P * N - 1` when all the coroutines have finished. The number of
producers is an `int`. -/
theorem fan_in_delivers (N capacity : Nat) (hP : P < 2 ^ 31) (hK : 0 < K) {s : State P K}
    (h : Reachable (step N capacity) init s) :
    (∀ a aw, s.ch.sendAw a = some aw → aw.phase = .answered → aw.result = true) ∧
    (P * N ≤ 2 ^ 31 → Finished s → Delivered N s) := by
  have hs := h.invariant (Inv N) inv_init fun _ _ _ _ => inv_step hP
  refine ⟨hs.sends.granted, fun hPN ⟨hprod, hcons, _⟩ => ?_⟩
  obtain ⟨-, hempty⟩ := hs.recvs.drained ⟨0, hK⟩ (by rw [hcons]; rfl)
  have htallied := hs.tallied
  rw [ChannelBook.Tallied, hempty, List.append_nil] at htallied
  have hbalance := hs.recvs.balance
  rw [Finset.sum_eq_zero fun k _ => by rw [hcons]; rfl, add_zero] at hbalance
  have hperm := (Multiset.coe_eq_coe.mp hbalance).symm.trans (htallied.trans (hs.accepted hprod))
  have hint : (List.range (P * N)).map (BitVec.toInt ∘ BitVec.ofNat 32) = (List.range (P * N)).map Int.ofNat := by
    refine List.map_congr_left fun a ha => ?_
    have hlt := List.mem_range.mp ha
    simp only [Function.comp_apply, BitVec.toInt, BitVec.toNat_ofNat, Int.ofNat_eq_natCast]
    omega
  rw [Delivered, ← hint, ← List.map_map]
  exact hperm.map _

/-- The second send and the last receive have to wait, and so has `close`. -/
def oneEach : List (Label 1 1) :=
  [.close, .group (.awaitSuspend ()), .group (.suspendEnd ()), .producer 0, .producer 0, .producer 0, .sendSuspend 0,
    .consumer 0, .consumer 0, .consumer 0, .consumer 0, .consumer 0, .recvSuspend 0, .producer 0, .producer 0,
    .group (.enter 0), .group (.submit 0), .group (.leave 0), .producer 0, .close, .close, .consumer 0, .consumer 0,
    .consumer 0, .consumer 0, .consumer 0]

theorem fan_in_delivers_oneEach : ∃ s : State 1 1, Reachable (step 2 1) init s ∧ s.prod 0 = .finished ∧
    s.cons 0 = .finished ∧ s.closer = .finished ∧ s.mtx.shared () = [0, 1] ∧
    (∀ a aw, s.ch.sendAw a = some aw → aw.phase = .answered → aw.result = true) ∧ Delivered 2 s := by
  obtain ⟨s, hs⟩ : ∃ s, s ∈ exec (step 2 1) oneEach init := ⟨_, rfl⟩
  have hr := Reachable.of_exec oneEach hs
  obtain ⟨hsend, hperm⟩ := fan_in_delivers 2 1 (by decide) (by decide) hr
  cases hs
  exact ⟨_, hr, by decide, by decide, rfl, by decide, hsend, hperm (by decide) ⟨by decide, by decide, rfl⟩⟩

/-- Nothing is under way in the channel: producer `p` is about to send its `i`-th item, and
the one consumer to receive. -/
structure Flows (N : Nat) (p : Fin P) (i : Nat) (s : State P 1) : Prop where
  prod : s.prod p = .loop i
  cons : ∃ vec, s.cons 0 = .loop vec ∧ ∀ n, vec.length ≤ n → s.ch.recvAw n = none
  running : s.mtx.pc 0 = .running
  buffer : s.ch.buffer = []
  senders : s.ch.senders = []
  receivers : s.ch.receivers = []
  opened : s.ch.closed = false
  unsent : ∀ a, sendName N p i ≤ a → s.ch.sendAw a = none

structure Aside (p : Fin P) (s t : State P K) : Prop where
  others : ∀ x, x ≠ p → t.prod x = s.prod x
  wg : t.wg = s.wg
  mtx : t.mtx = s.mtx
  closer : t.closer = s.closer

/-- One item goes through the channel. -/
theorem flows_next {p : Fin P} {i : Nat} {s : State P 1} (hs : Flows N p i s) (hi : i < N) (hc : 0 < capacity) :
    ∃ t, Reachable (step N capacity) s t ∧ Flows N p (i + 1) t ∧ Aside p s t := by
  obtain ⟨vec, hvec, hrecv⟩ := hs.cons
  obtain ⟨t, ht, hprod, hcons, hb, hsn, hrc, hop, hsend, hrec, hwg, hmtx, hcl⟩ : ∃ t,
      exec (step N capacity) [.producer p, .producer p, .consumer 0, .consumer 0] s = some t ∧
      t.prod = Function.update s.prod p (.loop (i + 1)) ∧ t.cons 0 = .loop (vec ++ [sendId N p i]) ∧
      t.ch.buffer = [] ∧ t.ch.senders = [] ∧ t.ch.receivers = [] ∧ t.ch.closed = false ∧
      t.ch.sendAw = Function.update s.ch.sendAw (sendName N p i) (some ⟨sendId N p i, true, .answered⟩) ∧
      t.ch.recvAw = Function.update s.ch.recvAw vec.length (some ⟨some (sendId N p i), .answered⟩) ∧
      t.wg = s.wg ∧ t.mtx = s.mtx ∧ t.closer = s.closer := by
    have hs0 := hs.unsent _ le_rfl
    have hr0 := hrecv _ le_rfl
    simp [step, producer, consumer, State.channel, State.setProd, State.setCons, Channel.step, Channel.sendAwaitReady,
      Channel.trySendLocked, Channel.sendDone, Channel.recvAwaitReady, Channel.tryRecvLocked, Channel.recvDone,
      recvId, hs.prod, hi, hs0, hs.opened, hs.receivers, hs.senders, hs.buffer, hc, hs.running, hvec, hr0]
  refine ⟨t, Reachable.of_exec _ ht, ⟨?_, ⟨_, hcons, fun n hn => ?_⟩, ?_, hb, hsn, hrc, hop, fun a ha => ?_⟩,
    fun x hx => ?_, hwg, hmtx, hcl⟩
  · rw [hprod, Function.update_self]
  · rw [List.length_append, List.length_singleton] at hn
    rw [hrec, Function.update_of_ne (by omega), hrecv n (by omega)]
  · rw [hmtx, hs.running]
  · have hlt : sendName N p i < a := ha
    rw [hsend, Function.update_of_ne hlt.ne', hs.unsent a hlt.le]
  · rw [hprod, Function.update_of_ne hx]

theorem Aside.refl (p : Fin P) (s : State P K) : Aside p s s := ⟨fun _ _ => rfl, rfl, rfl, rfl⟩

theorem Aside.trans {p : Fin P} {s t u : State P K} (h : Aside p s t) (h' : Aside p t u) : Aside p s u :=
  ⟨fun x hx => (h'.others x hx).trans (h.others x hx), h'.wg.trans h.wg, h'.mtx.trans h.mtx, h'.closer.trans h.closer⟩

/-- All the items of a producer do, one after the other. -/
theorem flows_all {p : Fin P} {s : State P 1} (hs : Flows N p 0 s) (hc : 0 < capacity) (k : Nat) (hk : k ≤ N) :
    ∃ t, Reachable (step N capacity) s t ∧ Flows N p k t ∧ Aside p s t := by
  induction k with
  | zero => exact ⟨s, .start, hs, .refl p s⟩
  | succ k ih =>
    obtain ⟨t, ht, hflow, haside⟩ := ih (by omega)
    obtain ⟨u, hu, hflow', haside'⟩ := flows_next hflow hk hc
    exact ⟨u, ht.trans hu, hflow', haside.trans haside'⟩

theorem flows_init (hP : 0 < P) : Flows N ⟨0, hP⟩ 0 (init : State P 1) :=
  ⟨rfl, ⟨[], rfl, fun _ _ => rfl⟩, rfl, rfl, rfl, rfl, rfl, fun _ _ => rfl⟩

/-- When all the items of a producer are sent, those of the next can be. -/
theorem Flows.turn {p q : Fin P} {s t : State P 1} (hs : Flows N p N s) (hpq : (q : Nat) = p + 1) (hq : t.prod q = .loop 0)
    (hch : t.ch = s.ch) (hcons : t.cons = s.cons) (hmtx : t.mtx = s.mtx) : Flows N q 0 t := by
  have hname : sendName N q 0 = sendName N p N := by
    rw [sendName, sendName, hpq, Nat.succ_mul, Nat.add_zero]
  obtain ⟨vec, hvec, hrecv⟩ := hs.cons
  exact ⟨hq, ⟨vec, by rw [hcons, hvec], by rwa [hch]⟩, by rw [hmtx, hs.running], by rw [hch, hs.buffer],
    by rw [hch, hs.senders], by rw [hch, hs.receivers], by rw [hch, hs.opened], by rw [hch, hname]; exact hs.unsent⟩

/-- The first `done()` of two returns at once, and the second flushes nobody. -/
private theorem two_dones : ∃ g h a b c d : Gate.State Unit (Fin 2) (BitVec 32) WaitGroup.Op,
    Gate.step waitGroup (.call 0 .done) (init : State 2 1).wg = some g ∧ g.call 0 = .returned ∧
    Gate.step waitGroup (.call 1 .done) g = some h ∧ Gate.step waitGroup (.enter 1) h = some a ∧
    Gate.step waitGroup (.leave 1) a = some b ∧ b.call 1 = .returned ∧
    Gate.step waitGroup (.awaitReady ()) b = some c ∧ Gate.step waitGroup (.resume ()) c = some d :=
  ⟨_, _, _, _, _, _, rfl, rfl, rfl, rfl, rfl, rfl, rfl, rfl⟩

/-- The coroutines of two producers and one consumer can all come to their end. -/
theorem two_finish (N capacity : Nat) (hc : 0 < capacity) : ∃ s : State 2 1, Reachable (step N capacity) init s ∧
    Finished s := by
  obtain ⟨g, h, a, b, c, d, hg, hgr, hh, ha, hb, hbr, hcl, hd⟩ := two_dones
  obtain ⟨s, hs, hflow, haside⟩ := flows_all (p := (0 : Fin 2)) (flows_init (N := N) (by decide)) hc N le_rfl
  obtain ⟨t, ht, hpt, hwt, hch, hcons, hmtx, hclose⟩ : ∃ t, exec (step N capacity) [.producer 0, .producer 0] s = some t ∧
      t.prod = Function.update s.prod 0 .finished ∧ t.wg = g ∧ t.ch = s.ch ∧ t.cons = s.cons ∧ t.mtx = s.mtx ∧
      t.closer = s.closer := by
    simp [step, producer, State.group, State.setProd, hflow.prod, haside.wg, hg, hgr]
  have hother : t.prod 1 = .loop 0 := by
    rw [hpt, Function.update_of_ne (by decide), haside.others 1 (by decide)]
    rfl
  obtain ⟨u, hu, hflow', haside'⟩ := flows_all (hflow.turn rfl hother hch hcons hmtx) hc N le_rfl
  obtain ⟨vec, hvec, hrecv⟩ := hflow'.cons
  have hclose' : u.closer = .start := by
    rw [haside'.closer, hclose, haside.closer]
    rfl
  obtain ⟨v, hv, hpv, hcv, hev⟩ : ∃ v, exec (step N capacity)
      [.producer 1, .group (.enter 1), .group (.leave 1), .producer 1, .close, .close, .close, .consumer 0,
      .consumer 0, .consumer 0, .consumer 0, .consumer 0, .consumer 0] u = some v ∧
      v.prod = Function.update u.prod 1 .finished ∧ v.cons 0 = .finished ∧ v.closer = .finished := by
    have hr0 := hrecv _ le_rfl
    have hm : u.mtx = CondVar.init fun _ => [] := by
      rw [haside'.mtx, hmtx, haside.mtx]
      rfl
    simp [step, producer, close, consumer, FanIn.inner, State.group, State.setProd, State.setCons, State.channel,
      State.mutex, hflow'.prod, haside'.wg, hwt, hh, ha, hb, hbr, hcl, hd, hclose', hm, CondVar.init,
      CondVar.step, Channel.step, Channel.close, Channel.closeSenders, Channel.closeReceivers,
      Channel.recvAwaitReady, Channel.tryRecvLocked, Channel.recvDone, recvId, hvec, hr0, hflow'.buffer,
      hflow'.senders, hflow'.receivers, CondVar.tryLockBy, CondVar.unlockBy, Mutex.tryLock, Mutex.unlock, Mutex.init]
  refine ⟨v, (hs.trans (Reachable.of_exec _ ht)).trans (hu.trans (Reachable.of_exec _ hv)),
    Fin.forall_fin_two.mpr ⟨?_, ?_⟩, fun k => ?_, hev⟩
  · rw [hpv, Function.update_of_ne (by decide), haside'.others _ (by decide), hpt, Function.update_self]
  · rw [hpv, Function.update_self]
  · rw [Fin.fin_one_eq_zero k, hcv]

/-- Two producers of 2^30 + 1 items each: the numbers from 2^31 on are no `int`. -/
theorem fan_in_overflow : ¬ ∀ s : State 2 1, Reachable (step 1073741825 1) init s →
    (∀ a aw, s.ch.sendAw a = some aw → aw.phase = .answered → aw.result = true) ∧ (Finished s → Delivered 1073741825 s) := by
  intro h
  obtain ⟨s, hs, hfin⟩ := two_finish 1073741825 1 (by decide)
  have hmem : Int.ofNat 2147483648 ∈ (s.mtx.shared ()).map BitVec.toInt :=
    ((h s hs).2 hfin).mem_iff.mpr (List.mem_map_of_mem (List.mem_range.mpr (by decide)))
  obtain ⟨x, -, hx⟩ := List.mem_map.mp hmem
  have hlt := BitVec.toInt_lt (x := x)
  rw [hx] at hlt
  exact absurd hlt (by decide)

end TinyCoro.Client.FanInDelivery
