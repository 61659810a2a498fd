import Mathlib.Algebra.BigOperators.Fin
import Mathlib.Data.Fintype.Card
import TinyCoro.Client.Critical
import TinyCoro.Transition.Parties

/-! Producers and consumers that share a bounded queue under one mutex and two
condition variables. The operations of the library are steps of `CondVar`; in between,
one test or one iteration of a loop is a step of the program. -/
namespace TinyCoro.Client.ProducerConsumer
open Transition TinyCoro.Comp CondVar HandlePlaces PcMoves MutexOwner Critical

inductive Cv
  | consumer
  | producer
  deriving DecidableEq, Repr

/-- The shared data of `test_paras`. The overflow of the `int` in `para.id++`, which the
language leaves undefined, wraps. -/
structure Para where
  id : BitVec 32
  vec : List (BitVec 32)
  que : List (BitVec 32)
  stopFlag : Int

/-- Where the body of a coroutine stands. `num` is what is left of `num_per_producer`,
`i` and `cnt` are the variable and the bound of a `for` loop. -/
inductive Local
  | start
  | prodTest (num : Nat)
  | prodWaited (num : Nat)
  | prodLoop (num i : Nat) (cnt : Int)
  | prodNotify (num : Nat)
  | consTest
  | consWaited
  | consLoop (i : Nat) (cnt : Int)
  | consNotify
  | leaving
  | finished
  deriving DecidableEq, Repr

/-- A `size_t` stored in an `int`. -/
def toInt (n : Nat) : Int := (BitVec.ofNat 32 n).toInt

/-- `std::min(num_per_producer, capacity - para.que.size())`, computed in `size_t`. -/
def producerCount (num capacity size : Nat) : Int :=
  toInt (min num (BitVec.ofNat 64 capacity - BitVec.ofNat 64 size).toNat)

def producerCond (capacity : Nat) : Cond Para := some fun d => d.que.length < capacity

def consumerCond : Cond Para := some fun d => !d.que.isEmpty || d.stopFlag ≤ 0

abbrev Coro (P : Nat) (K : Type) := Fin P ⊕ K

structure State (P : Nat) (K : Type) where
  base : CondVar.State (Coro P K) Unit Cv Para
  loc : Coro P K → Local

variable {P : Nat} {K : Type}

def init : State P K := ⟨CondVar.init fun _ => ⟨0, [], [], P⟩, fun _ => .start⟩

variable [DecidableEq K]

def State.call (c : Coro P K) (op : Op Unit Cv Para) (next : Local) (s : State P K) : Option (State P K) :=
  (CondVar.step (c, op) s.base).map fun base => ⟨base, Function.update s.loc c next⟩

def State.set (c : Coro P K) (d : Para) (next : Local) (s : State P K) : State P K :=
  ⟨{ s.base with shared := fun _ => d }, Function.update s.loc c next⟩

/-- The bodies of `producer` and `consumer`. Taking from an empty queue has no meaning. -/
def body (N capacity : Nat) (c : Coro P K) (s : State P K) : Option (State P K) :=
  let d := s.base.shared ()
  match s.loc c with
  | .start => match c with
    | .inl _ => s.call c (.guardReady ()) (.prodTest N)
    | .inr _ => s.call c (.guardReady ()) .consTest
  | .prodTest num =>
    if 0 < num then s.call c (.waitReady .producer () (producerCond capacity)) (.prodWaited num)
    else some (s.set c { d with stopFlag := d.stopFlag - 1 } .leaving)
  | .prodWaited num => some (s.set c d (.prodLoop num 0 (producerCount num capacity d.que.length)))
  | .prodLoop num i cnt =>
    if i < cnt then some (s.set c { d with que := d.que ++ [d.id], id := d.id + 1 } (.prodLoop (num - 1) (i + 1) cnt))
    else some (s.set c d (.prodNotify num))
  | .prodNotify num => s.call c (.notifyOne .consumer) (.prodTest num)
  | .consTest =>
    if 0 < d.stopFlag ∨ d.que ≠ [] then s.call c (.waitReady .consumer () consumerCond) .consWaited
    else s.call c (.notifyAll .consumer) .leaving
  | .consWaited => some (s.set c d (.consLoop 0 (toInt d.que.length)))
  | .consLoop i cnt =>
    if i < cnt then match d.que with
      | x :: rest => some (s.set c { d with vec := d.vec ++ [x], que := rest } (.consLoop (i + 1) cnt))
      | [] => none
    else some (s.set c d .consNotify)
  | .consNotify => s.call c (.notifyOne .producer) .consTest
  | .leaving => s.call c (.unlock ()) .finished
  | .finished => none

inductive Label (P : Nat) (K : Type)
  | body (c : Coro P K)
  | lib (c : Coro P K) (op : Op Unit Cv Para)

def step (N capacity : Nat) (l : Label P K) (s : State P K) : Option (State P K) :=
  match l with
  | .body c => match s.base.pc c with
    | .running => body N capacity c s
    | _ => none
  | .lib c op => if internal op then (CondVar.step (c, op) s.base).map fun base => { s with base := base } else none

def owed (N : Nat) : Local → Nat
  | .start => N
  | .prodTest num | .prodWaited num | .prodLoop num _ _ | .prodNotify num => num
  | _ => 0

def critical : Local → Bool
  | .start | .finished => false
  | _ => true

def producing : Local → Bool
  | .prodTest _ | .prodWaited _ | .prodLoop _ _ _ | .prodNotify _ => true
  | _ => false

def inLoop : Local → Bool
  | .prodLoop _ _ _ | .consLoop _ _ => true
  | _ => false

def Fits (capacity : Nat) (d : Para) : Local → Prop
  | .prodLoop num i cnt => i ≤ cnt ∧ cnt - i ≤ num ∧ d.que.length + (cnt - i) ≤ capacity
  | .consLoop i cnt => i ≤ cnt ∧ cnt - i = d.que.length
  | _ => True

/-- All that the producers have still to produce. -/
def owedAll (N : Nat) (loc : Coro P K → Local) : Nat := ∑ p, owed N (loc (.inl p))

/-- The items consumed and then those in the queue are `0, 1, ..., id - 1`, the queue is
within its capacity, and what is still owed and `id` make up the whole. -/
structure Correct (N capacity : Nat) (s : State P K) : Prop where
  order : ((s.base.shared ()).vec ++ (s.base.shared ()).que).map BitVec.toInt =
    (List.range (s.base.shared ()).id.toInt.toNat).map Int.ofNat
  bound : (s.base.shared ()).que.length ≤ capacity
  total : (owedAll N s.loc : Int) + (s.base.shared ()).id.toInt = P * N

structure Sound (capacity n : Nat) (d : Para) : Prop where
  order : d.vec ++ d.que = (List.range n).map (BitVec.ofNat 32)
  count : d.id = BitVec.ofNat 32 n
  bound : d.que.length ≤ capacity

def Booked (N capacity : Nat) (d : Para) (loc : Coro P K → Local) : Prop :=
  ∃ n, Sound capacity n d ∧ owedAll N loc + n = P * N

structure Inv (N capacity : Nat) (s : State P K) : Prop where
  base : HandlePlaces.Inv s.base
  own : ∀ c, critical (s.loc c) = true → holding (s.base.pc c) = true → c ∈ s.base.owners ()
  loops : ∀ c, inLoop (s.loc c) = true → s.base.pc c = .running
  kind : ∀ k, producing (s.loc (.inr k)) = false
  fits : ∀ c, Fits capacity (s.base.shared ()) (s.loc c)
  booked : Booked N capacity (s.base.shared ()) s.loc

variable {N capacity : Nat} {s t : State P K} {c : Coro P K}

theorem toInt_eq {n : Nat} (h : n < 2 ^ 31) : toInt n = n := by
  simp only [toInt, BitVec.toInt, BitVec.toNat_ofNat]
  omega

/-- The subtraction does not wrap, and the minimum fits an `int`. -/
theorem producerCount_eq {num size : Nat} (hs : size ≤ capacity) (hc : capacity < 2 ^ 31) :
    producerCount num capacity size = (min num (capacity - size) : Nat) := by
  have hsub : (BitVec.ofNat 64 capacity - BitVec.ofNat 64 size).toNat = capacity - size := by
    simp only [BitVec.toNat_sub, BitVec.toNat_ofNat]
    omega
  rw [producerCount, hsub]
  exact toInt_eq (by omega)

omit [DecidableEq K] in
theorem inv_init : Inv N capacity (init : State P K) := by
  refine ⟨HandlePlaces.inv_init _, nofun, nofun, fun _ => rfl, fun _ => trivial, 0, ⟨rfl, rfl, Nat.zero_le _⟩, ?_⟩
  simp [init, owedAll, owed]

private theorem owedAll_update {loc : Coro P K → Local} {next : Local}
    (h : ∀ p, c = .inl p → owed N next = owed N (loc c)) :
    owedAll N (Function.update loc c next) = owedAll N loc := by
  apply Finset.sum_congr rfl
  intro p _
  by_cases hp : Sum.inl p = c
  · rw [hp, Function.update_self, h p hp.symm]
  · rw [Function.update_of_ne hp]

/-- A producer has produced an item. -/
private theorem owedAll_produce (loc : Coro P K → Local) (next : Local) (p : Fin P)
    (h : owed N next + 1 = owed N (loc (.inl p))) :
    owedAll N (Function.update loc (.inl p) next) + 1 = owedAll N loc := by
  apply sum_move (i := p) (e := 0)
  · intro x hx
    rw [Function.update_of_ne fun he => hx (Sum.inl.inj he)]
  · rw [Function.update_self]
    exact h

private theorem fits_of_not_inLoop {d : Para} {l : Local} (h : inLoop l = false) : Fits capacity d l := by
  cases l with
  | prodLoop | consLoop => cases h
  | _ => trivial

/-- A step of the library: the shared data stays, and so do the loops of the others. -/
private theorem inv_base (hs : Inv N capacity s) {op : Op Unit Cv Para} {b : CondVar.State (Coro P K) Unit Cv Para}
    (next : Local) (h : CondVar.step (c, op) s.base = some b) (hw : ∀ f, op ≠ .write () f)
    (hl : inLoop next = false) (hk : ∀ k, c = .inr k → producing next = false)
    (ho : ∀ p, c = .inl p → owed N next = owed N (s.loc c))
    (hc : critical next = true → holding (b.pc c) = true → c ∈ b.owners ()) :
    Inv N capacity ⟨b, Function.update s.loc c next⟩ := by
  have hsh : b.shared () = s.base.shared () := (step_shared h ()).resolve_right fun ⟨_, f, hf⟩ => hw f hf
  refine ⟨NotifyPlaces.inv_step hs.base h, ?_, ?_, fun k => ?_, ?_, ?_⟩
  · refine own_step (q := fun x => critical (Function.update s.loc c next x) = true) hs.base h hs.own
      (fun x hx => ?_) fun hcc => hc (by simpa using hcc)
    rw [Function.update_of_ne hx]
    exact id
  · apply (Function.forall_update_iff s.loc fun x l => inLoop l = true → b.pc x = .running).mpr
    refine ⟨fun hx => ?_, fun x hxc hx => running_kept hs.base h hxc (hs.loops x hx)⟩
    rw [hl] at hx
    cases hx
  · by_cases hkc : Sum.inr k = c
    · simpa [hkc] using hk k hkc.symm
    · simpa [hkc] using hs.kind k
  · apply (Function.forall_update_iff s.loc fun _ l => Fits capacity (b.shared ()) l).mpr
    exact ⟨fits_of_not_inLoop hl, fun x _ => hsh ▸ hs.fits x⟩
  · simpa [hsh, Booked, owedAll_update ho] using hs.booked

/-- A step of the body on the shared data. The coroutine is the owner, so nobody else
is inside a loop. -/
private theorem inv_set (hs : Inv N capacity s) {d : Para} {next : Local} (hr : s.base.pc c = .running)
    (hcrit : critical (s.loc c) = true) (hk : ∀ k, c = .inr k → producing next = false) (hf : Fits capacity d next)
    (hd : Booked N capacity d (Function.update s.loc c next)) : Inv N capacity (s.set c d next) := by
  have hown := hs.own c hcrit (by rw [hr]; rfl)
  have hnone : ∀ x, x ≠ c → inLoop (s.loc x) = false := by
    intro x hx
    by_contra hl
    have hxl : inLoop (s.loc x) = true := by simpa using hl
    have hxc : critical (s.loc x) = true := by
      generalize s.loc x = l at hxl
      cases l <;> first | rfl | cases hxl
    have hxo := hs.own x hxc (by rw [hs.loops x hxl]; rfl)
    exact hx (owner_unique hs.base hown hxo)
  refine ⟨inv_shared hs.base _, ?_, ?_, fun k => ?_, ?_, hd⟩
  · apply (Function.forall_update_iff s.loc fun x l =>
      critical l = true → holding (s.base.pc x) = true → x ∈ s.base.owners ()).mpr
    exact ⟨fun _ _ => hown, fun x _ => hs.own x⟩
  · apply (Function.forall_update_iff s.loc fun x l => inLoop l = true → s.base.pc x = .running).mpr
    exact ⟨fun _ => hr, fun x _ => hs.loops x⟩
  · by_cases hkc : Sum.inr k = c
    · simpa [State.set, hkc] using hk k hkc.symm
    · simpa [State.set, hkc] using hs.kind k
  · apply (Function.forall_update_iff s.loc fun _ l => Fits capacity d l).mpr
    exact ⟨hf, fun x hxc => fits_of_not_inLoop (hnone x hxc)⟩

omit [DecidableEq K] in
/-- Only a producer is at a point of a producer. -/
private theorem Inv.not_producing (hs : Inv N capacity s) {next : Local}
    (h : producing next = true → producing (s.loc c) = true) {k : K} (hc : c = .inr k) : producing next = false := by
  by_contra hp
  have := h (by simpa using hp)
  rw [hc, hs.kind k] at this
  cases this

/-- A call other than the first and the last one is made and ended by the owner. -/
private theorem inv_call (hs : Inv N capacity s) {op : Op Unit Cv Para} {next : Local}
    (h : s.call c op next = some t) (hcrit : critical (s.loc c) = true) (hw : ∀ f, op ≠ .write () f)
    (hu : op ≠ .unlock ()) (hl : inLoop next = false) (hk : producing next = true → producing (s.loc c) = true)
    (ho : owed N next = owed N (s.loc c)) : Inv N capacity t := by
  obtain ⟨b, hb, rfl⟩ := Option.map_eq_some_iff.mp h
  exact inv_base hs _ hb hw hl (fun _ => hs.not_producing hk) (fun _ _ => ho) fun _ hx =>
    owner_step hs.base hb (hs.own c hcrit) (fun _ => hu) hx

/-- `lock_guard()`, the first call of both bodies. -/
private theorem inv_start (hs : Inv N capacity s) {next : Local} (h : s.call c (.guardReady ()) next = some t)
    (hl : inLoop next = false) (hk : ∀ k, c = .inr k → producing next = false)
    (ho : ∀ p, c = .inl p → owed N next = owed N (s.loc c)) : Inv N capacity t := by
  obtain ⟨b, hb, rfl⟩ := Option.map_eq_some_iff.mp h
  exact inv_base hs _ hb nofun hl hk ho fun _ hx => lock_owner hb (.inr rfl) hx

/-- A step of the body that leaves the shared data. -/
private theorem inv_stay (hs : Inv N capacity s) {next : Local} (hr : s.base.pc c = .running)
    (hcrit : critical (s.loc c) = true) (hk : producing next = true → producing (s.loc c) = true)
    (hf : Fits capacity (s.base.shared ()) next) (ho : owed N next = owed N (s.loc c)) :
    Inv N capacity (s.set c (s.base.shared ()) next) :=
  inv_set hs hr hcrit (fun _ => hs.not_producing hk) hf (by simpa [Booked, owedAll_update fun _ _ => ho] using hs.booked)

private theorem inv_produce (hs : Inv N capacity s) {num i : Nat} {cnt : Int} (hr : s.base.pc c = .running)
    (hl : s.loc c = .prodLoop num i cnt) (hi : i < cnt) :
    Inv N capacity (s.set c { s.base.shared () with
      que := (s.base.shared ()).que ++ [(s.base.shared ()).id]
      id := (s.base.shared ()).id + 1 } (.prodLoop (num - 1) (i + 1) cnt)) := by
  have hf := hs.fits c
  rw [hl] at hf
  obtain ⟨hle, hnum, hroom⟩ := hf
  obtain ⟨n, hn, htotal⟩ := hs.booked
  refine inv_set hs hr (by rw [hl]; rfl) (fun _ => hs.not_producing (by rw [hl]; exact id)) ?_ ⟨n + 1, ⟨?_, ?_, ?_⟩, ?_⟩
  · refine ⟨by omega, by omega, ?_⟩
    simp only [List.length_append, List.length_singleton]
    omega
  · rw [← List.append_assoc, hn.order, hn.count, List.range_succ, List.map_append]
    rfl
  · change (s.base.shared ()).id + 1 = _
    rw [hn.count, BitVec.ofNat_add]
    rfl
  · rw [List.length_append, List.length_singleton]
    omega
  · cases c with
    | inl p =>
      have := owedAll_produce (N := N) s.loc (.prodLoop (num - 1) (i + 1) cnt) p (by
        rw [hl]
        change num - 1 + 1 = num
        omega)
      omega
    | inr k =>
      have := hs.kind k
      rw [hl] at this
      cases this

private theorem inv_consume (hs : Inv N capacity s) {i : Nat} {x : BitVec 32} {rest : List (BitVec 32)} {cnt : Int}
    (hr : s.base.pc c = .running) (hl : s.loc c = .consLoop i cnt) (hi : i < cnt)
    (hq : (s.base.shared ()).que = x :: rest) :
    Inv N capacity (s.set c { s.base.shared () with vec := (s.base.shared ()).vec ++ [x], que := rest }
      (.consLoop (i + 1) cnt)) := by
  have hf := hs.fits c
  rw [hl] at hf
  obtain ⟨hle, hlen⟩ := hf
  obtain ⟨n, hn, htotal⟩ := hs.booked
  have horder := hn.order
  have hb := hn.bound
  rw [hq, List.length_cons] at hlen hb
  rw [hq] at horder
  refine inv_set hs hr (by rw [hl]; rfl) (fun _ _ => rfl) ⟨by omega, ?_⟩ ⟨n, ⟨?_, hn.count, ?_⟩, ?_⟩
  · push_cast at hlen ⊢
    omega
  · simpa using horder
  · change rest.length ≤ capacity
    omega
  · rwa [owedAll_update fun _ _ => by rw [hl]; rfl]

private theorem inv_body (hcap : capacity < 2 ^ 31) (hs : Inv N capacity s) (hr : s.base.pc c = .running)
    (h : body N capacity c s = some t) : Inv N capacity t := by
  obtain ⟨n, hn, htotal⟩ := hs.booked
  have hb := hn.bound
  simp only [body] at h
  split at h
  case h_1 hl =>
    split at h
    · exact inv_start hs h rfl nofun fun _ _ => by rw [hl]; rfl
    · exact inv_start hs h rfl (fun _ _ => rfl) nofun
  case h_2 num hl =>
    split at h
    · exact inv_call hs h (by rw [hl]; rfl) nofun nofun rfl (by rw [hl]; exact fun _ => rfl) (by rw [hl]; rfl)
    · cases h
      refine inv_set hs hr (by rw [hl]; rfl) (fun _ _ => rfl) trivial ⟨n, ⟨hn.order, hn.count, hn.bound⟩, ?_⟩
      rwa [owedAll_update]
      intro _ _
      rw [hl]
      change 0 = num
      omega
  case h_3 num hl =>
    cases h
    rw [producerCount_eq hb hcap]
    refine inv_stay hs hr (by rw [hl]; rfl) (by rw [hl]; exact fun _ => rfl) ⟨?_, ?_, ?_⟩ (by rw [hl]; rfl)
    all_goals omega
  case h_4 num i cnt hl =>
    split at h <;> cases h
    · exact inv_produce hs hr hl ‹_›
    · exact inv_stay hs hr (by rw [hl]; rfl) (by rw [hl]; exact fun _ => rfl) trivial (by rw [hl]; rfl)
  case h_5 num hl =>
    exact inv_call hs h (by rw [hl]; rfl) nofun nofun rfl (by rw [hl]; exact fun _ => rfl) (by rw [hl]; rfl)
  case h_6 hl =>
    split at h
    · exact inv_call hs h (by rw [hl]; rfl) nofun nofun rfl nofun (by rw [hl]; rfl)
    · exact inv_call hs h (by rw [hl]; rfl) nofun nofun rfl nofun (by rw [hl]; rfl)
  case h_7 hl =>
    cases h
    rw [toInt_eq (by omega)]
    refine inv_stay hs hr (by rw [hl]; rfl) nofun ⟨?_, ?_⟩ (by rw [hl]; rfl)
    all_goals omega
  case h_8 i cnt hl =>
    split at h
    · split at h <;> cases h
      exact inv_consume hs hr hl ‹_› ‹_›
    · cases h
      exact inv_stay hs hr (by rw [hl]; rfl) nofun trivial (by rw [hl]; rfl)
  case h_9 hl => exact inv_call hs h (by rw [hl]; rfl) nofun nofun rfl nofun (by rw [hl]; rfl)
  case h_10 hl =>
    obtain ⟨b, hb, rfl⟩ := Option.map_eq_some_iff.mp h
    exact inv_base hs _ hb nofun rfl (fun _ _ => rfl) (fun _ _ => by rw [hl]; rfl) nofun
  case h_11 => cases h

/-- The library goes on with a call. A coroutine inside a loop has none under way. -/
private theorem inv_lib (hs : Inv N capacity s) {op : Op Unit Cv Para} {b : CondVar.State (Coro P K) Unit Cv Para}
    (hi : internal op = true) (h : CondVar.step (c, op) s.base = some b) : Inv N capacity { s with base := b } := by
  have hl : inLoop (s.loc c) = false := by
    by_contra hl
    exact internal_not_running hi h (hs.loops c (by simpa using hl))
  have hnew := inv_base hs (s.loc c) h (by rintro f rfl; cases hi) hl (fun k hk => hk ▸ hs.kind k)
    (fun _ _ => rfl) fun hc hx => owner_step hs.base h (hs.own c hc) (fun _ => by rintro rfl; cases hi) hx
  rwa [Function.update_eq_self] at hnew

theorem inv_step (hcap : capacity < 2 ^ 31) {l : Label P K} (hs : Inv N capacity s)
    (h : step N capacity l s = some t) : Inv N capacity t := by
  cases l with
  | body c =>
    simp only [step] at h
    split at h
    · exact inv_body hcap hs ‹_› h
    · cases h
  | lib c op =>
    simp only [step] at h
    split at h
    · obtain ⟨b, hb, rfl⟩ := Option.map_eq_some_iff.mp h
      exact inv_lib hs ‹_› hb
    · cases h

private theorem reach_inv (hcap : capacity < 2 ^ 31) (h : Reachable (step N capacity) init s) : Inv N capacity s :=
  h.invariant (Inv N capacity) inv_init fun _ _ _ _ => inv_step hcap

/-- As long as every item has a number that is an `int`, in every reachable state of the
program the consumed items followed by the queue are `0, 1, ..., id - 1`, the queue is within
its capacity, and what the producers have still to produce makes up the rest. The capacity
is a positive `int` in the source; zero would do no harm either. -/
theorem producer_consumer_sound (N capacity : Nat) (hcap : capacity < 2 ^ 31) (hN : P * N < 2 ^ 31) {s : State P K}
    (h : Reachable (step N capacity) init s) : Correct N capacity s := by
  obtain ⟨n, hn, htotal⟩ := (reach_inv hcap h).booked
  have hint : ∀ m ≤ n, (BitVec.ofNat 32 m).toInt = m := fun m hm => toInt_eq (by omega)
  refine ⟨?_, hn.bound, ?_⟩
  · rw [hn.order, hn.count, hint n le_rfl, List.map_map, Int.toNat_natCast]
    exact List.map_congr_left fun m hm => hint m (Nat.le_of_lt (List.mem_range.mp hm))
  · rw [hn.count, hint n le_rfl]
    exact_mod_cast htotal

/-- The producer fills the queue and waits, the consumer empties it and wakes it. -/
def oneEach : List (Label 1 (Fin 1)) :=
  [.body (.inl 0), .body (.inl 0), .body (.inl 0), .body (.inl 0), .body (.inl 0), .body (.inl 0),
    .lib (.inl 0) .notifyNext, .body (.inl 0), .lib (.inl 0) .waitUnlock, .lib (.inl 0) .waitPush,
    .body (.inr 0), .body (.inr 0), .body (.inr 0), .body (.inr 0), .body (.inr 0), .body (.inr 0),
    .lib (.inr 0) .notifyNext, .lib (.inr 0) .notifyEnqueue, .lib (.inr 0) .notifyNext]

theorem producer_consumer_sound_oneEach : ∃ s : State 1 (Fin 1), Reachable (step 2 1) init s ∧
    (s.base.shared ()).vec = [0] ∧ (s.base.shared ()).id = 1 ∧ Correct 2 1 s := by
  obtain ⟨s, hs⟩ : ∃ s, s ∈ exec (step 2 1) oneEach init := ⟨_, rfl⟩
  have hr := Reachable.of_exec oneEach hs
  have hsound := producer_consumer_sound 2 1 (by decide) (by decide) hr
  cases hs
  exact ⟨_, hr, by decide, by decide, hsound⟩

structure Calm (s : State P K) : Prop where
  mtx : s.base.mtx () = ⟨false, []⟩
  owners : s.base.owners () = []
  cv : ∀ v, s.base.cv v = ⟨none, []⟩

omit [DecidableEq K] in
theorem calm_init : Calm (init : State P K) := ⟨rfl, rfl, fun _ => rfl⟩

theorem State.set_set {d d' : Para} {l l' : Local} : (s.set c d l).set c d' l' = s.set c d' l' := by
  simp [State.set]

/-- The rounds of the producer's loop. -/
theorem produce_items (N capacity : Nat) {num i : Nat} {cnt : Int} (hr : s.base.pc c = .running)
    (hl : s.loc c = .prodLoop num i cnt)
    (k : Nat) (hk : (i + k : Nat) ≤ cnt) :
    ∃ d, Reachable (step N capacity) s (s.set c d (.prodLoop (num - k) (i + k) cnt)) ∧
      d.que.length = (s.base.shared ()).que.length + k ∧ d.stopFlag = (s.base.shared ()).stopFlag := by
  induction k with
  | zero =>
    refine ⟨s.base.shared (), ?_, rfl, rfl⟩
    have hsame : s.set c (s.base.shared ()) (.prodLoop num i cnt) = s := by
      rw [State.set, ← hl, Function.update_eq_self]
    simpa [hsame] using Reach.start
  | succ k ih =>
    obtain ⟨d, hd, hlen, hstop⟩ := ih (by omega)
    have hlt : ((i + k : Nat) : Int) < cnt := by omega
    have hstep : step N capacity (.body c) (s.set c d (.prodLoop (num - k) (i + k) cnt)) =
        some (s.set c { d with que := d.que ++ [d.id], id := d.id + 1 } (.prodLoop (num - (k + 1)) (i + (k + 1)) cnt)) := by
      simp only [step, State.set, hr, body, Function.update_self, if_pos hlt, Function.update_idem]
      rfl
    refine ⟨_, hd.next trivial hstep, ?_, hstop⟩
    rw [List.length_append, hlen, List.length_singleton, Nat.add_assoc]

/-- The rounds of the consumer's loop. -/
theorem consume_items (N capacity : Nat) {i : Nat} {cnt : Int} (hr : s.base.pc c = .running) (hl : s.loc c = .consLoop i cnt)
    (hk : (i + (s.base.shared ()).que.length : Nat) ≤ cnt) :
    ∃ d, Reachable (step N capacity) s (s.set c d (.consLoop (i + (s.base.shared ()).que.length) cnt)) ∧
      d.que = [] ∧ d.stopFlag = (s.base.shared ()).stopFlag := by
  generalize hq : (s.base.shared ()).que = que at hk
  induction que generalizing s i with
  | nil =>
    refine ⟨s.base.shared (), ?_, hq, rfl⟩
    have hsame : s.set c (s.base.shared ()) (.consLoop i cnt) = s := by
      rw [State.set, ← hl, Function.update_eq_self]
    simpa [hsame] using Reach.start
  | cons x rest ih =>
    rw [List.length_cons] at hk
    have hlt : (i : Int) < cnt := by omega
    let u := s.set c { s.base.shared () with vec := (s.base.shared ()).vec ++ [x], que := rest } (.consLoop (i + 1) cnt)
    have hstep : step N capacity (.body c) s = some u := by
      simp only [step, hr, body, hl, if_pos hlt, hq]
      rfl
    obtain ⟨d, hd, hnil, hstop⟩ := ih (s := u) hr (Function.update_self ..) rfl (by omega)
    refine ⟨d, (Reach.next .start trivial hstep).trans ?_, hnil, hstop⟩
    rw [State.set_set] at hd
    rwa [List.length_cons, Nat.add_comm rest.length, ← Nat.add_assoc]

/-- A producer that finds the mutex free and room for all its items. -/
theorem produces (N capacity : Nat) (p : Fin P) (hs : Calm s) (hr : s.base.pc (.inl p) = .running)
    (hl : s.loc (.inl p) = .start)
    (hN : 0 < N) (hcap : capacity < 2 ^ 31) (hroom : (s.base.shared ()).que.length + N ≤ capacity) :
    ∃ t, Reachable (step N capacity) s t ∧ Calm t ∧ t.base.pc = s.base.pc ∧
      t.loc = Function.update s.loc (.inl p) .finished ∧
      (t.base.shared ()).que.length = (s.base.shared ()).que.length + N ∧
      (t.base.shared ()).stopFlag = (s.base.shared ()).stopFlag - 1 := by
  obtain ⟨u, hu, hpu, hlu, hmu, hou, hcu, hdu⟩ : ∃ u,
      exec (step N capacity) [.body (.inl p), .body (.inl p), .body (.inl p)] s = some u ∧ u.base.pc = s.base.pc ∧
      u.loc = Function.update s.loc (.inl p) (.prodLoop N 0 N) ∧ u.base.mtx () = ⟨true, []⟩ ∧
      u.base.owners () = [.inl p] ∧ u.base.cv = s.base.cv ∧ u.base.shared () = s.base.shared () := by
    have hmet : (producerCond capacity).met (s.base.shared ()) = true := by
      have hlt : (s.base.shared ()).que.length < capacity := by omega
      simp [producerCond, Cond.met, hlt]
    have hcnt : producerCount N capacity (s.base.shared ()).que.length = N := by
      rw [producerCount_eq (by omega) hcap, Nat.min_eq_left (by omega)]
    simp [step, body, State.call, CondVar.step, tryLockBy, Mutex.tryLock, State.set, hr, hl, hs.mtx, hs.owners,
      hN, hmet, hcnt]
  obtain ⟨d, hd, hlen, hstop⟩ := produce_items N capacity (s := u) (c := .inl p) (i := 0) (hpu ▸ hr)
    (by rw [hlu, Function.update_self]) N (by omega)
  obtain ⟨t, ht, hpt, hlt, hmt, hot, hct, hdt⟩ : ∃ t, exec (step N capacity)
      [.body (.inl p), .body (.inl p), .lib (.inl p) .notifyNext, .body (.inl p), .body (.inl p)]
      (u.set (.inl p) d (.prodLoop (N - N) (0 + N) N)) = some t ∧ t.base.pc = s.base.pc ∧
      t.loc = Function.update s.loc (.inl p) .finished ∧ t.base.mtx () = ⟨false, []⟩ ∧ t.base.owners () = [] ∧
      t.base.cv = Function.update s.base.cv .consumer ⟨none, []⟩ ∧
      t.base.shared () = { d with stopFlag := d.stopFlag - 1 } := by
    simp [step, body, State.call, CondVar.step, unlockBy, Mutex.unlock, State.set, hpu, hlu, hr, hmu, hou, hcu,
      hs.cv, internal]
  refine ⟨t, (Reachable.of_exec _ hu).trans (hd.trans (Reachable.of_exec _ ht)), ⟨hmt, hot, fun v => ?_⟩, hpt, hlt, ?_, ?_⟩
  · rw [hct, Function.update_apply, hs.cv v, ite_self]
  · rw [hdt]
    exact hlen.trans (by rw [hdu])
  · rw [hdt]
    change d.stopFlag - 1 = _
    rw [hstop, hdu]

/-- A consumer that finds the mutex free and something in the queue, and then waits for more. -/
theorem consumes (N capacity : Nat) (k : K) (hs : Calm s) (hr : s.base.pc (.inr k) = .running) (hl : s.loc (.inr k) = .start)
    (hq : 0 < (s.base.shared ()).que.length) (hlen : (s.base.shared ()).que.length < 2 ^ 31)
    (hstop : 0 < (s.base.shared ()).stopFlag) :
    ∃ t, Reachable (step N capacity) s t ∧ Calm t ∧ (∀ c, c ≠ .inr k → t.base.pc c = s.base.pc c ∧ t.loc c = s.loc c) ∧
      (t.base.shared ()).que = [] := by
  obtain ⟨u, hu, hpu, hlu, hmu, hou, hcu, hdu⟩ : ∃ u,
      exec (step N capacity) [.body (.inr k), .body (.inr k), .body (.inr k)] s = some u ∧ u.base.pc = s.base.pc ∧
      u.loc = Function.update s.loc (.inr k) (.consLoop 0 (s.base.shared ()).que.length) ∧ u.base.mtx () = ⟨true, []⟩ ∧
      u.base.owners () = [.inr k] ∧ u.base.cv = s.base.cv ∧ u.base.shared () = s.base.shared () := by
    have hmet : consumerCond.met (s.base.shared ()) = true := by
      simp [consumerCond, Cond.met, List.ne_nil_of_length_pos hq]
    simp [step, body, State.call, CondVar.step, tryLockBy, Mutex.tryLock, State.set, hr, hl, hs.mtx, hs.owners, hstop, hmet,
      toInt_eq hlen]
  obtain ⟨d, hd, hnil, hflag⟩ := consume_items N capacity (s := u) (c := .inr k) (i := 0) (hpu ▸ hr)
    (by rw [hlu, Function.update_self]) (by rw [hdu]; omega)
  have hunmet : consumerCond.met d = false := by
    have hpos : ¬ (s.base.shared ()).stopFlag ≤ 0 := by omega
    simp [consumerCond, Cond.met, hnil, hflag, hdu, hpos]
  obtain ⟨t, ht, hpt, hlt, hmt, hot, hct, hdt⟩ : ∃ t, exec (step N capacity)
      [.body (.inr k), .body (.inr k), .lib (.inr k) .notifyNext, .body (.inr k), .lib (.inr k) .waitUnlock]
      (u.set (.inr k) d (.consLoop (0 + (u.base.shared ()).que.length) (s.base.shared ()).que.length)) = some t ∧
      t.base.pc = Function.update s.base.pc (.inr k) (.waitPush .consumer () consumerCond) ∧
      t.loc = Function.update s.loc (.inr k) .consWaited ∧ t.base.mtx () = ⟨false, []⟩ ∧ t.base.owners () = [] ∧
      t.base.cv = Function.update s.base.cv .producer ⟨none, []⟩ ∧ t.base.shared () = d := by
    simp [step, body, State.call, CondVar.step, unlockBy, Mutex.unlock, State.set, hpu, hlu, hdu, hr, hmu, hou, hcu, hs.cv,
      internal, hflag, hstop, hunmet]
  refine ⟨t, (Reachable.of_exec _ hu).trans (hd.trans (Reachable.of_exec _ ht)), ⟨hmt, hot, fun v => ?_⟩, fun c hc => ?_, ?_⟩
  · rw [hct, Function.update_apply, hs.cv v, ite_self]
  · rw [hpt, hlt, Function.update_of_ne hc, Function.update_of_ne hc]
    exact ⟨rfl, rfl⟩
  · rw [hdt, hnil]

/-- Two producers of 2^30 items each, with one consumer in between: the number of the next
item has wrapped in the end. -/
theorem producer_consumer_overflow : ¬ ∀ s : State 2 (Fin 1),
    Reachable (step 1073741824 1073741824) init s → Correct 1073741824 1073741824 s := by
  intro h
  obtain ⟨s, hs, hcs, hps, hls, hqs, hfs⟩ := produces 1073741824 1073741824 0
    (s := (init : State 2 (Fin 1))) calm_init rfl rfl (by decide) (by decide) (by decide)
  obtain ⟨t, ht, hct, hsame, hqt⟩ := consumes 1073741824 1073741824 (0 : Fin 1) hcs (by rw [hps]; rfl)
    (by rw [hls]; rfl) (by rw [hqs]; decide) (by rw [hqs]; decide) (by rw [hfs]; decide)
  obtain ⟨u, hu, -, -, hlu, -, -⟩ := produces 1073741824 1073741824 1 hct
    (by rw [(hsame _ Sum.inl_ne_inr).1, hps]; rfl) (by rw [(hsame _ Sum.inl_ne_inr).2, hls]; rfl) (by decide) (by decide)
    (by rw [hqt]; decide)
  have hr := (hs.trans ht).trans hu
  -- nothing is owed any more, so all the items have been counted
  have howed : owedAll 1073741824 u.loc = 0 := by
    rw [owedAll, Fin.sum_univ_two, hlu, Function.update_self, Function.update_of_ne (by decide),
      (hsame _ Sum.inl_ne_inr).2, hls, Function.update_self]
    rfl
  obtain ⟨n, hn, htotal⟩ := (reach_inv (by decide) hr).booked
  have htotal' := (h u hr).total
  rw [howed] at htotal htotal'
  rw [hn.count, show n = 2147483648 by omega] at htotal'
  exact absurd htotal' (by decide)

end TinyCoro.Client.ProducerConsumer
