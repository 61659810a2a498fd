import TinyCoro.Runtime.RingExact
import TinyCoro.Uring.Contents

/-! The engine on the rings does what the model of the engine alone does, in which the rings
are lists and the requests are numbers. A completion is posted there when it gets into the
ring here, so one that waits for room is still with the kernel. -/
namespace TinyCoro.Uring
open Transition Words
open TinyCoro.Runtime

def Pc.ring : Pc → Ring.Pc
  | .idle | .getFlags | .getEvents => .idle
  | .submit n | .submitFlags n _ | .submitEnter n _ _ => .submit n
  | .addRunning n => .addRunning n
  | .subSubmit n => .subSubmit n
  | .pollRunning => .pollRunning
  | .waitEventfd => .waitEventfd
  | .peek | .getCqe _ => .peek
  | .batch _ | .batchFlags | .batchEvents => .batch
  | .callback k n => .callback k n
  | .subRunning n => .subRunning n

def Config.ring (cfg : Config) : Ring.Config := ⟨cfg.sqEntries.toNat, cfg.queCap.toNat⟩

def State.address (s : State) (i : Nat) : Option Address := s.made[i]?.map Prod.snd

def Found (s : State) : Prop :=
  match s.pc with
  | .pollRunning | .waitEventfd => s.ioSubmitCount = 0
  | .peek | .getCqe _ | .getFlags | .getEvents => s.ioSubmitCount = 0 ∧ s.ioRunningCount ≠ 0
  | .batch again => again = false ∧ s.cq.ready ≠ 0
  | .batchFlags | .batchEvents => False
  | _ => True

/-- The state of the engine on the rings and that of the engine alone. The lists of the one are
read off the rings of the other. Until its callback is called an awaiter is alone at its
address, with what its constructor wrote (`waiting`); then its result stays there until there
is another awaiter (`result`). -/
structure Same (cfg : Config) (s : State) (r : Ring.State) : Prop where
  ioSubmitCount : r.ioSubmitCount = s.ioSubmitCount
  ioRunningCount : r.ioRunningCount = s.ioRunningCount
  eventfd : r.eventfd = 0 ↔ s.eventfd = 0
  pc : r.pc = s.pc.ring
  found : Found s
  next : r.next = s.made.length
  sq : r.sq = List.range' s.taken.length (s.pending cfg).length
  kernel : ∃ is js, r.kernel.Perm (is ++ js) ∧ is.map s.address = s.running.map (fun e => some e.userData) ∧
    js.map s.address = s.overflow.map (fun c => some c.userData)
  cq : r.cq.map (fun c => (s.address c.request, c.res)) = (s.visible cfg).map (fun c => (some c.userData, c.res.toInt))
  calls : r.calls.map (fun c => (s.address c.request, c.res)) = s.calls.map (fun c => (some c.userData, c.res.toInt))
  submitted : r.submitted.map s.address = s.submitted.map some
  request : ∀ i q a, s.made[i]? = some (q, a) → r.request i = q.request
  waiting : ∀ i q a, s.made[i]? = some (q, a) → (∀ c ∈ r.calls, c.request ≠ i) →
    s.live a = true ∧ q.Informed (s.info a) ∧ ∀ j, i < j → s.address j ≠ some a
  result : ∀ i q a, s.made[i]? = some (q, a) → (∀ j, i < j → s.address j ≠ some a) → (∃ c ∈ r.calls, c.request = i) →
    r.result i = some (s.info a).result.toInt

section
variable {cfg : Config} {s t : State} {r : Ring.State}

theorem same_init (m : Memory) : Same cfg (init cfg m) Ring.init := by
  refine ⟨rfl, rfl, Iff.rfl, rfl, trivial, rfl, ?_, ⟨[], [], .refl _, rfl, rfl⟩, ?_, rfl, rfl, ?_, ?_, ?_⟩
  · simp [init, Ring.init, State.pending]
  · simp [init, Ring.init, State.visible]
  · intro i q a h
    simp [init] at h
  · intro i q a h
    simp [init] at h
  · intro i q a h
    simp [init] at h

/-- Both go on to the same place. -/
theorem Same.goto (h : Same cfg s r) {p : Pc} (hf : Found (s.goto p)) : Same cfg (s.goto p) (r.goto p.ring) :=
  { h with pc := rfl, found := hf }

/-- The engine on the rings goes on, and the engine alone stays. -/
theorem Same.stay (h : Same cfg s r) {p : Pc} (hp : p.ring = s.pc.ring) (hf : Found (s.goto p)) : Same cfg (s.goto p) r := by
  have hgoto := h.goto hf
  rw [hp, ← h.pc] at hgoto
  exact hgoto

theorem Same.cq_length (h : Same cfg s r) : r.cq.length = s.cq.ready.toNat := by
  have hlen := congrArg List.length h.cq
  rw [List.length_map, List.length_map, visible_length] at hlen
  exact hlen

theorem Same.cq_nil (h : Same cfg s r) : s.cq.ready = 0 ↔ r.cq = [] := by
  rw [← List.length_eq_zero_iff, h.cq_length]
  constructor
  · intro hz
    rw [hz]
    rfl
  · intro hz
    exact BitVec.eq_of_toNat_eq hz

theorem Same.kernel_length (h : Same cfg s r) : r.kernel.length = s.running.length + s.overflow.length := by
  obtain ⟨is, js, hperm, his, hjs⟩ := h.kernel
  have hi := congrArg List.length his
  have hj := congrArg List.length hjs
  rw [List.length_map, List.length_map] at hi hj
  rw [hperm.length_eq, List.length_append, hi, hj]

theorem Kept.made_length (hk : Kept cfg s) : s.taken.length + (s.pending cfg).length = s.made.length := by
  have hlen := congrArg List.length hk.prepared
  rw [List.length_append, State.prepared, List.length_map] at hlen
  exact hlen

/-- The addresses of the requests that the kernel takes next. -/
theorem Kept.range_address (hk : Kept cfg s) {k : Nat} (hle : k ≤ (s.pending cfg).length) :
    (List.range' s.taken.length k).map s.address = ((s.pending cfg).take k).map (fun e => some e.userData) := by
  apply List.ext_getElem?
  intro j
  rw [List.getElem?_map, List.getElem?_map]
  rcases Nat.lt_or_ge j k with hj | hj
  · have hget : s.prepared[s.taken.length + j]? = (s.pending cfg)[j]? := by
      rw [← hk.prepared, List.getElem?_append_right (Nat.le_add_right _ _), Nat.add_sub_cancel_left]
    rw [List.getElem?_range' hj, List.getElem?_take_of_lt hj, ← hget, State.prepared, List.getElem?_map, Nat.one_mul]
    simp only [Option.map_some, State.address]
    have hlt : s.taken.length + j < s.made.length := by
      have hlen := hk.made_length
      omega
    rw [List.getElem?_eq_getElem hlt]
    simp only [Option.map_some, Awaiter.sqe_userData]
  · rw [List.getElem?_eq_none (by simpa using hj), List.getElem?_eq_none (by simp; omega)]
    rfl

theorem address_of_made {i : Nat} {q : Awaiter} {a : Address} (h : s.made[i]? = some (q, a)) : s.address i = some a := by
  rw [State.address, h]
  rfl

def takesLess (l : Label) (s : State) : Bool :=
  match l, s.pc with
  | .enter res, .submitEnter _ submitted _ => res != submitted.toNat
  | _, _ => false

def TakesAll (l : Label) (s : State) : Prop := takesLess l s = false

instance (l : Label) (s : State) : Decidable (TakesAll l s) := inferInstanceAs (Decidable (takesLess l s = false))

/-- The engine alone, whose kernel accepts all it is given if `all`. -/
def Strict (all : Prop) (l : Ring.Label) (r : Ring.State) : Prop := all → Ring.AcceptsAll l r

variable {all : Prop}

theorem strict_of_ne {l : Ring.Label} (h : ∀ res, l ≠ .accept res) : Strict all l r := fun _ res hl => absurd hl (h res)

/-- The engine alone takes one step. -/
theorem one_step {l : Ring.Label} {r' : Ring.State} (ho : Strict all l r) (h : Ring.step cfg.ring l r = some r') :
    Reach (Ring.step cfg.ring) (Strict all) r r' :=
  Reach.start.next ho h

section
variable {q : Awaiter} {info : Address} (hmade : t.made = s.made ++ [(q, info)])
include hmade

/-- Another awaiter: the earlier ones keep their number. -/
theorem address_lt {i : Nat} (hi : i < s.made.length) : t.address i = s.address i := by
  rw [State.address, State.address, hmade, List.getElem?_append_left hi]

theorem address_new : t.address s.made.length = some info := by
  rw [State.address, hmade, List.getElem?_append_right (Nat.le_refl _), Nat.sub_self]
  rfl

theorem address_gt {i : Nat} (hi : s.made.length < i) : t.address i = none := by
  rw [State.address, List.getElem?_eq_none (by rw [hmade, List.length_append]; exact hi)]
  rfl

/-- An awaiter was there before, or is the new one. -/
theorem made_cases {i : Nat} {p : Awaiter × Address} (hi : t.made[i]? = some p) :
    s.made[i]? = some p ∧ i < s.made.length ∨ i = s.made.length ∧ p = (q, info) := by
  rw [hmade] at hi
  rcases Nat.lt_or_ge i s.made.length with hlt | hge
  · rw [List.getElem?_append_left hlt] at hi
    exact .inl ⟨hi, hlt⟩
  · rw [List.getElem?_append_right hge] at hi
    obtain ⟨hzero, hp⟩ := List.getElem?_eq_some_iff.mp hi
    rw [List.length_singleton] at hzero
    rw [List.getElem_singleton] at hp
    exact .inr ⟨by omega, hp.symm⟩

end

section
variable {q : Awaiter} {info : Address} (hr : Ring.Kept r) (h : Same cfg s r) (hlive : s.live info = false)
  (hmade : t.made = s.made ++ [(q, info)]) (hinfo : t.info = Function.update s.info info (q.inform (s.info info)))
include h hmade

theorem request_make {i : Nat} {q' : Awaiter} {a : Address} (hi : t.made[i]? = some (q', a)) :
    Function.update r.request r.next q.request i = q'.request := by
  rcases made_cases hmade hi with ⟨hi', hlt⟩ | ⟨rfl, hp⟩
  · rw [h.next, Function.update_of_ne (Nat.ne_of_lt hlt)]
    exact h.request i q' a hi'
  · cases hp
    rw [h.next, Function.update_self]

include hlive hinfo in
theorem waiting_make {i : Nat} {q' : Awaiter} {a : Address} (hi : t.made[i]? = some (q', a))
    (hnc : ∀ c ∈ r.calls, c.request ≠ i) : Function.update s.live info true a = true ∧ q'.Informed (t.info a) ∧
    ∀ j, i < j → t.address j ≠ some a := by
  rcases made_cases hmade hi with ⟨hi', hlt⟩ | ⟨rfl, hp⟩
  · obtain ⟨hl, hinf, hlast⟩ := h.waiting i q' a hi' hnc
    have hne : a ≠ info := by
      rintro rfl
      rw [hl] at hlive
      cases hlive
    rw [hinfo, Function.update_of_ne hne, Function.update_of_ne hne]
    refine ⟨hl, hinf, ?_⟩
    intro j hj
    rcases Nat.lt_trichotomy j s.made.length with hlt' | rfl | hgt
    · rw [address_lt hmade hlt']
      exact hlast j hj
    · rw [address_new hmade]
      exact fun heq => hne (Option.some.inj heq).symm
    · rw [address_gt hmade hgt]
      simp
  · cases hp
    rw [hinfo, Function.update_self, Function.update_self]
    refine ⟨rfl, q.informed_inform _, ?_⟩
    intro j hj
    rw [address_gt hmade hj]
    simp

include hr hinfo in
theorem result_make {i : Nat} {q' : Awaiter} {a : Address} (hi : t.made[i]? = some (q', a))
    (hlast : ∀ j, i < j → t.address j ≠ some a) (hcalled : ∃ c ∈ r.calls, c.request = i) :
    r.result i = some (t.info a).result.toInt := by
  rcases made_cases hmade hi with ⟨hi', hlt⟩ | ⟨rfl, -⟩
  · have hne : a ≠ info := by
      rintro rfl
      exact hlast _ hlt (address_new hmade)
    rw [hinfo, Function.update_of_ne hne]
    refine h.result i q' a hi' ?_ hcalled
    intro j hj
    rcases Nat.lt_or_ge j s.made.length with hlt' | hge
    · rw [← address_lt hmade hlt']
      exact hlast j hj
    · rw [State.address, List.getElem?_eq_none hge]
      simp
  · obtain ⟨c, hc, heq⟩ := hcalled
    have hfresh := hr.fresh hc
    rw [h.next] at hfresh
    exact absurd heq (Nat.ne_of_lt hfresh)

end

/-- An awaiter is made where there is none. -/
theorem same_request (hk : Kept cfg s) (hr : Ring.Kept r) (h : Same cfg s r) {q : Awaiter} {info : Address}
    (hp : s.pc = .idle)
    (hlive : s.live info = false) (hfull : ¬ cfg.sqEntries ≤ s.sq.sqeTail - s.sq.khead) :
    ∃ r', Reach (Ring.step cfg.ring) (Strict all) r r' ∧
      Same cfg { s with
        sq := s.sq.put cfg q info
        info := Function.update s.info info (q.inform (s.info info))
        live := Function.update s.live info true
        ioSubmitCount := s.ioSubmitCount + 1
        made := s.made ++ [(q, info)] } r' := by
  have hpc : r.pc = .idle := by rw [h.pc, hp]; rfl
  have hlt : r.sq.length < cfg.ring.entries := by
    rw [h.sq, List.length_range', State.pending, contents_length]
    rw [BitVec.le_def] at hfull
    exact Nat.lt_of_not_le hfull
  have hstep : Ring.step cfg.ring (.request q.request) r = some _ := if_pos ⟨hpc, hlt⟩
  refine ⟨_, one_step (strict_of_ne (by simp)) hstep, ?_⟩
  have hold : ∀ {i}, i < r.next → i < s.made.length := by
    intro i hi
    rwa [h.next] at hi
  refine { h with
    ioSubmitCount := congrArg (· + 1) h.ioSubmitCount
    found := ?_, next := ?_, sq := ?_, kernel := ?_, cq := ?_, calls := ?_, submitted := ?_
    request := fun i q' a hi => request_make h rfl hi
    waiting := fun i q' a hi hnc => waiting_make h hlive rfl rfl hi hnc
    result := fun i q' a hi hlast hcalled => result_make hr h rfl rfl hi hlast hcalled }
  · simp only [Found, hp]
  · rw [List.length_append, h.next]
    rfl
  · rw [pending_put hfull rfl, h.sq, List.length_append, List.length_singleton, List.range'_concat, h.next, Nat.one_mul,
      hk.made_length]
  · obtain ⟨is, js, hperm, his, hjs⟩ := h.kernel
    have hmem : ∀ i ∈ is ++ js, i < s.made.length := fun i hi => hold (hr.kernel_lt (hperm.mem_iff.mpr hi))
    refine ⟨is, js, hperm, ?_, ?_⟩
    · rw [← his]
      exact List.map_congr_left fun i hi => address_lt rfl (hmem i (List.mem_append_left _ hi))
    · rw [← hjs]
      exact List.map_congr_left fun i hi => address_lt rfl (hmem i (List.mem_append_right _ hi))
  · refine Eq.trans ?_ h.cq
    apply List.map_congr_left
    intro c hc
    have hposted : c ∈ r.posted := by
      rw [hr.posted]
      exact List.mem_append_right _ hc
    exact congrArg (·, c.res) (address_lt rfl (hold (hr.posted_lt hposted)))
  · refine Eq.trans ?_ h.calls
    apply List.map_congr_left
    intro c hc
    exact congrArg (·, c.res) (address_lt rfl (hold (hr.fresh hc)))
  · refine Eq.trans ?_ h.submitted
    apply List.map_congr_left
    intro i hi
    rw [hr.submitted] at hi
    obtain ⟨c, hc, rfl⟩ := List.mem_map.mp hi
    exact address_lt rfl (hold (hr.fresh hc))

/-- The kernel takes entries, or `io_uring_submit` does not ask it to. -/
theorem same_accept (hk : Kept cfg s) (h : Same cfg s r) {n k : Nat} {res : Int} (hp : s.pc.ring = .submit n)
    (hres : k = res.toNat)
    (hle : res ≤ (s.pending cfg).length) (hall : all → res = (s.pending cfg).length) :
    ∃ r', Reach (Ring.step cfg.ring) (Strict all) r r' ∧ Same cfg ((s.take cfg k).goto (.addRunning n)) r' := by
  have hlen : r.sq.length = (s.pending cfg).length := by rw [h.sq, List.length_range']
  have hstep : Ring.step cfg.ring (.accept res) r =
      some { r with pc := .addRunning n, sq := r.sq.drop k, kernel := r.kernel ++ r.sq.take k } := by
    simp only [Ring.step, h.pc, hp, hres]
    rw [if_pos (by rw [hlen]; exact hle)]
  have hkn : k ≤ (s.pending cfg).length := by omega
  have hk' : k ≤ (s.sq.sqeTail - s.sq.khead).toNat := by
    rwa [State.pending, contents_length] at hkn
  have hentries := hk.entries hk'
  refine ⟨_, one_step ?_ hstep, { h with pc := rfl, found := trivial, sq := ?_, kernel := ?_ }⟩
  · intro ha res' hres'
    cases hres'
    rw [hlen]
    exact hall ha
  · have hpending : ((s.take cfg k).goto (.addRunning n)).pending cfg = (s.pending cfg).drop k := hk.pending_take hk'
    rw [hpending]
    simp only [State.goto, State.take, hentries, h.sq, List.length_append, List.length_take, List.length_drop,
      Nat.min_eq_left hkn, List.drop_range', Nat.mul_one]
  · obtain ⟨is, js, hperm, his, hjs⟩ := h.kernel
    refine ⟨is ++ r.sq.take k, js, ?_, ?_, hjs⟩
    · apply (hperm.append_right _).trans
      rw [List.append_assoc, List.append_assoc]
      exact List.perm_append_comm.append_left _
    · have hrange := hk.range_address hkn
      rw [← List.take_range'_of_length_ge hkn, ← h.sq, ← hentries] at hrange
      simp only [State.goto, State.take, List.map_append]
      rw [← his, ← hrange]
      rfl

theorem take_zero : s.take cfg 0 = s := by
  simp [State.take, Sq.entries]

/-- The kernel posts a completion, or moves one into the ring. -/
theorem same_post (h : Same cfg s r) {c : Cqe} {i : Nat} {is js : List Nat} {running : List Sqe} {overflow posted : List Cqe}
    (hroom : s.room cfg = true) (hperm : r.kernel.Perm (i :: (is ++ js)))
    (his : is.map s.address = running.map (fun e => some e.userData))
    (hjs : js.map s.address = overflow.map (fun c => some c.userData)) (hi : s.address i = some c.userData) :
    ∃ r', Reach (Ring.step cfg.ring) (Strict all) r r' ∧
      Same cfg { s with
        running := running
        overflow := overflow
        cq := s.cq.post cfg c
        eventfd := s.eventfd + 1
        posted := posted } r' := by
  have hmem : i ∈ r.kernel := hperm.mem_iff.mpr List.mem_cons_self
  have hstep : Ring.step cfg.ring (.complete i c.res.toInt) r = some _ := if_pos hmem
  refine ⟨_, one_step (strict_of_ne (by simp)) hstep,
    { h with eventfd := ?_, found := ?_, kernel := ⟨is, js, ?_, his, hjs⟩, cq := ?_ }⟩
  · simp
  · have hf := h.found
    unfold Found at hf ⊢
    dsimp only
    cases hp : s.pc with
    | batch again =>
      rw [hp] at hf
      refine ⟨hf.1, ?_⟩
      intro hzero
      have hready : (s.cq.post cfg c).ready.toNat = s.cq.ready.toNat + 1 := ready_post hroom
      rw [hzero] at hready
      cases hready
    | _ =>
      rw [hp] at hf
      exact hf
  · have herase := hperm.erase i
    rw [List.erase_cons_head] at herase
    exact herase
  · rw [visible_post hroom rfl, List.map_append, List.map_append, ← h.cq]
    simp only [List.map_cons, List.map_nil, ← hi]
    rfl

/-- The number of a request that the kernel has, and the others. -/
theorem Same.running (h : Same cfg s r) {i : Nat} {e : Sqe} (he : s.running[i]? = some e) :
    ∃ id is js, r.kernel.Perm (id :: (is ++ js)) ∧ s.address id = some e.userData ∧
      is.map s.address = (s.running.eraseIdx i).map (fun e => some e.userData) ∧
      js.map s.address = s.overflow.map (fun c => some c.userData) := by
  obtain ⟨is, js, hperm, his, hjs⟩ := h.kernel
  have hget := congrArg (fun l : List (Option Address) => l[i]?) his
  simp only [List.getElem?_map, he, Option.map_some] at hget
  obtain ⟨id, hid, haddress⟩ := Option.map_eq_some_iff.mp hget
  obtain ⟨hi, hid'⟩ := List.getElem?_eq_some_iff.mp hid
  refine ⟨id, is.eraseIdx i, js, ?_, haddress, ?_, hjs⟩
  · have hsplit := (List.getElem_cons_eraseIdx_perm hi).symm.append_right js
    rw [hid'] at hsplit
    exact hperm.trans hsplit
  · rw [← List.eraseIdx_map, his, List.eraseIdx_map]

/-- A completion waits for room, whether the eventfd is signalled for it or not, and the
engine alone knows nothing of it. -/
theorem same_overflow (h : Same cfg s r) {i : Nat} {e : Sqe} {res : BitVec 32} {n m : Nat} (he : s.running[i]? = some e)
    (hnm : m = 0 ↔ n = 0) :
    Same cfg { s with
      running := s.running.eraseIdx i
      overflow := s.overflow ++ [⟨e.userData, res⟩]
      eventfd := n
      posted := s.posted ++ [⟨e.userData, res⟩] } { r with eventfd := m } := by
  obtain ⟨id, is, js, hperm, hid, his, hjs⟩ := h.running he
  refine { h with eventfd := hnm, kernel := ⟨is, js ++ [id], ?_, his, ?_⟩ }
  · rw [← List.append_assoc]
    exact hperm.trans (List.perm_append_singleton _ _).symm
  · rw [List.map_append, List.map_append, ← hjs]
    simp only [List.map_cons, List.map_nil, ← hid]
    rfl

theorem same_poll (h : Same cfg s r) (hp : s.pc.ring = .idle) :
    ∃ r', Reach (Ring.step cfg.ring) (Strict all) r r' ∧
      Same cfg (s.goto (if s.ioSubmitCount > 0 then .submit s.ioSubmitCount else .pollRunning)) r' := by
  have hpc : r.pc = .idle := h.pc.trans hp
  by_cases hcount : s.ioSubmitCount > 0
  · have hstep : Ring.step cfg.ring .poll r = some (r.goto (.submit s.ioSubmitCount)) := by
      simp [Ring.step, hpc, h.ioSubmitCount, hcount]
    rw [if_pos hcount]
    exact ⟨_, one_step (strict_of_ne (by simp)) hstep, h.goto trivial⟩
  · have hstep : Ring.step cfg.ring .poll r = some (r.goto .pollRunning) := by
      simp [Ring.step, hpc, h.ioSubmitCount, hcount]
    rw [if_neg hcount]
    refine ⟨_, one_step (strict_of_ne (by simp)) hstep, h.goto ?_⟩
    simp only [Found, State.goto]
    omega

theorem same_pollRunning (h : Same cfg s r) (hp : s.pc = .pollRunning) :
    ∃ r', Reach (Ring.step cfg.ring) (Strict all) r r' ∧
      Same cfg (s.goto (if s.ioRunningCount = 0 then .waitEventfd else .peek)) r' := by
  have hpc : r.pc = .pollRunning := by rw [h.pc, hp]; rfl
  have hfound := h.found
  simp only [Found, hp] at hfound
  by_cases hcount : s.ioRunningCount = 0
  · have hstep : Ring.step cfg.ring .step r = some (r.goto .waitEventfd) := by
      simp [Ring.step, Ring.State.pollStep, hpc, h.ioRunningCount, hcount]
    rw [if_pos hcount]
    refine ⟨_, one_step (strict_of_ne (by simp)) hstep, h.goto ?_⟩
    simp only [Found, State.goto]
    exact hfound
  · have hstep : Ring.step cfg.ring .step r = some (r.goto .peek) := by
      simp [Ring.step, Ring.State.pollStep, hpc, h.ioRunningCount, hcount]
    rw [if_neg hcount]
    refine ⟨_, one_step (strict_of_ne (by simp)) hstep, h.goto ?_⟩
    simp only [Found, State.goto]
    exact ⟨hfound, hcount⟩

/-- `peek_uring` has found an entry. -/
theorem same_peek (h : Same cfg s r) (hp : s.pc.ring = .peek) (hready : s.cq.ready ≠ 0) :
    ∃ r', Reach (Ring.step cfg.ring) (Strict all) r r' ∧ Same cfg (s.goto (.batch false)) r' := by
  have hcq : r.cq ≠ [] := fun hnil => hready (h.cq_nil.mpr hnil)
  have hstep : Ring.step cfg.ring .step r = some (r.goto .batch) := by
    simp [Ring.step, Ring.State.pollStep, h.pc, hp, hcq]
  refine ⟨_, one_step (strict_of_ne (by simp)) hstep, h.goto ?_⟩
  exact ⟨rfl, hready⟩

/-- `peek_uring` has found none. -/
theorem same_peekNone (h : Same cfg s r) (hp : s.pc.ring = .peek) (hready : s.cq.ready = 0) {p : Pc} (hidle : p.ring = .idle)
    (hf : Found (s.goto p)) : ∃ r', Reach (Ring.step cfg.ring) (Strict all) r r' ∧ Same cfg (s.goto p) r' := by
  have hcq : r.cq = [] := h.cq_nil.mp hready
  have hstep : Ring.step cfg.ring .step r = some (r.goto p.ring) := by
    simp [Ring.step, Ring.State.pollStep, h.pc, hp, hcq, hidle]
  exact ⟨_, one_step (strict_of_ne (by simp)) hstep, h.goto hf⟩

/-- The kernel has moved what it could into the ring, and `peek_uring` looks again: the
engine alone calls `poll_submit` again. -/
theorem same_enterEvents (h : Same cfg s r) (hp : s.pc = .getEvents) :
    ∃ r', Reach (Ring.step cfg.ring) (Strict all) r r' ∧ Same cfg (s.goto (.getCqe true)) r' := by
  have hfound := h.found
  simp only [Found, hp] at hfound
  obtain ⟨r₁, hr₁, h₁⟩ : ∃ r₁, Reach (Ring.step cfg.ring) (Strict all) r r₁ ∧ Same cfg _ r₁ := same_poll h (by rw [hp]; rfl)
  rw [if_neg (by omega)] at h₁
  obtain ⟨r₂, hr₂, h₂⟩ : ∃ r₂, Reach (Ring.step cfg.ring) (Strict all) r₁ r₂ ∧ Same cfg _ r₂ := same_pollRunning h₁ rfl
  have hcount : (s.goto .pollRunning).ioRunningCount ≠ 0 := hfound.2
  rw [if_neg hcount] at h₂
  exact ⟨r₂, hr₁.trans hr₂, h₂.stay rfl hfound⟩

theorem same_batch (h : Same cfg s r) {again : Bool} {p : Pc} (hp : s.pc = .batch again) :
    ∃ r', Reach (Ring.step cfg.ring) (Strict all) r r' ∧ Same cfg (s.peekBatch cfg p) r' := by
  have hpc : r.pc = .batch := by rw [h.pc, hp]; rfl
  have hready : s.cq.ready ≠ 0 := by
    have hfound := h.found
    simp only [Found, hp] at hfound
    exact hfound.2
  have hcount : (if s.cq.ready < cfg.queCap then s.cq.ready else cfg.queCap).toNat = min r.cq.length cfg.ring.queCap := by
    rw [h.cq_length]
    split
    · rename_i hlt
      exact (Nat.min_eq_left (Nat.le_of_lt (BitVec.lt_def.mp hlt))).symm
    · rename_i hle
      exact (Nat.min_eq_right (BitVec.le_def.mp (BitVec.not_lt.mp hle))).symm
  have hstep : Ring.step cfg.ring .step r = some (r.goto (.callback 0 (min r.cq.length cfg.ring.queCap))) := by
    simp [Ring.step, Ring.State.pollStep, hpc]
  refine ⟨_, one_step (strict_of_ne (by simp)) hstep, ?_⟩
  rw [State.peekBatch, if_neg hready]
  dsimp only
  refine { h with pc := ?_, found := trivial }
  rw [Pc.ring, hcount]
  rfl

/-- The completion whose callback is called next. -/
theorem Same.getElem (h : Same cfg s r) {k : Nat} {c : Cqe} (hc : (s.visible cfg)[k]? = some c) :
    ∃ d, r.cq[k]? = some d ∧ s.address d.request = some c.userData ∧ d.res = c.res.toInt := by
  have hget := congrArg (fun l : List (Option Address × Int) => l[k]?) h.cq
  simp only [List.getElem?_map, hc, Option.map_some] at hget
  obtain ⟨d, hd, heq⟩ := Option.map_eq_some_iff.mp hget
  obtain ⟨ha, hres⟩ := Prod.mk.inj heq
  exact ⟨d, hd, ha, hres⟩

section
variable {c : Cqe} {d : Ring.Cqe} {q : Awaiter} (h : Same cfg s r) (hq : s.made[d.request]? = some (q, c.userData))
  (hres : d.res = c.res.toInt) (hnc : ∀ d' ∈ r.calls, d'.request ≠ d.request)
include h hq hnc

/-- Of two awaiters at one address, the callback of the earlier one was called before the later one was made. -/
theorem address_ne {i : Nat} {q' : Awaiter} {a : Address} (hi : s.made[i]? = some (q', a)) (hne : i ≠ d.request)
    (hlater : i < d.request → s.address d.request ≠ some a) : a ≠ c.userData := by
  rintro rfl
  rcases Nat.lt_or_gt_of_ne hne with hlt | hgt
  · exact hlater hlt (address_of_made hq)
  · exact (h.waiting d.request q _ hq hnc).2.2 i hgt (address_of_made hi)

theorem waiting_call {i : Nat} {q' : Awaiter} {a : Address} (hi : s.made[i]? = some (q', a))
    (hnc' : ∀ d' ∈ r.calls ++ [d], d'.request ≠ i) :
    Function.update s.live c.userData false a = true ∧
      q'.Informed (Function.update s.info c.userData ((s.info c.userData).callback c.res) a) ∧
      ∀ j, i < j → s.address j ≠ some a := by
  obtain ⟨hl, hinf, hlast⟩ := h.waiting i q' a hi fun d' hd' => hnc' d' (List.mem_append_left _ hd')
  have hne : i ≠ d.request := fun heq => hnc' d (List.mem_append_right _ List.mem_cons_self) heq.symm
  have hne' := address_ne h hq hnc hi hne fun hlt => hlast d.request hlt
  rw [Function.update_of_ne hne', Function.update_of_ne hne']
  exact ⟨hl, hinf, hlast⟩

include hres in
theorem result_call {i : Nat} {q' : Awaiter} {a : Address} (hi : s.made[i]? = some (q', a))
    (hlast : ∀ j, i < j → s.address j ≠ some a)
    (hcalled : ∃ d' ∈ r.calls ++ [d], d'.request = i) :
    Function.update r.result d.request (some ((r.request d.request).callback d.res)) i =
      some (Function.update s.info c.userData ((s.info c.userData).callback c.res) a).result.toInt := by
  by_cases hid : i = d.request
  · subst hid
    rw [hq] at hi
    cases hi
    have hinf := (h.waiting d.request q _ hq hnc).2.1
    rw [Function.update_self, Function.update_self, Awaiter.callback_result hinf, h.request _ _ _ hq, hres]
  · have hne' := address_ne h hq hnc hi hid fun hlt => hlast d.request hlt
    rw [Function.update_of_ne hid, Function.update_of_ne hne']
    refine h.result i q' a hi hlast ?_
    obtain ⟨d', hd', heq⟩ := hcalled
    rw [List.mem_append, List.mem_singleton] at hd'
    rcases hd' with hd' | rfl
    · exact ⟨d', hd', heq⟩
    · exact absurd heq.symm hid

end

/-- The callback of an awaiter is called with its own `m_info`. -/
theorem same_callback (hk : Kept cfg s) (hr : Ring.Kept r) (h : Same cfg s r) {k n : Nat}
    (hp : s.pc = .callback k n) (hkn : k < n) : ∃ r', Reach (Ring.step cfg.ring) (Strict all) r r' ∧
      Same cfg ((s.handleCqeEntry (s.cq.cqes (s.urc k))).goto (.callback (k + 1) n)) r' := by
  have hpc : r.pc = .callback k n := by rw [h.pc, hp]; rfl
  obtain ⟨d, hd, ha, hres⟩ := h.getElem (hk.urc hp hkn)
  obtain ⟨⟨q, a⟩, hq, hqa⟩ := Option.map_eq_some_iff.mp ha
  cases hqa
  have hout : d.request ∈ Ring.outstanding r := by
    obtain ⟨hlt, heq⟩ := List.getElem?_eq_some_iff.mp hd
    apply List.mem_append_right
    apply List.mem_map_of_mem
    rw [hpc, Ring.called, List.drop_eq_getElem_cons hlt, heq]
    exact List.mem_cons_self
  have hnc := hr.not_called hout
  have hstep : Ring.step cfg.ring .step r = some ((r.handleCqeEntry d).goto (.callback (k + 1) n)) := by
    simp [Ring.step, Ring.State.pollStep, hpc, hkn, hd]
  refine ⟨_, one_step (strict_of_ne (by simp)) hstep, { h with
    eventfd := ?_, pc := rfl, found := trivial, calls := ?_, submitted := ?_
    waiting := fun i q' a hi hnc' => waiting_call h hq hnc hi hnc'
    result := fun i q' a hi hlast hcalled => result_call h hq hres hnc hi hlast hcalled }⟩
  · simp [Ring.State.goto, Ring.State.handleCqeEntry, State.goto, State.handleCqeEntry]
  · simp only [Ring.State.goto, Ring.State.handleCqeEntry, State.goto, State.handleCqeEntry, List.map_append, List.map_cons,
      List.map_nil]
    rw [← h.calls, ← ha, ← hres]
    rfl
  · simp only [Ring.State.goto, Ring.State.handleCqeEntry, State.goto, State.handleCqeEntry, List.map_append, List.map_cons,
      List.map_nil]
    rw [← h.submitted, ← ha]
    rfl

theorem same_callbackEnd (hk : Kept cfg s) (h : Same cfg s r) {k n : Nat} (hp : s.pc = .callback k n) (hkn : ¬ k < n) :
    ∃ r', Reach (Ring.step cfg.ring) (Strict all) r r' ∧
      Same cfg { s with
        pc := .subRunning n
        cq := s.cq.advance (.ofNat 32 n)
        consumed := s.consumed ++ s.batch n } r' := by
  have hpc : r.pc = .callback k n := by rw [h.pc, hp]; rfl
  have hstep : Ring.step cfg.ring .step r =
      some { r with pc := .subRunning n, cq := r.cq.drop n, consumed := r.consumed ++ r.cq.take n } := by
    simp [Ring.step, Ring.State.pollStep, hpc, hkn]
  refine ⟨_, one_step (strict_of_ne (by simp)) hstep, { h with pc := rfl, found := trivial, cq := ?_ }⟩
  rw [hk.visible_advance (hk.batch k n hp).2.1 rfl, List.map_drop, List.map_drop, ← h.cq]
  rfl

/-- Each step on the rings is none, one or two of the engine alone. -/
theorem same_steps (hk : Kept cfg s) (hr : Ring.Kept r) (h : Same cfg s r) {l : Label} (hall : all → TakesAll l s)
    (hst : Steps cfg s l t) : ∃ r', Reach (Ring.step cfg.ring) (Strict all) r r' ∧ Same cfg t r' := by
  have hfound := h.found
  cases hst with
  | request q info hp hlive hinfo hfull => exact same_request hk hr h hp hlive hfull
  | poll hp => exact same_poll h (by rw [hp]; rfl)
  | submit n hp =>
    rw [Sq.flush_eq hk.flushed]
    refine ⟨r, .start, { h with pc := ?_, found := trivial }⟩
    rw [h.pc, hp]
    rfl
  | submitFlags n submitted hp =>
    split
    · refine ⟨r, .start, h.stay ?_ trivial⟩
      rw [hp]
      rfl
    · rename_i hnone
      rw [not_or, ne_eq, not_not] at hnone
      obtain ⟨hsub, -⟩ := hk.submitted submitted (by rw [hp]; rfl)
      have hlen : (s.pending cfg).length = 0 := by
        rw [State.pending, contents_length, ← hsub, hnone.1]
        rfl
      have haccept : ∃ r', Reach (Ring.step cfg.ring) (Strict all) r r' ∧
          Same cfg ((s.take cfg 0).goto (.addRunning n)) r' := by
        refine same_accept hk h (by rw [hp]; rfl) Int.toNat_zero.symm ?_ ?_
        · rw [hlen]
          exact Int.le_refl 0
        · intro _
          rw [hlen]
          rfl
      rw [take_zero] at haccept
      exact haccept
  | addRunning n hp =>
    have hstep : Ring.step cfg.ring .step r =
        some { r with pc := .subSubmit n, ioRunningCount := r.ioRunningCount + n } := by
      simp [Ring.step, Ring.State.pollStep, h.pc, hp, Pc.ring]
    exact ⟨_, one_step (strict_of_ne (by simp)) hstep,
      { h with ioRunningCount := congrArg (· + n) h.ioRunningCount, pc := rfl, found := trivial }⟩
  | subSubmit n hp =>
    have hpc : r.pc = .subSubmit n := by rw [h.pc, hp]; rfl
    have hload := (hr.loaded n (by rw [hpc]; rfl)).1
    have hstep : Ring.step cfg.ring .step r =
        some { r with pc := .pollRunning, ioSubmitCount := r.ioSubmitCount - n } := by
      simp [Ring.step, Ring.State.pollStep, hpc]
    refine ⟨_, one_step (strict_of_ne (by simp)) hstep,
      { h with ioSubmitCount := congrArg (· - n) h.ioSubmitCount, pc := rfl, found := ?_ }⟩
    simp only [Found]
    rw [← h.ioSubmitCount, hload, Nat.sub_self]
  | pollRunning hp => exact same_pollRunning h hp
  | waitEventfd hp he =>
    have hne : r.eventfd ≠ 0 := fun hz => he (h.eventfd.mp hz)
    have hstep : Ring.step cfg.ring .step r = some { r with pc := .idle, eventfd := 0 } := by
      simp [Ring.step, Ring.State.pollStep, h.pc, hp, Pc.ring, hne]
    exact ⟨_, one_step (strict_of_ne (by simp)) hstep, { h with eventfd := Iff.rfl, pc := rfl, found := trivial }⟩
  | peek hp =>
    simp only [Found, hp] at hfound
    rw [hk.peekCqe]
    split
    · refine ⟨r, .start, h.stay ?_ hfound⟩
      rw [hp]
      rfl
    · exact same_peek h (by rw [hp]; rfl) ‹_›
  | getCqe looped hp =>
    simp only [Found, hp] at hfound
    have hring : s.pc.ring = .peek := by rw [hp]; rfl
    rw [hk.peekCqe]
    split
    · split
      · exact same_peekNone h hring ‹_› rfl trivial
      · exact same_peekNone h hring ‹_› rfl hfound
    · exact same_peek h hring ‹_›
  | getFlags hp =>
    simp only [Found, hp] at hfound
    have hring : s.pc.ring = .idle := by rw [hp]; rfl
    split
    · exact ⟨r, .start, h.stay hring.symm hfound⟩
    · exact ⟨r, .start, h.stay hring.symm trivial⟩
  | batch again hp => exact same_batch h hp
  | batchFlags hp =>
    simp only [Found, hp] at hfound
  | callback k n hp hkn => exact same_callback hk hr h hp hkn
  | callbackEnd k n hp hkn => exact same_callbackEnd hk h hp hkn
  | subRunning n hp =>
    have hstep : Ring.step cfg.ring .step r = some { r with pc := .idle, ioRunningCount := r.ioRunningCount - n } := by
      simp [Ring.step, Ring.State.pollStep, h.pc, hp, Pc.ring]
    exact ⟨_, one_step (strict_of_ne (by simp)) hstep,
      { h with ioRunningCount := congrArg (· - n) h.ioRunningCount, pc := rfl, found := trivial }⟩
  | enterSubmit n submitted getevents res hp hres hle =>
    obtain ⟨hsub, -⟩ := hk.submitted submitted (by rw [hp]; rfl)
    have hlen : submitted.toNat = (s.pending cfg).length := by rw [hsub, State.pending, contents_length]
    refine same_accept hk h (by rw [hp]; rfl) rfl ?_ ?_
    · rw [← hlen]
      exact hres
    · intro ha
      have htakes := hall ha
      simp only [TakesAll, takesLess, hp, bne_eq_false_iff_eq] at htakes
      rw [← hlen]
      exact htakes
  | enterFail res hp hneg =>
    refine ⟨r, .start, h.stay ?_ trivial⟩
    rw [hp]
    rfl
  | enterEvents res hp ho => exact same_enterEvents h hp
  | enterBatch res hp =>
    simp only [Found, hp] at hfound
  | complete i e res signal he ho hr =>
    obtain ⟨id, is, js, hperm, hid, his, hjs⟩ := h.running he
    exact same_post h hr hperm his hjs hid
  | overflow i e res signal he ho =>
    cases signal with
    | true =>
      have hstep : Ring.step cfg.ring .write r = some { r with eventfd := r.eventfd + 1 } := rfl
      exact ⟨_, one_step (strict_of_ne (by simp)) hstep, same_overflow h he (by simp)⟩
    | false => exact ⟨r, .start, same_overflow h he h.eventfd⟩
  | flush c rest ho hi hroom =>
    obtain ⟨is, js, hperm, his, hjs⟩ := h.kernel
    rw [ho, List.map_cons] at hjs
    obtain ⟨id, js', rfl, hid, hjs'⟩ := List.map_eq_cons_iff.mp hjs
    exact same_post h hroom (hperm.trans List.perm_middle) his hjs' hid
  | write =>
    have hstep : Ring.step cfg.ring .write r = some { r with eventfd := r.eventfd + 1 } := rfl
    exact ⟨_, one_step (strict_of_ne (by simp)) hstep, { h with eventfd := by simp }⟩

theorem reach_same {m : Memory} {ok : Label → State → Prop} (hok : ∀ l s, ok l s → all → TakesAll l s)
    (h : Reach (step cfg) ok (init cfg m) s) : ∃ r, Reach (Ring.step cfg.ring) (Strict all) Ring.init r ∧ Same cfg s r := by
  refine h.simulate (Same cfg) (same_init m) ?_
  intro l s r t ho hs hr hsame ht
  exact same_steps (kept_reachable hs.reachable) (Ring.reachable_kept hr.reachable) hsame (hok l s ho) (step_cases ht)

/-- Whatever the kernel does and wherever the counters wrap, the engine on the rings is in a
state of the engine alone: the same counters, at the same place, with the requests in the
same lists, in the same order, and with the same results. -/
theorem rings_refine {m : Memory} (h : Reachable (step cfg) (init cfg m) s) :
    ∃ r, Reachable (Ring.step cfg.ring) Ring.init r ∧ Same cfg s r := by
  obtain ⟨r, hr, hsame⟩ : ∃ r, Reach (Ring.step cfg.ring) (Strict False) Ring.init r ∧ Same cfg s r :=
    reach_same (fun _ _ _ hfalse => hfalse.elim) h
  exact ⟨r, hr.reachable, hsame⟩

theorem rings_refine_noRoom : ∃ s r, exec (step twoAndOne) noRoom (init twoAndOne worn) = some s ∧
    Reachable (Ring.step twoAndOne.ring) Ring.init r ∧ Same twoAndOne s r ∧ r.pc = .callback 1 1 := by
  have hs : exec (step twoAndOne) noRoom (init twoAndOne worn) = some _ := rfl
  obtain ⟨r, hr, hsame⟩ := rings_refine (Reachable.of_exec _ hs)
  exact ⟨_, r, rfl, hr, hsame, hsame.pc⟩

/-- While the kernel takes every entry that it is given, the counters of the engine agree
between two calls of `poll_submit` with those of the rings and what the kernel has. -/
theorem ring_counters_exact {m : Memory} (h : Reach (step cfg) TakesAll (init cfg m) s) (hp : s.pc = .idle) :
    s.ioSubmitCount = (s.sq.sqeTail - s.sq.khead).toNat ∧
    s.ioRunningCount = s.running.length + s.overflow.length + (s.cq.ktail - s.cq.khead).toNat := by
  obtain ⟨r, hr, hsame⟩ : ∃ r, Reach (Ring.step cfg.ring) (Strict True) Ring.init r ∧ Same cfg s r :=
    reach_same (fun _ _ ho _ => ho) h
  have hr' : Reach (Ring.step cfg.ring) Ring.AcceptsAll Ring.init r := hr.weaken fun _ _ ho => ho trivial
  have hpc : r.pc = .idle := by rw [hsame.pc, hp]; rfl
  obtain ⟨hsub, hrun⟩ := (Ring.reach_prepared hr').exact (Ring.reachable_kept hr.reachable) hpc
  constructor
  · rw [← hsame.ioSubmitCount, hsub, hsame.sq, List.length_range', State.pending, contents_length]
  · rw [← hsame.ioRunningCount, hrun, hsame.kernel_length, hsame.cq_length]
    rfl

/-- Of two requests one is completed and handled. -/
theorem ring_counters_exact_half : ∃ s,
    exec (step twoAndOne) (noRoom.take 16) (init twoAndOne worn) = some s ∧ s.pc = .idle ∧ s.overflow.length = 1 ∧
    s.ioRunningCount = s.running.length + s.overflow.length + (s.cq.ktail - s.cq.khead).toNat := by
  have hs : exec (step twoAndOne) (noRoom.take 16) (init twoAndOne worn) = some _ := rfl
  have hall : Along (step twoAndOne) TakesAll (noRoom.take 16) (init twoAndOne worn) := by decide
  exact ⟨_, rfl, rfl, rfl, (ring_counters_exact (Reach.exec .start hall hs) rfl).2⟩

/-- `empty_io()` is true only when the callbacks of all awaiters have been called, and nothing
is left in the rings or with the kernel, also if the kernel takes less than it is given. -/
theorem empty_io_on_rings {m : Memory} (h : Reachable (step cfg) (init cfg m) s) (h1 : s.ioSubmitCount = 0)
    (h2 : s.ioRunningCount = 0) : s.calls.length = s.made.length ∧ s.pending cfg = [] ∧ s.running = [] ∧ s.overflow = [] ∧
    (s.visible cfg).drop (called s.pc) = [] := by
  obtain ⟨r, hr, hsame⟩ : ∃ r, Reach (Ring.step cfg.ring) (Strict False) Ring.init r ∧ Same cfg s r :=
    reach_same (fun _ _ _ hfalse => hfalse.elim) h
  have hk := kept_reachable h
  have hrk := Ring.reachable_kept hr.reachable
  have hnil : Ring.outstanding r = [] := by
    have htotal := hrk.total
    rw [hsame.ioSubmitCount, hsame.ioRunningCount, h1, h2] at htotal
    exact List.length_eq_zero_iff.mp (by omega)
  have hcalls : s.calls.length = s.made.length := by
    have hperm := hrk.perm.length_eq
    have hlen := congrArg List.length hsame.calls
    rw [List.length_map, List.length_map] at hlen
    rw [hnil, List.append_nil, List.length_map, List.length_range, hsame.next, hlen] at hperm
    exact hperm
  rw [Ring.outstanding, List.append_eq_nil_iff, List.append_eq_nil_iff] at hnil
  obtain ⟨⟨hsq, hkernel⟩, -⟩ := hnil
  have hpending : s.pending cfg = [] := by
    rw [hsame.sq, List.range'_eq_nil_iff] at hsq
    exact List.length_eq_zero_iff.mp hsq
  have hlen := hsame.kernel_length
  rw [hkernel, List.length_nil] at hlen
  have hrunning : s.running = [] := List.length_eq_zero_iff.mp (by omega)
  have hoverflow : s.overflow = [] := List.length_eq_zero_iff.mp (by omega)
  refine ⟨hcalls, hpending, hrunning, hoverflow, ?_⟩
  -- as many callbacks as completions, and as many completions as awaiters
  have hposted := congrArg List.length hk.posted
  have htaken := hk.accounted.length_eq
  have hmade := hk.made_length
  have hcalled := congrArg List.length hk.calls
  simp only [hrunning, hoverflow, hpending, List.map_nil, List.nil_append, List.append_nil, List.length_append,
    List.length_map, List.length_nil, List.length_take] at hposted htaken hmade hcalled
  apply List.drop_eq_nil_of_le
  omega

/-- Both requests are done, one of them after it had waited for room. -/
theorem empty_io_on_rings_noRoom : ∃ s,
    exec (step twoAndOne) (noRoom ++ [.step, .step]) (init twoAndOne worn) = some s ∧ s.ioSubmitCount = 0 ∧
    s.ioRunningCount = 0 ∧ s.calls.length = s.made.length := by
  have hs : exec (step twoAndOne) (noRoom ++ [.step, .step]) (init twoAndOne worn) = some _ := rfl
  exact ⟨_, rfl, rfl, rfl, (empty_io_on_rings (Reachable.of_exec _ hs) rfl rfl).1⟩

end
end TinyCoro.Uring
