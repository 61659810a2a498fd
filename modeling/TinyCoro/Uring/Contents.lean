import Mathlib.Data.List.Perm.Basic
import TinyCoro.Uring.Engine

/-! What is in the rings. Their counters wrap and their places are used again and again, and
the kernel moves at any time; seen as lists, nothing is lost, repeated, reordered or changed. -/
namespace TinyCoro.Uring
open Transition Words

def State.pending (cfg : Config) (s : State) : List Sqe := contents cfg.sqEntries s.sq.sqes s.sq.khead s.sq.sqeTail

def State.visible (cfg : Config) (s : State) : List Cqe := contents cfg.cqEntries s.cq.cqes s.cq.khead s.cq.ktail

def State.prepared (s : State) : List Sqe := s.made.map fun p => p.1.sqe p.2

def called : Pc → Nat
  | .callback k _ => k
  | _ => 0

def Pc.submitted : Pc → Option Unsigned
  | .submitFlags _ submitted => some submitted
  | .submitEnter _ submitted _ => some submitted
  | _ => none

/-- What every step keeps. Each entry that the kernel took is with it, or has been completed once. -/
structure Kept (cfg : Config) (s : State) : Prop where
  array : s.sq.array = fun i => if i < cfg.sqEntries then i else 0
  sqFits : (s.sq.sqeTail - s.sq.khead).toNat ≤ cfg.sqEntries.toNat
  flushed : s.sq.sqeHead = s.sq.ktail
  submitted : ∀ u, s.pc.submitted = some u → u = s.sq.sqeTail - s.sq.khead ∧ s.sq.ktail = s.sq.sqeTail
  prepared : s.taken ++ s.pending cfg = s.prepared
  addresses : ∀ p ∈ s.made, p.2 ≠ BitVec.allOnes 64
  cqFits : s.cq.ready.toNat ≤ cfg.cqEntries.toNat
  posted : s.posted = s.consumed ++ (s.visible cfg ++ s.overflow)
  calls : s.calls = s.consumed ++ (s.visible cfg).take (called s.pc)
  batch : ∀ k n, s.pc = .callback k n → k ≤ n ∧ n ≤ s.cq.ready.toNat ∧
    ∀ j < n, s.urc j = (s.cq.khead + .ofNat 32 j) &&& (cfg.cqEntries - 1)
  accounted : (s.running.map Sqe.userData ++ s.posted.map Cqe.userData).Perm (s.taken.map Sqe.userData)

section
variable {cfg : Config} {s t : State}

theorem Cq.advance_eq (nr : Unsigned) (cq : Cq) : cq.advance nr = { cq with khead := cq.khead + nr } := by
  unfold Cq.advance
  split
  · rfl
  · rename_i h
    have hzero : nr = 0 := not_not.mp h
    subst hzero
    simp

/-- After `__io_uring_flush_sq` the kernel sees all entries. -/
theorem Sq.flush_eq {sq : Sq} (h : sq.sqeHead = sq.ktail) :
    sq.flush.1 = { sq with sqeHead := sq.sqeTail, ktail := sq.sqeTail } := by
  unfold Sq.flush
  dsimp only
  split
  · rfl
  · rename_i hsame
    obtain ⟨khead, ktail, array, sqes, sqeHead, sqeTail⟩ := sq
    dsimp only at h hsame ⊢
    rw [ne_eq, not_not] at hsame
    rw [← hsame, ← h]

/-- The engine goes on to a place that is in no batch. -/
theorem Kept.goto (hs : Kept cfg s) {p : Pc} (hp : called s.pc = 0)
    (hpc : p.submitted = none ∨ p.submitted = s.pc.submitted) (hpc' : ∀ k n, p ≠ .callback k n) : Kept cfg (s.goto p) := by
  refine { hs with submitted := ?_, calls := ?_, batch := ?_ }
  · intro u hu
    rcases hpc with hpc | hpc
    · rw [State.goto, hpc] at hu
      cases hu
    · rw [State.goto, hpc] at hu
      exact hs.submitted u hu
  · have hcalls := hs.calls
    rw [hp] at hcalls
    cases p with
    | callback k n => exact absurd rfl (hpc' k n)
    | _ => exact hcalls
  · intro k n hk
    exact absurd hk (hpc' k n)

theorem pending_put (h : ¬ cfg.sqEntries ≤ s.sq.sqeTail - s.sq.khead) {q : Awaiter} {info : Address}
    (ht : t.sq = s.sq.put cfg q info) : t.pending cfg = s.pending cfg ++ [q.sqe info] := by
  rw [BitVec.le_def, Nat.not_le] at h
  rw [State.pending, ht]
  exact contents_push cfg.sqPower h _

/-- An awaiter prepares its entry. -/
theorem Kept.request (hs : Kept cfg s) {q : Awaiter} {info : Address} (hp : s.pc = .idle) (hinfo : info ≠ BitVec.allOnes 64)
    (h : ¬ cfg.sqEntries ≤ s.sq.sqeTail - s.sq.khead) :
    Kept cfg { s with
      sq := s.sq.put cfg q info
      info := Function.update s.info info (q.inform (s.info info))
      live := Function.update s.live info true
      ioSubmitCount := s.ioSubmitCount + 1
      made := s.made ++ [(q, info)] } := by
  refine { hs with sqFits := ?_, submitted := ?_, prepared := ?_, addresses := ?_ }
  · rw [BitVec.le_def, Nat.not_le] at h
    exact Nat.le_trans (Nat.le_of_eq (toNat_sub_push h)) h
  · intro u hu
    simp only [hp] at hu
    cases hu
  · rw [pending_put h rfl, State.prepared, List.map_append, ← List.append_assoc, hs.prepared]
    rfl
  · intro p hmem
    rw [List.mem_append, List.mem_singleton] at hmem
    rcases hmem with hmem | rfl
    · exact hs.addresses p hmem
    · exact hinfo

/-- `__io_uring_flush_sq` shows the entries to the kernel. -/
theorem Kept.flush (hs : Kept cfg s) {n : Nat} (hp : s.pc = .submit n) :
    Kept cfg { s with sq := s.sq.flush.1, pc := .submitFlags n s.sq.flush.2 } := by
  rw [Sq.flush_eq hs.flushed]
  refine { hs with flushed := rfl, submitted := ?_, calls := ?_, batch := ?_ }
  · intro u hu
    cases hu
    exact ⟨rfl, rfl⟩
  · have hcalls := hs.calls
    rw [hp] at hcalls
    exact hcalls
  · intro k n hk
    cases hk

/-- The index array is no detour. -/
theorem Kept.entries (hs : Kept cfg s) {k : Nat} (hk : k ≤ (s.sq.sqeTail - s.sq.khead).toNat) :
    s.sq.entries cfg k = (s.pending cfg).take k := by
  have hread : (List.range k).map (fun j => s.sq.sqes ((s.sq.khead + .ofNat 32 j) &&& (cfg.sqEntries - 1))) =
      (s.pending cfg).take k := by
    apply (holds_contents hs.sqFits).read
    rw [contents_length]
    exact hk
  rw [← hread, Sq.entries]
  apply List.map_congr_left
  intro j _
  have hlt : (s.sq.khead + BitVec.ofNat 32 j) &&& (cfg.sqEntries - 1) < cfg.sqEntries := by
    rw [BitVec.lt_def, and_mask cfg.sqPower, cfg.sqPower]
    exact Nat.mod_lt _ (Nat.two_pow_pos _)
  rw [hs.array]
  simp only [hlt, if_true]

theorem Kept.pending_take (hs : Kept cfg s) {k : Nat} (hk : k ≤ (s.sq.sqeTail - s.sq.khead).toNat) :
    (s.take cfg k).pending cfg = (s.pending cfg).drop k :=
  contents_drop hs.sqFits hk

/-- The kernel takes entries. -/
theorem Kept.take (hs : Kept cfg s) {k : Nat} (hk : k ≤ (s.sq.sqeTail - s.sq.khead).toNat) {p : Pc}
    (hpc : p.submitted = none) (hcalled : called s.pc = 0) (hpc' : ∀ k n, p ≠ .callback k n) :
    Kept cfg ((s.take cfg k).goto p) := by
  have hgoto := hs.goto hcalled (.inl hpc) hpc'
  refine { hgoto with sqFits := ?_, submitted := ?_, prepared := ?_, accounted := ?_ }
  · simp only [State.goto, State.take]
    rw [toNat_sub_drop hk]
    exact Nat.le_trans (Nat.sub_le _ _) hs.sqFits
  · intro u hu
    rw [State.goto, hpc] at hu
    cases hu
  · have hprepared := hs.prepared
    rw [← List.take_append_drop k (s.pending cfg), ← hs.entries hk, ← hs.pending_take hk, ← List.append_assoc] at hprepared
    exact hprepared
  · simp only [State.goto, State.take, List.map_append]
    rw [List.append_assoc]
    apply List.Perm.trans _ (hs.accounted.append_right _)
    rw [List.append_assoc]
    exact List.perm_append_comm.append_left _

theorem visible_length : (s.visible cfg).length = s.cq.ready.toNat := contents_length

theorem Kept.called_le (hs : Kept cfg s) : called s.pc ≤ (s.visible cfg).length := by
  rw [visible_length]
  cases hp : s.pc with
  | callback k n => exact Nat.le_trans (hs.batch k n hp).1 (hs.batch k n hp).2.1
  | _ => exact Nat.zero_le _

theorem room_iff : s.room cfg = true ↔ s.cq.ready.toNat < cfg.cqEntries.toNat := by
  rw [State.room, decide_eq_true_iff, BitVec.lt_def]

theorem ready_post (hr : s.room cfg = true) {c : Cqe} : (s.cq.post cfg c).ready.toNat = s.cq.ready.toNat + 1 :=
  toNat_sub_push (room_iff.mp hr)

theorem visible_post (hr : s.room cfg = true) {c : Cqe} (ht : t.cq = s.cq.post cfg c) :
    t.visible cfg = s.visible cfg ++ [c] := by
  rw [State.visible, ht]
  exact contents_push cfg.cqPower (room_iff.mp hr) c

/-- A completion goes into the ring, with those that wait for room behind it. -/
theorem Kept.post (hs : Kept cfg s) {c : Cqe} {running : List Sqe} {overflow posted : List Cqe} (hr : s.room cfg = true)
    (hposted : posted = s.consumed ++ (s.visible cfg ++ c :: overflow))
    (haccounted : (running.map Sqe.userData ++ posted.map Cqe.userData).Perm (s.taken.map Sqe.userData)) :
    Kept cfg { s with
      running := running, overflow := overflow, cq := s.cq.post cfg c, eventfd := s.eventfd + 1, posted := posted } := by
  refine { hs with cqFits := ?_, posted := ?_, calls := ?_, batch := ?_, accounted := haccounted }
  · dsimp only
    rw [ready_post hr]
    exact room_iff.mp hr
  · rw [visible_post hr rfl, List.append_assoc, List.singleton_append]
    exact hposted
  · rw [visible_post hr rfl, List.take_append_of_le_length hs.called_le]
    exact hs.calls
  · intro k n hp
    obtain ⟨hkn, hn, hbatch⟩ := hs.batch k n hp
    refine ⟨hkn, ?_, hbatch⟩
    dsimp only
    rw [ready_post hr]
    exact Nat.le_succ_of_le hn

/-- The kernel has completed one of its entries. -/
theorem Kept.complete (hs : Kept cfg s) {i : Nat} {e : Sqe} (he : s.running[i]? = some e) (res : BitVec 32) :
    ((s.running.eraseIdx i).map Sqe.userData ++ (s.posted ++ [Cqe.mk e.userData res]).map Cqe.userData).Perm
      (s.taken.map Sqe.userData) := by
  obtain ⟨hi, rfl⟩ := List.getElem?_eq_some_iff.mp he
  have herase := (List.getElem_cons_eraseIdx_perm hi).map Sqe.userData
  rw [List.map_append, ← List.append_assoc]
  apply List.Perm.trans _ hs.accounted
  apply (List.perm_append_singleton _ _).trans
  exact herase.append_right _

/-- A completion for which there is no room is the last one. -/
theorem Kept.wait (hs : Kept cfg s) {i n : Nat} {e : Sqe} {res : BitVec 32} (he : s.running[i]? = some e) :
    Kept cfg { s with
      running := s.running.eraseIdx i
      overflow := s.overflow ++ [⟨e.userData, res⟩]
      eventfd := n
      posted := s.posted ++ [⟨e.userData, res⟩] } := by
  refine { hs with posted := ?_, accounted := hs.complete he res }
  dsimp only
  rw [hs.posted, List.append_assoc, List.append_assoc]
  rfl

/-- The pointers of the batch point to the first entries of the ring. -/
theorem Kept.urc (hs : Kept cfg s) {k n j : Nat} (hp : s.pc = .callback k n) (hj : j < n) :
    (s.visible cfg)[j]? = some (s.cq.cqes (s.urc j)) := by
  obtain ⟨-, hn, hbatch⟩ := hs.batch k n hp
  have hlt : j < (s.cq.ktail - s.cq.khead).toNat := Nat.lt_of_lt_of_le hj hn
  rw [hbatch j hj, State.visible, contents, List.getElem?_map, List.getElem?_range hlt]
  rfl

theorem Kept.batch_eq (hs : Kept cfg s) {k n : Nat} (hp : s.pc = .callback k n) : s.batch n = (s.visible cfg).take n := by
  apply List.ext_getElem?
  intro j
  rcases Nat.lt_or_ge j n with hj | hj
  · rw [List.getElem?_take_of_lt hj, hs.urc hp hj, State.batch, List.getElem?_map, List.getElem?_range hj]
    rfl
  · rw [List.getElem?_eq_none (by simpa [State.batch] using hj), List.getElem?_eq_none (by simp; omega)]

theorem Kept.callback (hs : Kept cfg s) {k n : Nat} (hp : s.pc = .callback k n) (hk : k < n) :
    Kept cfg ((s.handleCqeEntry (s.cq.cqes (s.urc k))).goto (.callback (k + 1) n)) := by
  refine { hs with submitted := ?_, calls := ?_, batch := ?_ }
  · intro u hu
    cases hu
  · have hcalls := hs.calls
    rw [hp] at hcalls
    simp only [State.goto, State.handleCqeEntry, hcalls, called, List.append_assoc]
    rw [State.visible, State.visible, List.take_add_one]
    have hget := hs.urc hp hk
    rw [State.visible] at hget
    rw [hget]
    rfl
  · intro k' n' hp'
    cases hp'
    exact ⟨hk, (hs.batch k n hp).2⟩

theorem Kept.visible_advance (hs : Kept cfg s) {n : Nat} (hn : n ≤ s.cq.ready.toNat)
    (ht : t.cq = s.cq.advance (.ofNat 32 n)) : t.visible cfg = (s.visible cfg).drop n := by
  rw [State.visible, ht, Cq.advance_eq]
  exact contents_drop hs.cqFits hn

theorem Kept.callbackEnd (hs : Kept cfg s) {k n : Nat} (hp : s.pc = .callback k n) (hk : ¬ k < n) :
    Kept cfg { s with
      pc := .subRunning n
      cq := s.cq.advance (.ofNat 32 n)
      consumed := s.consumed ++ s.batch n } := by
  obtain ⟨hkn, hn, -⟩ := hs.batch k n hp
  have hbatch := hs.batch_eq hp
  refine { hs with submitted := ?_, cqFits := ?_, posted := ?_, calls := ?_, batch := ?_ }
  · intro u hu
    cases hu
  · have hready : (s.cq.advance (.ofNat 32 n)).ready.toNat = s.cq.ready.toNat - n := by
      rw [Cq.advance_eq]
      exact toNat_sub_drop hn
    dsimp only
    rw [hready]
    exact Nat.le_trans (Nat.sub_le _ _) hs.cqFits
  · rw [hs.visible_advance hn rfl, hbatch, List.append_assoc, ← List.append_assoc (List.take n _), List.take_append_drop]
    exact hs.posted
  · have hcalls := hs.calls
    have hkeq : k = n := by omega
    rw [hp, hkeq] at hcalls
    simp only [hbatch, called, List.take_zero, List.append_nil]
    exact hcalls
  · intro k' n' hp'
    cases hp'

/-- A completion is for an awaiter that was made. -/
theorem Kept.address (hs : Kept cfg s) {c : Cqe} (hc : c ∈ s.posted) : ∃ p ∈ s.made, p.2 = c.userData := by
  have htaken : c.userData ∈ s.taken.map Sqe.userData := by
    apply hs.accounted.mem_iff.mp
    exact List.mem_append_right _ (List.mem_map_of_mem hc)
  obtain ⟨e, he, heq⟩ := List.mem_map.mp htaken
  have hprepared : e ∈ s.prepared := by
    rw [← hs.prepared]
    exact List.mem_append_left _ he
  obtain ⟨p, hp, rfl⟩ := List.mem_map.mp hprepared
  exact ⟨p, hp, by rw [← heq, Awaiter.sqe_userData]⟩

/-- No completion is taken for one of the timeouts of liburing. -/
theorem Kept.skips (hs : Kept cfg s) (h : s.cq.ready ≠ 0) : s.cq.skips cfg = false := by
  have hholds : Holds cfg.cqEntries s.cq.cqes s.cq.khead s.cq.ktail (s.visible cfg) := holds_contents hs.cqFits
  cases hv : s.visible cfg with
  | nil => exact absurd (hholds.eq_nil_iff.mpr hv) h
  | cons c rest =>
    have hc : c ∈ s.posted := by
      rw [hs.posted, hv]
      simp
    obtain ⟨p, hp, heq⟩ := hs.address hc
    have hne : c.userData ≠ BitVec.allOnes 64 := by
      rw [← heq]
      exact hs.addresses p hp
    rw [Cq.skips, hholds.first hv, beq_false_of_ne hne, Bool.and_false]

theorem Kept.peekCqe (hs : Kept cfg s) (found none error : Pc) :
    s.peekCqe cfg found none error = s.goto (if s.cq.ready = 0 then none else found) := by
  unfold State.peekCqe
  split
  · rfl
  · rename_i h
    rw [hs.skips h]
    rfl

/-- A batch without entries begins. -/
theorem Kept.noBatch (hs : Kept cfg s) (hp : called s.pc = 0) : Kept cfg (s.goto (.callback 0 0)) := by
  refine { hs with submitted := ?_, calls := ?_, batch := ?_ }
  · intro u hu
    cases hu
  · have hcalls := hs.calls
    rw [hp] at hcalls
    exact hcalls
  · intro k n hpc
    obtain ⟨rfl, rfl⟩ := Pc.callback.inj hpc
    exact ⟨Nat.le_refl _, Nat.zero_le _, fun j hj => absurd hj (Nat.not_lt_zero j)⟩

/-- A batch begins. -/
theorem Kept.peekBatch (hs : Kept cfg s) {p : Pc} (hp : called s.pc = 0) (hnone : Kept cfg (s.goto p)) :
    Kept cfg (s.peekBatch cfg p) := by
  unfold State.peekBatch
  split
  · exact hnone
  · refine { hs with submitted := ?_, calls := ?_, batch := ?_ }
    · intro u hu
      cases hu
    · have hcalls := hs.calls
      rw [hp] at hcalls
      exact hcalls
    · intro k n hpc
      obtain ⟨rfl, rfl⟩ := Pc.callback.inj hpc
      refine ⟨Nat.zero_le _, ?_, ?_⟩
      · split
        · exact Nat.le_refl _
        · rename_i hle
          exact BitVec.le_def.mp (BitVec.not_lt.mp hle)
      · intro j hj
        simp only [hj, if_true]

theorem Kept.steps (hs : Kept cfg s) {l : Label} (h : Steps cfg s l t) : Kept cfg t := by
  cases h with
  | request q info hp hlive hinfo h => exact hs.request hp hinfo h
  | poll hp =>
    apply hs.goto
    · simp [hp, called]
    · left
      split <;> rfl
    · intro k n
      split <;> simp
  | submit n hp => exact hs.flush hp
  | submitFlags n submitted hp =>
    apply hs.goto
    · simp [hp, called]
    · rw [hp]
      split
      · right
        rfl
      · left
        rfl
    · intro k n
      split <;> simp
  | addRunning n hp =>
    have hgoto : Kept cfg (s.goto (.subSubmit n)) := hs.goto (by simp [hp, called]) (.inl rfl) (by simp)
    exact { hgoto with }
  | subSubmit n hp =>
    have hgoto : Kept cfg (s.goto .pollRunning) := hs.goto (by simp [hp, called]) (.inl rfl) (by simp)
    exact { hgoto with }
  | pollRunning hp =>
    apply hs.goto
    · simp [hp, called]
    · left
      split <;> rfl
    · intro k n
      split <;> simp
  | waitEventfd hp he =>
    have hgoto : Kept cfg (s.goto .idle) := hs.goto (by simp [hp, called]) (.inl rfl) (by simp)
    exact { hgoto with }
  | peek hp =>
    rw [hs.peekCqe]
    apply hs.goto
    · simp [hp, called]
    · left
      split <;> rfl
    · intro k n
      split <;> simp
  | getCqe looped hp =>
    rw [hs.peekCqe]
    apply hs.goto
    · simp [hp, called]
    · left
      split
      · split <;> rfl
      · rfl
    · intro k n
      split
      · split <;> simp
      · simp
  | getFlags hp =>
    apply hs.goto
    · simp [hp, called]
    · left
      split <;> rfl
    · intro k n
      split <;> simp
  | batch again hp =>
    have hcalled : called s.pc = 0 := by simp [hp, called]
    apply hs.peekBatch hcalled
    split
    · exact hs.noBatch hcalled
    · exact hs.goto hcalled (.inl rfl) (by simp)
  | batchFlags hp =>
    have hcalled : called s.pc = 0 := by simp [hp, called]
    split
    · exact hs.goto hcalled (.inl rfl) (by simp)
    · exact hs.noBatch hcalled
  | callback k n hp hk => exact hs.callback hp hk
  | callbackEnd k n hp hk => exact hs.callbackEnd hp hk
  | subRunning n hp =>
    have hgoto : Kept cfg (s.goto .idle) := hs.goto (by simp [hp, called]) (.inl rfl) (by simp)
    exact { hgoto with }
  | enterSubmit n submitted getevents res hp hres hk =>
    obtain ⟨-, htail⟩ := hs.submitted submitted (by simp [hp, Pc.submitted])
    rw [htail] at hk
    apply hs.take
    · omega
    · simp [Pc.submitted]
    · simp [hp, called]
    · simp
  | enterFail res hp hres => exact hs.goto (by simp [hp, called]) (.inl rfl) (by simp)
  | enterEvents res hp ho => exact hs.goto (by simp [hp, called]) (.inl rfl) (by simp)
  | enterBatch res hp => exact hs.goto (by simp [hp, called]) (.inl rfl) (by simp)
  | complete i e res signal he ho hr =>
    refine hs.post hr ?_ (hs.complete he res)
    rw [hs.posted, ho, List.append_nil, List.append_assoc]
  | overflow i e res signal he ho => exact hs.wait he
  | flush c rest ho hi hr =>
    have hposted := hs.posted
    rw [ho] at hposted
    exact hs.post hr hposted hs.accounted
  | write => exact { hs with }

theorem kept_init (m : Memory) : Kept cfg (init cfg m) := by
  refine ⟨rfl, ?_, rfl, ?_, ?_, ?_, ?_, ?_, ?_, ?_, .refl _⟩
  · simp [init]
  · simp [init, Pc.submitted]
  · simp [init, State.pending, State.prepared]
  · simp [init]
  · simp [init, Cq.ready]
  · simp [init, State.visible]
  · simp [init, State.visible]
  · simp [init]

theorem kept_reachable {m : Memory} (h : Reachable (step cfg) (init cfg m) s) : Kept cfg s :=
  h.invariant (Kept cfg) (kept_init m) fun _ _ _ _ hs ht => hs.steps (step_cases ht)

/-- The kernel takes the entries in the order of the awaiters, each once and with all its
fields as the constructor wrote them, whatever was in the memory of the ring before and
wherever its counters wrap. An entry is refused exactly when the ring is full, and each entry
that was taken is with the kernel or has been completed once. -/
theorem submissions_in_order {m : Memory} (h : Reachable (step cfg) (init cfg m) s) :
    s.taken ++ s.pending cfg = s.prepared ∧
    (s.sq.getSqe cfg = none ↔ (s.pending cfg).length = cfg.sqEntries.toNat) ∧
    (s.running.map Sqe.userData ++ s.posted.map Cqe.userData).Perm (s.taken.map Sqe.userData) := by
  have hs := kept_reachable h
  refine ⟨hs.prepared, ?_, hs.accounted⟩
  rw [Sq.getSqe_eq_none]
  exact (holds_contents hs.sqFits).full_iff

/-- Room for two submissions and for one completion. -/
def twoAndOne : Config := ⟨2, 1, 8, true, 1, 0, rfl, rfl⟩

def worn : Memory where
  sqes _ := ⟨7, 7, 7, 7, 7, 7, 7, 7, 7, 7, 7, 7, 7, 7⟩
  cqes _ := ⟨7, 7⟩
  info _ := ⟨.nop, 7, 7⟩
  urc _ := 0
  sqStart := -1
  cqStart := -1

/-- The ring is full, and the kernel takes one entry of two. -/
theorem submissions_in_order_partial : ∃ s,
    exec (step twoAndOne) [.request (.tcpClose 3) 64, .request .noop 128, .poll, .step, .step, .enter 1]
      (init twoAndOne worn) = some s ∧
    s.taken = [⟨19, 0, 0, 3, 0, 0, 0, 0, 64, 0, 0, 0, 0, 0⟩] ∧
    s.taken ++ s.pending twoAndOne = s.prepared := by
  have hs : exec (step twoAndOne) [.request (.tcpClose 3) 64, .request .noop 128, .poll, .step, .step, .enter 1]
      (init twoAndOne worn) = some _ := rfl
  exact ⟨_, rfl, rfl, (submissions_in_order (Reachable.of_exec _ hs)).1⟩

/-- After the kernel was asked to empty the overflow, what is left of it found no room. -/
def Sifted (cfg : Config) (s : State) : Prop := s.pc = .getCqe true → s.overflow = [] ∨ s.room cfg = false

theorem Sifted.steps (hk : Kept cfg s) (hs : Sifted cfg s) {l : Label} (h : Steps cfg s l t) : Sifted cfg t := by
  cases h with
  | request q info hp hlive hinfo h => exact hs
  | enterEvents res hp ho => exact fun _ => ho
  | complete i e res signal he ho hr => exact fun _ => .inl ho
  | overflow i e res signal he ho =>
    intro hp
    right
    rcases hs hp with hnone | hroom
    · exact ho hnone
    · exact hroom
  | flush c rest ho hi hr =>
    intro hp
    have hpc : s.pc = .getCqe true := hp
    rw [State.inEvents, hpc] at hi
    cases hi
  | write => exact hs
  | peek hp =>
    rw [hk.peekCqe]
    intro hpc
    simp only [State.goto] at hpc
    split at hpc <;> cases hpc
  | getCqe looped hp =>
    rw [hk.peekCqe]
    intro hpc
    simp only [State.goto] at hpc
    split at hpc
    · split at hpc <;> cases hpc
    · cases hpc
  | batch again hp =>
    unfold State.peekBatch
    intro hpc
    split at hpc
    · simp only [State.goto] at hpc
      split at hpc <;> cases hpc
    · cases hpc
  | poll | submitFlags | pollRunning | getFlags | batchFlags =>
    intro hpc
    simp only [State.goto] at hpc
    split at hpc <;> cases hpc
  | _ =>
    intro hpc
    cases hpc

theorem sifted_reachable {m : Memory} (h : Reachable (step cfg) (init cfg m) s) : Sifted cfg s := by
  have hboth : Kept cfg s ∧ Sifted cfg s := by
    refine h.invariant (fun s => Kept cfg s ∧ Sifted cfg s) ⟨kept_init m, ?_⟩ ?_
    · intro hp
      cases hp
    · rintro l s t - ⟨hk, hs⟩ ht
      exact ⟨hk.steps (step_cases ht), hs.steps hk (step_cases ht)⟩
  exact hboth.2

def Pc.peeks : Pc → Bool
  | .peek | .getCqe _ | .getFlags | .getEvents => true
  | _ => false

/-- `peek_uring` says that there is nothing only if no completion waits for room, or if
`io_uring_enter` has failed. -/
theorem Sifted.overflow (hk : Kept cfg s) (hs : Sifted cfg s) {l : Label} (hp : s.pc.peeks = true)
    (h : Steps cfg s l t) (ht : t.pc = .idle) : s.overflow = [] ∨ ∃ res < 0, s.pc = .getEvents ∧ l = .enter res := by
  cases h with
  | enterFail res hpc hres => exact .inr ⟨res, hres, hpc, rfl⟩
  | getFlags hpc =>
    left
    simp only [State.goto] at ht
    split at ht
    · cases ht
    · rename_i hflush
      simpa [State.needsFlush] using hflush
  | peek hpc =>
    rw [hk.peekCqe] at ht
    simp only [State.goto] at ht
    split at ht <;> cases ht
  | getCqe looped hpc =>
    left
    rw [hk.peekCqe] at ht
    simp only [State.goto] at ht
    split at ht
    · rename_i hready
      split at ht
      · rename_i hl
        rw [hl] at hpc
        rcases hs hpc with ho | hroom
        · exact ho
        · have hpos : 0 < cfg.cqEntries.toNat := by
            rw [cfg.cqPower]
            exact Nat.two_pow_pos _
          rw [State.room, hready, decide_eq_false_iff_not, BitVec.lt_def] at hroom
          exact absurd hpos hroom
      · cases ht
    · cases ht
  | enterEvents => cases ht
  | complete | overflow | flush | write =>
    -- the kernel and other threads leave `poll_submit` where it is
    have hpc : s.pc = .idle := ht
    rw [hpc] at hp
    cases hp
  | _ =>
    rw [‹s.pc = _›] at hp
    cases hp

/-- The callbacks are called for the completions in the order in which the kernel posted
them, each once, also for those that found no room in the ring at first; `peek_uring` says
that there is nothing only if none waits for room, unless `io_uring_enter` fails. -/
theorem completions_in_order {m : Memory} (h : Reachable (step cfg) (init cfg m) s) :
    s.calls ++ ((s.visible cfg).drop (called s.pc) ++ s.overflow) = s.posted ∧
    ∀ l t, step cfg l s = some t → s.pc.peeks = true → t.pc = .idle →
      s.overflow = [] ∨ ∃ res < 0, s.pc = .getEvents ∧ l = .enter res := by
  have hs := kept_reachable h
  constructor
  · rw [hs.calls, hs.posted, List.append_assoc, ← List.append_assoc (List.take _ _), List.take_append_drop]
  · intro l t ht hp hidle
    exact (sifted_reachable h).overflow hs hp (step_cases ht) hidle

def noRoom : List Label :=
  [.request .noop 64, .request (.tcpClose 3) 128, .poll, .step, .step, .enter 2, .complete 1 5 false, .complete 0 0 false,
    .step, .step, .step, .step, .step, .step, .step, .step, .poll, .step, .step, .step, .step, .flush, .enter 0,
    .step, .step, .step]

theorem completions_in_order_noRoom : ∃ s,
    exec (step twoAndOne) noRoom (init twoAndOne worn) = some s ∧ s.pc = .callback 1 1 ∧ s.calls = [⟨128, 5⟩, ⟨64, 0⟩] ∧
    s.calls ++ ((s.visible twoAndOne).drop (called s.pc) ++ s.overflow) = s.posted := by
  have hs : exec (step twoAndOne) noRoom (init twoAndOne worn) = some _ := rfl
  exact ⟨_, rfl, rfl, rfl, (completions_in_order (Reachable.of_exec _ hs)).1⟩

end
end TinyCoro.Uring
