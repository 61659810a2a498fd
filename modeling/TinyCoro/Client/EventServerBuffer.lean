import TinyCoro.Client.EventServer

/-! The buffer that all connections share: when a connection can be sent the bytes of another. -/
namespace TinyCoro.Client.EventServer
open Transition
variable {sockfd fd : Int} {s t : State} {r : Sqe} {e : Cqe} {o : Outcome}

/-- The first `k` bytes of the buffer are on their way back to the descriptor. -/
def Echoing (s : State) (fd : Int) (k : Nat) : Prop :=
  (∃ r ∈ s.sq ++ s.flight, r.info = ⟨fd, .write⟩ ∧ r.len = k) ∨
    ∃ e ∈ s.cq, e.info = ⟨fd, .read⟩ ∧ e.res = k ∧ 0 < k

def inUse (s : State) : Bool :=
  (s.sq ++ s.flight).any (·.info.event == .write) || s.cq.any fun e => e.info.event == .read && decide (0 < e.res)

def Label.brings : Label → Bool
  | .complete _ (.received chunk) => !chunk.isEmpty
  | _ => false

/-- Data arrives only while the buffer is not in use. -/
def Alone (l : Label) (s : State) : Prop := l.brings = true → inUse s = false

instance (l : Label) (s : State) : Decidable (Alone l s) :=
  inferInstanceAs (Decidable (l.brings = true → inUse s = false))

structure Own (s : State) : Prop where
  sent : ∀ c, (s.sent c).Sublist (s.received c)
  buffer : ∀ fd c k, s.table fd = some c → Echoing s fd k →
    ∃ pre, s.received c = pre ++ s.buffer.take k ∧ (s.sent c).Sublist pre

section Buffer
variable {k : Nat}

theorem Echoing.inUse (h : Echoing s fd k) : inUse s = true := by
  unfold EventServer.inUse
  rw [Bool.or_eq_true]
  rcases h with ⟨r, hr, hinfo, -⟩ | ⟨e, he, hinfo, hk, hpos⟩
  · exact .inl (List.any_eq_true.mpr ⟨r, hr, by simp [hinfo]⟩)
  · refine .inr (List.any_eq_true.mpr ⟨e, he, ?_⟩)
    have hres : 0 < e.res := by omega
    simp [hinfo, hres]

theorem Echoing.requests (h : Echoing s fd k) : 0 < requests s fd := by
  unfold EventServer.requests
  rcases h with ⟨r, hr, hinfo, -⟩ | ⟨e, he, hinfo, -⟩
  · have hon : r.on fd = true := by simp [Sqe.on, hinfo]
    have hpos := (List.countP_pos_iff (p := (·.on fd))).mpr ⟨r, hr, hon⟩
    rw [List.countP_append] at hpos
    omega
  · have hon : e.on fd = true := by simp [Cqe.on, hinfo]
    have hpos := (List.countP_pos_iff (p := (·.on fd))).mpr ⟨e, he, hon⟩
    omega

/-- A step that brings nothing into the buffer and sends nothing. -/
theorem Own.keep (hs : Own s) (hb : t.buffer = s.buffer) (hr : t.received = s.received) (hw : t.sent = s.sent)
    (hk : ∀ fd c k, t.table fd = some c → Echoing t fd k → s.table fd = some c ∧ Echoing s fd k) : Own t where
  sent c := by
    rw [hr, hw]
    exact hs.sent c
  buffer fd c k hc he := by
    obtain ⟨hc', he'⟩ := hk fd c k hc he
    rw [hb, hr, hw]
    exact hs.buffer fd c k hc' he'

theorem own_init (sockfd : Int) : Own (init sockfd) where
  sent c := List.Sublist.refl _
  buffer fd c k h := by cases h

theorem own_handle {rest : List Cqe} {n : Pc} (hs : Own s) (hq : s.cq = e :: rest)
    (h : handle sockfd e { s with pc := n, cq := rest } = some t) : Own t := by
  have hcq : ∀ x ∈ rest, x ∈ s.cq := fun x hx => by
    rw [hq]
    exact List.mem_cons_of_mem e hx
  -- a new entry is not a send, or it is the one for the completion
  have hput : ∀ r u v, put r u = some v →
      (∀ fd c k, u.table fd = some c → Echoing u fd k → s.table fd = some c ∧ Echoing s fd k) →
      (∀ fd k, r.info = ⟨fd, .write⟩ → r.len = k → Echoing s fd k) → u.table = s.table →
      ∀ fd c k, v.table fd = some c → Echoing v fd k → s.table fd = some c ∧ Echoing s fd k := by
    intro r u v hv hu hnew htab fd c k hc he
    rw [put_eq hv] at hc he
    rcases he with ⟨r', hr', hinfo, hlen⟩ | he
    · rcases List.mem_append.mp hr' with hr' | hr'
      · rcases List.mem_append.mp hr' with hr' | hr'
        · exact hu fd c k hc (.inl ⟨r', List.mem_append_left _ hr', hinfo, hlen⟩)
        · rw [List.mem_singleton.mp hr'] at hinfo hlen
          exact ⟨by rw [← htab]; exact hc, hnew fd k hinfo hlen⟩
      · exact hu fd c k hc (.inl ⟨r', List.mem_append_right _ hr', hinfo, hlen⟩)
    · exact hu fd c k hc (.inr he)
  have hrest : ∀ fd c k, ({ s with pc := n, cq := rest } : State).table fd = some c →
      Echoing { s with pc := n, cq := rest } fd k → s.table fd = some c ∧ Echoing s fd k := by
    rintro fd c k hc (hr | ⟨x, hx, hx'⟩)
    · exact ⟨hc, .inl hr⟩
    · exact ⟨hc, .inr ⟨x, hcq x hx, hx'⟩⟩
  cases handle_cases h with
  | accept _ hm ht =>
    have hpm := put_eq hm
    have hpt := put_eq ht
    have hfirst := hput _ _ _ hm hrest (by simp) rfl
    exact hs.keep (by rw [hpt, hpm]) (by rw [hpt, hpm]) (by rw [hpt, hpm])
      (hput _ _ _ ht hfirst (by simp) (by rw [hpm]))
  | close =>
    refine hs.keep rfl rfl rfl fun fd c k hc he => hrest fd c k ?_ he
    by_cases hfd : fd = e.info.fd
    · subst hfd
      simp [close] at hc
    · simpa [close, hfd] using hc
  | send hev hpos ht =>
    have hpt := put_eq ht
    refine hs.keep (by rw [hpt]) (by rw [hpt]) (by rw [hpt]) (hput _ _ _ ht hrest (fun fd k hinfo hlen => ?_) rfl)
    refine .inr ⟨e, by simp [hq], ?_, ?_⟩
    · cases hinfo
      rw [← hev]
    · change e.res.toNat = k at hlen
      omega
  | abandon =>
    unfold abandon
    split
    · exact hs.keep rfl rfl rfl hrest
    · exact hs.keep rfl rfl rfl hrest
  | write _ ht =>
    have hpt := put_eq ht
    exact hs.keep (by rw [hpt]) (by rw [hpt]) (by rw [hpt]) (hput _ _ _ ht hrest (by simp) rfl)

/-- A completion that brings no data puts nothing on its way. -/
theorem echoing_post {i : Nat} {rest : List Sqe} {res : Int} {u : State} (he : Echoing (post r res u) fd k)
    (hf : s.flight.drop i = r :: rest) (hres : r.info.event = .read → res ≤ 0) (hq : u.sq = s.sq)
    (hfl : u.flight = s.flight.take i ++ rest) (hcq : u.cq = s.cq) : Echoing s fd k := by
  rcases he with ⟨r', hr', hinfo⟩ | ⟨e, he, hinfo, hk⟩
  · refine .inl ⟨r', ?_, hinfo⟩
    simp only [post, hq, hfl, List.mem_append] at hr'
    rcases hr' with hr' | hr' | hr'
    · exact List.mem_append_left _ hr'
    · exact List.mem_append_right _ (List.mem_of_mem_take hr')
    · refine List.mem_append_right _ (List.mem_of_mem_drop (i := i) ?_)
      rw [hf]
      exact List.mem_cons_of_mem r hr'
  · simp only [post, hcq, List.mem_append, List.mem_singleton] at he
    rcases he with he | rfl
    · exact .inr ⟨e, he, hinfo, hk⟩
    · have hle := hres (by rw [show r.info = _ from hinfo])
      have hk' : res = k ∧ 0 < k := hk
      omega

/-- The bytes of a chunk are in the buffer, and belong to nobody else. -/
theorem own_received {i c : Nat} {rest : List Sqe} {chunk : List Byte} (hs : Own s)
    (hf : s.flight.drop i = r :: rest) (hc : s.table r.info.fd = some c)
    (halone : chunk ≠ [] → inUse s = false) :
    Own (post r chunk.length { s with
      flight := s.flight.take i ++ rest
      buffer := chunk ++ s.buffer.drop chunk.length
      received := Function.update s.received c (s.received c ++ chunk) }) := by
  have hsent : ∀ c', (s.sent c').Sublist (Function.update s.received c (s.received c ++ chunk) c') := fun c' => by
    by_cases hcc : c' = c
    · rw [hcc, Function.update_self]
      exact (hs.sent c).trans (List.sublist_append_left _ _)
    · rw [Function.update_of_ne hcc]
      exact hs.sent c'
  refine ⟨hsent, fun fd' c' k' hc' he => ?_⟩
  by_cases hne : chunk = []
  · subst hne
    have hold := echoing_post he hf (fun _ => Int.le_refl 0) rfl rfl rfl
    obtain ⟨pre, hpre, hsub⟩ := hs.buffer fd' c' k' hc' hold
    refine ⟨pre, ?_, hsub⟩
    simpa [post] using hpre
  · have hnone : ∀ fd k, ¬Echoing s fd k := fun fd k he => absurd he.inUse (by simp [halone hne])
    rcases he with ⟨r', hr', hinfo⟩ | ⟨e, he, hinfo, hk, hpos⟩
    · refine absurd (.inl ⟨r', ?_, hinfo⟩) (hnone fd' k')
      simp only [post, List.mem_append] at hr'
      rcases hr' with hr' | hr' | hr'
      · exact List.mem_append_left _ hr'
      · exact List.mem_append_right _ (List.mem_of_mem_take hr')
      · refine List.mem_append_right _ (List.mem_of_mem_drop (i := i) ?_)
        rw [hf]
        exact List.mem_cons_of_mem r hr'
    · simp only [post, List.mem_append, List.mem_singleton] at he
      rcases he with he | rfl
      · exact absurd (.inr ⟨e, he, hinfo, hk, hpos⟩) (hnone fd' k')
      · have hfd : r.info.fd = fd' := by rw [show r.info = _ from hinfo]
        have hcc : c = c' := by
          subst hfd
          exact Option.some.inj (hc.symm.trans hc')
        have hlen : chunk.length = k' := by
          change (chunk.length : Int) = k' at hk
          omega
        subst hcc hlen
        exact ⟨s.received c, by simp [post], hs.sent c⟩

/-- What `send` takes of the buffer is what the connection sent. -/
theorem own_sent {i c n : Nat} {rest : List Sqe} (hi : Inv s) (hs : Own s) (hf : s.flight.drop i = r :: rest)
    (hev : r.info.event = .write) (hc : s.table r.info.fd = some c) (hn : n ≤ r.len) :
    Own (post r n { s with
      flight := s.flight.take i ++ rest
      sent := Function.update s.sent c (s.sent c ++ s.buffer.take n) }) := by
  have hinfo : r.info = ⟨r.info.fd, .write⟩ := by rw [← hev]
  have hmem : r ∈ s.flight := List.mem_of_mem_drop (i := i) (by rw [hf]; exact List.mem_cons_self ..)
  obtain ⟨pre, hpre, hsub⟩ := hs.buffer _ c r.len hc (.inl ⟨r, List.mem_append_right _ hmem, hinfo, rfl⟩)
  refine ⟨fun c' => ?_, fun fd' c' k' hc' he => ?_⟩
  · by_cases hcc : c' = c
    · subst hcc
      simp only [post, Function.update_self]
      rw [hpre]
      exact hsub.append (List.take_sublist_take_left hn)
    · simp only [post, Function.update_of_ne hcc]
      exact hs.sent c'
  · have hold := echoing_post he hf (by simp [hev]) rfl rfl rfl
    have hcc : c' ≠ c := by
      rintro rfl
      obtain rfl := hi.inj _ _ _ hc' hc
      -- the send that has just completed was the only request on the descriptor
      have hone := requests_drop hf r.info.fd
      rw [hi.requests _ (hi.bound _ c' hc').1, owed_some hc] at hone
      have hon : r.on r.info.fd = true := by simp [Sqe.on, hev]
      rw [hon, if_pos rfl] at hone
      have hrest : Echoing { s with flight := s.flight.take i ++ rest } r.info.fd k' := by
        rcases he with he | ⟨e, he, hinfo', hk⟩
        · exact .inl he
        · simp only [post, List.mem_append, List.mem_singleton] at he
          rcases he with he | rfl
          · exact .inr ⟨e, he, hinfo', hk⟩
          · exact absurd (hev.symm.trans (congrArg ConnInfo.event hinfo')) (by simp)
      have hpos := hrest.requests
      split at hone <;> omega
    obtain ⟨pre', hpre', hsub'⟩ := hs.buffer fd' c' k' hc' hold
    refine ⟨pre', hpre', ?_⟩
    simpa only [post, Function.update_of_ne hcc] using hsub'

theorem own_complete {i : Nat} {rest : List Sqe} (hi : Inv s) (hs : Own s) (hf : s.flight.drop i = r :: rest)
    (halone : ∀ chunk, o = .received chunk → chunk ≠ [] → inUse s = false)
    (h : Completes r { s with flight := s.flight.take i ++ rest } o t) : Own t := by
  cases h with
  | @accepted fd' hev hfd' hfree =>
    refine hs.keep rfl rfl rfl fun fd c k hc he => ?_
    have hold := echoing_post he hf (by simp [hev]) rfl rfl rfl
    refine ⟨?_, hold⟩
    by_cases hfd : fd = fd'
    · -- nothing is on its way to a descriptor that was not open
      subst hfd
      have hnone : s.table fd = none := hfree
      have hpos := hold.requests
      rw [hi.requests fd hfd', owed_none hnone] at hpos
      cases hpos
    · simpa [post, hfd] using hc
  | received _ hc => exact own_received hs hf hc (halone _ rfl)
  | sent hev hc hn => exact own_sent hi hs hf hev hc hn
  | failed hneg =>
    exact hs.keep rfl rfl rfl fun fd c k hc he => ⟨hc, echoing_post he hf (fun _ => by omega) rfl rfl rfl⟩

theorem own_step {l : Label} (hi : Inv s) (hs : Own s) (ha : Alone l s) (h : step sockfd l s = some t) : Own t := by
  cases step_cases h with
  | submit =>
    refine hs.keep rfl rfl rfl fun fd c k hc he => ⟨hc, ?_⟩
    rcases he with ⟨r, hr, hinfo⟩ | he
    · refine .inl ⟨r, ?_, hinfo⟩
      simp only [List.mem_append] at hr
      rcases hr with hr | hr | hr
      · exact List.mem_append_left _ (List.mem_of_mem_drop hr)
      · exact List.mem_append_right _ hr
      · exact List.mem_append_left _ (List.mem_of_mem_take hr)
    · exact .inr he
  | wait => exact hs.keep rfl rfl rfl fun _ _ _ hc he => ⟨hc, he⟩
  | handle _ hq h => exact own_handle hs hq h
  | advance => exact hs.keep rfl rfl rfl fun _ _ _ hc he => ⟨hc, he⟩
  | @complete i o _ _ _ hf h =>
    refine own_complete hi hs hf (fun chunk ho hne => ha ?_) h
    rw [ho]
    simpa [Label.brings] using hne

/-- All connections have one buffer. As long as data arrives only while it is not in use, no
connection is sent what another one sent, nor its own bytes in another order. -/
theorem own_bytes (h : Reach (step sockfd) Alone (init sockfd) s) (c : Nat) : (s.sent c).Sublist (s.received c) := by
  have hboth := h.invariant (fun s => Inv s ∧ Own s) ⟨inv_init sockfd, own_init sockfd⟩
    fun _ _ _ ha hs hst => ⟨inv_step hs.1 hst, own_step hs.1 hs.2 ha hst⟩
  exact hboth.2.sent c

end Buffer

/-- Data of the second client arrives after that of the first has been sent back. -/
def inTurns : List Label :=
  [.submit 1, .complete 0 (.accepted 5), .wait, .handle, .advance, .submit 2, .complete 0 (.accepted 6), .wait, .handle,
    .advance, .submit 2, .complete 0 (.received [1]), .wait, .handle, .advance, .submit 1, .complete 2 (.sent 1), .wait,
    .handle, .advance, .submit 1, .complete 1 (.received [2, 3]), .wait, .handle, .advance, .submit 1,
    .complete 2 (.sent 1)]

theorem own_bytes_inTurns : ∃ s, Reach (step 3) Alone (init 3) s ∧ s.sent 0 = [1] ∧ s.sent 1 = [2] ∧
    ∀ c, (s.sent c).Sublist (s.received c) := by
  obtain ⟨s, hs⟩ : ∃ s, s ∈ exec (step 3) inTurns (init 3) := ⟨_, rfl⟩
  have hr := Reach.exec .start (by decide : Along (step 3) Alone inTurns (init 3)) hs
  refine ⟨s, hr, ?_, ?_, fun c => own_bytes hr c⟩
  · cases hs
    rfl
  · cases hs
    rfl

/-- Data of the second client arrives before that of the first has been sent back. -/
def twoClients : List Label :=
  [.submit 1, .complete 0 (.accepted 5), .wait, .handle, .advance, .submit 2, .complete 0 (.accepted 6), .wait, .handle,
    .advance, .submit 2, .complete 0 (.received [1]), .complete 1 (.received [2]), .wait, .handle, .handle, .advance,
    .submit 2, .complete 1 (.sent 1)]

theorem own_bytes_twoClients : ∃ s, Reachable (step 3) (init 3) s ∧ s.received 0 = [1] ∧ s.sent 0 = [2] := by
  obtain ⟨s, hs⟩ : ∃ s, s ∈ exec (step 3) twoClients (init 3) := ⟨_, rfl⟩
  refine ⟨s, Reachable.of_exec twoClients hs, ?_⟩
  cases hs
  exact ⟨rfl, rfl⟩

end TinyCoro.Client.EventServer
