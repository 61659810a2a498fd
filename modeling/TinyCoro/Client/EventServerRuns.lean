import TinyCoro.Client.EventServer

/-! What becomes of a connection after a `recv` on it has failed, and of the entries that a
batch of completions adds. -/
namespace TinyCoro.Client.EventServer
open Transition
variable {sockfd fd : Int} {s t : State} {r : Sqe} {e : Cqe} {o : Outcome}

structure Stays (fd : Int) (c : Nat) (s t : State) : Prop where
  table : t.table fd = some c
  abandoned : t.abandoned c = true
  received : t.received c = s.received c
  sent : t.sent c = s.sent c

section Abandoned
variable {c : Nat}

theorem Stays.put (hst : Stays fd c s t) {u : State} (h : EventServer.put r t = some u) : Stays fd c s u := by
  rw [put_eq h]
  exact { hst with }

theorem stays_handle (hs : Inv s) (hc : s.table fd = some c) (ha : s.abandoned c = true) {rest : List Cqe} {n : Pc}
    (hq : s.cq = e :: rest) (h : handle sockfd e { s with pc := n, cq := rest } = some t) : Stays fd c s t := by
  have hstay : Stays fd c s { s with pc := n, cq := rest } := ⟨hc, ha, rfl, rfl⟩
  have hoff : e.on fd = false := by
    cases he : e.on fd with
    | false => rfl
    | true =>
      obtain ⟨-, c', hc', ha'⟩ := hs.owner n hq he (hs.bound fd c hc).1
      rw [hc] at hc'
      cases hc'
      rw [ha] at ha'
      cases ha'
  cases handle_cases h with
  | accept _ hm ht => exact (hstay.put hm).put ht
  | close hev =>
    have hne : fd ≠ e.info.fd := by
      rintro rfl
      simp [Cqe.on, hev] at hoff
    exact { hstay with table := (Function.update_of_ne hne ..).trans hc }
  | send _ _ ht => exact hstay.put ht
  | abandon =>
    unfold abandon
    split
    · rename_i c' hc'
      refine { hstay with abandoned := ?_ }
      by_cases hcc : c = c'
      · rw [hcc]
        exact Function.update_self ..
      · exact (Function.update_of_ne hcc ..).trans ha
    · exact hstay
  | write _ ht => exact hstay.put ht

theorem stays_complete (hs : Inv s) (hc : s.table fd = some c) (ha : s.abandoned c = true) {i : Nat} {rest : List Sqe}
    (hf : s.flight.drop i = r :: rest) (h : Completes r { s with flight := s.flight.take i ++ rest } o t) :
    Stays fd c s t := by
  have hother : r.info.event ≠ .accept → ∀ c', s.table r.info.fd = some c' → c ≠ c' := by
    rintro hev c' hc' rfl
    obtain rfl := hs.inj _ _ _ hc hc'
    have hreq := requests_drop hf r.info.fd
    rw [hs.requests _ (hs.bound _ c hc).1, owed_some hc, if_pos ha] at hreq
    simp [Sqe.on, hev] at hreq
  cases h with
  | accepted _ _ hfree =>
    refine ⟨(Function.update_of_ne ?_ ..).trans hc, ha, rfl, rfl⟩
    rintro rfl
    exact absurd (hc.symm.trans hfree) (by simp)
  | received hev hc' => exact ⟨hc, ha, Function.update_of_ne (hother (by rw [hev]; simp) _ hc') .., rfl⟩
  | sent hev hc' => exact ⟨hc, ha, rfl, Function.update_of_ne (hother (by rw [hev]; simp) _ hc') ..⟩
  | failed => exact ⟨hc, ha, rfl, rfl⟩

theorem stays_step {l : Label} (hs : Inv s) (hc : s.table fd = some c) (ha : s.abandoned c = true)
    (h : step sockfd l s = some t) : Stays fd c s t := by
  cases step_cases h with
  | submit => exact ⟨hc, ha, rfl, rfl⟩
  | wait => exact ⟨hc, ha, rfl, rfl⟩
  | handle _ hq h => exact stays_handle hs hc ha hq h
  | advance => exact ⟨hc, ha, rfl, rfl⟩
  | complete hf h => exact stays_complete hs hc ha hf h

/-- After a `recv` has failed, the server never reads from the connection again, nor writes to
it, nor closes it. -/
theorem failed_recv_abandons (hs : Reachable (step sockfd) (init sockfd) s) (hc : s.table fd = some c)
    (ha : s.abandoned c = true) {ls : List Label} (he : exec (step sockfd) ls s = some t) :
    t.table fd = some c ∧ t.received c = s.received c ∧ t.sent c = s.sent c ∧ requests t fd = 0 := by
  suffices hst : Stays fd c s t by
    refine ⟨hst.table, hst.received, hst.sent, ?_⟩
    have hreach : Reachable (step sockfd) (init sockfd) t := hs.exec (along_of_forall (fun _ _ _ => trivial) s) he
    have hlast := inv_reachable hreach
    rw [hlast.requests fd (hlast.bound fd c hst.table).1, owed_some hst.table, if_pos hst.abandoned]
  have hinv := inv_reachable hs
  clear hs
  induction ls generalizing s with
  | nil =>
    cases he
    exact ⟨hc, ha, rfl, rfl⟩
  | cons l ls ih =>
    obtain ⟨m, hm, ht⟩ := exec_cons_some he
    have hfirst := stays_step hinv hc ha hm
    have hrest := ih hfirst.table hfirst.abandoned ht (inv_step hinv hm)
    exact { hrest with received := hrest.received.trans hfirst.received, sent := hrest.sent.trans hfirst.sent }

end Abandoned

/-- After the failure another client is accepted. -/
def another : List Label := [.advance, .submit 0, .complete 0 (.accepted 6), .wait, .handle]

theorem failed_recv_abandons_reset : ∃ s t, exec (step 3) another s = some t ∧ s.abandoned 0 = true ∧
    t.table 5 = some 0 ∧ requests t 5 = 0 ∧ requests t 6 = 1 := by
  obtain ⟨s, hs⟩ : ∃ s, s ∈ exec (step 3) reset (init 3) := ⟨_, rfl⟩
  obtain ⟨t, ht⟩ : ∃ t, t ∈ exec (step 3) (reset ++ another) (init 3) := ⟨_, rfl⟩
  have hst : exec (step 3) another s = some t := by
    rw [exec_append, hs] at ht
    exact ht
  have hc : s.table 5 = some 0 ∧ s.abandoned 0 = true := by
    cases hs
    exact ⟨rfl, rfl⟩
  have hgone := failed_recv_abandons (Reachable.of_exec reset hs) hc.1 hc.2 hst
  refine ⟨s, t, hst, hc.2, hgone.1, hgone.2.2.2, ?_⟩
  cases ht
  rfl

def TakesAll (l : Label) (s : State) : Prop :=
  match l with
  | .submit n => n = s.sq.length
  | _ => True

instance : ∀ l s, Decidable (TakesAll l s)
  | .submit n, s => inferInstanceAs (Decidable (n = s.sq.length))
  | .wait, _ | .handle, _ | .advance, _ | .complete .., _ => isTrue trivial

def Room (s : State) : Prop :=
  match s.pc with
  | .submit => s.sq.length ≤ 256
  | .wait => s.sq.length = 0
  | .handle n => s.sq.length + 2 * n ≤ 256 ∧ n ≤ s.cq.length

theorem put_room (h : s.sq.length < entriesLength) (r : Sqe) : put r s = some { s with sq := s.sq ++ [r] } := if_pos h

/-- A completion adds at most two entries. -/
theorem handle_room (h : s.sq.length + 2 ≤ entriesLength) (sockfd : Int) (e : Cqe) :
    ∃ t, handle sockfd e s = some t ∧ t.pc = s.pc ∧ t.cq = s.cq ∧ t.sq.length ≤ s.sq.length + 2 := by
  have hone : ∀ r, ∃ t, put r s = some t ∧ t.pc = s.pc ∧ t.cq = s.cq ∧ t.sq.length ≤ s.sq.length + 2 := fun r =>
    ⟨_, put_room (by omega) r, rfl, rfl, by simp⟩
  unfold handle
  split
  · have hfirst : setEventAccept sockfd s = some { s with sq := s.sq ++ [⟨⟨sockfd, .accept⟩, 0⟩] } :=
      put_room (by omega) _
    rw [hfirst, Option.bind_some]
    exact ⟨_, put_room (by simp; omega) _, rfl, rfl, by simp⟩
  · split
    · exact ⟨_, rfl, rfl, rfl, by simp [close]⟩
    · split
      · exact hone _
      · refine ⟨_, rfl, ?_⟩
        unfold abandon
        split
        · exact ⟨rfl, rfl, Nat.le_add_right ..⟩
        · exact ⟨rfl, rfl, Nat.le_add_right ..⟩
  · exact hone _

theorem complete_frame (h : Completes r s o t) : t.pc = s.pc ∧ t.sq = s.sq ∧ t.cq.length = s.cq.length + 1 := by
  cases h with
  | accepted => exact ⟨rfl, rfl, by simp [post]⟩
  | received => exact ⟨rfl, rfl, by simp [post]⟩
  | sent => exact ⟨rfl, rfl, by simp [post]⟩
  | failed => exact ⟨rfl, rfl, by simp [post]⟩

theorem room_step {l : Label} (hs : Room s) (ha : TakesAll l s) (h : step sockfd l s = some t) : Room t := by
  cases step_cases h with
  | @submit n =>
    have hall : n = s.sq.length := ha
    rw [hall]
    simp [Room]
  | wait hpc =>
    simp only [Room, hpc] at hs
    simp only [Room]
    omega
  | @handle n e rest _ hpc hq h =>
    simp only [Room, hpc, hq, List.length_cons] at hs
    obtain ⟨u, hu, hupc, hucq, husq⟩ := handle_room (s := { s with pc := .handle n, cq := rest })
      (by simp only [entriesLength]; omega) sockfd e
    rw [hu] at h
    cases h
    simp only [Room, hupc, hucq]
    simp only at husq
    omega
  | advance hpc =>
    simp only [Room, hpc] at hs
    simp only [Room]
    omega
  | complete _ h =>
    obtain ⟨hpc, hsq, hcq⟩ := complete_frame h
    simp only at hpc hsq hcq
    simp only [Room, hpc, hsq] at hs ⊢
    cases hp : s.pc with
    | submit => simpa only [hp] using hs
    | wait => simpa only [hp] using hs
    | handle n =>
      simp only [hp] at hs ⊢
      exact ⟨hs.1, by omega⟩

/-- If every submission takes all entries, there is one for each request that the loop makes: a
batch is always handled to its end. -/
theorem batch_handled (h : Reach (step sockfd) TakesAll (init sockfd) s) {n : Nat} (hpc : s.pc = .handle (n + 1)) :
    ∃ t, step sockfd .handle s = some t ∧ t.pc = .handle n := by
  have hs : Room s := h.invariant Room (by simp [Room, init]) fun _ _ _ ha hs hst => room_step hs ha hst
  simp only [Room, hpc] at hs
  obtain ⟨e, rest, hq⟩ : ∃ e rest, s.cq = e :: rest := List.exists_cons_of_length_pos (by omega)
  obtain ⟨t, ht, htpc, -⟩ := handle_room (s := { s with pc := .handle n, cq := rest })
    (by simp only [entriesLength]; omega) sockfd e
  refine ⟨t, ?_, htpc⟩
  simp only [step, hpc, hq]
  exact ht

/-- A batch of three completions: data of the first client, a third client, and the second one
at its end. -/
def batchOfThree : List Label :=
  [.submit 1, .complete 0 (.accepted 5), .wait, .handle, .advance, .submit 2, .complete 0 (.accepted 6), .wait, .handle,
    .advance, .submit 2, .complete 0 (.received [1]), .complete 0 (.accepted 7), .complete 0 (.received []), .wait]

theorem batch_handled_batchOfThree : ∃ s t u v, exec (step 3) batchOfThree (init 3) = some s ∧
    step 3 .handle s = some t ∧ step 3 .handle t = some u ∧ step 3 .handle u = some v ∧ v.pc = .handle 0 ∧
    v.sq.length = 3 := by
  obtain ⟨s, hs⟩ : ∃ s, s ∈ exec (step 3) batchOfThree (init 3) := ⟨_, rfl⟩
  have hr := Reach.exec .start (by decide : Along (step 3) TakesAll batchOfThree (init 3)) hs
  obtain ⟨t, ht, htpc⟩ := batch_handled (n := 2) hr (by cases hs; rfl)
  have hrt : Reach (step 3) TakesAll (init 3) t := hr.next (show TakesAll .handle s from trivial) ht
  obtain ⟨u, hu, hupc⟩ := batch_handled (n := 1) hrt htpc
  have hru : Reach (step 3) TakesAll (init 3) u := hrt.next (show TakesAll .handle t from trivial) hu
  obtain ⟨v, hv, hvpc⟩ := batch_handled (n := 0) hru hupc
  refine ⟨s, t, u, v, hs, ht, hu, hv, hvpc, ?_⟩
  cases hs
  cases ht
  cases hu
  cases hv
  rfl

end TinyCoro.Client.EventServer
