import Mathlib.Data.Fintype.Card
import Mathlib.Data.Fintype.List
import TinyCoro.Client.TurnTaking

/-! Which runs of coroutines that take turns come to their end. A notifier that calls while
the next in turn has released the mutex, but is not yet in the queue, is the last one. -/
namespace TinyCoro.Client.TurnTaking
open Transition TinyCoro.Comp CondVar HandlePlaces PcMoves MutexOwner QueueMoves Critical
variable {C D : Type}

def released : Pc C Unit Unit D → Bool
  | .waitPush _ _ _ => true
  | _ => false

def calling : Local → Bool
  | .notify _ => true
  | _ => false

/-- Nobody notifies while the one whose turn it is has released the mutex, but is not yet
in the queue. -/
def NoGap (R : Rules C D) (l : Label C D) (s : State C D) : Prop :=
  calling (s.loc l.who) = true → ∀ x, released (s.base.pc x) = true → R.turn x (s.base.shared ()) = false

instance [Fintype C] (R : Rules C D) (l : Label C D) (s : State C D) : Decidable (NoGap R l s) :=
  inferInstanceAs (Decidable (calling (s.loc l.who) = true →
    ∀ x, released (s.base.pc x) = true → R.turn x (s.base.shared ()) = false))

/-- It is the turn of somebody who waits, or is about to, and nobody will notify again. -/
def Lost (R : Rules C D) (s : State C D) : Prop :=
  (∀ x, calling (s.loc x) = false) ∧ ∃ c, R.turn c (s.base.shared ()) = true ∧
    (released (s.base.pc c) = true ∨
      s.base.pc c = .waiting () () (some (R.turn c)) ∧ (s.base.cv ()).holder = none)

def Seen (R : Rules C D) (s : State C D) : Prop :=
  ∀ c x n, R.turn c (s.base.shared ()) = true → s.base.pc c = .waiting () () (some (R.turn c)) →
    s.base.pc x = .notify () n → ∃ w ∈ (s.base.cv ()).waiters.take n, w.handle = c

def Stuck [DecidableEq C] (R : Rules C D) (s : State C D) : Prop := ∀ l, step R l s = none

section
variable [DecidableEq C] {R : Rules C D} {d₀ : D} {rounds : C → Nat} {s t : State C D} {c x : C} {op : Op Unit Unit D}

theorem Inv.notifier (hs : Inv R d₀ rounds s) (hx : notifying (s.base.pc x) = some ()) :
    ∃ n, s.loc x = .leaving n := by
  have hp := hs.point x
  generalize s.base.pc x = p at hp hx
  generalize s.loc x = l at hp
  cases hp with
  | notifying n => exact ⟨n, rfl⟩
  | enqueuing n => exact ⟨n, rfl⟩
  | _ => cases hx

/-- Whoever is about to notify is in its body and owns the mutex. -/
theorem Inv.caller (hs : Inv R d₀ rounds s) (hx : calling (s.loc x) = true) :
    s.base.pc x = .running ∧ x ∈ s.base.owners () := by
  have hp := hs.point x
  have ho := hs.owner x
  generalize s.loc x = l at hp ho hx
  generalize s.base.pc x = p at hp ho
  cases hp with
  | notify n => exact ⟨rfl, ho.mpr rfl⟩
  | _ => cases hx

/-- While a notifier goes through the queue nobody takes a turn. -/
private theorem Taken.no_write (hs : Inv R d₀ rounds s) (h : Taken R c op s t)
    (hx : notifying (t.base.pc x) = some ()) : t.base.shared () = s.base.shared () := by
  rcases h.data hs with ⟨-, hd, -⟩ | ⟨-, ⟨n, hn⟩, ho, -⟩
  · exact hd
  · have ht := h.inv hs
    obtain ⟨k, hk⟩ := ht.notifier hx
    have hxo : x ∈ t.base.owners () := by
      rw [ht.owner, hk]
      cases hp : t.base.pc x with
      | notify | notifyEnqueue => rfl
      | _ =>
        rw [hp] at hx
        cases hx
    have he := owner_unique ht.base ho hxo
    rw [he, hn] at hk
    cases hk

/-- Whoever is in the queue after the step of somebody else was there before. -/
private theorem waiting_before (hs : Inv R d₀ rounds s) (h : Taken R c op s t) (hx : x ≠ c) {cond : Cond D}
    (ht : t.base.pc x = .waiting () () cond) : s.base.pc x = .waiting () () cond := by
  have hm := step_other hs.base h.base hx
  rw [ht] at hm
  generalize s.base.pc x = p at hm
  cases hm
  rfl

/-- Nobody enters the queue while a notifier goes through it. -/
private theorem waiting_kept (hs : Inv R d₀ rounds s) (h : Taken R c op s t)
    (hx : notifying (t.base.pc x) = some ()) {y : C} {cond : Cond D} (hy : t.base.pc y = .waiting () () cond) :
    s.base.pc y = .waiting () () cond := by
  by_cases hyc : y = c
  · subst hyc
    have hown := step_self hs.base h.base
    have hmove := step_queue hs.base h.base ()
    have hold := ((h.inv hs).base.hold () x).mpr hx
    rw [hy] at hown hmove
    generalize s.base.pc y = p at hown hmove
    cases hown
    generalize s.base.cv () = a at hmove
    generalize t.base.cv () = b at hmove hold
    cases hmove with
    | stay _ _ hne => exact absurd rfl (hne () cond)
    | enter => cases hold
  · exact waiting_before hs h hyc hy

omit [DecidableEq C] in
private theorem mem_of_waiting (hs : HandlePlaces.Inv s.base) {cond : Cond D} (hx : s.base.pc x = .waiting () () cond) :
    ∃ w ∈ (s.base.cv ()).waiters, w.handle = x :=
  ⟨⟨x, (), cond⟩, (hs.wait () _).mpr (by rw [hx]; rfl), rfl⟩

/-- It is the turn of the one whose entry a notifier has in its hand. -/
private theorem Inv.picked_turn (hs : Inv R d₀ rounds s) {v m : Unit} {cond : Cond D}
    (hx : s.base.pc x = .picked v m cond) : R.turn x (s.base.shared ()) = true := by
  have hp := hs.point x
  rw [hx] at hp
  generalize s.loc x = l at hp
  cases hp with
  | picked n ht => exact ht

omit [DecidableEq C] in
/-- The one that notifies is not in the queue itself. -/
private theorem waiters_length [Fintype C] (hs : HandlePlaces.Inv s.base) (hc : waitingOn (s.base.pc c) = none) :
    (s.base.cv ()).waiters.length + 1 ≤ Fintype.card C := by
  have hnot : c ∉ (s.base.cv ()).waiters.map Waiter.handle := by
    intro hm
    obtain ⟨w, hw, rfl⟩ := List.mem_map.mp hm
    rw [waiting_of_mem hs hw] at hc
    cases hc
  have hlen := (List.nodup_cons.mpr ⟨hnot, hs.wait_nodup ()⟩).length_le_card
  simpa using hlen

private theorem seen_step [Fintype C] (hcover : R.all = true ∨ Fintype.card C ≤ 2) (hs : Inv R d₀ rounds s)
    (hseen : Seen R s) (h : Taken R c op s t) : Seen R t := by
  intro y x n hturn hy hx
  have hnot : notifying (t.base.pc x) = some () := by
    rw [hx]
    rfl
  rw [h.no_write hs hnot] at hturn
  have hys := waiting_kept hs h hnot hy
  by_cases hxc : x = c
  · subst hxc
    have hmove := step_queue hs.base h.base ()
    have hsy := hseen y x
    have hlen := waiters_length (c := x) hs.base
    have hin := mem_of_waiting hs.base hys
    have hmem : ∀ w ∈ (s.base.cv ()).waiters, s.base.pc w.handle = .waiting () w.mtx w.cond := fun _ =>
      waiting_of_mem hs.base
    rw [hx] at hmove
    generalize t.base.cv () = b at hmove ⊢
    generalize s.base.cv () = a at hmove hsy hlen hin hmem
    generalize hp : s.base.pc x = p at hmove hsy hlen
    cases hmove with
    | stay _ hq => exact absurd rfl hq
    | notifyAll ws =>
      rw [List.take_length]
      exact hin
    | notifyOne ws =>
      -- with two coroutines the first entry is all there is
      have hone : ws.length ≤ 1 := by
        have hcard := hlen rfl
        rcases h.how with ⟨-, next, hc, -⟩ | ⟨hi, -⟩
        · generalize s.loc x = l at hc
          cases hc with
          | notifyOne _ hall =>
            have := hcover.resolve_left (by simp [hall])
            simp only at hcard
            omega
        · cases hi
      rw [Nat.min_eq_right hone, List.take_length]
      exact hin
    | putBack o k w' rest hu =>
      obtain ⟨w, hw, hwy⟩ := hsy (n + 1) hturn hys rfl
      rw [List.take_succ_cons] at hw
      rcases List.mem_cons.mp hw with rfl | hw
      · have hpw := hmem w (List.mem_cons_self ..)
        rw [hwy, hys] at hpw
        injection hpw with _ _ hcond
        rw [← hcond] at hu
        simp [Cond.unmet, hturn] at hu
      · refine ⟨w, ?_, hwy⟩
        rw [List.take_append]
        exact List.mem_append_left _ hw
    | enqueue k w' =>
      have hpick := picked_of_enqueue hs.base hp
      have he := R.alone _ _ _ (hs.picked_turn hpick) hturn
      rw [he, hys] at hpick
      cases hpick
  · have hm := step_other hs.base h.base hxc
    rw [hx] at hm
    have hxs : s.base.pc x = .notify () n := by
      generalize s.base.pc x = p at hm
      cases hm
      rfl
    rw [queue_kept hs.base h.base hxc (by rw [hxs]; rfl)]
    exact hseen y x n hturn hys hxs

omit [DecidableEq C] in
private theorem released_eq {p : Pc C Unit Unit D} (h : released p = true) : ∃ v m cond, p = .waitPush v m cond := by
  cases p with
  | waitPush v m cond => exact ⟨v, m, cond, rfl⟩
  | _ => cases h

/-- A coroutine comes to its call of notify by taking its turn. -/
private theorem Taken.calling_before (h : Taken R c op s t) (hw : ∀ f, op ≠ .write () f) (hx : calling (t.loc x) = true) :
    calling (s.loc x) = true := by
  by_cases hxc : x = c
  · subst hxc
    rcases h.how with ⟨-, next, hc, ht⟩ | ⟨-, ht⟩
    · rw [ht, Function.update_self] at hx
      generalize s.loc x = l at hc
      cases hc with
      | act => exact absurd rfl (hw _)
      | unlock n => cases n <;> cases hx
      | lock | wait | notifyAll | notifyOne => cases hx
    · rwa [ht] at hx
  · rwa [h.loc_other hxc] at hx

/-- The step calls `notify_one` or `notify_all`. -/
private theorem Taken.notifies (hs : Inv R d₀ rounds s) (h : Taken R c op s t) (hc : calling (s.loc c) = true) :
    (op = .notifyOne () ∨ op = .notifyAll ()) ∧ calling (t.loc c) = false := by
  rcases h.how with ⟨-, next, hcall, ht⟩ | ⟨hi, -⟩
  · rw [ht, Function.update_self]
    generalize s.loc c = l at hcall hc
    cases hcall with
    | notifyAll => exact ⟨.inr rfl, rfl⟩
    | notifyOne => exact ⟨.inl rfl, rfl⟩
    | lock | wait | act | unlock => cases hc
  · exact absurd (hs.caller hc).1 (internal_not_running hi h.base)

/-- Whoever is between the two halves of the wait stays there when somebody else moves. -/
private theorem released_other (hs : Inv R d₀ rounds s) (h : Taken R c op s t) (hx : x ≠ c) :
    released (t.base.pc x) = released (s.base.pc x) := by
  have hm := step_other hs.base h.base hx
  generalize t.base.pc x = q at hm
  generalize s.base.pc x = p at hm
  cases hm <;> rfl

/-- Who is in the section is alone in it. -/
private theorem Inv.caller_unique (hs : Inv R d₀ rounds s) (hc : calling (s.loc c) = true)
    (hx : calling (s.loc x) = true) : x = c :=
  owner_unique hs.base (hs.caller hc).2 (hs.caller hx).2

private theorem lost_of_gap (hs : Inv R d₀ rounds s) (h : Taken R c op s t) (hc : calling (s.loc c) = true)
    (hx : released (s.base.pc x) = true) (hturn : R.turn x (s.base.shared ()) = true) : Lost R t := by
  obtain ⟨hop, hleft⟩ := h.notifies hs hc
  have hw : ∀ f, op ≠ .write () f := by
    rintro f rfl
    simp at hop
  have hd : t.base.shared () = s.base.shared () := (step_shared h.base ()).resolve_right fun ⟨_, f, hf⟩ => hw f hf
  have hxc : x ≠ c := by
    rintro rfl
    rw [(hs.caller hc).1] at hx
    cases hx
  refine ⟨fun y => ?_, x, hd ▸ hturn, .inl ?_⟩
  · by_contra hy
    have hy' : calling (t.loc y) = true := by simpa using hy
    obtain rfl := hs.caller_unique hc (h.calling_before hw hy')
    rw [hleft] at hy'
    cases hy'
  · rwa [released_other hs h hxc]

/-- Nobody takes a turn out of line. -/
private theorem Taken.no_turn (hs : Inv R d₀ rounds s) (h : Taken R c op s t) (hturn : R.turn x (s.base.shared ()) = true)
    (hx : s.base.pc x ≠ .running) : ∀ f, op ≠ .write () f := by
  rcases h.data hs with ⟨hw, -⟩ | ⟨rfl, -, -, hplay⟩
  · exact hw
  · obtain rfl := R.alone _ _ _ hturn (play_turn hplay)
    rcases h.how with ⟨hr, -⟩ | ⟨hi, -⟩
    · exact absurd hr hx
    · cases hi

private theorem Taken.shared_eq (h : Taken R c op s t) (hw : ∀ f, op ≠ .write () f) :
    t.base.shared () = s.base.shared () :=
  (step_shared h.base ()).resolve_right fun ⟨_, f, hf⟩ => hw f hf

/-- Where nobody is about to notify, a free queue stays free. -/
private theorem holder_kept (hs : Inv R d₀ rounds s) (h : Taken R c op s t) (hno : calling (s.loc c) = false)
    (hf : (s.base.cv ()).holder = none) : (t.base.cv ()).holder = none := by
  have hmove := step_queue hs.base h.base ()
  have hcall : op ≠ .notifyOne () ∧ op ≠ .notifyAll () := by
    rcases h.how with ⟨-, next, hc, -⟩ | ⟨hi, -⟩
    · generalize s.loc c = l at hc hno
      cases hc with
      | notifyOne | notifyAll => cases hno
      | lock | wait | act | unlock => exact ⟨by simp, by simp⟩
    · constructor <;> rintro rfl <;> cases hi
  generalize t.base.cv () = b at hmove ⊢
  generalize s.base.cv () = a at hmove hf
  generalize t.base.pc c = q at hmove
  generalize s.base.pc c = p at hmove
  cases hmove with
  | stay | enqueue => exact hf
  | enter | notified => rfl
  | putBack | pop => exact hf
  | notifyOne => exact absurd rfl hcall.1
  | notifyAll => exact absurd rfl hcall.2

private theorem lost_kept (hs : Inv R d₀ rounds s) (h : Taken R c op s t) (hl : Lost R s) : Lost R t := by
  obtain ⟨hno, x, hturn, hx⟩ := hl
  have hrun : s.base.pc x ≠ .running := by
    intro hr
    rcases hx with hx | ⟨hx, -⟩ <;> rw [hr] at hx <;> cases hx
  have hw := h.no_turn hs hturn hrun
  refine ⟨fun y => ?_, x, h.shared_eq hw ▸ hturn, ?_⟩
  · by_contra hy
    have := h.calling_before hw (x := y) (by simpa using hy)
    rw [hno y] at this
    cases this
  · by_cases hxc : x = c
    · subst hxc
      have hown := step_self hs.base h.base
      rcases hx with hx | ⟨hx, -⟩
      · -- it enters a queue that nobody will go through any more
        have hp := hs.point x
        obtain ⟨v, m, cond, hpc⟩ := released_eq hx
        have hmove := step_queue hs.base h.base ()
        rw [hpc] at hown hp hmove
        generalize s.loc x = l at hp
        cases hp
        generalize t.base.pc x = q at hown hmove ⊢
        cases hown
        generalize t.base.cv () = b at hmove ⊢
        generalize s.base.cv () = a at hmove
        cases hmove with
        | stay _ _ hne => exact absurd rfl (hne _ _)
        | enter => exact .inr ⟨rfl, rfl⟩
      · rw [hx] at hown
        cases hown
    · rcases hx with hx | ⟨hx, hf⟩
      · exact .inl (by rwa [released_other hs h hxc])
      · refine .inr ⟨?_, holder_kept hs h (hno c) hf⟩
        by_contra hne
        have hn := (leaves_queue hs.base h.base hx hne).2
        rw [(hs.base.hold () c).mpr hn] at hf
        cases hf

private theorem notify_begun (hs : Inv R d₀ rounds s) (h : Taken R c op s t) (hc : calling (s.loc c) = true) :
    (t.base.cv ()).holder = some c ∧ released (t.base.pc c) = false := by
  have hmove := step_queue hs.base h.base ()
  have hop := (h.notifies hs hc).1
  generalize t.base.cv () = b at hmove ⊢
  generalize s.base.cv () = a at hmove
  generalize t.base.pc c = q at hmove ⊢
  generalize s.base.pc c = p at hmove
  cases hmove with
  | stay _ _ _ hone hall => exact absurd hop (by simp [hone, hall])
  | notifyOne | notifyAll => exact ⟨rfl, rfl⟩
  | enter | notified | putBack | pop | enqueue => simp at hop

/-- A notifier gives the queue back when it has nothing left to examine. -/
private theorem notify_ended (hs : Inv R d₀ rounds s) (h : Taken R c op s t) (hf : (s.base.cv ()).holder ≠ none)
    (ht : (t.base.cv ()).holder = none) : s.base.pc c = .notify () 0 := by
  have hmove := step_queue hs.base h.base ()
  generalize t.base.cv () = b at hmove ht
  generalize s.base.cv () = a at hmove hf
  generalize t.base.pc c = q at hmove
  generalize s.base.pc c = p at hmove ⊢
  cases hmove with
  | notified => rfl
  | stay | enqueue | putBack | pop => exact absurd ht hf
  | enter | notifyOne | notifyAll => exact absurd rfl hf

private theorem lost_origin (hs : Inv R d₀ rounds s) (hseen : Seen R s) (h : Taken R c op s t) (hl : Lost R t) :
    Lost R s ∨ calling (s.loc c) = true ∧ ∃ x, released (s.base.pc x) = true ∧ R.turn x (s.base.shared ()) = true := by
  obtain ⟨hno, x, hturn, hx⟩ := hl
  have hw : ∀ f, op ≠ .write () f := by
    rcases h.data hs with ⟨hw, -⟩ | ⟨-, ⟨n, hn⟩, -⟩
    · exact hw
    · have := hno c
      rw [hn] at this
      cases this
  rw [h.shared_eq hw] at hturn
  by_cases hc : calling (s.loc c) = true
  · obtain ⟨hhold, hrel⟩ := notify_begun hs h hc
    rcases hx with hx | ⟨-, hf⟩
    · refine .inr ⟨hc, x, ?_, hturn⟩
      rwa [← released_other hs h]
      rintro rfl
      rw [hrel] at hx
      cases hx
    · rw [hhold] at hf
      cases hf
  · have hnos : ∀ y, calling (s.loc y) = false := by
      intro y
      by_cases hyc : y = c
      · rw [hyc]
        simpa using hc
      · rw [← h.loc_other hyc]
        exact hno y
    refine .inl ⟨hnos, x, hturn, ?_⟩
    by_cases hxc : x = c
    · subst hxc
      have hown := step_self hs.base h.base
      have hp := hs.point x
      rcases hx with hx | ⟨hx, -⟩
      · obtain ⟨v, m, cond, hpc⟩ := released_eq hx
        rw [hpc] at hown
        generalize s.base.pc x = p at hown hp
        cases hown
        generalize s.loc x = l at hp
        cases hp with
        | releasing n hf =>
          rw [hturn] at hf
          cases hf
      · rw [hx] at hown
        generalize s.base.pc x = p at hown
        cases hown
        exact .inl rfl
    · rcases hx with hx | ⟨hx, ht⟩
      · exact .inl (by rwa [← released_other hs h hxc])
      · have hxs := waiting_before hs h hxc hx
        refine .inr ⟨hxs, ?_⟩
        by_contra hf
        obtain ⟨w, hw, -⟩ := hseen x c 0 hturn hxs (notify_ended hs h hf ht)
        cases hw

/-- A wake-up is lost by exactly the calls of notify that fall into the gap of the wait. -/
private theorem lost_iff (hs : Inv R d₀ rounds s) (hseen : Seen R s) {l : Label C D} (h : Taken R l.who op s t) :
    ¬ Lost R t ↔ ¬ Lost R s ∧ NoGap R l s := by
  constructor
  · intro ht
    refine ⟨fun hl => ht (lost_kept hs h hl), fun hc x hx => ?_⟩
    by_contra hturn
    exact ht (lost_of_gap hs h hc hx (by simpa using hturn))
  · rintro ⟨hl, hgap⟩ ht
    rcases lost_origin hs hseen h ht with hls | ⟨hc, x, hx, hturn⟩
    · exact hl hls
    · rw [hgap hc x hx] at hturn
      cases hturn

private theorem stuck_lib (hst : Stuck R s) (c : C) (op : Op Unit Unit D) (hi : internal op = true) :
    CondVar.step (c, op) s.base = none := by
  have h := hst (.lib c op)
  rwa [step, if_pos hi, Option.map_eq_none_iff] at h

private theorem stuck_body (hst : Stuck R s) (hr : s.base.pc c = .running) {next : Local}
    (hc : call R c (s.loc c) = some (op, next)) : CondVar.step (c, op) s.base = none := by
  have h := hst (.body c)
  simp only [step, hr, hc] at h
  rwa [Option.map_eq_none_iff] at h

/-- A notifier is never held up. -/
private theorem stuck_holder (hs : Inv R d₀ rounds s) (hst : Stuck R s) : (s.base.cv ()).holder = none := by
  cases ho : (s.base.cv ()).holder with
  | none => rfl
  | some c =>
    have hn := (hs.base.hold () c).mp ho
    have hcount := hs.count c
    cases hp : s.base.pc c with
    | notify v n =>
      have hnext := stuck_lib hst c .notifyNext rfl
      cases n with
      | zero => simp [CondVar.step, hp] at hnext
      | succ n =>
        rw [hp] at hcount
        cases hw : (s.base.cv v).waiters with
        | nil => simpa [hw] using hcount (n + 1) rfl
        | cons w rest => simp [CondVar.step, hp, hw] at hnext
    | notifyEnqueue v n w =>
      have hnext := stuck_lib hst c .notifyEnqueue rfl
      simp [CondVar.step, hp] at hnext
    | _ =>
      rw [hp] at hn
      cases hn

/-- Only a coroutine whose handle somebody else has to resume is held up. -/
private theorem stuck_point (hs : Inv R d₀ rounds s) (hst : Stuck R s) (c : C) :
    s.loc c = .finished ∨ (∃ n, s.loc c = .waited (n + 1)) ∧ s.base.pc c = .waiting () () (some (R.turn c)) ∨
      (∃ a, s.base.pc c = .queued a) ∨ ∃ cond, s.base.pc c = .picked () () cond := by
  have hf := stuck_holder hs hst
  have hlib := fun op => stuck_lib hst c op
  have hown := (hs.owner c).mpr
  have hp := hs.point c
  generalize hl : s.loc c = l at hp hown
  generalize hpc : s.base.pc c = p at hp hown
  cases hp with
  | finished => exact .inl rfl
  | waiting n => exact .inr (.inl ⟨⟨n, rfl⟩, rfl⟩)
  | lockQueued | waitQueued => exact .inr (.inr (.inl ⟨_, rfl⟩))
  | picked => exact .inr (.inr (.inr ⟨_, rfl⟩))
  | locking => simpa [CondVar.step, hpc] using hlib .lockSuspend rfl
  | releasing => simpa [CondVar.step, hpc] using hlib .waitUnlock rfl
  | released => simpa [CondVar.step, hpc, hf] using hlib .waitPush rfl
  | lockGranted | waitGranted => simpa [CondVar.step, hpc] using hlib .resume rfl
  | notifying | enqueuing =>
    have := (hs.base.hold () c).mpr (by rw [hpc]; rfl)
    rw [hf] at this
    cases this
  | start | locked | acting | leaving =>
    have hbody := stuck_body hst hpc (by rw [hl]; rfl)
    simp_all [CondVar.step, holds, critical, holding]
  | notify n =>
    have hbody := stuck_body hst hpc (by rw [hl]; rfl)
    cases ha : R.all <;> simp [CondVar.step, hpc, hf, ha] at hbody

/-- Nobody is held up in front of the mutex. -/
private theorem stuck_cases (hs : Inv R d₀ rounds s) (hst : Stuck R s) (c : C) :
    s.loc c = .finished ∨ (∃ n, s.loc c = .waited (n + 1)) ∧ s.base.pc c = .waiting () () (some (R.turn c)) := by
  have hfree : s.base.owners () = [] := by
    rw [List.eq_nil_iff_forall_not_mem]
    intro o ho
    have hold := (hs.owner o).mp ho
    rcases stuck_point hs hst o with hl | ⟨-, hp⟩ | ⟨a, hp⟩ | ⟨cond, hp⟩
    · simp [holds, hl, critical] at hold
    all_goals simp [holds, hp, holding, owning] at hold
  rcases stuck_point hs hst c with hl | hw | ⟨a, hp⟩ | ⟨cond, hp⟩
  · exact .inl hl
  · exact .inr hw
  · -- a queued handle waits for an owner
    have hin := (hs.base.queue a.mtx c).mpr (by rw [hp]; rfl)
    rcases hs.base.mutex a.mtx with ⟨-, o, ho⟩ | ⟨hx, -⟩
    · rw [hfree] at ho
      cases ho
    · rw [hx] at hin
      cases hin
  · -- a picked one waits for the notifier that has its entry
    obtain ⟨n, hn⟩ := (hs.base.pick () ⟨c, (), cond⟩).mp (by rw [hp]; rfl)
    cases hpn : s.base.pc n with
    | notifyEnqueue v k w => simpa [CondVar.step, hpn] using stuck_lib hst n .notifyEnqueue rfl
    | _ =>
      rw [hpn] at hn
      cases hn

/-- Where nobody can move, everybody has finished unless a wake-up has been lost. -/
private theorem stuck_iff (hs : Inv R d₀ rounds s) (hst : Stuck R s)
    (hlive : (∃ c, 0 < left (s.loc c)) → ∃ c, R.turn c (s.base.shared ()) = true ∧ 0 < left (s.loc c)) :
    (∀ c, s.loc c = .finished) ↔ ¬ Lost R s := by
  constructor
  · rintro hfin ⟨-, x, -, hx⟩
    have hp := hs.point x
    rw [hfin x] at hp
    generalize s.base.pc x = p at hp hx
    cases hp
    rcases hx with hx | ⟨hx, -⟩ <;> cases hx
  · intro hl c
    rcases stuck_cases hs hst c with hc | ⟨⟨n, hc⟩, -⟩
    · exact hc
    · obtain ⟨x, hturn, hpos⟩ := hlive ⟨c, by rw [hc]; exact Nat.succ_pos n⟩
      rcases stuck_cases hs hst x with hx | ⟨-, hx⟩
      · rw [hx] at hpos
        cases hpos
      · refine absurd ⟨fun y => ?_, x, hturn, .inr ⟨hx, stuck_holder hs hst⟩⟩ hl
        rcases stuck_cases hs hst y with hy | ⟨⟨m, hy⟩, -⟩ <;> rw [hy] <;> rfl

/-- Whoever has taken all its turns is not held up. -/
theorem finished_iff (hs : Inv R d₀ rounds s) (hst : Stuck R s) (c : C) : s.loc c = .finished ↔ left (s.loc c) = 0 := by
  constructor
  · intro h
    rw [h]
    rfl
  · intro h
    rcases stuck_cases hs hst c with hc | ⟨⟨n, hc⟩, -⟩
    · exact hc
    · rw [hc] at h
      cases h

/-- A coroutine that has finished, or is in the queue, does not move by itself. -/
theorem stuck_of_points (h : ∀ c, s.base.pc c = .running ∧ s.loc c = .finished ∨ ∃ cond, s.base.pc c = .waiting () () cond) :
    Stuck R s := by
  rintro (c | ⟨c, op⟩)
  · rcases h c with ⟨hp, hl⟩ | ⟨cond, hp⟩
    · simp [step, hp, hl, call]
    · simp [step, hp]
  · by_contra hne
    obtain ⟨t, ht⟩ := Option.ne_none_iff_exists'.mp hne
    simp only [step] at ht
    split at ht
    · rename_i hi
      obtain ⟨b, hb, -⟩ := Option.map_eq_some_iff.mp ht
      rcases h c with ⟨hp, -⟩ | ⟨cond, hp⟩
      · exact internal_not_running hi hb hp
      · cases op <;> simp [CondVar.step, hp] at hb
    · cases ht

/-- If the rules always give a turn to somebody who has one left, then a run that cannot go
on has come to the end of all bodies exactly if none of its notifications fell into the gap
of a wait. -/
theorem ends_iff [Fintype C] (hcover : R.all = true ∨ Fintype.card C ≤ 2)
    (hlive : ∀ p, Reachable (play R) (d₀, rounds) p → (∃ c, 0 < p.2 c) → ∃ c, R.turn c p.1 = true ∧ 0 < p.2 c)
    {ls : List (Label C D)} (he : exec (step R) ls (init d₀ rounds) = some t) (hst : Stuck R t) :
    (∀ c, t.loc c = .finished) ↔ Along (step R) (NoGap R) ls (init d₀ rounds) := by
  have hs : Inv R d₀ rounds t := (Reachable.of_exec ls he).invariant (Inv R d₀ rounds) inv_init fun _ _ _ _ => inv_step
  have hinit : ¬ Lost R (init d₀ rounds) := by
    rintro ⟨-, x, -, hx | ⟨hx, -⟩⟩ <;> cases hx
  rw [stuck_iff hs hst (hlive _ hs.game)]
  refine (holds_iff_along (I := fun s => Inv R d₀ rounds s ∧ Seen R s) (P := fun s => ¬ Lost R s) ?_
    ⟨inv_init, ?_⟩ he).trans (and_iff_right hinit)
  · rintro l s t ⟨hs, hseen⟩ h
    obtain ⟨op, ht⟩ := step_taken h
    exact ⟨⟨ht.inv hs, seen_step hcover hs hseen ht⟩, lost_iff hs hseen ht⟩
  · intro c x n _ hc
    cases hc

end

end TinyCoro.Client.TurnTaking
