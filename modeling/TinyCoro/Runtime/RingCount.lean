import TinyCoro.Transition.Tickets
import TinyCoro.Runtime.Ring

/-! Where the requests of an engine are, and what `m_io_submit_count` and
`m_io_running_count` say about that. A request is issued by its awaiter and closed by its
callback, whatever part of a batch the kernel accepts. -/
namespace TinyCoro.Runtime.Ring
open State Transition

def called : Pc → Nat
  | .callback k _ => k
  | _ => 0

/-- What the counters hold twice, or still hold: the requests that are added to the one
and not yet subtracted from the other, and those whose callback has run. -/
def slack : Pc → Nat
  | .subSubmit n => n
  | .callback k _ => k
  | .subRunning n => n
  | _ => 0

/-- The requests whose callback has not run. -/
def outstanding (s : State) : List Nat := s.sq ++ s.kernel ++ (s.cq.drop (called s.pc)).map Cqe.request

def tickets (s : State) : Tickets :=
  ⟨s.next, outstanding s, s.calls.map Cqe.request, s.ioSubmitCount + s.ioRunningCount - slack s.pc⟩

def loaded : Pc → Option Nat
  | .submit n => some n
  | .addRunning n => some n
  | .subSubmit n => some n
  | _ => none

def accepted : Pc → Bool
  | .addRunning _ => true
  | .subSubmit _ => true
  | _ => false

structure Kept (s : State) : Prop where
  tickets : (tickets s).Sound
  loaded : ∀ n, loaded s.pc = some n → s.ioSubmitCount = n ∧ 0 < n
  prepared : accepted s.pc = false → s.ioSubmitCount ≤ s.sq.length
  batch : ∀ k n, s.pc = .callback k n → k ≤ n ∧ n ≤ s.cq.length
  calls : s.calls = match s.pc with
    | .callback k _ => s.consumed ++ s.cq.take k
    | _ => s.consumed
  posted : s.posted = s.consumed ++ s.cq
  submitted : s.submitted = s.calls.map Cqe.request
  result : ∀ c ∈ s.calls, s.result c.request = some ((s.request c.request).callback c.res)

theorem kept_init : Kept init := by
  constructor <;> simp [init, loaded, tickets, outstanding, called, slack]
  exact Tickets.sound_empty

/-- The total of the counters. -/
theorem Kept.total {s : State} (hs : Kept s) :
    s.ioSubmitCount + s.ioRunningCount = (outstanding s).length + slack s.pc := by
  have hc := hs.tickets.count
  simp only [Ring.tickets, Multiset.coe_card] at hc
  omega

/-- Every request is outstanding or has had its callback called, once. -/
theorem Kept.perm {s : State} (hs : Kept s) :
    (s.calls.map Cqe.request ++ outstanding s).Perm (List.range s.next) := by
  have hp := hs.tickets.split
  simpa only [Ring.tickets, Multiset.coe_add, ← Multiset.coe_range, Multiset.coe_eq_coe] using hp

theorem Kept.nodup {s : State} (hs : Kept s) : (s.calls.map Cqe.request ++ outstanding s).Nodup :=
  hs.perm.nodup_iff.mpr List.nodup_range

/-- `m_io_running_count` holds the batch that is subtracted from it. -/
theorem Kept.running {s : State} (hs : Kept s) {n : Nat} (hp : s.pc = .subRunning n) : n ≤ s.ioRunningCount := by
  have ht := hs.total
  have hprep := hs.prepared (by rw [hp]; rfl)
  simp only [hp, slack, outstanding, List.length_append] at ht
  omega

theorem Kept.called_le {s : State} (hs : Kept s) : called s.pc ≤ s.cq.length := by
  cases hp : s.pc with
  | callback k n => exact Nat.le_trans (hs.batch k n hp).1 (hs.batch k n hp).2
  | _ => exact Nat.zero_le _

private theorem keep {s t : State} (hn : t.next = s.next) (ho : (outstanding t).Perm (outstanding s))
    (hc : t.calls = s.calls)
    (hi : (t.ioSubmitCount + t.ioRunningCount - slack t.pc : Int) = s.ioSubmitCount + s.ioRunningCount - slack s.pc) :
    (tickets s).Move (tickets t) := by
  rw [tickets, tickets, hn, hc]
  exact .keep ho hi

/-- Every step issues a request, closes one, or leaves them as they are. -/
theorem tickets_step {cfg : Config} {l : Label} {s t : State} (hs : Kept s) (h : Steps cfg s l t) :
    (tickets s).Move (tickets t) := by
  cases h with
  | request q hp h =>
    refine .issued ?_ ?_
    · simp only [outstanding, List.append_assoc, List.singleton_append]
      exact List.perm_middle
    · simp only [hp, slack]
      omega
  | addRunning n hp =>
    refine keep rfl (by simp [outstanding, called, hp]) rfl ?_
    simp only [hp, slack]
    omega
  | subSubmit n hp =>
    refine keep rfl (by simp [outstanding, called, hp]) rfl ?_
    have := (hs.loaded n (by rw [hp]; rfl)).1
    simp only [hp, slack]
    omega
  | callback k n c hp h hc =>
    have hcons : s.cq.drop k = c :: s.cq.drop (k + 1) := by
      obtain ⟨hlt, rfl⟩ := List.getElem?_eq_some_iff.mp hc
      exact List.drop_eq_getElem_cons hlt
    rw [tickets, tickets]
    simp only [goto, handleCqeEntry, List.map_append, List.map_cons, List.map_nil]
    refine .closed ?_ ?_
    · simp only [outstanding, called, hp, hcons, List.map_cons]
      exact List.perm_middle
    · simp only [hp, slack]
      omega
  | callbackEnd k n hp h =>
    obtain rfl : k = n := Nat.le_antisymm (hs.batch k n hp).1 (Nat.le_of_not_lt h)
    exact keep rfl (by simp [outstanding, called, hp]) rfl (by simp only [hp, slack])
  | subRunning n hp =>
    refine keep rfl (by simp [outstanding, called, hp]) rfl ?_
    have := hs.running hp
    simp only [hp, slack]
    omega
  | accept n res hp h =>
    refine keep rfl ?_ rfl (by simp only [hp, slack])
    have hsplit : (s.sq.drop res.toNat ++ (s.kernel ++ s.sq.take res.toNat)).Perm (s.sq ++ s.kernel) := by
      rw [List.perm_iff_count]
      intro a
      have ht := congrArg (List.count a) (List.take_append_drop res.toNat s.sq)
      simp only [List.count_append] at ht ⊢
      omega
    simpa [outstanding, called, hp] using hsplit.append_right (s.cq.map Cqe.request)
  | complete i res hi =>
    refine keep rfl ?_ rfl rfl
    have hdrop : (s.cq ++ [Cqe.mk i res]).drop (called s.pc) = s.cq.drop (called s.pc) ++ [⟨i, res⟩] :=
      List.drop_append_of_le_length hs.called_le
    rw [List.perm_iff_count]
    intro a
    have hc := (List.perm_cons_erase hi).count_eq a
    simp only [outstanding, hdrop, List.map_append, List.map_cons, List.map_nil, List.count_append, List.count_cons,
      List.count_nil] at hc ⊢
    omega
  | write => exact keep rfl .rfl rfl rfl
  | _ => exact keep rfl (by simp [outstanding, called, goto, ‹s.pc = _›]) rfl (by simp [slack, goto, ‹s.pc = _›])

theorem Kept.fresh {s : State} (hs : Kept s) {c : Cqe} (hc : c ∈ s.calls) : c.request < s.next := by
  have hm : c.request ∈ s.calls.map Cqe.request ++ outstanding s :=
    List.mem_append_left _ (List.mem_map_of_mem hc)
  exact List.mem_range.mp (hs.perm.mem_iff.mp hm)

/-- A request whose callback has run is not outstanding. -/
theorem Kept.not_called {s : State} (hs : Kept s) {c : Cqe} (hc : c.request ∈ outstanding s) :
    ∀ d ∈ s.calls, d.request ≠ c.request := by
  intro d hd he
  have hdis := (List.nodup_append.mp hs.nodup).2.2 d.request (List.mem_map_of_mem hd) c.request hc
  exact hdis he

theorem Kept.outstanding_lt {s : State} (hs : Kept s) {i : Nat} (hi : i ∈ outstanding s) : i < s.next :=
  List.mem_range.mp (hs.perm.mem_iff.mp (List.mem_append_right _ hi))

theorem Kept.kernel_lt {s : State} (hs : Kept s) {i : Nat} (hi : i ∈ s.kernel) : i < s.next :=
  hs.outstanding_lt (List.mem_append_left _ (List.mem_append_right _ hi))

/-- An entry that was posted has been called, or its request is outstanding. -/
theorem Kept.posted_lt {s : State} (hs : Kept s) {c : Cqe} (hc : c ∈ s.posted) : c.request < s.next := by
  have hsplit : s.posted = s.calls ++ s.cq.drop (called s.pc) := by
    rw [hs.posted, hs.calls]
    cases s.pc with
    | callback k n => rw [List.append_assoc, called, List.take_append_drop]
    | _ => rfl
  rw [hsplit] at hc
  rcases List.mem_append.mp hc with hc | hc
  · exact hs.fresh hc
  · exact hs.outstanding_lt (List.mem_append_right _ (List.mem_map_of_mem hc))

theorem Kept.calls_posted {s : State} (hs : Kept s) : ∀ c ∈ s.calls, c ∈ s.posted := by
  intro c hc
  rw [hs.calls] at hc
  rw [hs.posted]
  cases hp : s.pc with
  | callback k n =>
    simp only [hp, List.mem_append] at hc ⊢
    exact hc.imp_right List.mem_of_mem_take
  | _ =>
    simp only [hp] at hc
    exact List.mem_append_left _ hc

/-- What the kernel has accepted is no longer prepared. -/
theorem Kept.kernel_sq {s : State} (hs : Kept s) {i : Nat} (hk : i ∈ s.kernel) : i ∉ s.sq := by
  intro hq
  have hn := (List.nodup_append.mp hs.nodup).2.1
  rw [outstanding, List.nodup_append, List.nodup_append] at hn
  exact hn.1.2.2 i hq i hk rfl

theorem kept_step {cfg : Config} {l : Label} {s t : State} (hs : Kept s) (h : step cfg l s = some t) : Kept t := by
  replace h := step_cases h
  have htick := (tickets_step hs h).sound hs.tickets
  obtain ⟨-, hload, hprep, hbatch, hcalls, hposted, hsub, hres⟩ := id hs
  cases h with
  | request q hp h =>
    simp only [hp] at hprep hcalls
    refine ⟨htick, by simp [hp, loaded], fun ha => ?_, by simp [hp], by simpa [hp] using hcalls, hposted, hsub,
      fun c hc => ?_⟩
    · have := hprep rfl
      simp only [List.length_append, List.length_singleton]
      omega
    · simp only [Function.update_of_ne (hs.fresh hc).ne]
      exact hres c hc
  | poll hp h =>
    simp only [hp] at hprep hcalls
    refine ⟨htick, fun n hn => ?_, fun _ => hprep rfl, nofun, hcalls, hposted, hsub, hres⟩
    exact ⟨Option.some.inj hn, Option.some.inj hn ▸ h⟩
  | addRunning n hp =>
    simp only [hp] at hload hcalls
    exact ⟨htick, hload, nofun, nofun, hcalls, hposted, hsub, hres⟩
  | subSubmit n hp =>
    simp only [hp] at hload hcalls
    have := hload n rfl
    refine ⟨htick, nofun, fun _ => ?_, nofun, hcalls, hposted, hsub, hres⟩
    dsimp only
    omega
  | batch hp =>
    simp only [hp] at hprep hcalls
    refine ⟨htick, nofun, fun _ => hprep rfl, fun k n hk => ?_, by simpa [goto] using hcalls, hposted, hsub, hres⟩
    cases hk
    exact ⟨Nat.zero_le _, Nat.min_le_left _ _⟩
  | callback k n c hp h hc =>
    simp only [hp] at hprep hcalls
    obtain ⟨hlt, hget⟩ := List.getElem?_eq_some_iff.mp hc
    have hout : c.request ∈ outstanding s := by
      refine List.mem_append_right _ (List.mem_map_of_mem ?_)
      rw [hp, called, List.drop_eq_getElem_cons hlt, hget]
      exact List.mem_cons_self
    refine ⟨htick, nofun, fun _ => hprep rfl, fun k' n' hk => ?_, ?_, hposted, ?_, fun d hd => ?_⟩
    · cases hk
      exact ⟨h, (hbatch k n hp).2⟩
    · simp only [goto, handleCqeEntry, hcalls, List.append_assoc]
      rw [List.take_succ_eq_append_getElem hlt, hget]
    · simp only [goto, handleCqeEntry, hsub, List.map_append, List.map_cons, List.map_nil]
    · simp only [goto, handleCqeEntry] at hd ⊢
      rcases List.mem_append.mp hd with hd | hd
      · rw [Function.update_of_ne (hs.not_called hout d hd)]
        exact hres d hd
      · obtain rfl := List.mem_singleton.mp hd
        rw [Function.update_self]
  | callbackEnd k n hp h =>
    obtain rfl : k = n := Nat.le_antisymm (hbatch k n hp).1 (Nat.le_of_not_lt h)
    simp only [hp] at hprep hcalls
    refine ⟨htick, nofun, fun _ => hprep rfl, nofun, hcalls, ?_, hsub, hres⟩
    simp only [List.append_assoc, List.take_append_drop]
    exact hposted
  | subRunning n hp =>
    simp only [hp] at hprep hcalls
    exact ⟨htick, nofun, fun _ => hprep rfl, nofun, hcalls, hposted, hsub, hres⟩
  | accept n res hp h =>
    simp only [hp] at hload hcalls
    exact ⟨htick, hload, nofun, nofun, hcalls, hposted, hsub, hres⟩
  | complete i res hi =>
    refine ⟨htick, hload, hprep, fun k n hk => ?_, ?_, ?_, hsub, hres⟩
    · have := hbatch k n hk
      simp only [List.length_append, List.length_singleton]
      omega
    · rw [hcalls]
      cases hp : s.pc with
      | callback k n =>
        have := hbatch k n hp
        simp only [List.take_append_of_le_length (show k ≤ s.cq.length by omega)]
      | _ => rfl
    · simp only [hposted, List.append_assoc]
  | write => exact ⟨htick, hload, hprep, hbatch, hcalls, hposted, hsub, hres⟩
  | pollNone hp h | pollRunning hp h | pollRunningNone hp h | waitEventfd hp h | peek hp h | peekNone hp h =>
    simp only [hp] at hprep hcalls
    exact ⟨htick, nofun, fun _ => hprep rfl, nofun, hcalls, hposted, hsub, hres⟩

theorem reachable_kept {cfg : Config} {s : State} (h : Reachable (step cfg) init s) : Kept s :=
  h.invariant Kept kept_init fun _ _ _ _ hs ht => kept_step hs ht

end TinyCoro.Runtime.Ring
