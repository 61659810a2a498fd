import TinyCoro.Runtime.RingCount

/-! Timers on the ring of an engine, with a clock. A timeout request completes when its
time has elapsed, or when as many other completions have been posted as its count says;
`timer` asks for a count of 1, and its callback makes 0 of both. -/
namespace TinyCoro.Runtime.Ring.Timer
open Transition

def coAwait (ts : Nat) : Request := .timer ts 1

/-- `madeAt` is the time of a request, `armedAt` that of its acceptance by the kernel and
`seen` the number of completions posted by then. `resumed` lists the coroutines that were
resumed with the value of their `co_await` and the time. -/
structure State where
  ring : Ring.State
  now : Nat
  madeAt : Nat → Nat
  armedAt : Nat → Nat
  seen : Nat → Nat
  resumed : List (Nat × Int × Nat)

def init : State := ⟨Ring.init, 0, fun _ => 0, fun _ => 0, fun _ => 0, []⟩

inductive Label
  | tick
  | coAwait (ts : Nat)
  | ring (l : Ring.Label)
  | resume (i : Nat)
  deriving DecidableEq, Repr

namespace State

/-- The completions of a timeout that the kernel is allowed; those with another `res` are
the rejected and the cancelled ones. -/
def mayComplete (i : Nat) (res : Int) (s : State) : Bool :=
  match s.ring.request i with
  | .timer ts count =>
    (res != -etime || s.armedAt i + ts ≤ s.now) &&
      (res != 0 || (0 < count && s.seen i + count ≤ s.ring.posted.length))
  | _ => true

def make (cfg : Config) (q : Request) (s : State) : Option State :=
  (Ring.step cfg (.request q) s.ring).map fun r =>
    { s with ring := r, madeAt := Function.update s.madeAt s.ring.next s.now }

end State

def step (cfg : Config) (l : Label) (s : State) : Option State :=
  match l with
  | .tick => some { s with now := s.now + 1 }
  | .coAwait ts => s.make cfg (Timer.coAwait ts)
  | .ring (.request (.timer _ _)) => none
  | .ring (.request q) => s.make cfg q
  | .ring (.accept res) => (Ring.step cfg (.accept res) s.ring).map fun r =>
    { s with
      ring := r
      armedAt := fun i => if i ∈ s.ring.sq.take res.toNat then s.now else s.armedAt i
      seen := fun i => if i ∈ s.ring.sq.take res.toNat then s.ring.posted.length else s.seen i }
  | .ring (.complete i res) =>
    if s.mayComplete i res then (Ring.step cfg (.complete i res) s.ring).map fun r => { s with ring := r } else none
  | .ring l => (Ring.step cfg l s.ring).map fun r => { s with ring := r }
  | .resume i =>
    if i ∈ s.ring.submitted ∧ i ∉ s.resumed.map Prod.fst then
      (s.ring.result i).map fun v => { s with resumed := s.resumed ++ [(i, v, s.now)] }
    else none

/-- Every coroutine that was resumed from a timer with 0 had waited its time. -/
def NeverEarly (s : State) : Prop :=
  ∀ i at', (i, 0, at') ∈ s.resumed → ∀ ts count, s.ring.request i = .timer ts count → s.madeAt i + ts ≤ at'

def due (i : Nat) (s : State) : Bool :=
  match s.ring.request i with
  | .timer ts _ => s.armedAt i + ts ≤ s.now
  | _ => true

/-- No completion is posted while another request, a timer whose time has not elapsed, is
with the kernel. -/
def Undisturbed (l : Label) (s : State) : Prop :=
  ∀ j res, l = .ring (.complete j res) → ∀ i ∈ s.ring.kernel, i ≠ j → due i s = true

instance (l : Label) (s : State) : Decidable (Undisturbed l s) :=
  match l with
  | .ring (.complete j _) => decidable_of_iff (∀ i ∈ s.ring.kernel, i ≠ j → due i s = true) (by simp [Undisturbed])
  | .tick | .coAwait _ | .resume _ => isTrue nofun
  | .ring (.request _) | .ring .poll | .ring .step | .ring (.accept _) | .ring .write => isTrue nofun

inductive Steps (cfg : Config) (s : State) : Label → State → Prop
  | tick : Steps cfg s .tick { s with now := s.now + 1 }
  | make (l : Label) (q : Request) (r : Ring.State) (hq : ∀ ts count, q = .timer ts count → count = 1)
    (h : Ring.step cfg (.request q) s.ring = some r) :
    Steps cfg s l { s with ring := r, madeAt := Function.update s.madeAt s.ring.next s.now }
  | accept (res : Int) (r : Ring.State) (h : Ring.step cfg (.accept res) s.ring = some r) :
    Steps cfg s (.ring (.accept res)) { s with
      ring := r
      armedAt := fun i => if i ∈ s.ring.sq.take res.toNat then s.now else s.armedAt i
      seen := fun i => if i ∈ s.ring.sq.take res.toNat then s.ring.posted.length else s.seen i }
  | complete (i : Nat) (res : Int) (r : Ring.State) (hm : s.mayComplete i res = true)
    (h : Ring.step cfg (.complete i res) s.ring = some r) : Steps cfg s (.ring (.complete i res)) { s with ring := r }
  | other (l : Ring.Label) (r : Ring.State) (h : Ring.step cfg l s.ring = some r) (hn : r.next = s.ring.next)
    (hr : r.request = s.ring.request) (hk : r.kernel = s.ring.kernel) (hp : r.posted = s.ring.posted) :
    Steps cfg s (.ring l) { s with ring := r }
  | resume (i : Nat) (v : Int) (hi : i ∈ s.ring.submitted) (hv : s.ring.result i = some v) :
    Steps cfg s (.resume i) { s with resumed := s.resumed ++ [(i, v, s.now)] }

private theorem make_cases {cfg : Config} {l : Label} {q : Request} {s t : State}
    (hq : ∀ ts count, q = .timer ts count → count = 1) (h : s.make cfg q = some t) : Steps cfg s l t := by
  obtain ⟨r, hr, rfl⟩ := Option.map_eq_some_iff.mp h
  exact .make l q r hq hr

private theorem other_cases {cfg : Config} {l : Ring.Label} {s t : State}
    (hl : l = .poll ∨ l = .step ∨ l = .write)
    (h : (Ring.step cfg l s.ring).map (fun r => { s with ring := r }) = some t) : Steps cfg s (.ring l) t := by
  obtain ⟨r, hr, rfl⟩ := Option.map_eq_some_iff.mp h
  cases step_cases hr with
  | request | accept | complete => rcases hl with hl | hl | hl <;> cases hl
  | _ => exact .other _ _ hr rfl rfl rfl rfl

theorem timed_cases {cfg : Config} {l : Label} {s t : State} (h : step cfg l s = some t) : Steps cfg s l t := by
  cases l with
  | tick =>
    cases h
    exact .tick
  | coAwait ts =>
    refine make_cases (fun ts' count hq => ?_) h
    cases hq
    rfl
  | ring l =>
    cases l with
    | request q =>
      cases q with
      | timer => cases h
      | _ => exact make_cases (fun _ _ hq => by cases hq) h
    | accept res =>
      obtain ⟨r, hr, rfl⟩ := Option.map_eq_some_iff.mp h
      exact .accept res r hr
    | complete i res =>
      simp only [step] at h
      split at h
      · obtain ⟨r, hr, rfl⟩ := Option.map_eq_some_iff.mp h
        exact .complete i res r ‹_› hr
      · cases h
    | poll => exact other_cases (.inl rfl) h
    | step => exact other_cases (.inr (.inl rfl)) h
    | write => exact other_cases (.inr (.inr rfl)) h
  | resume i =>
    simp only [step] at h
    split at h
    · rename_i hi
      obtain ⟨v, hv, rfl⟩ := Option.map_eq_some_iff.mp h
      exact .resume i v hi.1 hv
    · cases h

structure Counted (s : State) : Prop where
  count : ∀ i ts count, s.ring.request i = .timer ts count → count = 1
  seen : ∀ i, s.seen i ≤ s.ring.posted.length

theorem counted_step {cfg : Config} {l : Label} {s t : State} (hs : Counted s) (h : step cfg l s = some t) :
    Counted t := by
  obtain ⟨hcount, hseen⟩ := hs
  cases timed_cases h with
  | tick | resume => exact ⟨hcount, hseen⟩
  | make _ q r hq hring =>
    cases step_cases hring with
    | request _ hp hlt =>
      refine ⟨fun i ts count hi => ?_, hseen⟩
      by_cases hn : i = s.ring.next
      · subst hn
        simp only [Function.update_self] at hi
        exact hq ts count hi
      · simp only [Function.update_of_ne hn] at hi
        exact hcount i ts count hi
  | accept res r hring =>
    cases step_cases hring with
    | accept n _ hp hle =>
      refine ⟨hcount, fun i => ?_⟩
      dsimp only
      split
      · exact le_refl _
      · exact hseen i
  | complete i res r hm hring =>
    cases step_cases hring with
    | complete _ _ hi =>
      refine ⟨hcount, fun j => ?_⟩
      rw [List.length_append]
      exact Nat.le_add_right_of_le (hseen j)
  | other l r hring hn hr hk hp => exact ⟨by simpa only [hr] using hcount, by simpa only [hp] using hseen⟩

theorem counted_init : Counted init := by
  constructor <;> simp [init, Ring.init]

theorem reachable_counted {cfg : Config} {s : State} (h : Reachable (step cfg) init s) : Counted s :=
  h.invariant Counted counted_init fun _ _ _ _ hs ht => counted_step hs ht

structure Inv (s : State) : Prop where
  kept : Kept s.ring
  made : ∀ i < s.ring.next, s.madeAt i ≤ s.now
  armed : ∀ i ∈ s.ring.kernel, s.madeAt i ≤ s.armedAt i
  seen : ∀ i ∈ s.ring.kernel, ∀ ts count, s.ring.request i = .timer ts count → s.seen i < s.ring.posted.length →
    s.armedAt i + ts ≤ s.now
  due : ∀ c ∈ s.ring.posted, ∀ ts count, s.ring.request c.request = .timer ts count → c.res = 0 ∨ c.res = -etime →
    s.madeAt c.request + ts ≤ s.now
  resumed : ∀ x ∈ s.resumed, x.1 < s.ring.next
  early : NeverEarly s

theorem inv_init : Inv init := by
  constructor <;> simp [init, Ring.init, NeverEarly]
  exact kept_init

section Step
variable {cfg : Config} {s : State}

private theorem inv_make (hs : Inv s) {q : Request} {r : Ring.State}
    (h : Ring.step cfg (.request q) s.ring = some r) :
    Inv { s with ring := r, madeAt := Function.update s.madeAt s.ring.next s.now } := by
  have hk := kept_step hs.kept h
  have hold : ∀ i, i < s.ring.next → i ≠ s.ring.next := fun i hi => hi.ne
  cases step_cases h with
  | request _ hp hlt =>
    refine ⟨hk, fun i hi => ?_, fun i hi => ?_, fun i hi ts count => ?_,
      fun c hc ts count => ?_, fun x hx => ?_, fun i at' hx ts count => ?_⟩
    · by_cases hn : i = s.ring.next
      · simp only [hn, Function.update_self, le_refl]
      · simp only [Function.update_of_ne hn]
        exact hs.made i (by change i < s.ring.next + 1 at hi; omega)
    · simp only [Function.update_of_ne (hold i (hs.kept.kernel_lt hi))]
      exact hs.armed i hi
    · simp only [Function.update_of_ne (hold i (hs.kept.kernel_lt hi))]
      exact hs.seen i hi ts count
    · simp only [Function.update_of_ne (hold _ (hs.kept.posted_lt hc))]
      exact hs.due c hc ts count
    · exact Nat.lt_succ_of_lt (hs.resumed x hx)
    · simp only [Function.update_of_ne (hold i (hs.resumed _ hx))]
      exact hs.early i at' hx ts count

private theorem inv_accept (hs : Inv s) {res : Int} {r : Ring.State}
    (h : Ring.step cfg (.accept res) s.ring = some r) :
    Inv { s with
      ring := r
      armedAt := fun i => if i ∈ s.ring.sq.take res.toNat then s.now else s.armedAt i
      seen := fun i => if i ∈ s.ring.sq.take res.toNat then s.ring.posted.length else s.seen i } := by
  have hk := kept_step hs.kept h
  cases step_cases h with
  | accept n _ hp hle =>
    have hcase : ∀ i ∈ s.ring.kernel ++ s.ring.sq.take res.toNat,
        i ∈ s.ring.sq.take res.toNat ∨ (i ∉ s.ring.sq.take res.toNat ∧ i ∈ s.ring.kernel) := by
      intro i hi
      rcases List.mem_append.mp hi with hi | hi
      · exact .inr ⟨fun hq => hs.kept.kernel_sq hi (List.mem_of_mem_take hq), hi⟩
      · exact .inl hi
    refine ⟨hk, hs.made, fun i hi => ?_, fun i hi ts count => ?_, hs.due, hs.resumed, hs.early⟩
    · rcases hcase i hi with hq | ⟨hq, hi⟩
      · simp only [if_pos hq]
        have hlt : i ∈ outstanding s.ring :=
          List.mem_append_left _ (List.mem_append_left _ (List.mem_of_mem_take hq))
        exact hs.made i (hs.kept.outstanding_lt hlt)
      · simp only [if_neg hq]
        exact hs.armed i hi
    · rcases hcase i hi with hq | ⟨hq, hi⟩
      · simp only [if_pos hq]
        intro _ hlt
        exact absurd hlt (Nat.lt_irrefl _)
      · simp only [if_neg hq]
        exact hs.seen i hi ts count

private theorem inv_complete (hc : Counted s) (hs : Inv s) {j : Nat} {res : Int} {r : Ring.State}
    (hm : s.mayComplete j res = true)
    (ho : Undisturbed (.ring (.complete j res)) s) (h : Ring.step cfg (.complete j res) s.ring = some r) :
    Inv { s with ring := r } := by
  have hk := kept_step hs.kept h
  cases step_cases h with
  | complete _ _ hj =>
    have hkernel : ∀ i ∈ s.ring.kernel.erase j, i ∈ s.ring.kernel := fun i hi => List.mem_of_mem_erase hi
    refine ⟨hk, hs.made, fun i hi => hs.armed i (hkernel i hi), fun i hi ts count hq hseen => ?_,
      fun c hcq ts count hq hres => ?_, hs.resumed, hs.early⟩
    · by_cases hij : i = j
      · -- a request completes once
        subst hij
        have hn := (List.nodup_append.mp hs.kept.nodup).2.1
        rw [outstanding, List.nodup_append, List.nodup_append] at hn
        exact absurd hi (List.Nodup.not_mem_erase hn.1.2.1)
      · change s.ring.request i = _ at hq
        simpa [due, hq] using ho j res rfl i (hkernel i hi) hij
    · rcases List.mem_append.mp hcq with hcq | hcq
      · exact hs.due c hcq ts count hq hres
      · obtain rfl := List.mem_singleton.mp hcq
        have harm := hs.armed j hj
        change s.ring.request j = _ at hq
        simp only [State.mayComplete, hq, Bool.and_eq_true, Bool.or_eq_true, bne_iff_ne, decide_eq_true_eq] at hm
        have hdue : s.armedAt j + ts ≤ s.now := by
          rcases hres with h0 | h0
          · have hcount := hc.count j ts count hq
            have := hm.2.resolve_left (fun hne => hne h0)
            exact hs.seen j hj ts count hq (by omega)
          · exact hm.1.resolve_left (fun hne => hne h0)
        change s.madeAt j + ts ≤ s.now
        omega

theorem inv_step {l : Label} {t : State} (hc : Counted s) (hs : Inv s) (ho : Undisturbed l s)
    (h : step cfg l s = some t) : Inv t := by
  cases timed_cases h with
  | tick =>
    have hlater : ∀ n, n ≤ s.now → n ≤ s.now + 1 := fun n hn => Nat.le_succ_of_le hn
    exact ⟨hs.kept, fun i hi => hlater _ (hs.made i hi), hs.armed,
      fun i hi ts count hq hlt => hlater _ (hs.seen i hi ts count hq hlt),
      fun c hc ts count hq hr => hlater _ (hs.due c hc ts count hq hr), hs.resumed, hs.early⟩
  | make _ q r hq hring => exact inv_make hs hring
  | accept res r hring => exact inv_accept hs hring
  | complete i res r hm hring => exact inv_complete hc hs hm ho hring
  | other l r hring hn hr hk hp =>
    have hkept := kept_step hs.kept hring
    refine ⟨hkept, ?_, ?_, ?_, ?_, ?_, ?_⟩
    · simpa only [hn] using hs.made
    · simpa only [hk] using hs.armed
    · simpa only [hk, hr, hp] using hs.seen
    · simpa only [hp, hr] using hs.due
    · simpa only [hn] using hs.resumed
    · simpa only [NeverEarly, hr] using hs.early
  | resume i v hi hv =>
    obtain ⟨hk, hmade, harmed, hseen, hdue, hres, hearly⟩ := hs
    rw [hk.submitted] at hi
    obtain ⟨c, hcall, rfl⟩ := List.mem_map.mp hi
    refine ⟨hk, hmade, harmed, hseen, hdue, fun x hx => ?_, fun i at' hx ts count hq => ?_⟩
    · rcases List.mem_append.mp hx with hx | hx
      · exact hres x hx
      · obtain rfl := List.mem_singleton.mp hx
        exact hk.fresh hcall
    · rcases List.mem_append.mp hx with hx | hx
      · exact hearly i at' hx ts count hq
      · obtain ⟨rfl, rfl, rfl⟩ : i = c.request ∧ 0 = v ∧ at' = s.now := by simpa using List.mem_singleton.mp hx
        have hval := hk.result c hcall
        rw [hv, hq] at hval
        refine hdue c (hk.calls_posted c hcall) ts count hq ?_
        simp only [Request.callback, Option.some.injEq] at hval
        by_cases h0 : c.res = -etime
        · exact .inr h0
        · exact .inl (by rw [if_neg h0] at hval; exact hval.symm)

theorem reach_inv (h : Reach (step cfg) Undisturbed init s) : Inv s := by
  have hs := h.invariant (fun s => Counted s ∧ Inv s) ⟨counted_init, inv_init⟩
    fun _ _ _ ho hs ht => ⟨counted_step hs.1 ht, inv_step hs.1 hs.2 ho ht⟩
  exact hs.2

/-- A completion that another one's timer sees may be followed by that of the timer. -/
theorem disturbed_early {j : Nat} {res : Int} {t : State} (hs : Reachable (step cfg) init s)
    (ho : ¬ Undisturbed (.ring (.complete j res)) s) (h : step cfg (.ring (.complete j res)) s = some t) :
    ∃ i ts, t.ring.request i = coAwait ts ∧ t.now < t.armedAt i + ts ∧
      (step cfg (.ring (.complete i 0)) t).isSome = true := by
  have hc := reachable_counted hs
  simp only [Undisturbed, not_forall] at ho
  obtain ⟨j', res', hl, i, hi, hij, hdue⟩ := ho
  cases hl
  obtain ⟨ts, count, hq⟩ : ∃ ts count, s.ring.request i = .timer ts count := by
    simp only [due] at hdue
    split at hdue
    · exact ⟨_, _, ‹_›⟩
    · exact absurd rfl hdue
  obtain rfl := hc.count i ts count hq
  simp only [due, hq, decide_eq_true_eq, not_le] at hdue
  simp only [step] at h
  split at h
  · obtain ⟨r, hring, rfl⟩ := Option.map_eq_some_iff.mp h
    cases step_cases hring with
    | complete _ _ hj =>
      refine ⟨i, ts, hq, hdue, ?_⟩
      have hk : i ∈ s.ring.kernel.erase j := (List.mem_erase_of_ne hij).mpr hi
      have hseen := hc.seen i
      simp [step, State.mayComplete, hq, Ring.step, hk, etime, hseen]
  · cases h

end Step

/-- In every run without a completion beside a timer that is not due, no timer is early.
Any such completion leaves the kernel free to complete the timer at once, with the 0 that
its callback also makes of `-ETIME`. -/
theorem timer_never_early (cfg : Config) :
    (∀ s, Reach (step cfg) Undisturbed init s → NeverEarly s) ∧
    (∀ s j res t, Reachable (step cfg) init s → ¬ Undisturbed (.ring (.complete j res)) s →
      step cfg (.ring (.complete j res)) s = some t →
      ∃ i ts, t.ring.request i = coAwait ts ∧ t.now < t.armedAt i + ts ∧
        (step cfg (.ring (.complete i 0)) t).isSome = true) :=
  ⟨fun _ h => (reach_inv h).early, fun _ _ _ _ hs ho ht => disturbed_early hs ho ht⟩

def twoTicks : List Label :=
  [.coAwait 2, .ring (.request .tcpRead), .ring .poll, .ring (.accept 2), .tick, .tick, .ring (.complete 1 9),
    .ring (.complete 0 (-etime)), .ring .step, .ring .step, .ring .step, .ring .step, .ring .step, .ring .step,
    .ring .step, .resume 0]

theorem timer_never_early_twoTicks : ∃ s, Reach (step ⟨4, 8⟩) Undisturbed init s ∧ s.resumed = [(0, 0, 2)] ∧
    s.ring.request 0 = coAwait 2 ∧ NeverEarly s := by
  obtain ⟨s, hs⟩ : ∃ s, s ∈ exec (step ⟨4, 8⟩) twoTicks init := ⟨_, rfl⟩
  have hr := Reach.exec .start (by decide : Along (step ⟨4, 8⟩) Undisturbed twoTicks init) hs
  have hearly := (timer_never_early ⟨4, 8⟩).1 s hr
  cases hs
  exact ⟨_, hr, rfl, rfl, hearly⟩

/-- The nop beside a timer of 1000 completes at once, and so does the timer. -/
def nopBeside : List Label :=
  [.coAwait 1000, .ring (.request .nop), .ring .poll, .ring (.accept 2), .ring (.complete 1 0),
    .ring (.complete 0 0), .ring .step, .ring .step, .ring .step, .ring .step, .ring .step, .ring .step,
    .ring .step, .resume 0]

theorem timer_early_nop : ¬ ∀ s, Reachable (step ⟨4, 8⟩) init s → NeverEarly s := by
  intro h
  have hp : exec (step ⟨4, 8⟩) nopBeside init = some _ := rfl
  have hearly := h _ (Reachable.of_exec _ hp) 0 0 (by decide) 1000 1 rfl
  exact absurd hearly (by decide)

end TinyCoro.Runtime.Ring.Timer
