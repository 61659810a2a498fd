import Mathlib.Data.Fintype.Basic
import TinyCoro.Frame.Workers

/-! When `done()` and `clean` find a frame that is already destroyed. -/
namespace TinyCoro.Frame.Lifetime
open Transition State
set_option linter.unusedSectionVars false
variable {W H : Type}

/-- The frame a worker has popped or gives control to. -/
def holding : Pc H → Option H
  | .popped h | .running _ h => some h
  | _ => none

/-- The handle a worker is going to look at when control is back in `exec_one_task`. -/
def looking : Pc H → Option H
  | .running h _ | .returning h | .cleaning h => some h
  | _ => none

/-- The coroutine has begun and not ended. -/
def active : Place W H → Bool
  | .fresh | .final | .destroyed => false
  | _ => true

/-- A handle is in the queue its frame says, and only once. -/
structure Queued (place : H → Place W H) (queue : W → List H) : Prop where
  mem : ∀ h j, h ∈ queue j ↔ place h = .queued j
  nodup : ∀ j, (queue j).Nodup

/-- One worker at most has a frame, and it cleans only after the coroutine has ended. -/
structure Held (place : H → Place W H) (pc : W → Pc H) : Prop where
  taken : ∀ w h, holding (pc w) = some h → place h = .taken w
  ended : ∀ w h, pc w = .cleaning h → place h = .final ∨ place h = .destroyed

/-- The parent of a coroutine under way awaits it, and no other. -/
structure Nested (detached : H → Bool) (place : H → Place W H) (parent : H → Option H) : Prop where
  awaits : ∀ c p, parent c = some p → active (place c) = true → place p = .awaiting c
  root : ∀ c, place c = .fresh → parent c = none
  plain : ∀ c p, parent c = some p → detached c = false

structure Sound (detached : H → Bool) (s : State W H) : Prop where
  queued : Queued s.place s.queue
  held : Held s.place s.pc
  nested : Nested detached s.place s.parent

/-- Nobody is going to look at a destroyed frame, and one worker at most at a frame that
`clean` destroys. -/
structure Kept (detached : H → Bool) (place : H → Place W H) (pc : W → Pc H) (destroys : H → Nat) : Prop where
  gone : ∀ h w, place h = .destroyed → looking (pc w) ≠ some h
  alone : ∀ h w w', detached h = true → place h = .final → looking (pc w) = some h → looking (pc w') = some h → w = w'
  once : ∀ h, place h = .destroyed → destroys h = 1
  live : ∀ h, place h ≠ .destroyed → destroys h = 0

theorem sound_init (detached : H → Bool) : Sound detached (init : State W H) := by
  refine ⟨⟨fun h j => ?_, fun _ => List.nodup_nil⟩, ⟨fun w h hw => ?_, fun w h hw => ?_⟩,
    ⟨fun c p hc => ?_, fun _ _ => rfl, fun c p hc => ?_⟩⟩
  · exact ⟨fun hm => absurd hm List.not_mem_nil, fun hp => by cases hp⟩
  · cases hw
  · cases hw
  · cases hc
  · cases hc

theorem kept_init (detached : H → Bool) :
    Kept detached (init : State W H).place (init : State W H).pc (init : State W H).destroys := by
  refine ⟨fun h w hd => ?_, fun h w w' _ hf => ?_, fun h hd => ?_, fun _ _ => rfl⟩
  · cases hd
  · cases hf
  · cases hd

variable [DecidableEq W] [DecidableEq H] {detached : H → Bool} {place : H → Place W H} {queue : W → List H}
  {pc : W → Pc H} {parent : H → Option H} {destroys : H → Nat}

theorem Queued.put (hs : Queued place queue) {h : H} {p : Place W H} (hold : ∀ j, place h ≠ .queued j)
    (hnew : ∀ j, p ≠ .queued j) : Queued (Function.update place h p) queue := by
  refine ⟨fun g j => ?_, hs.nodup⟩
  rw [hs.mem g j]
  by_cases hg : g = h
  · subst hg
    rw [Function.update_self]
    exact ⟨fun he => absurd he (hold j), fun he => absurd he (hnew j)⟩
  · rw [Function.update_of_ne hg]

theorem Queued.push (hs : Queued place queue) {h : H} (hold : ∀ j, place h ≠ .queued j) (j : W) :
    Queued (Function.update place h (.queued j)) (Function.update queue j (queue j ++ [h])) := by
  have hout : ∀ i, h ∉ queue i := fun i hm => hold i ((hs.mem h i).mp hm)
  refine ⟨fun g i => ?_, fun i => ?_⟩
  · by_cases hi : i = j
    · subst hi
      rw [Function.update_self, List.mem_append, List.mem_singleton, hs.mem g i]
      by_cases hg : g = h
      · simp [hg]
      · simp [hg]
    · rw [Function.update_of_ne hi, hs.mem g i]
      by_cases hg : g = h
      · subst hg
        rw [Function.update_self]
        exact ⟨fun he => absurd he (hold i), fun he => absurd (Place.queued.inj he).symm hi⟩
      · rw [Function.update_of_ne hg]
  · by_cases hi : i = j
    · subst hi
      rw [Function.update_self, List.nodup_append]
      refine ⟨hs.nodup i, List.nodup_singleton h, fun a ha b hb => ?_⟩
      rw [List.mem_singleton.mp hb]
      exact fun he => hout i (he ▸ ha)
    · rw [Function.update_of_ne hi]
      exact hs.nodup i

theorem Queued.pull (hs : Queued place queue) {w : W} {h : H} {rest : List H} (hq : queue w = h :: rest) :
    Queued (Function.update place h (.taken w)) (Function.update queue w rest) := by
  have hplace : place h = .queued w := (hs.mem h w).mp (hq ▸ List.mem_cons_self)
  have hnodup := hs.nodup w
  rw [hq, List.nodup_cons] at hnodup
  refine ⟨fun g i => ?_, fun i => ?_⟩
  · by_cases hg : g = h
    · subst hg
      rw [Function.update_self]
      refine ⟨fun hm => ?_, fun he => by cases he⟩
      by_cases hi : i = w
      · subst hi
        rw [Function.update_self] at hm
        exact absurd hm hnodup.1
      · rw [Function.update_of_ne hi, hs.mem g i, hplace] at hm
        exact absurd (Place.queued.inj hm).symm hi
    · rw [Function.update_of_ne hg, ← hs.mem g i]
      by_cases hi : i = w
      · subst hi
        rw [Function.update_self, hq, List.mem_cons, or_iff_right hg]
      · rw [Function.update_of_ne hi]
  · by_cases hi : i = w
    · subst hi
      rw [Function.update_self]
      exact hnodup.2
    · rw [Function.update_of_ne hi]
      exact hs.nodup i

theorem Held.goto (hs : Held place pc) {w : W} {p : Pc H} (hp : ∀ h, holding p = some h → place h = .taken w)
    (he : ∀ h, p = .cleaning h → place h = .final ∨ place h = .destroyed) : Held place (Function.update pc w p) where
  taken := (Function.forall_update_iff pc fun x q => ∀ h, holding q = some h → place h = .taken x).mpr
    ⟨hp, fun x _ => hs.taken x⟩
  ended := (Function.forall_update_iff pc fun _ q => ∀ h, q = .cleaning h → place h = .final ∨ place h = .destroyed).mpr
    ⟨he, fun x _ => hs.ended x⟩

theorem Held.put (hs : Held place pc) {h : H} {p : Place W H} (hp : ∀ w, holding (pc w) = some h → p = .taken w)
    (he : place h = .final ∨ place h = .destroyed → p = .final ∨ p = .destroyed) :
    Held (Function.update place h p) pc where
  taken w := (Function.forall_update_iff place fun g q => holding (pc w) = some g → q = .taken w).mpr
    ⟨hp w, fun g _ => hs.taken w g⟩
  ended w := (Function.forall_update_iff place fun g q => pc w = .cleaning g → q = .final ∨ q = .destroyed).mpr
    ⟨fun hc => he (hs.ended w h hc), fun g _ => hs.ended w g⟩

theorem Nested.put (hs : Nested detached place parent) {h : H} {p : Place W H}
    (hp : active p = true → active (place h) = true ∨ parent h = none)
    (hc : ∀ c, place h = .awaiting c → active (place c) = false) (hf : p ≠ .fresh) :
    Nested detached (Function.update place h p) parent := by
  refine ⟨fun c q hq ha => ?_, fun c he => ?_, hs.plain⟩
  · have hactive : active (place c) = true := by
      by_cases hch : c = h
      · subst hch
        rw [Function.update_self] at ha
        exact (hp ha).resolve_right (by rw [hq]; exact Option.some_ne_none q)
      · rwa [Function.update_of_ne hch] at ha
    have hawait := hs.awaits c q hq hactive
    have hqh : q ≠ h := by
      rintro rfl
      exact absurd hactive (by rw [hc c hawait]; decide)
    rw [Function.update_of_ne hqh]
    exact hawait
  · by_cases hch : c = h
    · subst hch
      rw [Function.update_self] at he
      exact absurd he hf
    · rw [Function.update_of_ne hch] at he
      exact hs.root c he

/-- The coroutine `cur` awaits `c`, which now begins. -/
theorem Nested.call (hs : Nested detached place parent) {c cur : H} (hcur : place cur = .awaiting c) (hc : place c = .fresh)
    (hd : detached c = false) (w : W) :
    Nested detached (Function.update place c (.taken w)) (Function.update parent c (some cur)) := by
  have hne : cur ≠ c := by
    rintro rfl
    rw [hc] at hcur
    cases hcur
  refine ⟨fun d p hp ha => ?_, fun d he => ?_, fun d p hp => ?_⟩
  · by_cases hdc : d = c
    · subst hdc
      rw [Function.update_self] at hp
      cases hp
      rw [Function.update_of_ne hne]
      exact hcur
    · rw [Function.update_of_ne hdc] at hp ha
      have hawait := hs.awaits d p hp ha
      rw [Function.update_of_ne (by rintro rfl; rw [hc] at hawait; cases hawait)]
      exact hawait
  · by_cases hdc : d = c
    · subst hdc
      rw [Function.update_self] at he
      cases he
    · rw [Function.update_of_ne hdc] at he ⊢
      exact hs.root d he
  · by_cases hdc : d = c
    · rw [hdc, hd]
    · rw [Function.update_of_ne hdc] at hp
      exact hs.plain d p hp

theorem Kept.goto (hs : Kept detached place pc destroys) {w : W} {p : Pc H}
    (hp : ∀ h, looking p = some h → looking (pc w) = some h ∨ active (place h) = true) :
    Kept detached place (Function.update pc w p) destroys := by
  -- a worker that looks at a frame no longer active did so before
  have hbefore : ∀ x h, looking (Function.update pc w p x) = some h → active (place h) = false →
      looking (pc x) = some h := by
    intro x h hx ha
    by_cases hw : x = w
    · subst hw
      rw [Function.update_self] at hx
      exact (hp h hx).resolve_right (by rw [ha]; decide)
    · rwa [Function.update_of_ne hw] at hx
  refine ⟨fun h x hd hx => ?_, fun h x y hdet hf hx hy => ?_, hs.once, hs.live⟩
  · exact hs.gone h x hd (hbefore x h hx (by rw [hd]; rfl))
  · exact hs.alone h x y hdet hf (hbefore x h hx (by rw [hf]; rfl)) (hbefore y h hy (by rw [hf]; rfl))

theorem Kept.put (hs : Kept detached place pc destroys) {h : H} {p : Place W H} (hp : p ≠ .destroyed)
    (hh : place h ≠ .destroyed)
    (ha : p = .final → detached h = true → ∀ w w', looking (pc w) = some h → looking (pc w') = some h → w = w') :
    Kept detached (Function.update place h p) pc destroys where
  gone := (Function.forall_update_iff place fun g q => ∀ w, q = .destroyed → looking (pc w) ≠ some g).mpr
    ⟨fun _ hd => absurd hd hp, fun g _ => hs.gone g⟩
  alone := (Function.forall_update_iff place fun g q => ∀ w w', detached g = true → q = .final →
      looking (pc w) = some g → looking (pc w') = some g → w = w').mpr
    ⟨fun w w' hd hf => ha hf hd w w', fun g _ => hs.alone g⟩
  once := (Function.forall_update_iff place fun g q => q = .destroyed → destroys g = 1).mpr
    ⟨fun hd => absurd hd hp, fun g _ => hs.once g⟩
  live := (Function.forall_update_iff place fun g q => q ≠ .destroyed → destroys g = 0).mpr
    ⟨fun _ => hs.live h hh, fun g _ => hs.live g⟩

theorem Kept.destroy (hs : Kept detached place pc destroys) {h : H} (hh : place h ≠ .destroyed)
    (hw : ∀ w, looking (pc w) ≠ some h) :
    Kept detached (Function.update place h .destroyed) pc (Function.update destroys h (destroys h + 1)) := by
  refine ⟨fun g w hg => ?_, fun g w w' hd hg => ?_, fun g hg => ?_, fun g hg => ?_⟩
  all_goals by_cases he : g = h
  · subst he
    exact hw w
  · rw [Function.update_of_ne he] at hg
    exact hs.gone g w hg
  · subst he
    rw [Function.update_self] at hg
    cases hg
  · rw [Function.update_of_ne he] at hg
    exact hs.alone g w w' hd hg
  · subst he
    rw [Function.update_self, hs.live g hh]
  · rw [Function.update_of_ne he] at hg ⊢
    exact hs.once g hg
  · subst he
    exact absurd (Function.update_self ..) hg
  · rw [Function.update_of_ne he] at hg ⊢
    exact hs.live g hg

/-- When a coroutine loses control no worker has its frame. -/
theorem Sound.free {s : State W H} (hs : Sound detached s) {w : W} {h cur : H} (hp : s.pc w = .running h cur) (x : W) :
    holding (Function.update s.pc w (.returning h) x) ≠ some cur := by
  intro hx
  have hcur : s.place cur = .taken w := hs.held.taken w cur (by rw [hp]; rfl)
  by_cases hw : x = w
  · subst hw
    rw [Function.update_self] at hx
    cases hx
  · rw [Function.update_of_ne hw] at hx
    have hother := hs.held.taken x cur hx
    rw [hcur] at hother
    exact hw (Place.taken.inj hother).symm

theorem Sound.goto {s : State W H} (hs : Sound detached s) {w : W} {p : Pc H}
    (hp : ∀ h, holding p = some h → s.place h = .taken w)
    (he : ∀ h, p = .cleaning h → s.place h = .final ∨ s.place h = .destroyed) : Sound detached (s.goto w p) :=
  ⟨hs.queued, hs.held.goto hp he, hs.nested⟩

theorem Sound.leave {s : State W H} (hs : Sound detached s) {w : W} {h cur : H} (hp : s.pc w = .running h cur)
    {p : Place W H} (hq : ∀ j, p ≠ .queued j) (hf : p ≠ .fresh) : Sound detached (s.leave w h cur p) := by
  have hcur : s.place cur = .taken w := hs.held.taken w cur (by rw [hp]; rfl)
  have hgoto : Held s.place (Function.update s.pc w (.returning h)) := hs.held.goto (by simp [holding]) (by simp)
  exact ⟨hs.queued.put (by simp [hcur]) hq, hgoto.put (fun x hx => absurd hx (hs.free hp x)) (by simp [hcur]),
    hs.nested.put (fun _ => .inl (by rw [hcur]; rfl)) (by simp [hcur]) hf⟩

/-- Control goes to a coroutine that no worker has. -/
theorem Held.enter (hs : Held place pc) {c : H} (hc : ∀ x, place c ≠ .taken x)
    (he : ¬ (place c = .final ∨ place c = .destroyed))
    (w : W) (h : H) : Held (Function.update place c (.taken w)) (Function.update pc w (.running h c)) := by
  have hput : Held (Function.update place c (.taken w)) pc :=
    hs.put (fun x hx => absurd (hs.taken x c hx) (hc x)) fun hd => absurd hd he
  refine hput.goto (fun g hg => ?_) (by simp)
  cases hg
  rw [Function.update_self]

/-- The coroutine that awaited `c`, which has ended, gets control back. -/
theorem Sound.enter {s : State W H} (hs : Sound detached s) {p c : H} (hp : s.place p = .awaiting c)
    (hc : active (s.place c) = false) (w : W) (h : H) : Sound detached (s.enter w h p) := by
  refine ⟨hs.queued.put (by simp [hp]) (by simp), hs.held.enter (by simp [hp]) (by simp [hp]) w h,
    hs.nested.put (fun _ => .inl (by rw [hp]; rfl)) (fun d hd => ?_) (by simp)⟩
  rw [hp] at hd
  cases hd
  exact hc

theorem Sound.call {s : State W H} (hs : Sound detached s) {c cur : H} (hcur : s.place cur = .awaiting c)
    (hc : s.place c = .fresh) (hd : detached c = false) (w : W) (h : H) :
    Sound detached ({ s with parent := Function.update s.parent c (some cur) }.enter w h c) :=
  ⟨hs.queued.put (by simp [hc]) (by simp), hs.held.enter (by simp [hc]) (by simp [hc]) w h, hs.nested.call hcur hc hd w⟩

/-- A handle that no worker has goes into a queue. -/
theorem Sound.push {s : State W H} (hs : Sound detached s) {h : H}
    (hp : s.place h = .fresh ∨ s.place h = .waiting ∨ ∃ w, s.place h = .taken w)
    (hfree : ∀ w, holding (s.pc w) ≠ some h) (j : W) : Sound detached (s.push h j) := by
  refine ⟨hs.queued.push (fun i hi => ?_) j, hs.held.put (fun w hw => absurd hw (hfree w)) fun he => ?_,
    hs.nested.put (fun _ => ?_) (fun c hc => ?_) (by simp)⟩
  · simp [hi] at hp
  · rcases he with he | he <;> simp [he] at hp
  · rcases hp with hp | hp | ⟨w, hp⟩
    · exact .inr (hs.nested.root h hp)
    · exact .inl (by rw [hp]; rfl)
    · exact .inl (by rw [hp]; rfl)
  · simp [hc] at hp

theorem Sound.pull {s : State W H} (hs : Sound detached s) {w : W} {h : H} {rest : List H} (hq : s.queue w = h :: rest) :
    Sound detached (s.pull w h rest) := by
  have hplace : s.place h = .queued w := (hs.queued.mem h w).mp (hq ▸ List.mem_cons_self)
  have hput : Held (Function.update s.place h (.taken w)) s.pc := by
    refine hs.held.put (fun x hx => ?_) (by simp [hplace])
    have htaken := hs.held.taken x h hx
    simp [hplace] at htaken
  refine ⟨hs.queued.pull hq, hput.goto (fun g hg => ?_) (by simp),
    hs.nested.put (fun _ => .inl (by rw [hplace]; rfl)) (by simp [hplace]) (by simp)⟩
  cases hg
  rw [Function.update_self]

theorem Sound.destroy {s : State W H} (hs : Sound detached s) {h : H} (hp : s.place h = .final ∨ s.place h = .destroyed) :
    Sound detached (s.destroy h) := by
  refine ⟨hs.queued.put (fun j hj => ?_) (by simp), hs.held.put (fun w hw => ?_) fun _ => .inr rfl,
    hs.nested.put (fun ha => by cases ha) (fun c hc => ?_) (by simp)⟩
  · simp [hj] at hp
  · simp [hs.held.taken w h hw] at hp
  · simp [hc] at hp

def completing (l : Label W H) (s : State W H) : Option H :=
  match l with
  | .worker w .complete => match s.pc w with
    | .running _ cur => some cur
    | _ => none
  | _ => none

def dropping : Label W H → Option H
  | .outsideDrop c | .worker _ (.drop c) => some c
  | _ => none

/-- A detached coroutine ends only when at most one worker is between the resume of its
handle and the end of `clean`, and a task object goes only when no worker is there with
the handle of its coroutine. -/
structure Alone (detached : H → Bool) (l : Label W H) (s : State W H) : Prop where
  ends : ∀ h ∈ completing l s, detached h = true → ∀ w w', looking (s.pc w) = some h → looking (s.pc w') = some h → w = w'
  drops : ∀ h ∈ dropping l, ∀ w, looking (s.pc w) ≠ some h

instance [Fintype W] (l : Label W H) (s : State W H) : Decidable (Alone detached l s) :=
  decidable_of_iff
    ((∀ h ∈ completing l s, detached h = true → ∀ w w', looking (s.pc w) = some h → looking (s.pc w') = some h → w = w') ∧
      ∀ h ∈ dropping l, ∀ w, looking (s.pc w) ≠ some h)
    ⟨fun h => ⟨h.1, h.2⟩, fun h => ⟨h.ends, h.drops⟩⟩

theorem Kept.leave (hk : Kept detached place pc destroys) {w : W} {h cur : H} (hp : pc w = .running h cur)
    (hcur : place cur = .taken w) {p : Place W H} (hd : p ≠ .destroyed)
    (ha : p = .final → detached cur = true → ∀ x y, looking (pc x) = some cur → looking (pc y) = some cur → x = y) :
    Kept detached (Function.update place cur p) (Function.update pc w (.returning h)) destroys :=
  (hk.put hd (by simp [hcur]) ha).goto fun _ hx => .inl (by rw [hp]; exact hx)

theorem Kept.enter (hk : Kept detached place pc destroys) {w : W} {h c : H} (hl : looking (pc w) = some h)
    (hc : place c ≠ .destroyed) :
    Kept detached (Function.update place c (.taken w)) (Function.update pc w (.running h c)) destroys :=
  (hk.put (by simp) hc (by simp)).goto fun _ hx => .inl (hl.trans hx)

/-- The steps, with the tests that lead to them. -/
inductive Steps (detached : H → Bool) (s : State W H) : Label W H → State W H → Prop
  | outside {h : H} {j : W} (hh : s.place h = .fresh) : Steps detached s (.outside h j) (s.push h j)
  | outsideDrop {c : H} (hc : s.place c = .final) : Steps detached s (.outsideDrop c) (s.destroy c)
  | pop {w : W} {h : H} {rest : List H} (hp : s.pc w = .idle) (hq : s.queue w = h :: rest) :
    Steps detached s (.worker w .pop) (s.pull w h rest)
  | resume {w : W} {h : H} (hp : s.pc w = .popped h) : Steps detached s (.worker w .resume) (s.goto w (.running h h))
  | submit {w j : W} {h : H} (hh : s.place h = .fresh) : Steps detached s (.worker w (.submit h j)) (s.push h j)
  | wake {w j : W} {h : H} (hh : s.place h = .waiting) : Steps detached s (.worker w (.wake h j)) (s.push h j)
  | call {w : W} {c h cur : H} (hp : s.pc w = .running h cur) (hc : s.place c = .fresh) (hd : detached c = false) :
    Steps detached s (.worker w (.call c))
      ({ s.leave w h cur (.awaiting c) with parent := Function.update s.parent c (some cur) }.enter w h c)
  | suspend {w : W} {h cur : H} (hp : s.pc w = .running h cur) :
    Steps detached s (.worker w (.suspend none)) (s.leave w h cur .waiting)
  | suspendReady {w j : W} {h cur : H} (hp : s.pc w = .running h cur) :
    Steps detached s (.worker w (.suspend (some j))) ((s.goto w (.returning h)).push cur j)
  | complete {w : W} {h cur : H} (hp : s.pc w = .running h cur) (hroot : s.parent cur = none) :
    Steps detached s (.worker w .complete) (s.leave w h cur .final)
  | transfer {w : W} {h cur p : H} (hp : s.pc w = .running h cur) (hparent : s.parent cur = some p) :
    Steps detached s (.worker w .complete) ((s.leave w h cur .final).enter w h p)
  | drop {w : W} {c : H} (hc : s.place c = .final) : Steps detached s (.worker w (.drop c)) (s.destroy c)
  | done {w : W} {h : H} (hp : s.pc w = .returning h) (hend : s.place h = .final ∨ s.place h = .destroyed) :
    Steps detached s (.worker w .done) (s.goto w (.cleaning h))
  | notDone {w : W} : Steps detached s (.worker w .done) (s.goto w .idle)
  | clean {w : W} {h : H} (hp : s.pc w = .cleaning h) (hd : detached h = true) :
    Steps detached s (.worker w .clean) ((s.goto w .idle).destroy h)
  | notDetached {w : W} : Steps detached s (.worker w .clean) (s.goto w .idle)

theorem step_cases {l : Label W H} {s t : State W H} (h : step detached l s = some t) : Steps detached s l t := by
  unfold step at h
  split at h
  · obtain ⟨hh, h⟩ := Option.ite_none_right_eq_some.mp h
    cases h
    exact .outside hh
  · obtain ⟨hc, h⟩ := Option.ite_none_right_eq_some.mp h
    cases h
    exact .outsideDrop hc.1
  · split at h
    · split at h
      · cases h
        exact .pop ‹_› ‹_›
      · cases h
    · cases h
      exact .resume ‹_›
    · obtain ⟨hh, h⟩ := Option.ite_none_right_eq_some.mp h
      cases h
      exact .submit hh
    · obtain ⟨hh, h⟩ := Option.ite_none_right_eq_some.mp h
      cases h
      exact .wake hh
    · obtain ⟨hc, h⟩ := Option.ite_none_right_eq_some.mp h
      cases h
      exact .call ‹_› hc.1 hc.2
    · cases h
      exact .suspend ‹_›
    · cases h
      exact .suspendReady ‹_›
    · split at h
      · cases h
        exact .transfer ‹_› ‹_›
      · cases h
        exact .complete ‹_› ‹_›
    · obtain ⟨hc, h⟩ := Option.ite_none_right_eq_some.mp h
      cases h
      exact .drop hc.1
    · split at h
      · cases h
        exact .done ‹_› ‹_›
      · cases h
        exact .notDone
    · split at h
      · cases h
        exact .clean ‹_› ‹_›
      · cases h
        exact .notDetached
    · cases h

/-- Every step keeps the places, and under the condition nobody is left with a destroyed frame. -/
theorem inv_step {l : Label W H} {s t : State W H} (hs : Sound detached s) (h : step detached l s = some t) :
    Sound detached t ∧ (Alone detached l s → Kept detached s.place s.pc s.destroys →
      Kept detached t.place t.pc t.destroys) := by
  have hfree : ∀ {g : H}, (∀ w, s.place g ≠ .taken w) → ∀ w, holding (s.pc w) ≠ some g :=
    fun hg w hw => hg w (hs.held.taken w _ hw)
  have htaken : ∀ {w : W} {g : H}, holding (s.pc w) = some g → s.place g = .taken w := fun hg => hs.held.taken _ _ hg
  cases step_cases h with
  | outside hg | submit hg =>
    exact ⟨hs.push (.inl hg) (hfree (by simp [hg])) _, fun _ hk => hk.put (by simp) (by simp [hg]) (by simp)⟩
  | wake hg =>
    exact ⟨hs.push (.inr (.inl hg)) (hfree (by simp [hg])) _, fun _ hk => hk.put (by simp) (by simp [hg]) (by simp)⟩
  | outsideDrop hc | drop hc =>
    exact ⟨hs.destroy (.inl hc), fun ha hk => hk.destroy (by simp [hc]) (ha.drops _ rfl)⟩
  | @pop w g rest hp hq =>
    have hplace : s.place g = .queued w := (hs.queued.mem g w).mp (hq ▸ List.mem_cons_self)
    exact ⟨hs.pull hq, fun _ hk => (hk.put (by simp) (by simp [hplace]) (by simp)).goto (by simp [looking])⟩
  | @resume w g hp =>
    have hplace : s.place g = .taken w := htaken (by rw [hp]; rfl)
    refine ⟨hs.goto (fun x hx => ?_) (by simp), fun _ hk => hk.goto fun x hx => .inr ?_⟩
    · cases hx
      exact hplace
    · cases hx
      rw [hplace]
      rfl
  | @call w c g cur hp hc hd =>
    have hcur : s.place cur = .taken w := htaken (by rw [hp]; rfl)
    have hne : c ≠ cur := by
      rintro rfl
      simp [hcur] at hc
    have hc' : (s.leave w g cur (.awaiting c)).place c = .fresh := by
      rw [← hc]
      exact Function.update_of_ne hne _ _
    refine ⟨(hs.leave hp (by simp) (by simp)).call (Function.update_self ..) hc' hd w g, fun _ hk => ?_⟩
    have hk' := hk.leave hp hcur (p := .awaiting c) (by simp) (by simp)
    exact hk'.enter (by rw [Function.update_self]; rfl) (by rw [Function.update_of_ne hne, hc]; simp)
  | suspend hp =>
    have hcur := htaken (by rw [hp]; rfl)
    exact ⟨hs.leave hp (by simp) (by simp), fun _ hk => hk.leave hp hcur (by simp) (by simp)⟩
  | @suspendReady w j g cur hp =>
    have hcur : s.place cur = .taken w := htaken (by rw [hp]; rfl)
    have hgoto : Sound detached (s.goto w (.returning g)) := hs.goto (by simp [holding]) (by simp)
    exact ⟨hgoto.push (.inr (.inr ⟨w, hcur⟩)) (hs.free hp) j, fun _ hk => hk.leave hp hcur (by simp) (by simp)⟩
  | @complete w g cur hp =>
    refine ⟨hs.leave hp (by simp) (by simp), fun ha hk => ?_⟩
    exact hk.leave hp (htaken (by rw [hp]; rfl)) (by simp) fun _ hd => ha.ends cur (by simp [completing, hp]) hd
  | @transfer w g cur p hp hparent =>
    have hcur : s.place cur = .taken w := htaken (by rw [hp]; rfl)
    have hwait : s.place p = .awaiting cur := hs.nested.awaits cur p hparent (by rw [hcur]; rfl)
    have hne : p ≠ cur := by
      rintro rfl
      simp [hcur] at hwait
    have hp' : (s.leave w g cur .final).place p = .awaiting cur := (Function.update_of_ne hne ..).trans hwait
    have hended : active ((s.leave w g cur .final).place cur) = false := by
      rw [show (s.leave w g cur .final).place cur = .final from Function.update_self ..]
      rfl
    refine ⟨(hs.leave hp (by simp) (by simp)).enter hp' hended w g, fun ha hk => ?_⟩
    have hk' := hk.leave hp hcur (p := .final) (by simp) fun _ hd => ha.ends cur (by simp [completing, hp]) hd
    exact hk'.enter (by rw [Function.update_self]; rfl) (by rw [Function.update_of_ne hne, hwait]; simp)
  | done hp hend =>
    refine ⟨hs.goto (by simp [holding]) (by simpa using hend), fun _ hk => hk.goto fun x hx => .inl ?_⟩
    rw [hp]
    exact hx
  | notDone | notDetached =>
    exact ⟨hs.goto (by simp [holding]) (by simp), fun _ hk => hk.goto (by simp [looking])⟩
  | @clean w g hp hd =>
    have hidle : Sound detached (s.goto w .idle) := hs.goto (by simp [holding]) (by simp)
    refine ⟨hidle.destroy (hs.held.ended w g hp), fun _ hk => ?_⟩
    have hend : s.place g ≠ .destroyed := fun hg => hk.gone g w hg (by rw [hp]; rfl)
    have hfinal : s.place g = .final := (hs.held.ended w g hp).resolve_right hend
    -- nobody else is there with the handle, so nobody is left with it
    refine (hk.goto (by simp [looking])).destroy hend fun x hx => ?_
    by_cases hw : x = w
    · subst hw
      rw [Function.update_self] at hx
      cases hx
    · rw [Function.update_of_ne hw] at hx
      exact hw (hk.alone g x w hd hfinal hx (by rw [hp]; rfl))

def examined (l : Label W H) (s : State W H) : Option H :=
  match l with
  | .worker w .done => match s.pc w with
    | .returning h => some h
    | _ => none
  | .worker w .clean => match s.pc w with
    | .cleaning h => some h
    | _ => none
  | _ => none

private theorem looking_of_examined {l : Label W H} {s : State W H} {h : H} (he : examined l s = some h) :
    ∃ w, looking (s.pc w) = some h := by
  unfold examined at he
  split at he
  · rename_i w
    split at he
    · rename_i hp
      exact ⟨w, by rw [hp]; exact he⟩
    · cases he
  · rename_i w
    split at he
    · rename_i hp
      exact ⟨w, by rw [hp]; exact he⟩
    · cases he
  · cases he

private theorem sound_of_reachable {s : State W H} (h : Reachable (step detached) init s) : Sound detached s :=
  h.invariant (Sound detached) (sound_init detached) fun _ _ _ _ hs ht => (inv_step hs ht).1

private theorem kept_of_reach {s : State W H} (h : Reach (step detached) (Alone detached) init s) :
    Kept detached s.place s.pc s.destroys :=
  (h.invariant (fun s => Sound detached s ∧ Kept detached s.place s.pc s.destroys) ⟨sound_init detached, kept_init detached⟩
    fun _ _ _ ha hs ht => ⟨(inv_step hs.1 ht).1, (inv_step hs.1 ht).2 ha hs.2⟩).2

/-- The coroutine that has control suspends, so that the worker is going to call `done()`. -/
private theorem gives_back {s : State W H} (hs : Sound detached s) {w : W} {g cur : H} (hp : s.pc w = .running g cur)
    (hg : ∀ v, s.place g ≠ .taken v) : ∃ t, step detached (.worker w (.suspend none)) s = some t ∧ Sound detached t ∧
      t.pc w = .returning g ∧ t.place g = s.place g ∧ ∀ x, x ≠ w → t.pc x = s.pc x := by
  have hcur : s.place cur = .taken w := hs.held.taken w cur (by rw [hp]; rfl)
  have hne : g ≠ cur := by
    rintro rfl
    exact hg w hcur
  refine ⟨s.leave w g cur .waiting,
    by simp only [step, hp], hs.leave hp (by simp) (by simp), Function.update_self .., ?_, fun x hx => ?_⟩
  · exact Function.update_of_ne hne _ _
  · exact Function.update_of_ne hx _ _

/-- A worker that is going to look at a destroyed frame gets to it. -/
private theorem late_look {s : State W H} (hs : Sound detached s) {w : W} {g : H} (hg : s.place g = .destroyed)
    (hw : looking (s.pc w) = some g) : ∃ ls u l, exec (step detached) ls s = some u ∧ (step detached l u).isSome ∧
      examined l u = some g ∧ u.place g = .destroyed := by
  cases hp : s.pc w with
  | idle => simp [hp, looking] at hw
  | popped h => simp [hp, looking] at hw
  | running h cur =>
    obtain rfl : h = g := by simpa [hp, looking] using hw
    obtain ⟨t, ht, -, hpt, hgt, -⟩ := gives_back hs hp (by simp [hg])
    exact ⟨[.worker w (.suspend none)], t, .worker w .done,
      by simp [ht], by simp [step, hpt, hgt, hg], by simp [examined, hpt], hgt.trans hg⟩
  | returning h =>
    obtain rfl : h = g := by simpa [hp, looking] using hw
    exact ⟨[], s, .worker w .done, rfl, by simp [step, hp, hg], by simp [examined, hp], hg⟩
  | cleaning h =>
    obtain rfl : h = g := by simpa [hp, looking] using hw
    refine ⟨[], s, .worker w .clean, rfl, ?_, by simp [examined, hp], hg⟩
    simp only [step, hp]
    split <;> rfl

/-- A worker that is going to look at a detached coroutine that has ended destroys it. -/
private theorem cleans {s : State W H} (hs : Sound detached s) {w : W} {g : H} (hg : s.place g = .final)
    (hd : detached g = true) (hw : looking (s.pc w) = some g) : ∃ ls t, exec (step detached) ls s = some t ∧
      Sound detached t ∧ t.place g = .destroyed ∧ ∀ x, x ≠ w → t.pc x = s.pc x := by
  have hclean : ∀ s : State W H, Sound detached s → s.pc w = .cleaning g → ∃ t, step detached (.worker w .clean) s = some t ∧
      Sound detached t ∧ t.place g = .destroyed ∧ ∀ x, x ≠ w → t.pc x = s.pc x := by
    intro s hs hp
    have ht : step detached (.worker w .clean) s = some ((s.goto w .idle).destroy g) := by simp [step, hp, hd]
    exact ⟨_, ht, (inv_step hs ht).1, Function.update_self .., fun x hx => Function.update_of_ne hx _ _⟩
  have hdone : ∀ s : State W H, Sound detached s → s.place g = .final → s.pc w = .returning g → ∃ ls t,
      exec (step detached) ls s = some t ∧ Sound detached t ∧ t.place g = .destroyed ∧ ∀ x, x ≠ w → t.pc x = s.pc x := by
    intro s hs hg hp
    have ht : step detached (.worker w .done) s = some (s.goto w (.cleaning g)) := by simp [step, hp, hg]
    obtain ⟨u, hu, hsu, hgu, hpu⟩ := hclean _ (inv_step hs ht).1 (Function.update_self ..)
    exact ⟨[.worker w .done, .worker w .clean], u, by simp [ht, hu], hsu, hgu,
      fun x hx => (hpu x hx).trans (Function.update_of_ne hx _ _)⟩
  cases hp : s.pc w with
  | idle => simp [hp, looking] at hw
  | popped h => simp [hp, looking] at hw
  | running h cur =>
    obtain rfl : h = g := by simpa [hp, looking] using hw
    obtain ⟨t, ht, hst, hpt, hgt, hxt⟩ := gives_back hs hp (by simp [hg])
    obtain ⟨ls, u, hu, hsu, hgu, hxu⟩ := hdone t hst (hgt.trans hg) hpt
    exact ⟨.worker w (.suspend none) :: ls, u, by simp [ht, hu], hsu, hgu, fun x hx => (hxu x hx).trans (hxt x hx)⟩
  | returning h =>
    obtain rfl : h = g := by simpa [hp, looking] using hw
    exact hdone s hs hg hp
  | cleaning h =>
    obtain rfl : h = g := by simpa [hp, looking] using hw
    obtain ⟨t, ht, hst, hgt, hxt⟩ := hclean s hs hp
    exact ⟨[.worker w .clean], t, by simp [ht], hst, hgt, hxt⟩

private theorem step_drop {l : Label W H} {s t : State W H} (h : step detached l s = some t) {g : H} (hg : g ∈ dropping l) :
    t = s.destroy g := by
  cases step_cases h with
  | outsideDrop | drop =>
    cases hg
    rfl
  | _ => cases hg

private theorem step_ends {l : Label W H} {s t : State W H} (hs : Sound detached s) (h : step detached l s = some t) {g : H}
    (hg : g ∈ completing l s) (hd : detached g = true) : ∃ w k, s.pc w = .running k g ∧ t = s.leave w k g .final := by
  cases step_cases h with
  | @complete w k cur hp =>
    obtain rfl : cur = g := by simpa [completing, hp] using hg
    exact ⟨w, k, hp, rfl⟩
  | @transfer w k cur p hp hparent =>
    -- nobody awaits a detached coroutine
    obtain rfl : cur = g := by simpa [completing, hp] using hg
    exact absurd (hs.nested.plain cur p hparent) (by rw [hd]; decide)
  | _ => cases hg

/-- A step that leaves somebody to look at a frame once it is destroyed. -/
private theorem examined_destroyed {l : Label W H} {s t : State W H} (hs : Sound detached s) (h : step detached l s = some t)
    (ha : ¬ Alone detached l s) : ∃ ls u l' g, exec (step detached) ls t = some u ∧
      (step detached l' u).isSome ∧ examined l' u = some g ∧ u.place g = .destroyed := by
  have ht : Sound detached t := (inv_step hs h).1
  by_cases hdrop : ∀ g ∈ dropping l, ∀ w, looking (s.pc w) ≠ some g
  · -- a detached coroutine ends: the first of the two workers destroys it, then the second looks at it
    have hends : ¬ ∀ g ∈ completing l s, detached g = true → ∀ w w', looking (s.pc w) = some g →
        looking (s.pc w') = some g → w = w' := fun hends => ha ⟨hends, hdrop⟩
    simp only [not_forall] at hends
    obtain ⟨g, hg, hd, v, v', hv, hv', hne⟩ := hends
    obtain ⟨w, k, hp, rfl⟩ := step_ends hs h hg hd
    have hlook : ∀ x, looking (s.pc x) = some g → looking ((s.leave w k g .final).pc x) = some g := by
      intro x hx
      by_cases hw : x = w
      · subst hw
        rw [hp] at hx
        rw [show (s.leave x k g .final).pc x = .returning k from Function.update_self ..]
        exact hx
      · rwa [show (s.leave w k g .final).pc x = s.pc x from Function.update_of_ne hw ..]
    obtain ⟨ls, u, hu, hsu, hgu, hxu⟩ := cleans ht (Function.update_self ..) hd (hlook v hv)
    obtain ⟨ls', u', l', hu', hl', he', hg'⟩ := late_look hsu hgu (by rw [hxu v' (Ne.symm hne)]; exact hlook v' hv')
    exact ⟨ls ++ ls', u', l', g, by rw [exec_append, hu]; exact hu', hl', he', hg'⟩
  · -- a task object goes
    simp only [not_forall, not_not] at hdrop
    obtain ⟨g, hg, w, hw⟩ := hdrop
    have hdestroy := step_drop h hg
    subst hdestroy
    obtain ⟨ls, u, l', hu, hl', he', hg'⟩ := late_look ht (w := w) (g := g) (Function.update_self ..) hw
    exact ⟨ls, u, l', g, hu, hl', he', hg'⟩

/-- Coroutine 0 suspends on worker 0 and coroutine 1 wakes it for worker 1. Coroutine 2 is
a task that coroutine 0 may await. -/
def suspendAndWake : List (Label (Fin 2) (Fin 3)) :=
  [.outside 0 0, .outside 1 1, .worker 0 .pop, .worker 0 .resume, .worker 0 (.suspend none),
    .worker 1 .pop, .worker 1 .resume, .worker 1 (.wake 0 1), .worker 1 .complete, .worker 1 .done, .worker 1 .clean]

/-- Worker 0 tests `done()` before worker 1 resumes the coroutine, which awaits the task to
its end without a suspension. -/
def testedInTime : List (Label (Fin 2) (Fin 3)) :=
  suspendAndWake.append
    [.worker 0 .done, .worker 1 .pop, .worker 1 .resume, .worker 1 (.call 2), .worker 1 .complete, .worker 1 (.drop 2),
      .worker 1 .complete, .worker 1 .done]

/-- Worker 1 runs the coroutine to its end and destroys it before worker 0 tests it. -/
def testedTooLate : List (Label (Fin 2) (Fin 3)) :=
  suspendAndWake.append
    [.worker 1 .pop, .worker 1 .resume, .worker 1 .complete, .worker 1 .done, .worker 1 .clean]

/-- One worker: coroutine 0 awaits the task 2, which suspends. Woken by coroutine 1, it ends in a
resume of its own handle, in which coroutine 0 goes on and its task object destroys the frame. -/
def awaitedSuspends : List (Label (Fin 1) (Fin 3)) :=
  [.outside 0 0, .outside 1 0, .worker 0 .pop, .worker 0 .resume, .worker 0 (.call 2), .worker 0 (.suspend none),
    .worker 0 .done, .worker 0 .pop, .worker 0 .resume, .worker 0 (.wake 2 0), .worker 0 .complete, .worker 0 .done,
    .worker 0 .clean, .worker 0 .pop, .worker 0 .resume, .worker 0 .complete, .worker 0 (.drop 2), .worker 0 .complete]

example : (exec (step (· != 2)) awaitedSuspends init).map (fun s => (examined (.worker 0 .done) s, s.place 2)) =
    some (some 2, .destroyed) := by
  decide +kernel

end TinyCoro.Frame.Lifetime
