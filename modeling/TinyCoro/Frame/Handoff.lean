import TinyCoro.Frame.TaskRun
import TinyCoro.Transition.Runs
import TinyCoro.Transition.Slots

/-! Where control goes from a final suspend point. Every coroutine but the root has been
awaited and finds its parent; the root finds nobody, and `await_suspend` has no value to
return. -/
namespace TinyCoro.Frame.Task
open Transition
variable {T : Types} {r : Ret T}

/-- `resume c` is the resume of a suspended handle, by `task::resume` or `exec_one_task`;
`destroy` is the end of the root's frame, by its task object or by `clean`. -/
inductive Label
  | run
  | resume (c : Nat)
  | destroy
  deriving DecidableEq, Repr

def move (l : Label) (s : State T) : Option (State T) :=
  match l with
  | .run => s.step
  | .resume c =>
    if s.control = .resumer ∧ (s.heap c).any (fun f => !f.done) then some { s with control := .coroutine c } else none
  | .destroy => if s.control = .resumer then some { s with heap := State.destroy 0 s.next s.heap } else none

def Coroutine.ends (f : Coroutine T) : Bool :=
  match f.point with
  | .run (.ret _) => true
  | .run (.throw _) => true
  | _ => false

def finishing (l : Label) (s : State T) : Option Nat :=
  match l, s.control with
  | .run, .coroutine c => if (s.heap c).any Coroutine.ends then some c else none
  | _, _ => none

/-- `final_awaiter::await_suspend` of this coroutine returns the handle of the coroutine
that awaits it. -/
def HandsOn (c : Nat) (s : State T) : Prop :=
  ∃ f p g, s.heap c = some f ∧ f.finalAwaitSuspend = some p ∧ s.heap p = some g ∧ g.awaits = some c

structure Chain (heap : Nat → Option (Coroutine T)) (next : Nat) : Prop where
  fresh : ∀ i, next ≤ i → heap i = none
  root : ∀ f, heap 0 = some f → f.parent = none
  parent : ∀ c f, heap c = some f → c ≠ 0 → ∃ p g, f.parent = some p ∧ heap p = some g ∧ g.awaits = some c
  below : ∀ c f n, heap c = some f → f.awaits = some n → c < n

section Destroy
variable {heap : Nat → Option (Coroutine T)} {next : Nat}

structure Destroyed (n : Nat) (heap after : Nat → Option (Coroutine T)) : Prop where
  gone : after n = none
  rest : ∀ i, after i = heap i ∨ after i = none
  before : ∀ i < n, after i = heap i
  children : ∀ p g x, heap p = some g → g.awaits = some x → after p = none → after x = none

theorem destroyed {fuel n : Nat} (hfresh : ∀ i, next ≤ i → heap i = none)
    (hbelow : ∀ c f n, heap c = some f → f.awaits = some n → c < n) (hfuel : next ≤ n + fuel) :
    Destroyed n heap (State.destroy n fuel heap) := by
  induction fuel generalizing n heap with
  | zero =>
    refine ⟨hfresh n hfuel, fun i => .inl rfl, fun i _ => rfl, fun p g x hp _ hnone => ?_⟩
    rw [State.destroy, hp] at hnone
    cases hnone
  | succ fuel ih =>
    have hother : ∀ i, i ≠ n → Function.update heap n none i = heap i := fun i hi => Function.update_of_ne hi ..
    simp only [State.destroy]
    split
    · -- the child goes first
      rename_i child hchild
      obtain ⟨f, hf, hawait⟩ := Option.bind_eq_some_iff.mp hchild
      have hlt := hbelow n f child hf hawait
      have hfresh' : ∀ i, next ≤ i → Function.update heap n none i = none := by
        intro i hi
        by_cases hin : i = n
        · rw [hin, Function.update_self]
        · rw [hother i hin, hfresh i hi]
      have hrec := @ih (Function.update heap n none) child hfresh'
        (fun c f m hc => hbelow c f m (update_none_eq hc).2) (by omega)
      refine ⟨?_, fun i => ?_, fun i hi => ?_, fun p g x hp hx hnone => ?_⟩
      · rw [hrec.before n hlt, Function.update_self]
      · by_cases hin : i = n
        · exact .inr (by rw [hin, hrec.before n hlt, Function.update_self])
        · exact (hrec.rest i).imp_left fun h => h.trans (hother i hin)
      · rw [hrec.before i (by omega), hother i (by omega)]
      · by_cases hin : p = n
        · subst hin
          rw [hf] at hp
          cases hp
          rw [hawait] at hx
          cases hx
          exact hrec.gone
        · exact hrec.children p g x (by rw [hother p hin, hp]) hx hnone
    · rename_i hchild
      refine ⟨Function.update_self .., fun i => ?_, fun i hi => hother i (by omega), fun p g x hp hx hnone => ?_⟩
      · by_cases hin : i = n
        · exact .inr (by rw [hin, Function.update_self])
        · exact .inl (hother i hin)
      · by_cases hin : p = n
        · rw [← hin, hp, Option.bind_some, hx] at hchild
          cases hchild
        · rw [hother p hin, hp] at hnone
          cases hnone

/-- With a frame goes all that hangs on it. -/
theorem Chain.destroy (hs : Chain heap next) (n : Nat) {after : Nat → Option (Coroutine T)}
    (hd : Destroyed n heap after) :
    ∀ c f, after c = some f → c ≠ 0 → ∃ p g, f.parent = some p ∧ after p = some g ∧ g.awaits = some c := by
  intro c f hc h0
  have hsame : after c = heap c := (hd.rest c).resolve_right (by rw [hc]; nofun)
  obtain ⟨p, g, hp, hg, hawait⟩ := hs.parent c f (hsame ▸ hc) h0
  refine ⟨p, g, hp, ?_, hawait⟩
  rcases hd.rest p with h | h
  · rw [h, hg]
  · rw [hd.children p g c hg hawait h] at hc
    cases hc

theorem Destroyed.live {n : Nat} {after : Nat → Option (Coroutine T)} (hd : Destroyed n heap after) {i : Nat}
    {f : Coroutine T} (hi : after i = some f) : heap i = some f := by
  rcases hd.rest i with h | h
  · rw [← h, hi]
  · rw [hi] at h
    cases h

end Destroy

section Steps
variable {heap : Nat → Option (Coroutine T)} {next c : Nat} {f f' : Coroutine T}

/-- A coroutine that awaits nothing moves on. -/
theorem Chain.set (hs : Chain heap next) (hc : heap c = some f) (hf : f.awaits = none)
    (hparent : f'.parent = f.parent) (hf' : f'.awaits = none) : Chain (Function.update heap c (some f')) next := by
  have hlt : ∀ i, next ≤ i → i ≠ c := by
    rintro i hi rfl
    rw [hs.fresh i hi] at hc
    cases hc
  refine ⟨fun i hi => ?_, fun g hg => ?_, fun x g hx h0 => ?_, fun x g n hx hn => ?_⟩
  · rw [Function.update_of_ne (hlt i hi), hs.fresh i hi]
  · rcases update_some_eq hg with ⟨rfl, rfl⟩ | ⟨-, hg⟩
    · rw [hparent, hs.root f hc]
    · exact hs.root g hg
  · obtain ⟨f₀, hf₀, hsame⟩ : ∃ f₀, heap x = some f₀ ∧ g.parent = f₀.parent := by
      rcases update_some_eq hx with ⟨rfl, rfl⟩ | ⟨-, hx⟩
      · exact ⟨f, hc, hparent⟩
      · exact ⟨g, hx, rfl⟩
    obtain ⟨p, q, hp, hq, hawait⟩ := hs.parent x f₀ hf₀ h0
    -- nobody waits for anything else than before
    have hne : p ≠ c := by
      rintro rfl
      rw [hc] at hq
      cases hq
      rw [hf] at hawait
      cases hawait
    exact ⟨p, q, hsame.trans hp, by rw [Function.update_of_ne hne, hq], hawait⟩
  · rcases update_some_eq hx with ⟨rfl, rfl⟩ | ⟨-, hx⟩
    · rw [hf'] at hn
      cases hn
    · exact hs.below x g n hx hn

/-- A coroutine awaits a new child. -/
theorem Chain.await {g : Coroutine T} (hs : Chain heap next) (hc : heap c = some f) (hf : f.awaits = none)
    (hparent : f'.parent = f.parent) (hf' : f'.awaits = some next) (hg : g.parent = some c) (hg' : g.awaits = none) :
    Chain (Function.update (Function.update heap c (some f')) next (some g)) (next + 1) := by
  obtain ⟨hfresh, hroot, hpar, hbelow⟩ := hs
  have hlt : c < next := by
    by_contra hle
    rw [hfresh c (Nat.le_of_not_lt hle)] at hc
    cases hc
  have hnew := hfresh next le_rfl
  have hcases : ∀ x k, Function.update (Function.update heap c (some f')) next (some g) x = some k →
      (x = next ∧ k = g) ∨ (x = c ∧ k = f') ∨ heap x = some k := by
    intro x k hx
    rcases update_some_eq hx with hx | ⟨-, hx⟩
    · exact .inl hx
    · exact .inr ((update_some_eq hx).imp_right And.right)
  have hkeep : ∀ p q, p ≠ c → heap p = some q →
      Function.update (Function.update heap c (some f')) next (some g) p = some q := by
    intro p q hpc hq
    have hpn : p ≠ next := by
      rintro rfl
      rw [hnew] at hq
      cases hq
    rw [Function.update_of_ne hpn, Function.update_of_ne hpc, hq]
  refine ⟨fun i hi => ?_, fun k hk => ?_, fun x k hx h0 => ?_, fun x k n hx hn => ?_⟩
  · rw [Function.update_of_ne (by omega), Function.update_of_ne (by omega), hfresh i (by omega)]
  · rcases hcases 0 k hk with ⟨h0, -⟩ | ⟨rfl, rfl⟩ | hk
    · omega
    · rw [hparent, hroot f hc]
    · exact hroot k hk
  · rcases hcases x k hx with ⟨rfl, rfl⟩ | ⟨rfl, rfl⟩ | hk
    · exact ⟨c, f', hg, by rw [Function.update_of_ne hlt.ne, Function.update_self], hf'⟩
    · obtain ⟨p, q, hp, hq, hawait⟩ := hpar x f hc h0
      exact ⟨p, q, hparent.trans hp, hkeep p q (hbelow p q x hq hawait).ne hq, hawait⟩
    · obtain ⟨p, q, hp, hq, hawait⟩ := hpar x k hk h0
      -- the coroutine itself awaited nothing before
      have hpc : p ≠ c := by
        rintro rfl
        rw [hc] at hq
        cases hq
        rw [hf] at hawait
        cases hawait
      exact ⟨p, q, hp, hkeep p q hpc hq, hawait⟩
  · rcases hcases x k hx with ⟨rfl, rfl⟩ | ⟨rfl, rfl⟩ | hk
    · rw [hg'] at hn
      cases hn
    · rw [hf', Option.some.injEq] at hn
      exact hn ▸ hlt
    · exact hbelow x k n hk hn

/-- A coroutine goes on after its child, and what is below it is destroyed. -/
theorem Chain.back {n : Nat} {after : Nat → Option (Coroutine T)} (hs : Chain heap next) (hc : heap c = some f)
    (hf : f.awaits = some n) (hparent : f'.parent = f.parent) (hf' : f'.awaits = none)
    (hd : Destroyed n heap after) : Chain (Function.update after c (some f')) next := by
  have hlt := hs.below c f n hc hf
  refine ⟨fun i hi => ?_, fun k hk => ?_, fun x k hx h0 => ?_, fun x k m hx hm => ?_⟩
  · have hic : i ≠ c := by
      rintro rfl
      rw [hs.fresh i hi] at hc
      cases hc
    rw [Function.update_of_ne hic]
    exact (hd.rest i).elim (fun h => h.trans (hs.fresh i hi)) id
  · rcases update_some_eq hk with ⟨rfl, rfl⟩ | ⟨-, hk⟩
    · rw [hparent, hs.root f hc]
    · exact hs.root k (hd.live hk)
  · rcases update_some_eq hx with ⟨rfl, rfl⟩ | ⟨-, hlive⟩
    · obtain ⟨p, q, hp, hq, hawait⟩ := hs.parent x f hc h0
      have hpx := hs.below p q x hq hawait
      exact ⟨p, q, hparent.trans hp, by rw [Function.update_of_ne hpx.ne, hd.before p (by omega), hq], hawait⟩
    · obtain ⟨p, q, hp, hq, hawait⟩ := hs.destroy n hd x k hlive h0
      -- the child that the coroutine awaited is gone
      have hpc : p ≠ c := by
        rintro rfl
        rw [hd.before p hlt, hc] at hq
        cases hq
        rw [hf] at hawait
        cases hawait
        rw [hd.gone] at hlive
        cases hlive
      exact ⟨p, q, hp, by rw [Function.update_of_ne hpc, hq], hawait⟩
  · rcases update_some_eq hx with ⟨rfl, rfl⟩ | ⟨-, hx⟩
    · rw [hf'] at hm
      cases hm
    · exact hs.below x k m (hd.live hx) hm

end Steps

theorem chain_step {s t : State T} (hs : Chain s.heap s.next) (h : s.step = some t) : Chain t.heap t.next := by
  cases hctl : s.control with
  | resumer | terminated => simp [State.step, hctl] at h
  | coroutine c =>
    cases hc : s.heap c with
    | none => simp [State.step, hctl, hc] at h
    | some f =>
      obtain ⟨r, parent, point, store⟩ := f
      cases point with
      | start b | suspended b =>
        simp only [State.step, hctl, hc, Option.some.injEq] at h
        subst h
        exact hs.set hc rfl rfl rfl
      | final => simp [State.step, hctl, hc] at h
      | run b =>
        cases b with
        | ret v | throw e | suspend k =>
          simp only [State.step, hctl, hc, Option.some.injEq] at h
          subst h
          exact hs.set hc rfl rfl rfl
        | await child k =>
          rw [State.step_await hctl hc (hs.fresh _ le_rfl), Option.some.injEq] at h
          subst h
          exact hs.await hc rfl rfl rfl rfl rfl
      | awaiting n k =>
        simp only [State.step, hctl, hc] at h
        obtain ⟨o, -, rfl⟩ := Option.map_eq_some_iff.mp h
        have hd := destroyed (n := n) hs.fresh hs.below (Nat.le_add_left ..)
        cases o with
        | none => exact hs
        | some o => exact hs.back hc rfl rfl rfl hd

theorem chain_move {l : Label} {s t : State T} (hs : Chain s.heap s.next) (h : move l s = some t) :
    Chain t.heap t.next := by
  cases l with
  | run => exact chain_step hs h
  | resume c =>
    simp only [move] at h
    split at h <;> cases h
    exact hs
  | destroy =>
    simp only [move] at h
    split at h <;> cases h
    have hd := destroyed (n := 0) hs.fresh hs.below (Nat.le_add_left ..)
    refine ⟨fun i hi => ?_, fun f hf => hs.root f (hd.live hf), hs.destroy 0 hd, fun c f n hc => ?_⟩
    · exact (hd.rest i).elim (fun h => h.trans (hs.fresh i hi)) id
    · exact hs.below c f n (hd.live hc)

theorem chain_task (b : Body T r) : Chain (task b).heap (task b).next := by
  have hother : ∀ i, i ≠ 0 → (task b).heap i = none := by
    intro i hi
    simp [task, State.create, State.set, Function.update_of_ne hi]
  have hroot : (task b).heap 0 = some ⟨r, none, .start b, .none⟩ := by
    simp [task, State.create, State.set]
  refine ⟨fun i hi => hother i (Nat.ne_of_gt hi), fun f hf => ?_, fun c f hc h0 => ?_, fun c f n hc hn => ?_⟩
  · rw [hroot] at hf
    cases hf
    rfl
  · rw [hother c h0] at hc
    cases hc
  · by_cases h0 : c = 0
    · rw [h0, hroot] at hc
      cases hc
      cases hn
    · rw [hother c h0] at hc
      cases hc

theorem finishing_live {l : Label} {s : State T} {c : Nat} (h : finishing l s = some c) : ∃ f, s.heap c = some f := by
  unfold finishing at h
  split at h
  · split at h
    · rename_i hany
      cases h
      cases hf : s.heap c with
      | none => simp [hf] at hany
      | some f => exact ⟨f, rfl⟩
    · cases h
  · cases h

private theorem handsOn_iff {b : Body T r} {s : State T} (h : Reachable move (task b) s) {l : Label} {c : Nat}
    (hc : finishing l s = some c) : HandsOn c s ↔ c ≠ 0 := by
  have hs : Chain s.heap s.next :=
    h.invariant (fun s => Chain s.heap s.next) (chain_task b) fun _ _ _ _ hs ht => chain_move hs ht
  obtain ⟨f, hf⟩ := finishing_live hc
  constructor
  · rintro ⟨f', p, g, hf', hp, -, -⟩ rfl
    rw [Coroutine.finalAwaitSuspend, hs.root f' hf'] at hp
    cases hp
  · intro h0
    obtain ⟨p, g, hp, hg, hawait⟩ := hs.parent c f hf h0
    exact ⟨f, p, g, hf, hp, hg, hawait⟩

/-- In every run of a tree of tasks, `await_suspend` of a coroutine that reaches its final
suspend point returns the coroutine that awaits it exactly when the coroutine is not the
root. So a run in which all of them hand control on is one in which the root does not end. -/
theorem final_suspend_hands_on_iff (b : Body T r) :
    (∀ s, Reachable move (task b) s → ∀ l c, finishing l s = some c → (HandsOn c s ↔ c ≠ 0)) ∧
    ∀ ls, Along move (fun l s => ∀ c, finishing l s = some c → HandsOn c s) ls (task b) ↔
      Along move (fun l s => finishing l s ≠ some 0) ls (task b) := by
  refine ⟨fun s hs l c hc => handsOn_iff hs hc, fun ls => ?_⟩
  simp only [along_iff_split]
  constructor
  · intro h pre l post s hl hs h0
    exact (handsOn_iff (Reachable.of_exec pre hs) h0).mp (h pre l post s hl hs 0 h0) rfl
  · intro h pre l post s hl hs c hc
    refine (handsOn_iff (Reachable.of_exec pre hs) hc).mpr ?_
    rintro rfl
    exact h pre l post s hl hs hc

def oneChild : Body intAndString .void := .await (.ret () : Body _ .void) fun _ => .ret ()

theorem final_suspend_hands_on_child : ∃ s, Reachable move (task oneChild) s ∧ finishing .run s = some 1 ∧
    HandsOn 1 s := by
  obtain ⟨s, hs⟩ : ∃ s, s ∈ exec move [.resume 0, .run, .run, .run] (task oneChild) := ⟨_, rfl⟩
  have hr := Reachable.of_exec _ hs
  have hc : finishing .run s = some 1 := by
    cases hs
    rfl
  exact ⟨s, hr, hc, ((final_suspend_hands_on_iff oneChild).1 s hr .run 1 hc).mpr (by decide)⟩

/-- A task that is resumed once and ends: its `await_suspend` has nothing to return. -/
theorem final_suspend_drops_root : ¬ Along move (fun l s => ∀ c, finishing l s = some c → HandsOn c s)
    [.resume 0, .run, .run] (task (.ret () : Body intAndString .void)) := by
  intro h
  obtain ⟨f, p, g, hf, hp, -, -⟩ := along_iff_split.mp h [.resume 0, .run] .run [] _ rfl rfl 0 rfl
  cases hf
  cases hp

end TinyCoro.Frame.Task
