import TinyCoro.Comp.MutexOwner
import TinyCoro.Comp.PcMoves

/-! Programs that share one mutex: who is between its lock and its unlock, and not
suspended in between, is the owner. -/
namespace TinyCoro.Client.Critical
open TinyCoro.Comp CondVar HandlePlaces PcMoves MutexOwner
variable {C V D : Type}

/-- The points at which a coroutine that has locked the mutex has not given it up. -/
def holding : Pc C Unit V D → Bool
  | .running | .notify _ _ | .notifyEnqueue _ _ _ => true
  | _ => false

/-- The operations the library goes through on its own once a call has begun. -/
def internal : Op Unit V D → Bool
  | .lockSuspend | .waitUnlock | .waitPush | .notifyNext | .notifyEnqueue | .resume => true
  | _ => false

variable [DecidableEq C] [DecidableEq V] {s t : State C Unit V D} {c : C} {op : Op Unit V D}

/-- The library goes on only with what has been called. -/
theorem internal_not_running (hi : internal op = true) (h : step (c, op) s = some t) : s.pc c ≠ .running := by
  intro hr
  cases op with
  | lockSuspend | waitUnlock | waitPush | notifyNext | notifyEnqueue | resume => simp [step, hr] at h
  | _ => cases hi

/-- Whoever gets past the lock is the owner. -/
theorem lock_owner (h : step (c, op) s = some t) (hop : op = .lockReady () ∨ op = .guardReady ())
    (ht : holding (t.pc c) = true) : c ∈ t.owners () := by
  have htry : ∀ fail, holding fail = false → t = tryLockBy c () fail s → c ∈ t.owners () := by
    rintro fail hfail rfl
    rw [tryLockBy_eq] at ht ⊢
    split at ht
    · rw [State.goto_pc, Function.update_self, hfail] at ht
      cases ht
    · simp_all
  cases hp : s.pc c with
  | running =>
    rcases hop with rfl | rfl
    · simp only [step, hp, Option.some.injEq] at h
      exact htry _ rfl h.symm
    · simp only [step, hp, Option.some.injEq] at h
      exact htry _ rfl h.symm
  | _ => rcases hop with rfl | rfl <;> simp [step, hp] at h

/-- An owner stays one as long as it does not unlock or wait, and a wait ends with it
being the owner again. -/
theorem owner_step (hs : Inv s) (h : step (c, op) s = some t) {x : C}
    (hx : holding (s.pc x) = true → x ∈ s.owners ()) (hop : x = c → op ≠ .unlock ())
    (ht : holding (t.pc x) = true) : x ∈ t.owners () := by
  by_cases hxc : x = c
  · subst hxc
    have hown := step_self hs h
    have hkeep : op ≠ .waitUnlock → x ∈ s.owners () → x ∈ t.owners () := fun hne ho =>
      owner_kept h ho fun _ => ⟨fun _ => hop rfl, hne⟩
    generalize t.pc x = q at hown ht
    generalize hp : s.pc x = p at hown hx
    cases hown with
    | stay =>
      refine hkeep ?_ (hx rfl)
      rintro rfl
      simp [step, hp] at h
    | notifyOne | notifyAll | notified | putBack | pop | enqueue => exact hkeep (by simp) (hx rfl)
    | resume a => exact hkeep (by simp) (hs.owner x () (by rw [hp]; rfl))
    | lockFail | guardFail | lockQueue | lockTake | guardQueue | guardTake | wait | release | enter => cases ht
  · have hm := step_other hs h hxc
    generalize t.pc x = q at hm ht
    generalize hp : s.pc x = p at hm hx
    cases hm with
    | stay => exact owner_kept h (hx ht) fun he => absurd he hxc
    | grant | pick | enqueue | take => cases ht

/-- Whoever is in its body stays there when somebody else moves. -/
theorem running_kept (hs : Inv s) (h : step (c, op) s = some t) {x : C} (hx : x ≠ c) (hr : s.pc x = .running) :
    t.pc x = .running := by
  have hm := step_other hs h hx
  rw [hr] at hm
  generalize t.pc x = q at hm ⊢
  cases hm
  rfl

omit [DecidableEq C] [DecidableEq V] in
/-- The places of the handles do not depend on the shared data. -/
theorem inv_shared (hs : Inv s) (shared : Unit → D) : Inv { s with shared := shared } :=
  ⟨hs.mutex, hs.queue, hs.queue_nodup, hs.wait, hs.wait_nodup, hs.hold, hs.pick, hs.owner⟩

/-- After a call of `c`, whoever is in its section is still the owner if `c` is. -/
theorem own_step (hs : Inv s) (h : step (c, op) s = some t) {p q : C → Prop}
    (hown : ∀ x, p x → holding (s.pc x) = true → x ∈ s.owners ())
    (hother : ∀ x, x ≠ c → q x → p x) (hc : q c → holding (t.pc c) = true → c ∈ t.owners ()) :
    ∀ x, q x → holding (t.pc x) = true → x ∈ t.owners () := by
  intro x hx hx'
  by_cases hxc : x = c
  · subst hxc
    exact hc hx hx'
  · exact owner_step hs h (hown x (hother x hxc hx)) (fun he => absurd he hxc) hx'

end TinyCoro.Client.Critical
