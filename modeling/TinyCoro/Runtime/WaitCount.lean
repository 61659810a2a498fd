import TinyCoro.Transition.Tickets
import TinyCoro.Runtime.Context

/-! What `m_wait_count` counts, and what holds when the worker leaves `run()`. -/
namespace TinyCoro.Runtime.WaitCount
open Transition Ctx

def held : Pc → List Nat
  | .popped k => [k]
  | .resuming k => [k]
  | .selfPush k j => [k, j]
  | .selfWrite k => [k]
  | .unregister k => [k]
  | .callbackPush j _ _ => [j]
  | _ => []

def executing : Pc → List Nat
  | .resuming k => [k]
  | .selfPush k _ => [k]
  | .selfWrite k => [k]
  | .unregister k => [k]
  | _ => []

def pending (s : Ctx) : List Nat := s.registering ++ s.taskQueue ++ held s.pc

/-- A submission is issued by `register_wait` and closed by `unregister_wait`. -/
def tickets (s : Ctx) : Tickets := ⟨s.submissions, pending s, s.finished, s.waitCount + s.unregistered⟩

private theorem issue {s t : Ctx} (hi : t.submissions = s.submissions + 1)
    (ho : (pending t).Perm (s.submissions :: pending s)) (hc : t.finished = s.finished)
    (hw : t.waitCount = s.waitCount + 1) (hu : t.unregistered = s.unregistered) : (tickets s).Move (tickets t) := by
  rw [tickets, tickets, hi, hc]
  exact .issued ho (by omega)

private theorem finish {s t : Ctx} {k : Nat} (hi : t.submissions = s.submissions)
    (ho : (pending s).Perm (k :: pending t)) (hc : t.finished = s.finished ++ [k])
    (hw : t.waitCount = s.waitCount - 1) (hu : t.unregistered = s.unregistered) : (tickets s).Move (tickets t) := by
  rw [tickets, tickets, hi, hc]
  exact .closed ho (by omega)

private theorem keep {s t : Ctx} (hi : t.submissions = s.submissions) (ho : (pending t).Perm (pending s))
    (hc : t.finished = s.finished) (hw : t.waitCount + t.unregistered = s.waitCount + s.unregistered) :
    (tickets s).Move (tickets t) := by
  rw [tickets, tickets, hi, hc]
  exact .keep ho hw

private theorem work_tickets {cfg : Config} {s t : Ctx} (h : s.workStep cfg = some t) :
    (tickets s).Move (tickets t) := by
  replace h := workStep_cases h
  cases h with
  | pop k queue hp hq =>
    refine keep rfl ?_ rfl rfl
    rw [List.perm_iff_count]
    intro a
    simp only [pending, hp, hq, held, List.count_append, List.count_cons, List.count_nil]
    omega
  | selfPush k j hp hlt =>
    refine keep rfl ?_ rfl rfl
    rw [List.perm_iff_count]
    intro a
    simp only [pending, hp, held, List.count_append, List.count_cons, List.count_nil]
    omega
  | unregister k hp =>
    refine finish rfl ?_ rfl rfl rfl
    simp only [pending, hp, held, List.append_nil]
    exact List.perm_append_singleton k _
  | callback i n hp =>
    refine issue rfl ?_ rfl rfl rfl
    simp only [pending, goto, registerWait, hp, held, List.append_nil]
    exact List.perm_append_singleton s.submissions _
  | callbackPush k i n hp hlt =>
    refine keep rfl ?_ rfl rfl
    simp [pending, hp, held]
  -- the other steps move no submission
  | _ => exact keep rfl (by simp [pending, held, ‹s.pc = _›]) rfl rfl

/-- Every step issues a submission, finishes one, or leaves them as they are. -/
theorem step_tickets {cfg : Config} {op : Op} {s t : Ctx} (h : step cfg op s = some t) :
    (tickets s).Move (tickets t) := by
  cases op with
  | work => exact work_tickets h
  | submitSelf =>
    simp only [step] at h
    split at h
    · rename_i k hp
      cases h
      refine issue rfl ?_ rfl rfl rfl
      rw [List.perm_iff_count]
      intro a
      simp only [pending, goto, registerWait, hp, held, List.count_append, List.count_cons, List.count_nil]
      omega
    · cases h
  | register =>
    cases h
    refine issue rfl ?_ rfl rfl rfl
    rw [List.perm_iff_count]
    intro a
    simp only [pending, registerWait, List.count_append, List.count_cons, List.count_nil]
    omega
  | push k =>
    simp only [step] at h
    split at h
    · rename_i hk
      obtain ⟨u, hu, rfl⟩ := Option.map_eq_some_iff.mp h
      rw [(push_some hu).2]
      refine keep rfl ?_ rfl rfl
      rw [List.perm_iff_count]
      intro a
      have hc := (List.perm_cons_erase hk).count_eq a
      simp only [pending, List.count_append, List.count_cons, List.count_nil] at hc ⊢
      omega
    · cases h
  | unregister n =>
    simp only [step] at h
    split at h
    · cases h
      exact keep rfl .rfl rfl (by dsimp only; omega)
    · cases h
  | _ =>
    simp only [step] at h
    repeat' split at h
    all_goals cases h
    all_goals exact keep rfl (by simp [pending, held, *]) rfl rfl

end TinyCoro.Runtime.WaitCount
