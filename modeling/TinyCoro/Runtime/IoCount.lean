import TinyCoro.Runtime.Context

/-! What `m_io_submit_count` and `m_io_running_count` count: together, the
requests in the ring, whichever part of them `io_uring_submit` accepts. -/
namespace TinyCoro.Runtime.IoCount
open Ctx

/-- Requests that the counters still hold at this point and the ring does not, or not twice. -/
def moving : Pc → Nat
  | .subSubmit n => n
  | .subRunning n => n
  | _ => 0

def submitting : Pc → Option Nat
  | .submit n => some n
  | .addRunning n => some n
  | .subSubmit n => some n
  | _ => none

def accepted : Pc → Bool
  | .addRunning _ => true
  | .subSubmit _ => true
  | _ => false

def batchSize : Pc → Nat
  | .callback _ n => n
  | .callbackPush _ _ n => n
  | .callbackWrite _ n => n
  | _ => 0

structure IoCounted (s : Ctx) : Prop where
  total : s.ioSubmitCount + s.ioRunningCount = s.sq + s.kernel + s.cq + moving s.pc
  prepared : accepted s.pc = false → s.ioSubmitCount ≤ s.sq
  loaded : ∀ n, submitting s.pc = some n → s.ioSubmitCount = n ∧ 0 < n
  batch : batchSize s.pc ≤ s.cq

theorem ioCounted_init : IoCounted init := by
  constructor <;> simp [init, moving, submitting, batchSize]

/-- A step that touches neither the counters nor the ring, between points alike. -/
private theorem IoCounted.same {s t : Ctx} {p : Pc} (hs : IoCounted s) (hp : s.pc = p)
    (hsub : t.ioSubmitCount = s.ioSubmitCount) (hrun : t.ioRunningCount = s.ioRunningCount) (hsq : t.sq = s.sq)
    (hk : t.kernel = s.kernel) (hcq : t.cq = s.cq) (hm : moving t.pc = moving p)
    (hl : submitting t.pc = submitting p) (ha : accepted t.pc = accepted p) (hb : batchSize t.pc = batchSize p) :
    IoCounted t := by
  subst hp
  refine ⟨?_, ?_, ?_, ?_⟩
  · rw [hsub, hrun, hsq, hk, hcq, hm]
    exact hs.total
  · rw [ha, hsub, hsq]
    exact hs.prepared
  · rw [hl, hsub]
    exact hs.loaded
  · rw [hb, hcq]
    exact hs.batch

private theorem work_ioCounted {cfg : Config} {s t : Ctx} (hs : IoCounted s) (h : s.workStep cfg = some t) :
    IoCounted t := by
  replace h := workStep_cases h
  cases h with
  | pollSubmit hp h =>
    obtain ⟨ht, hq, hl, hb⟩ := hs
    rw [hp] at ht hq
    exact ⟨ht, hq, fun n hn => ⟨Option.some.inj hn, Option.some.inj hn ▸ h⟩, Nat.zero_le _⟩
  | addRunning n hp =>
    obtain ⟨ht, -, hl, -⟩ := hs
    rw [hp] at ht hl
    simp only [moving] at ht
    exact ⟨by simp only [moving]; omega, nofun, hl, Nat.zero_le _⟩
  | subSubmit n hp =>
    obtain ⟨ht, -, hl, -⟩ := hs
    rw [hp] at ht hl
    obtain ⟨hn, -⟩ := hl n rfl
    simp only [moving] at ht
    exact ⟨by simp only [moving]; omega, fun _ => by dsimp only; omega, nofun, Nat.zero_le _⟩
  | batch hp =>
    obtain ⟨ht, hq, -, -⟩ := hs
    rw [hp] at ht hq
    exact ⟨ht, hq, nofun, Nat.min_le_left _ _⟩
  | callbackEnd n hp =>
    obtain ⟨ht, hq, -, hb⟩ := hs
    rw [hp] at ht hq hb
    simp only [moving, batchSize] at ht hb
    exact ⟨by simp only [moving]; omega, hq, nofun, Nat.zero_le _⟩
  | subRunning n hp =>
    obtain ⟨ht, hq, -, -⟩ := hs
    rw [hp] at ht hq
    have := hq rfl
    simp only [moving] at ht
    exact ⟨by simp only [moving]; omega, hq, nofun, Nat.zero_le _⟩
  | _ =>
    have hp : s.pc = _ := ‹s.pc = _›
    exact hs.same hp rfl rfl rfl rfl rfl rfl rfl rfl rfl

theorem step_ioCounted {cfg : Config} {op : Op} {s t : Ctx} (hs : IoCounted s) (h : step cfg op s = some t) :
    IoCounted t := by
  cases op with
  | work => exact work_ioCounted hs h
  | start =>
    simp only [step] at h
    split at h
    · rename_i hp
      cases h
      exact hs.same hp rfl rfl rfl rfl rfl rfl rfl rfl rfl
    · cases h
  | submitSelf =>
    simp only [step] at h
    split at h
    · rename_i hp
      cases h
      exact hs.same hp rfl rfl rfl rfl rfl rfl rfl rfl rfl
    · cases h
  | addIo =>
    simp only [step] at h
    split at h
    · rename_i k hp
      cases h
      obtain ⟨ht, hq, hl, hb⟩ := hs
      simp only [hp, moving, accepted, forall_const] at ht hq
      constructor <;> simp [hp, moving, submitting, accepted, batchSize] <;> omega
    · cases h
  | accept j =>
    simp only [step] at h
    split at h
    · rename_i n hp
      split at h
      · cases h
        obtain ⟨ht, -, hl, -⟩ := hs
        rw [hp] at ht hl
        simp only [moving] at ht
        exact ⟨by simp only [moving]; omega, by simp [accepted], hl, Nat.zero_le _⟩
      · cases h
    · cases h
  | push k =>
    simp only [step] at h
    split at h
    · obtain ⟨u, hu, rfl⟩ := Option.map_eq_some_iff.mp h
      rw [(push_some hu).2]
      exact hs.same rfl rfl rfl rfl rfl rfl rfl rfl rfl rfl
    · cases h
  | complete =>
    simp only [step] at h
    split at h
    · cases h
    · cases h
      obtain ⟨ht, hq, hl, hb⟩ := hs
      refine ⟨?_, hq, hl, ?_⟩
      · dsimp only
        omega
      · dsimp only
        omega
  | _ =>
    simp only [step] at h
    repeat' split at h
    all_goals cases h
    all_goals exact hs.same rfl rfl rfl rfl rfl rfl rfl rfl rfl rfl

end TinyCoro.Runtime.IoCount
