import Mathlib.Algebra.GroupWithZero.Nat
import Mathlib.Algebra.Ring.Int.Defs

/-! How a `timer` adds up its time before it is awaited. The fields of `__kernel_timespec`
are signed and the amounts unsigned, both of 64 bits, so all sums wrap. -/
namespace TinyCoro.Runtime.Duration

structure Timespec where
  sec : BitVec 64
  nsec : BitVec 64
  deriving DecidableEq, Repr

structure Timer where
  ts : Timespec
  flag : BitVec 32
  deriving DecidableEq, Repr

/-- What `operator co_await` passes to `io_uring_prep_timeout`. -/
structure Timeout where
  ts : Timespec
  count : BitVec 32
  flags : BitVec 32
  deriving DecidableEq, Repr

inductive Add
  | seconds (n : BitVec 64)
  | mseconds (n : BitVec 64)
  | useconds (n : BitVec 64)
  | nseconds (n : BitVec 64)
  deriving DecidableEq, Repr

namespace Timer

/-- `timer(flag)`, which leaves in `m_ts` what was there. -/
def construct (memory : Timespec) (flag : BitVec 32) : Timer := ⟨memory, flag⟩

def addSec (n : BitVec 64) (t : Timer) : Timer := { t with ts := { t.ts with sec := t.ts.sec + n } }

def addNsec (n : BitVec 64) (t : Timer) : Timer := { t with ts := { t.ts with nsec := t.ts.nsec + n } }

def addSeconds (seconds : BitVec 64) (t : Timer) : Timer := t.addSec seconds

def addMseconds (mseconds : BitVec 64) (t : Timer) : Timer := t.addNsec (1000000 * mseconds)

def addUseconds (useconds : BitVec 64) (t : Timer) : Timer := t.addNsec (1000 * useconds)

def addNseconds (nseconds : BitVec 64) (t : Timer) : Timer := t.addNsec nseconds

def add (t : Timer) : Add → Timer
  | .seconds n => t.addSeconds n
  | .mseconds n => t.addMseconds n
  | .useconds n => t.addUseconds n
  | .nseconds n => t.addNseconds n

def await (t : Timer) : Timeout := ⟨t.ts, 1, 0⟩

end Timer

def Add.sec : Add → Nat
  | .seconds n => n.toNat
  | _ => 0

def Add.nsec : Add → Nat
  | .seconds _ => 0
  | .mseconds n => 1000000 * n.toNat
  | .useconds n => 1000 * n.toNat
  | .nseconds n => n.toNat

def secs (adds : List Add) : Nat := (adds.map Add.sec).sum
def nsecs (adds : List Add) : Nat := (adds.map Add.nsec).sum

def total (adds : List Add) : Nat := secs adds * 1000000000 + nsecs adds

def timeout (memory : Timespec) (flag : BitVec 32) (adds : List Add) : Timeout :=
  (adds.foldl Timer.add (Timer.construct memory flag)).await

/-- The kernel gets exactly the total, in fields that are not negative, and the flags. -/
def Exact (flag : BitVec 32) (adds : List Add) (o : Timeout) : Prop :=
  o.ts.sec.toInt * 1000000000 + o.ts.nsec.toInt = total adds ∧ 0 ≤ o.ts.sec.toInt ∧ 0 ≤ o.ts.nsec.toInt ∧ o.flags = flag

theorem add_ts (t : Timer) (a : Add) :
    (t.add a).ts = ⟨t.ts.sec + BitVec.ofNat 64 a.sec, t.ts.nsec + BitVec.ofNat 64 a.nsec⟩ := by
  cases a with
  | seconds n => simp [Timer.add, Timer.addSeconds, Timer.addSec, Add.sec, Add.nsec]
  | mseconds n => simp [Timer.add, Timer.addMseconds, Timer.addNsec, Add.sec, Add.nsec, BitVec.ofNat_mul]
  | useconds n => simp [Timer.add, Timer.addUseconds, Timer.addNsec, Add.sec, Add.nsec, BitVec.ofNat_mul]
  | nseconds n => simp [Timer.add, Timer.addNseconds, Timer.addNsec, Add.sec, Add.nsec]

/-- The fields hold the sums, up to multiples of 2^64. -/
theorem foldl_ts (adds : List Add) (t : Timer) :
    (adds.foldl Timer.add t).ts = ⟨t.ts.sec + BitVec.ofNat 64 (secs adds), t.ts.nsec + BitVec.ofNat 64 (nsecs adds)⟩ := by
  induction adds generalizing t with
  | nil => simp [secs, nsecs]
  | cons a adds ih =>
    rw [List.foldl_cons, ih, add_ts]
    simp [secs, nsecs, BitVec.ofNat_add, BitVec.add_assoc]

/-- A field that has grown by less than 2^63 wraps once at most. -/
theorem toInt_add_ofNat (x : BitVec 64) {n : Nat} (hn : n < 2 ^ 63) :
    (x + BitVec.ofNat 64 n).toInt = if x.toInt + n < 2 ^ 63 then x.toInt + n else x.toInt + n - 2 ^ 64 := by
  have hx := x.isLt
  simp only [BitVec.toInt_eq_toNat_cond, BitVec.toNat_add, BitVec.toNat_ofNat]
  omega

/-- What the memory of `m_ts` held before makes no difference: the two fields cancel out,
and neither is below what the calls add to it. -/
def CancelsOut (memory : Timespec) (adds : List Add) : Prop :=
  memory.sec.toInt * 1000000000 + memory.nsec.toInt = 0 ∧ 0 ≤ memory.sec.toInt + secs adds ∧
    0 ≤ memory.nsec.toInt + nsecs adds

instance (memory : Timespec) (adds : List Add) : Decidable (CancelsOut memory adds) := inferInstanceAs (Decidable (_ ∧ _))

/-- With a total below 2^63 the calls add up exactly. What can go wrong is what `m_ts` held
before them, and the flags, which are always passed as 0. -/
theorem durations_exact_iff (memory : Timespec) (flag : BitVec 32) (adds : List Add) (htotal : total adds < 2 ^ 63) :
    Exact flag adds (timeout memory flag adds) ↔ CancelsOut memory adds ∧ flag = 0 := by
  unfold total at htotal
  have hsec : secs adds < 2 ^ 63 := by omega
  have hnsec : nsecs adds < 2 ^ 63 := by omega
  have hts : (timeout memory flag adds).ts =
      ⟨memory.sec + BitVec.ofNat 64 (secs adds), memory.nsec + BitVec.ofNat 64 (nsecs adds)⟩ := foldl_ts adds _
  have hflags : (timeout memory flag adds).flags = flag ↔ flag = 0 := eq_comm
  have hseclo := BitVec.le_toInt memory.sec
  have hsechi := memory.sec.toInt_lt
  have hnseclo := BitVec.le_toInt memory.nsec
  have hnsechi := memory.nsec.toInt_lt
  unfold Exact CancelsOut total
  rw [hts, hflags, toInt_add_ofNat _ hsec, toInt_add_ofNat _ hnsec]
  constructor
  · rintro ⟨hsum, hs, hn, hf⟩
    exact ⟨by omega, hf⟩
  · rintro ⟨hmem, hf⟩
    exact ⟨by omega, by omega, by omega, hf⟩

/-- The chain of calls of the example, on memory that was 0. -/
theorem durations_exact_example : total [.seconds 3, .mseconds 500] = 3500000000 ∧
    Exact 0 [.seconds 3, .mseconds 500] (timeout ⟨0, 0⟩ 0 [.seconds 3, .mseconds 500]) :=
  ⟨by decide, (durations_exact_iff ⟨0, 0⟩ 0 _ (by decide)).mpr ⟨by decide, rfl⟩⟩

/-- `timer(timeout_boottime)` is not started with its flag. -/
theorem duration_flag_dropped : ¬ ∀ (memory : Timespec) (flag : BitVec 32) (adds : List Add), total adds < 2 ^ 63 →
    Exact flag adds (timeout memory flag adds) := by
  intro h
  have hflag := (h ⟨0, 0⟩ 4 [.seconds 3] (by decide)).2.2.2
  exact absurd hflag (by decide)

end TinyCoro.Runtime.Duration
