import TinyCoro.Runtime.Ring

/-! The entries that pass through the rings: what the constructors of the awaiters write
into a submission entry, and what their callbacks make of a completion entry. -/
namespace TinyCoro.Uring
open TinyCoro.Runtime

abbrev Unsigned := BitVec 32
abbrev Address := BitVec 64

/-- `io_uring_sqe`. Of each union the field that the code writes stands for the others. -/
structure Sqe where
  opcode : BitVec 8
  flags : BitVec 8
  ioprio : BitVec 16
  fd : BitVec 32
  off : BitVec 64
  addr : BitVec 64
  len : BitVec 32
  rwFlags : BitVec 32
  userData : BitVec 64
  bufIndex : BitVec 16
  personality : BitVec 16
  fileIndex : BitVec 32
  addr3 : BitVec 64
  pad2 : BitVec 64
  deriving DecidableEq, Repr

structure Cqe where
  userData : BitVec 64
  res : BitVec 32
  deriving DecidableEq, Repr

namespace Sqe

def initializeSqe (sqe : Sqe) : Sqe :=
  { sqe with flags := 0, ioprio := 0, rwFlags := 0, bufIndex := 0, personality := 0, fileIndex := 0, addr3 := 0, pad2 := 0 }

def prepRw (op : BitVec 8) (fd : BitVec 32) (addr : Address) (len : BitVec 32) (offset : BitVec 64) (sqe : Sqe) : Sqe :=
  { sqe with opcode := op, fd := fd, off := offset, addr := addr, len := len }

def setFlags (flags : Unsigned) (sqe : Sqe) : Sqe := { sqe with flags := flags.setWidth 8 }

def setData (data : Address) (sqe : Sqe) : Sqe := { sqe with userData := data }

def prepNop (sqe : Sqe) : Sqe := sqe.prepRw 0 (-1) 0 0 0

def prepTimeout (ts : Address) (count flags : Unsigned) (sqe : Sqe) : Sqe :=
  { sqe.prepRw 11 (-1) ts 1 (count.setWidth 64) with rwFlags := flags }

def prepAccept (fd : BitVec 32) (addr addrlen : Address) (flags : BitVec 32) (sqe : Sqe) : Sqe :=
  { sqe.prepRw 13 fd addr 0 addrlen with rwFlags := flags }

def prepConnect (fd : BitVec 32) (addr : Address) (addrlen : BitVec 32) (sqe : Sqe) : Sqe :=
  sqe.prepRw 16 fd addr 0 (addrlen.setWidth 64)

def prepClose (fd : BitVec 32) (sqe : Sqe) : Sqe := sqe.prepRw 19 fd 0 0 0

def prepRead (fd : BitVec 32) (buf : Address) (nbytes : Unsigned) (offset : BitVec 64) (sqe : Sqe) : Sqe :=
  sqe.prepRw 22 fd buf nbytes offset

def prepSend (sockfd : BitVec 32) (buf : Address) (len : BitVec 64) (flags : BitVec 32) (sqe : Sqe) : Sqe :=
  { sqe.prepRw 26 sockfd buf (len.setWidth 32) 0 with rwFlags := flags }

def prepRecv (sockfd : BitVec 32) (buf : Address) (len : BitVec 64) (flags : BitVec 32) (sqe : Sqe) : Sqe :=
  { sqe.prepRw 27 sockfd buf (len.setWidth 32) 0 with rwFlags := flags }

end Sqe

inductive IoType
  | nop
  | tcpAccept
  | tcpConnect
  | tcpRead
  | tcpWrite
  | tcpClose
  | stdin
  | timer
  deriving DecidableEq, Repr

/-- `io_info`, where `type` stands for the callback too. The handle is left out: it is that
of the coroutine that waits for the awaiter. -/
structure IoInfo where
  type : IoType
  data : BitVec 64
  result : BitVec 32
  deriving DecidableEq, Repr

/-- The awaiters, with the arguments of their constructors. `len` of `tcp_accept` is the
address of a static variable, and `ts` of a timer is at `tsAddr`. -/
inductive Awaiter
  | noop
  | stdin (buf : Address) (len : BitVec 64) (ioFlag sqeFlag : BitVec 32)
  | tcpAccept (listenfd : BitVec 32) (len : Address) (ioFlag sqeFlag : BitVec 32)
  | tcpRead (sockfd : BitVec 32) (buf : Address) (len : BitVec 64) (ioFlag sqeFlag : BitVec 32)
  | tcpWrite (sockfd : BitVec 32) (buf : Address) (len : BitVec 64) (ioFlag sqeFlag : BitVec 32)
  | tcpClose (sockfd : BitVec 32)
  | tcpConnect (sockfd : BitVec 32) (addr : Address) (addrlen : BitVec 32)
  | timer (ts : Nat) (tsAddr : Address) (count flags : BitVec 32)
  deriving DecidableEq, Repr

namespace Awaiter

/-- What the constructor does to `m_urs`, before `io_uring_sqe_set_data`. -/
def prep : Awaiter → Sqe → Sqe
  | .noop, sqe => sqe.prepNop
  | .stdin buf len ioFlag sqeFlag, sqe => (sqe.setFlags sqeFlag).prepRead 0 buf (len.setWidth 32) (ioFlag.signExtend 64)
  | .tcpAccept listenfd len ioFlag sqeFlag, sqe => (sqe.setFlags sqeFlag).prepAccept listenfd 0 len ioFlag
  | .tcpRead sockfd buf len ioFlag sqeFlag, sqe => (sqe.setFlags sqeFlag).prepRecv sockfd buf len ioFlag
  | .tcpWrite sockfd buf len ioFlag sqeFlag, sqe => (sqe.setFlags sqeFlag).prepSend sockfd buf len ioFlag
  | .tcpClose sockfd, sqe => sqe.prepClose sockfd
  | .tcpConnect sockfd addr addrlen, sqe => sqe.prepConnect sockfd addr addrlen
  | .timer _ tsAddr count flags, sqe => sqe.prepTimeout tsAddr count flags

def type : Awaiter → IoType
  | .noop => .nop
  | .stdin .. => .stdin
  | .tcpAccept .. => .tcpAccept
  | .tcpRead .. => .tcpRead
  | .tcpWrite .. => .tcpWrite
  | .tcpClose _ => .tcpClose
  | .tcpConnect .. => .tcpConnect
  | .timer .. => .timer

/-- What the constructor does to `m_info`, of which nothing else is initialized. -/
def inform (q : Awaiter) (info : IoInfo) : IoInfo :=
  match q with
  | .tcpConnect sockfd _ _ => { info with type := .tcpConnect, data := sockfd.signExtend 64 }
  | _ => { info with type := q.type }

def request : Awaiter → Ring.Request
  | .noop => .nop
  | .stdin .. => .stdin
  | .tcpAccept .. => .tcpAccept
  | .tcpRead .. => .tcpRead
  | .tcpWrite .. => .tcpWrite
  | .tcpClose _ => .tcpClose
  | .tcpConnect sockfd _ _ => .tcpConnect sockfd.toInt
  | .timer ts _ count _ => .timer ts count.toNat

def sqe (q : Awaiter) (info : Address) : Sqe :=
  (q.prep (Sqe.initializeSqe ⟨0, 0, 0, 0, 0, 0, 0, 0, 0, 0, 0, 0, 0, 0⟩)).setData info

/-- The calls of a constructor leave nothing of what was in the entry. -/
theorem prep_setData (q : Awaiter) (info : Address) (old : Sqe) : (q.prep old.initializeSqe).setData info = q.sqe info := by
  cases q <;> rfl

theorem sqe_userData (q : Awaiter) (info : Address) : (q.sqe info).userData = info := by
  cases q <;> rfl

end Awaiter

def IoInfo.callback (info : IoInfo) (res : BitVec 32) : IoInfo :=
  match info.type with
  | .tcpConnect => { info with result := if res ≠ 0 then res else info.data.setWidth 32 }
  | .timer => { info with result := if res = BitVec.ofInt 32 (-Ring.etime) then 0 else res }
  | _ => { info with result := res }

def Awaiter.Informed (q : Awaiter) (info : IoInfo) : Prop := q.inform info = info

theorem Awaiter.informed_inform (q : Awaiter) (info : IoInfo) : q.Informed (q.inform info) := by
  cases q <;> rfl

private theorem toInt_eq_zero {res : BitVec 32} : res.toInt = 0 ↔ res = 0 := by
  rw [← BitVec.toInt_zero, BitVec.toInt_inj]
  rfl

/-- The callbacks, which compute with the width of an `int`, leave the result that the
engine's model has. -/
theorem Awaiter.callback_result {q : Awaiter} {info : IoInfo} (h : q.Informed info) (res : BitVec 32) :
    (info.callback res).result.toInt = q.request.callback res.toInt := by
  obtain ⟨type, data, result⟩ := info
  have ht : q.type = type := by cases q <;> simp_all [Informed, inform, Awaiter.type]
  subst ht
  cases q with
  | tcpConnect sockfd addr addrlen =>
    have hdata : sockfd.signExtend 64 = data := by
      simpa [Informed, inform, Awaiter.type] using h
    subst hdata
    have hback : (sockfd.signExtend 64).setWidth 32 = sockfd := by
      apply BitVec.eq_of_getLsbD_eq
      intro i hi
      rw [BitVec.getLsbD_setWidth, BitVec.getLsbD_signExtend]
      simp [hi, Nat.lt_trans hi (show 32 < 64 by decide)]
    simp only [IoInfo.callback, Awaiter.type, Awaiter.request, Ring.Request.callback, hback, ne_eq, toInt_eq_zero]
    split <;> rfl
  | timer ts tsAddr count flags =>
    have htime : res.toInt = -Ring.etime ↔ res = BitVec.ofInt 32 (-Ring.etime) := by
      rw [← BitVec.toInt_inj]
      exact Iff.rfl
    simp only [IoInfo.callback, Awaiter.type, Awaiter.request, Ring.Request.callback, htime]
    split <;> rfl
  | _ => rfl

end TinyCoro.Uring
