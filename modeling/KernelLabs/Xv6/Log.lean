import Mathlib.Algebra.CharZero.Defs
import Mathlib.Algebra.Ring.Nat
import Mathlib.Logic.Basic

/- The in-memory part of the redo log (assignment-3 `log.c`, sizes from `param.h`).
   `lh` lists `lh.block[0]` up to `lh.block[lh.n - 1]`. The two tests of `log_write`
   run before it takes the lock, so the test and the recording are separate. -/
namespace Xv6Log

def MAXOPBLOCKS : Nat := 10
def LOGSIZE : Nat := MAXOPBLOCKS * 3

inductive Panic where
  | tooBigATransaction
  | logWriteOutsideOfTrans
  | logCommitting
  deriving DecidableEq, Repr

structure Log where
  start : Nat
  size : Nat
  outstanding : Nat
  committing : Bool
  lh : List Nat
  deriving DecidableEq, Repr

/-- One turn of the loop in `begin_op`; `none` is a sleep on the log. -/
def beginOp (log : Log) : Option Log :=
  if log.committing then none
  else if LOGSIZE < log.lh.length + (log.outstanding + 1) * MAXOPBLOCKS then none
  else some { log with outstanding := log.outstanding + 1 }

/-- The locked section of `end_op`, with `do_commit`. -/
def endOp (log : Log) : Except Panic (Log × Bool) :=
  let left := log.outstanding - 1
  if log.committing then .error .logCommitting
  else if left = 0 then .ok ({ log with outstanding := left, committing := true }, true)
  else .ok ({ log with outstanding := left }, false)

def logWriteTest (log : Log) : Except Panic Unit :=
  if LOGSIZE ≤ log.lh.length ∨ log.size - 1 ≤ log.lh.length then .error .tooBigATransaction
  else if log.outstanding < 1 then .error .logWriteOutsideOfTrans
  else .ok ()

/-- The locked section of `log_write`, with log absorption. -/
def record (log : Log) (blockno : Nat) : Log :=
  if blockno ∈ log.lh then log else { log with lh := log.lh ++ [blockno] }

theorem record_mem (log : Log) (b : Nat) : b ∈ (record log b).lh := by
  unfold record
  split
  · assumption
  · simp

theorem record_keeps (log : Log) (b : Nat) {c : Nat} (member : c ∈ log.lh) :
    c ∈ (record log b).lh := by
  unfold record
  split
  · exact member
  · simp [member]

theorem record_length (log : Log) (b : Nat) :
    (record log b).lh.length = log.lh.length + if b ∈ log.lh then 0 else 1 := by
  unfold record
  split <;> simp

theorem record_outstanding (log : Log) (b : Nat) :
    (record log b).outstanding = log.outstanding ∧ (record log b).committing = log.committing ∧
    (record log b).size = log.size ∧ (record log b).start = log.start := by
  unfold record
  split <;> simp

end Xv6Log
