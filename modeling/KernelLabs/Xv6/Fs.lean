import Mathlib.Data.Fintype.Basic
import KernelLabs.Lib.Bytes
import KernelLabs.Lib.Transition

/-!
The inode and directory layers of the file system (assignment-3 `fs.c`, `sysfile.c`) over
the blocks as the log shows them, one operation at a time. `bupdate` is the sequence
`bread`, a change of the buffer, `log_write`, `brelse`, and `written` counts the
`log_write` calls. A program stops at a panic, or where it waits for a lock that it
holds itself. There is one device.
-/
namespace Xv6Fs
open Bytes

def BSIZE : Nat := 512
def NDIRECT : Nat := 12
def NINDIRECT : Nat := BSIZE / 4
def MAXFILE : Nat := NDIRECT + NINDIRECT
def IPB : Nat := BSIZE / 64
def BPB : Nat := BSIZE * 8
def NINODE : Nat := 50
def DIRSIZ : Nat := 14
def ROOTINO : Nat := 1
def T_DIR : UInt16 := 1
def T_FILE : UInt16 := 2
def T_DEV : UInt16 := 3

/-- The superblock, laid out as `mkfs` does: the bitmap follows the inode blocks. -/
structure Superblock where
  size : Nat
  ninodes : Nat
  inodestart : Nat
  bmapstart : Nat
  inodesEnd : inodestart + ninodes / IPB < bmapstart
  rootInside : ROOTINO < ninodes
  addressable : size ≤ 2 ^ 32

/-- The number of blocks before the data blocks, `nmeta` of `mkfs`. -/
def Superblock.nmeta (sb : Superblock) : Nat := sb.bmapstart + (sb.size / BPB + 1)

def IBLOCK (sb : Superblock) (i : Nat) : Nat := i / IPB + sb.inodestart

def BBLOCK (sb : Superblock) (b : Nat) : Nat := b / BPB + sb.bmapstart

structure Dinode where
  type : UInt16
  major : UInt16
  minor : UInt16
  nlink : UInt16
  size : UInt32
  addrs : Fin (NDIRECT + 1) → UInt32
  deriving DecidableEq

def Dinode.zero : Dinode := ⟨0, 0, 0, 0, 0, fun _ => 0⟩

/-- The 64 bytes of `struct dinode`. -/
def Dinode.bytes (d : Dinode) (j : Nat) : BitVec 8 :=
  if j < 2 then byteOf d.type.toNat j
  else if j < 4 then byteOf d.major.toNat (j - 2)
  else if j < 6 then byteOf d.minor.toNat (j - 4)
  else if j < 8 then byteOf d.nlink.toNat (j - 6)
  else if j < 12 then byteOf d.size.toNat (j - 8)
  else byteOf (d.addrs (Fin.ofNat (NDIRECT + 1) ((j - 12) / 4))).toNat ((j - 12) % 4)

/-- Direct address `bn`. -/
def Dinode.direct (d : Dinode) (bn : Nat) : UInt32 := d.addrs (Fin.ofNat (NDIRECT + 1) bn)

def Dinode.read (blk : Block) (off : Nat) : Dinode where
  type := UInt16.ofNat (field blk off 2)
  major := UInt16.ofNat (field blk (off + 2) 2)
  minor := UInt16.ofNat (field blk (off + 4) 2)
  nlink := UInt16.ofNat (field blk (off + 6) 2)
  size := UInt32.ofNat (field blk (off + 8) 4)
  addrs i := UInt32.ofNat (field blk (off + (12 + 4 * i)) 4)

def dinodeAt (sb : Superblock) (disk : Nat → Block) (i : Nat) : Dinode :=
  Dinode.read (disk (IBLOCK sb i)) (i % IPB * 64)

/-- An entry of the inode cache, with its copy of the disk inode. -/
structure Inode where
  inum : Nat
  ref : Nat
  locked : Bool
  valid : Bool
  d : Dinode
  deriving DecidableEq

structure Fs where
  disk : Nat → Block
  icache : Fin NINODE → Inode
  written : Nat

inductive Panic where
  | ballocOutOfBlocks
  | freeingFreeBlock
  | iallocNoInodes
  | igetNoInodes
  | ilock
  | ilockNoType
  | iunlock
  | bmapOutOfRange
  | dirlookupNotDir
  | dirlookupRead
  | dirlinkRead
  | dirlink
  | isdiremptyReadi
  | unlinkNlink
  | unlinkWritei
  | createDots
  | createDirlink
  | hang
  deriving DecidableEq, Repr

abbrev FsM (α : Type) : Type := StateT Fs (Except Panic) α
abbrev Slot : Type := Fin NINODE
abbrev Bytes : Type := List (BitVec 8)

section Blocks

def bupdate (b : Nat) (f : Block → Block) : FsM Unit :=
  modify fun s => { s with disk := Function.update s.disk b (f (s.disk b)), written := s.written + 1 }

def setInode (k : Slot) (f : Inode → Inode) : FsM Unit :=
  modify fun s => { s with icache := Function.update s.icache k (f (s.icache k)) }

def setDinode (k : Slot) (f : Dinode → Dinode) : FsM Unit :=
  setInode k fun ip => { ip with d := f ip.d }

def setAddr (k : Slot) (i : Fin (NDIRECT + 1)) (b : Nat) : FsM Unit :=
  setDinode k fun d => { d with addrs := Function.update d.addrs i (UInt32.ofNat b) }

def bzero (b : Nat) : FsM Unit := bupdate b fun _ => zeroes

def mask (bi : Nat) : BitVec 8 := 1#8 <<< (bi % 8)

/-- The inner loop of `balloc`, over bitmap block number `k`. -/
def findFree (sb : Superblock) (disk : Nat → Block) (k : Nat) : Option Nat :=
  (List.range BPB).find? fun bi =>
    decide (k * BPB + bi < sb.size) && (disk (BBLOCK sb (k * BPB)) (bi / 8) &&& mask bi) == 0#8

def balloc (sb : Superblock) : FsM Nat := do
  let s ← get
  match (List.range ((sb.size + BPB - 1) / BPB)).findSome? fun k =>
      (findFree sb s.disk k).map fun bi => (k * BPB, bi) with
  | some (b, bi) => do
    bupdate (BBLOCK sb b) fun blk => Function.update blk (bi / 8) (blk (bi / 8) ||| mask bi)
    bzero (b + bi)
    return b + bi
  | none => throw .ballocOutOfBlocks

def bfree (sb : Superblock) (b : Nat) : FsM Unit := do
  let s ← get
  let bi := b % BPB
  if s.disk (BBLOCK sb b) (bi / 8) &&& mask bi = 0#8 then throw .freeingFreeBlock
  else bupdate (BBLOCK sb b) fun blk => Function.update blk (bi / 8) (blk (bi / 8) &&& ~~~ mask bi)

end Blocks

section Inodes

/-- The first cache entry that `p` holds of. -/
def findSlot (s : Fs) (p : Inode → Bool) : Option Slot :=
  (List.finRange NINODE).find? fun k => p (s.icache k)

def iget (inum : Nat) : FsM Slot := do
  let s ← get
  match findSlot s fun ip => decide (0 < ip.ref) && ip.inum == inum with
  | some k => do
    setInode k fun ip => { ip with ref := ip.ref + 1 }
    return k
  | none =>
    match findSlot s fun ip => ip.ref == 0 with
    | some k => do
      setInode k fun ip => { ip with inum := inum, ref := 1, valid := false }
      return k
    | none => throw .igetNoInodes

def idup (k : Slot) : FsM Slot := do
  setInode k fun ip => { ip with ref := ip.ref + 1 }
  return k

def iupdate (sb : Superblock) (k : Slot) : FsM Unit := do
  let s ← get
  let ip := s.icache k
  bupdate (IBLOCK sb ip.inum) fun blk => overlay blk (ip.inum % IPB * 64) 64 ip.d.bytes

def ialloc (sb : Superblock) (type : UInt16) : FsM Slot := do
  let s ← get
  match (List.range sb.ninodes).find? fun i =>
      decide (1 ≤ i) && (dinodeAt sb s.disk i).type == 0 with
  | some i => do
    bupdate (IBLOCK sb i) fun blk => overlay blk (i % IPB * 64) 64 { Dinode.zero with type := type }.bytes
    iget i
  | none => throw .iallocNoInodes

def ilock (sb : Superblock) (k : Slot) : FsM Unit := do
  let s ← get
  let ip := s.icache k
  if ip.ref < 1 then throw .ilock
  else if ip.locked then throw .hang
  else if ip.valid then setInode k fun ip => { ip with locked := true }
  else do
    let d := dinodeAt sb s.disk ip.inum
    setInode k fun ip => { ip with locked := true, valid := true, d := d }
    if d.type = 0 then throw .ilockNoType else pure ()

def iunlock (k : Slot) : FsM Unit := do
  let s ← get
  if (s.icache k).locked = false ∨ (s.icache k).ref < 1 then throw .iunlock
  else setInode k fun ip => { ip with locked := false }

/-- Address `i` of the inode, a new block where there is none. -/
def allocAddr (sb : Superblock) (k : Slot) (i : Fin (NDIRECT + 1)) : FsM Nat := do
  let s ← get
  let addr := (s.icache k).d.addrs i
  if addr = 0 then do
    let b ← balloc sb
    setAddr k i b
    return b
  else return addr.toNat

def bmap (sb : Superblock) (k : Slot) (bn : Nat) : FsM Nat :=
  if bn < NDIRECT then allocAddr sb k (Fin.ofNat _ bn)
  else if bn - NDIRECT < NINDIRECT then do
    let addr ← allocAddr sb k (Fin.last NDIRECT)
    let s ← get
    let entry := field (s.disk addr) (4 * (bn - NDIRECT)) 4
    if entry = 0 then do
      let b ← balloc sb
      bupdate addr fun blk => overlay blk (4 * (bn - NDIRECT)) 4 (byteOf b)
      return b
    else return entry
  else throw .bmapOutOfRange

/-- One turn of the first loop of `itrunc`. -/
def truncDirect (sb : Superblock) (k : Slot) (i : Fin NDIRECT) : FsM Unit := do
  let s ← get
  let addr := (s.icache k).d.addrs i.castSucc
  if addr = 0 then pure ()
  else do
    bfree sb addr.toNat
    setAddr k i.castSucc 0

/-- One turn of the second loop of `itrunc`, over the indirect block `bp`. -/
def truncEntry (sb : Superblock) (bp : Block) (j : Nat) : FsM Unit :=
  if field bp (4 * j) 4 = 0 then pure () else bfree sb (field bp (4 * j) 4)

def truncIndirect (sb : Superblock) (k : Slot) : FsM Unit := do
  let s ← get
  let addr := (s.icache k).d.addrs (Fin.last NDIRECT)
  if addr = 0 then pure ()
  else do
    forM (List.range NINDIRECT) (truncEntry sb (s.disk addr.toNat))
    bfree sb addr.toNat
    setAddr k (Fin.last NDIRECT) 0

def itrunc (sb : Superblock) (k : Slot) : FsM Unit := do
  forM (List.finRange NDIRECT) (truncDirect sb k)
  truncIndirect sb k
  setDinode k fun d => { d with size := 0 }
  iupdate sb k

def iput (sb : Superblock) (k : Slot) : FsM Unit := do
  let s ← get
  let ip := s.icache k
  if ip.locked then throw .hang
  else do
    if ip.valid = true ∧ ip.d.nlink = 0 ∧ ip.ref = 1 then do
      itrunc sb k
      setDinode k fun d => { d with type := 0 }
      iupdate sb k
      setInode k fun ip => { ip with valid := false }
    else pure ()
    setInode k fun ip => { ip with ref := ip.ref - 1 }

def iunlockput (sb : Superblock) (k : Slot) : FsM Unit := do
  iunlock k
  iput sb k

/-- The loop of `readi`; `fuel` bounds the number of turns, each of which takes a byte
    at least. -/
def readLoop (sb : Superblock) (k : Slot) : Nat → Nat → Nat → FsM Bytes
  | 0, _, _ => pure []
  | fuel + 1, off, n =>
    if n = 0 then pure []
    else do
      let b ← bmap sb k (off / BSIZE)
      let s ← get
      let m := min n (BSIZE - off % BSIZE)
      let rest ← readLoop sb k fuel (off + m) (n - m)
      return (List.range m).map (fun j => s.disk b (off % BSIZE + j)) ++ rest

/-- `none` is the result -1, and stands for what the driver does with a device. -/
def readi (sb : Superblock) (k : Slot) (off n : UInt32) : FsM (Option Bytes) := do
  let s ← get
  let ip := (s.icache k).d
  if ip.type = T_DEV then return none
  else if ip.size < off ∨ off + n < off then return none
  else do
    let n := if ip.size < off + n then ip.size - off else n
    let bytes ← readLoop sb k n.toNat off.toNat n.toNat
    return some bytes

def writeLoop (sb : Superblock) (k : Slot) : Nat → (Nat → BitVec 8) → Nat → Nat → FsM Unit
  | 0, _, _, _ => pure ()
  | fuel + 1, src, off, n =>
    if n = 0 then pure ()
    else do
      let b ← bmap sb k (off / BSIZE)
      let m := min n (BSIZE - off % BSIZE)
      bupdate b fun blk => overlay blk (off % BSIZE) m src
      writeLoop sb k fuel (fun j => src (j + m)) (off + m) (n - m)

def writei (sb : Superblock) (k : Slot) (src : Nat → BitVec 8) (off n : UInt32) :
    FsM (Option UInt32) := do
  let s ← get
  let ip := (s.icache k).d
  if ip.type = T_DEV then return none
  else if ip.size < off ∨ off + n < off then return none
  else if MAXFILE * BSIZE < (off + n).toNat then return none
  else do
    writeLoop sb k n.toNat src off.toNat n.toNat
    if 0 < n ∧ ip.size < off + n then do
      setDinode k fun d => { d with size := off + n }
      iupdate sb k
    else pure ()
    return some n

end Inodes
end Xv6Fs
