import KernelLabs.Xv6.FsCalls

/-!
`mkfs` (assignment-3 `mkfs.c`), which writes the first file system image. `xint` and `xshort`
give a number the bytes that the kernel reads, so the fields of inodes and entries are their
values here. A failed assertion gives no image. A file is its name and what the calls of
`read` return, the last one, which returns nothing, left out.
-/
namespace Xv6Mkfs
open Xv6Fs Bytes

def NINODES : Nat := 200
def FSSIZE : Nat := 1000
def LOGSIZE : Nat := 30

def nbitmap : Nat := FSSIZE / (BSIZE * 8) + 1
def ninodeblocks : Nat := NINODES / IPB + 1
def nlog : Nat := LOGSIZE
def nmeta : Nat := 2 + nlog + ninodeblocks + nbitmap
def nblocks : Nat := FSSIZE - nmeta

/-- What the kernel uses of the superblock. -/
def sb : Superblock where
  size := FSSIZE
  ninodes := NINODES
  inodestart := 2 + nlog
  bmapstart := 2 + nlog + ninodeblocks
  inodesEnd := by decide
  rootInside := by decide
  addressable := by decide

/-- The fields of `struct superblock`, in order. -/
def superblock : List Nat := [FSSIZE, nblocks, NINODES, nlog, 2, sb.inodestart, sb.bmapstart]

structure Image where
  disk : Nat → Block
  freeinode : Nat
  freeblock : Nat

def Image.wsect (m : Image) (sec : Nat) (buf : Block) : Image := { m with disk := Function.update m.disk sec buf }

def Image.winode (m : Image) (inum : Nat) (d : Dinode) : Image :=
  m.wsect (IBLOCK sb inum) (overlay (m.disk (IBLOCK sb inum)) (inum % IPB * 64) 64 d.bytes)

def Image.rinode (m : Image) (inum : Nat) : Dinode := dinodeAt sb m.disk inum

def Image.ialloc (m : Image) (type : UInt16) : Image :=
  { m with freeinode := m.freeinode + 1 }.winode m.freeinode { Dinode.zero with type := type, nlink := 1 }

/-- The loop of `balloc`. -/
def bitmap (used : Nat) : Block :=
  (List.range used).foldl (fun buf i => Function.update buf (i / 8) (buf (i / 8) ||| mask i)) zeroes

def Image.balloc (m : Image) (used : Nat) : Option Image :=
  if used < BSIZE * 8 then some (m.wsect sb.bmapstart (bitmap used)) else none

/-- `freeblock++`, put into an address of the inode if there is none. -/
def Image.setAddr (m : Image) (d : Dinode) (a : Fin (NDIRECT + 1)) : Image × Dinode :=
  if d.addrs a = 0 then
    ({ m with freeblock := m.freeblock + 1 }, { d with addrs := Function.update d.addrs a (UInt32.ofNat m.freeblock) })
  else (m, d)

/-- The same for the indirect block. -/
def Image.setEntry (m : Image) (ind fbn : Nat) : Image :=
  if field (m.disk ind) (4 * (fbn - NDIRECT)) 4 = 0 then
    { m with freeblock := m.freeblock + 1 }.wsect ind
      (overlay (m.disk ind) (4 * (fbn - NDIRECT)) 4 (byteOf m.freeblock))
  else m

theorem ndirect_slots : NeZero (NDIRECT + 1) := ⟨Nat.succ_ne_zero NDIRECT⟩

/-- The part of the loop of `iappend` that finds the block `x`. -/
def Image.block (m : Image) (d : Dinode) (fbn : Nat) : Image × Dinode × Nat :=
  if fbn < NDIRECT then
    let (m, d) := m.setAddr d (@Fin.ofNat (NDIRECT + 1) ndirect_slots fbn)
    (m, d, (d.direct fbn).toNat)
  else
    let (m, d) := m.setAddr d (Fin.last NDIRECT)
    let ind := (d.addrs (Fin.last NDIRECT)).toNat
    let m := m.setEntry ind fbn
    (m, d, field (m.disk ind) (4 * (fbn - NDIRECT)) 4)

/-- The loop of `iappend`; each turn takes a byte at least. -/
def iappendLoop : Nat → Image → Dinode → Nat → Bytes → Option (Image × Dinode × Nat)
  | 0, m, d, off, _ => some (m, d, off)
  | fuel + 1, m, d, off, p =>
    if p = [] then some (m, d, off)
    else
      let fbn := off / BSIZE
      if fbn < MAXFILE then
        let (m, d, x) := m.block d fbn
        let n1 := min p.length ((fbn + 1) * BSIZE - off)
        let m := m.wsect x (overlay (m.disk x) (off - fbn * BSIZE) n1 fun j => p.getD j 0#8)
        iappendLoop fuel m d (off + n1) (p.drop n1)
      else none

def Image.iappend (m : Image) (inum : Nat) (p : Bytes) : Option Image := do
  let d := m.rinode inum
  let (m, d, off) ← iappendLoop p.length m d d.size.toNat p
  some (m.winode inum { d with size := UInt32.ofNat off })

structure Input where
  name : Bytes
  reads : List Bytes
  word : 0#8 ∉ name
  chunks : ∀ r ∈ reads, r ≠ [] ∧ r.length ≤ BSIZE

/-- The name without a leading underscore. -/
def Input.stored (f : Input) : Bytes := if f.name.head? = some 95#8 then f.name.tail else f.name

def Input.bytes (f : Input) : Bytes := f.reads.flatten

/-- A directory entry, its name copied by `strncpy`. -/
def dirent (inum : Nat) (name : Bytes) : Bytes := (List.range DIRENT).map (Dirent.bytes ⟨inum, name⟩)

def dot : Bytes := [46#8]
def dotdot : Bytes := [46#8, 46#8]

/-- The body of the loop over the files. -/
def Image.addFile (m : Image) (f : Input) : Option Image := do
  if slash ∈ f.name then none
  else
    let inum := m.freeinode
    let m ← (m.ialloc T_FILE).iappend ROOTINO (dirent inum f.stored)
    f.reads.foldlM (fun m buf => m.iappend inum buf) m

/-- `fix size of root inode dir`. -/
def Image.fixRoot (m : Image) : Image :=
  let d := m.rinode ROOTINO
  m.winode ROOTINO { d with size := UInt32.ofNat ((d.size.toNat / BSIZE + 1) * BSIZE) }

def blank : Image where
  disk := Function.update (fun _ => zeroes) 1 (overlay zeroes 0 28 fun j => byteOf (superblock.getD (j / 4) 0) (j % 4))
  freeinode := 1
  freeblock := nmeta

/-- `main`. -/
def mkfs (files : List Input) : Option Image := do
  let m := blank.ialloc T_DIR
  let m ← m.iappend ROOTINO (dirent ROOTINO dot)
  let m ← m.iappend ROOTINO (dirent ROOTINO dotdot)
  let m ← files.foldlM Image.addFile m
  m.fixRoot.balloc m.freeblock

/-- The kernel, after boot, looks up a name in the root directory and reads the file. -/
def lookupRead (name : Bytes) : FsM (Option (Option Bytes)) := do
  let dp ← iget ROOTINO
  ilock sb dp
  match ← dirlookup sb dp name with
  | none => return none
  | some (k, _) => do
    ilock sb k
    let s ← get
    let bytes ← readi sb k 0 (s.icache k).d.size
    return some bytes

/-- The root directory, then the name, then the file. -/
theorem lookupRead_eq (name : Bytes) : lookupRead name = (do let dp ← iget ROOTINO; ilock sb dp; return dp) >>= fun dp =>
    dirlookup sb dp name >>= fun r => match r with
      | none => return none
      | some (k, _) => (do ilock sb k; let s ← get; readi sb k 0 (s.icache k).d.size) >>= fun bytes => return some bytes := by
  simp only [lookupRead, bind_assoc, pure_bind]

def booted (disk : Nat → Block) : Fs := ⟨disk, fun _ => ⟨0, 0, false, false, Dinode.zero⟩, 0⟩

end Xv6Mkfs
