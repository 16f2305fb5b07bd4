import Mathlib.Data.Nat.Bitwise
import KernelLabs.Lib.PageBytes
import KernelLabs.Xv6.Vm

/-!
`exec` (assignment-3 `exec.c`) with `loaduvm`, `clearpteu`, `uva2ka` and `copyout` of `vm.c`,
over the pages and page tables of `Xv6.Vm`. A file is its bytes, and `readi` the bytes that it
copies. The log and the inode locks are left out.
-/
namespace Xv6Exec
open Xv6Vm PageBytes Bytes

abbrev Byte := BitVec 8

def MAXARG : Nat := 32
def ELF_MAGIC : Nat := 0x464C457F
def ELF_PROG_LOAD : Nat := 1

/-- `nullPte` is no panic: `uva2ka` reads through the null pointer that `walkpgdir` returns. -/
inductive Panic where
  | vm (p : Xv6Vm.Panic)
  | loaduvmAligned
  | loaduvmExist
  | clearpteu
  | nullPte
  deriving DecidableEq, Repr

abbrev X := StateT Mem (Except Panic)

def lift {α : Type} (m : M α) : X α := fun s =>
  match m s with
  | .ok result => .ok result
  | .error p => .error (.vm p)

/-- `memmove((char*)P2V(page) + o, bytes, ...)`. -/
def putBytes (s : Mem) (page o : Nat) (bytes : List Byte) : Mem := s.fill page (writeBytes (s.words page) o bytes)

def clearpteu (pgdir uva : Nat) : X Unit := do
  match ← lift (walkpgdir pgdir uva false) with
  | none => throw .clearpteu
  | some pte => modify fun s => s.store pte (Nat.ldiff (s.load pte) PTE_U)

/-- The page that the address has for user code. -/
def uva2ka (pgdir uva : Nat) : X (Option Nat) := do
  match ← lift (walkpgdir pgdir uva false) with
  | none => throw .nullPte
  | some pte =>
    let entry := (← get).load pte
    if !present entry then return none
    if entry &&& PTE_U = 0 then return none
    return some (pteAddr entry / PGSIZE)

/-- The loop of `copyout`, true for 0. Each round copies a byte or more. -/
def copyLoop (pgdir : Nat) : Nat → Nat → List Byte → X Bool
  | 0, _, _ => return true
  | fuel + 1, va, buf => do
    if buf = [] then return true
    let va0 := pgrounddown va
    match ← uva2ka pgdir va0 with
    | none => return false
    | some pa0 =>
      let n := min (PGSIZE - (va - va0)) buf.length
      modify fun s => putBytes s pa0 (va - va0) (buf.take n)
      copyLoop pgdir fuel ((va0 + PGSIZE) % 2 ^ 32) (buf.drop n)

def copyout (pgdir va : Nat) (buf : List Byte) : X Bool := copyLoop pgdir buf.length va buf

/-- The bytes that `readi` copies, `none` for -1. -/
def readi (file : List Byte) (off n : Nat) : Option (List Byte) :=
  if off > file.length ∨ (off + n) % 2 ^ 32 < off then none else some ((file.drop off).take n)

/-- The loop of `loaduvm` from `i` on. -/
def loadLoop (pgdir addr : Nat) (file : List Byte) (offset sz : Nat) : Nat → Nat → X Bool
  | 0, _ => return true
  | fuel + 1, i => do
    if i < sz then
      match ← lift (walkpgdir pgdir ((addr + i) % 2 ^ 32) false) with
      | none => throw .loaduvmExist
      | some pte =>
        let pa := pteAddr ((← get).load pte)
        let n := if sz - i < PGSIZE then sz - i else PGSIZE
        match readi file ((offset + i) % 2 ^ 32) n with
        | none => return false
        | some bytes =>
          modify fun s => putBytes s (pa / PGSIZE) 0 bytes
          if bytes.length ≠ n then return false
          loadLoop pgdir addr file offset sz fuel (i + PGSIZE)
    else return true

def loaduvm (pgdir addr : Nat) (file : List Byte) (offset sz : Nat) : X Bool := do
  if addr % PGSIZE ≠ 0 then throw .loaduvmAligned
  loadLoop pgdir addr file offset sz (sz / PGSIZE + 1) 0

structure Elfhdr where
  magic : Nat
  entry : Nat
  phoff : Nat
  phnum : Nat

def sizeofElfhdr : Nat := 52

/-- A header from its bytes. -/
def elfhdr (b : List Byte) : Elfhdr :=
  let blk := fun i => b.getD i 0
  ⟨field blk 0 4, field blk 24 4, field blk 28 4, field blk 44 2⟩

structure Proghdr where
  type : Nat
  off : Nat
  vaddr : Nat
  filesz : Nat
  memsz : Nat
  deriving DecidableEq

def sizeofProghdr : Nat := 32

def proghdr (b : List Byte) : Proghdr :=
  let blk := fun i => b.getD i 0
  ⟨field blk 0 4, field blk 4 4, field blk 8 4, field blk 16 4, field blk 20 4⟩

/-- `readi` of a whole header. -/
def readHeader (file : List Byte) (off size : Nat) : Option (List Byte) :=
  match readi file off size with
  | some b => if b.length = size then some b else none
  | none => none

/-- The loop over the program headers, with the size at its end; `none` for `goto bad`. -/
def loadSegments (img : Image) (file : List Byte) (pgdir : Nat) : Nat → Nat → Nat → X (Option Nat)
  | 0, _, sz => return some sz
  | count + 1, off, sz => do
    match readHeader file off sizeofProghdr with
    | none => return none
    | some b =>
      let ph := proghdr b
      if ph.type ≠ ELF_PROG_LOAD then
        loadSegments img file pgdir count ((off + sizeofProghdr) % 2 ^ 32) sz
      else
        if ph.memsz < ph.filesz then return none
        if (ph.vaddr + ph.memsz) % 2 ^ 32 < ph.vaddr then return none
        let sz ← lift (allocuvm img pgdir sz ((ph.vaddr + ph.memsz) % 2 ^ 32))
        if sz = 0 then return none
        if ph.vaddr % PGSIZE ≠ 0 then return none
        if ← loaduvm pgdir ph.vaddr file ph.off ph.filesz then
          loadSegments img file pgdir count ((off + sizeofProghdr) % 2 ^ 32) sz
        else return none

/-- The loop over `argv`, with `sp` and the words `ustack[3..]` at its end. -/
def pushArgs (pgdir : Nat) : List (List Byte) → Nat → Nat → List Nat → X (Option (Nat × List Nat))
  | [], _, sp, args => return some (sp, args)
  | arg :: rest, argc, sp, args => do
    if argc ≥ MAXARG then return none
    let sp := (sp + 2 ^ 32 - (arg.length + 1) % 2 ^ 32) % 2 ^ 32 / 4 * 4
    if ← copyout pgdir sp (arg ++ [0]) then pushArgs pgdir rest (argc + 1) sp (args ++ [sp])
    else return none

def wordBytes (w : Nat) : List Byte := (List.range 4).map (byteOf w)

/-- The stack for the new program, with its `sp`. -/
def buildStack (pgdir sz : Nat) (argv : List (List Byte)) : X (Option Nat) := do
  match ← pushArgs pgdir argv 0 sz [] with
  | none => return none
  | some (sp, args) =>
    let argc := args.length
    let ustack := [0xffffffff, argc, (sp + 2 ^ 32 - (argc + 1) * 4) % 2 ^ 32] ++ args ++ [0]
    let sp := (sp + 2 ^ 32 - (3 + argc + 1) * 4) % 2 ^ 32
    if ← copyout pgdir sp (ustack.flatMap wordBytes) then return some sp else return none

/-- Two pages above the program, and the stack in the second. -/
@[irreducible]
def setupStack (img : Image) (pgdir sz : Nat) (argv : List (List Byte)) : X (Option (Nat × Nat)) := do
  let sz := pgroundup sz % 2 ^ 32
  let sz ← lift (allocuvm img pgdir sz ((sz + 2 * PGSIZE) % 2 ^ 32))
  if sz = 0 then return none
  clearpteu pgdir (sz - 2 * PGSIZE)
  match ← buildStack pgdir sz argv with
  | none => return none
  | some sp => return some (sz, sp)

/-- The fields of `struct proc` that `exec` sets. -/
structure Proc where
  pgdir : Nat
  sz : Nat
  eip : Nat
  esp : Nat
  name : List Byte

/-- `last` after the loop over `path`. -/
def lastElem (path : List Byte) : List Byte :=
  path.foldl (fun last c => if c = 47 then [] else last ++ [c]) []

/-- The new image, with its directory, its size and its `sp`; the second is for `goto bad`. -/
def makeImage (img : Image) (file : List Byte) (elf : Elfhdr) (pgdir : Nat) (argv : List (List Byte)) : X (Option (Nat × Nat)) := do
  match ← loadSegments img file pgdir elf.phnum elf.phoff 0 with
  | none => return none
  | some sz => setupStack img pgdir sz argv

/-- `file` is what `namei(path)` finds. -/
def exec (img : Image) (file : Option (List Byte)) (path : List Byte) (argv : List (List Byte)) (curproc : Proc) : X (Int × Proc) := do
  match file.bind fun file => (readHeader file 0 sizeofElfhdr).map fun b => (file, elfhdr b) with
  | none => return (-1, curproc)
  | some (file, elf) =>
    if elf.magic ≠ ELF_MAGIC then return (-1, curproc)
    match ← lift (setupkvm img) with
    | none => return (-1, curproc)
    | some pgdir =>
      match ← makeImage img file elf pgdir argv with
      | none =>
        lift (freevm img (some pgdir))
        return (-1, curproc)
      | some (sz, sp) =>
        lift (freevm img (some curproc.pgdir))
        return (0, ⟨pgdir, sz, elf.entry, sp, (lastElem path).take 15⟩)

end Xv6Exec
