import Mathlib.Algebra.CharZero.Defs
import Mathlib.Algebra.Ring.Nat
import Mathlib.Logic.Function.Basic
import KernelLabs.Lib.Transition

/-!
Physical pages and page tables of xv6 (assignment-3 `kalloc.c` and `vm.c`, with the
macros of `mmu.h` and `memlayout.h`). A kernel pointer to a page stands for the number
of the physical page, a page is an array of 1024 words and a `pte_t *` is a page and the
index of a word in it. The list threaded through the free pages is a list of pages;
the kernel runs one of these functions at a time.
-/
namespace Xv6Vm

def PGSIZE : Nat := 4096
def NPDENTRIES : Nat := 1024
def EXTMEM : Nat := 0x100000
def PHYSTOP : Nat := 0xE000000
def DEVSPACE : Nat := 0xFE000000
def KERNBASE : Nat := 0x80000000
def KERNLINK : Nat := KERNBASE + EXTMEM
def PTE_P : Nat := 0x001
def PTE_W : Nat := 0x002
def PTE_U : Nat := 0x004

def pdx (va : Nat) : Nat := va / 2 ^ 22 % 1024
def ptx (va : Nat) : Nat := va / 2 ^ 12 % 1024
def pgaddr (d t o : Nat) : Nat := (d <<< 22 ||| t <<< 12 ||| o) % 2 ^ 32
def pgroundup (sz : Nat) : Nat := (sz + PGSIZE - 1) / PGSIZE * PGSIZE
def pgrounddown (a : Nat) : Nat := a / PGSIZE * PGSIZE
def pteAddr (pte : Nat) : Nat := pte / PGSIZE * PGSIZE
def pteFlags (pte : Nat) : Nat := pte % PGSIZE
def v2p (a : Nat) : Nat := (a + 2 ^ 32 - KERNBASE) % 2 ^ 32
def p2v (a : Nat) : Nat := (a + KERNBASE) % 2 ^ 32

/-- The physical address of a page. -/
def page2pa (p : Nat) : Nat := p * PGSIZE

def present (entry : Nat) : Bool := entry &&& PTE_P != 0

/-- The symbols of `kernel.ld`: `data` starts a page after the text, `end` follows the
    data, and the whole kernel is in the 4MB that `entrypgdir` maps. -/
structure Image where
  data : Nat
  fin : Nat
  data_aligned : data % PGSIZE = 0
  text_first : KERNLINK < data
  data_before : data ≤ fin
  loaded : fin ≤ KERNBASE + 4 * 1024 * 1024

structure PteLoc where
  page : Nat
  index : Nat
  deriving DecidableEq, Repr

/-- `deny` decides for each call of `kalloc` to come whether it fails although there
    are free pages. -/
structure Mem where
  freelist : List Nat
  words : Nat → Nat → Nat
  deny : Nat → Bool

/-- One constructor for each call of `panic` in the modelled functions. -/
inductive Panic where
  | kfree
  | remap
  | phystopTooHigh
  | freevmNoPgdir
  | pteShouldExist
  | pageNotPresent
  deriving DecidableEq, Repr

abbrev M := StateT Mem (Except Panic)

def Mem.load (s : Mem) (loc : PteLoc) : Nat := s.words loc.page loc.index

def Mem.store (s : Mem) (loc : PteLoc) (word : Nat) : Mem :=
  { s with words := Function.update s.words loc.page (Function.update (s.words loc.page) loc.index word) }

def Mem.fill (s : Mem) (p : Nat) (page : Nat → Nat) : Mem :=
  { s with words := Function.update s.words p page }

/-- The bytes of `memset(v, 1, PGSIZE)`. -/
def junk : Nat → Nat := fun _ => 0x01010101

@[irreducible] def kfree (img : Image) (v : Nat) : M Unit := do
  if page2pa v < v2p img.fin ∨ PHYSTOP ≤ page2pa v then throw .kfree
  modify fun s => { s.fill v junk with freelist := v :: s.freelist }

def kalloc : M (Option Nat) := do
  let s ← get
  let deny := fun n => s.deny (n + 1)
  match s.freelist with
  | [] =>
    set { s with deny := deny }
    return none
  | r :: next =>
    if s.deny 0 then
      set { s with deny := deny }
      return none
    else
      set { s with freelist := next, deny := deny }
      return some r

def freerangeLoop (img : Image) (vend : Nat) : Nat → Nat → M Unit
  | 0, _ => return
  | fuel + 1, p => do
    if p + PGSIZE ≤ vend then
      kfree img (v2p p / PGSIZE)
      freerangeLoop img vend fuel (p + PGSIZE)

@[irreducible] def freerange (img : Image) (vstart vend : Nat) : M Unit :=
  freerangeLoop img vend (vend / PGSIZE) (pgroundup vstart)

def kinit1 (img : Image) (vstart vend : Nat) : M Unit := freerange img vstart vend
def kinit2 (img : Image) (vstart vend : Nat) : M Unit := freerange img vstart vend

def walkpgdir (pgdir va : Nat) (alloc : Bool) : M (Option PteLoc) := do
  let pde : PteLoc := ⟨pgdir, pdx va⟩
  let s ← get
  if present (s.load pde) then return some ⟨pteAddr (s.load pde) / PGSIZE, ptx va⟩
  else if !alloc then return none
  else
    match ← kalloc with
    | none => return none
    | some pgtab =>
      modify fun s => s.fill pgtab fun _ => 0
      modify fun s => s.store pde (page2pa pgtab ||| PTE_P ||| PTE_W ||| PTE_U)
      return some ⟨pgtab, ptx va⟩

/-- The loop of `mappages`, true for 0 and false for -1. The fuel is the number of pages
    up to `last`. -/
def mapLoop (pgdir perm last : Nat) : Nat → Nat → Nat → M Bool
  | 0, _, _ => return true
  | fuel + 1, a, pa => do
    match ← walkpgdir pgdir a true with
    | none => return false
    | some pte =>
      if present ((← get).load pte) then throw .remap
      modify fun s => s.store pte (pa ||| perm ||| PTE_P)
      if a = last then return true
      else mapLoop pgdir perm last fuel (a + PGSIZE) (pa + PGSIZE)

def mappages (pgdir va size pa perm : Nat) : M Bool :=
  let a := pgrounddown va
  let last := pgrounddown ((va + size + 2 ^ 32 - 1) % 2 ^ 32)
  mapLoop pgdir perm last ((last - a) / PGSIZE + 1) a pa

structure Kmap where
  virt : Nat
  physStart : Nat
  physEnd : Nat
  perm : Nat

def kmap (img : Image) : List Kmap :=
  [⟨KERNBASE, 0, EXTMEM, PTE_W⟩, ⟨KERNLINK, v2p KERNLINK, v2p img.data, 0⟩,
   ⟨img.data, v2p img.data, PHYSTOP, PTE_W⟩, ⟨DEVSPACE, DEVSPACE, 0, PTE_W⟩]

/-- `a = PGADDR(PDX(a) + 1, 0, 0) - PGSIZE` is followed by `a += PGSIZE`. -/
def deallocLoop (img : Image) (pgdir oldsz : Nat) : Nat → Nat → M Unit
  | 0, _ => return
  | fuel + 1, a => do
    if a < oldsz then
      match ← walkpgdir pgdir a false with
      | none => deallocLoop img pgdir oldsz fuel (pgaddr (pdx a + 1) 0 0)
      | some pte =>
        let entry := (← get).load pte
        if present entry then
          if pteAddr entry = 0 then throw .kfree
          kfree img (pteAddr entry / PGSIZE)
          modify fun s => s.store pte 0
        deallocLoop img pgdir oldsz fuel (a + PGSIZE)

def deallocuvm (img : Image) (pgdir oldsz newsz : Nat) : M Nat := do
  if newsz ≥ oldsz then return oldsz
  else
    deallocLoop img pgdir oldsz (oldsz / PGSIZE + 1) (pgroundup newsz)
    return newsz

/-- The loop of `freevm` over the entries of the directory from `i` on. -/
def freeTables (img : Image) (pgdir : Nat) : Nat → Nat → M Unit
  | 0, _ => return
  | count + 1, i => do
    let entry := (← get).load ⟨pgdir, i⟩
    if present entry then kfree img (pteAddr entry / PGSIZE)
    freeTables img pgdir count (i + 1)

def freevm (img : Image) : Option Nat → M Unit
  | none => throw .freevmNoPgdir
  | some pgdir => do
    let _ ← deallocuvm img pgdir KERNBASE 0
    freeTables img pgdir NPDENTRIES 0
    kfree img pgdir

def mapKernel (pgdir : Nat) : List Kmap → M Bool
  | [] => return true
  | k :: rest => do
    if ← mappages pgdir k.virt ((k.physEnd + 2 ^ 32 - k.physStart) % 2 ^ 32) k.physStart k.perm then
      mapKernel pgdir rest
    else return false

def setupkvm (img : Image) : M (Option Nat) := do
  match ← kalloc with
  | none => return none
  | some pgdir =>
    modify fun s => s.fill pgdir fun _ => 0
    if p2v PHYSTOP > DEVSPACE then throw .phystopTooHigh
    if ← mapKernel pgdir (kmap img) then return some pgdir
    else
      freevm img (some pgdir)
      return none

/-- The loop of `allocuvm` from address `a` on, with the result of the call. -/
def allocLoop (img : Image) (pgdir oldsz newsz : Nat) : Nat → Nat → M Nat
  | 0, _ => return newsz
  | fuel + 1, a => do
    if a < newsz then
      match ← kalloc with
      | none =>
        let _ ← deallocuvm img pgdir newsz oldsz
        return 0
      | some mem =>
        modify fun s => s.fill mem fun _ => 0
        if ← mappages pgdir a PGSIZE (page2pa mem) (PTE_W ||| PTE_U) then
          allocLoop img pgdir oldsz newsz fuel (a + PGSIZE)
        else
          let _ ← deallocuvm img pgdir newsz oldsz
          kfree img mem
          return 0
    else return newsz

def allocuvm (img : Image) (pgdir oldsz newsz : Nat) : M Nat := do
  if newsz ≥ KERNBASE then return 0
  else if newsz < oldsz then return oldsz
  else allocLoop img pgdir oldsz newsz (newsz / PGSIZE + 1) (pgroundup oldsz)

/-- The loop of `copyuvm`, false for `goto bad`. The page at `KERNBASE` is mapped in every
    directory, so `i` does not get as far as to wrap. -/
def copyLoop (img : Image) (pgdir sz d : Nat) : Nat → Nat → M Bool
  | 0, _ => return true
  | fuel + 1, i => do
    if i < sz then
      match ← walkpgdir pgdir i false with
      | none => throw .pteShouldExist
      | some pte =>
        let entry := (← get).load pte
        if !present entry then throw .pageNotPresent
        match ← kalloc with
        | none => return false
        | some mem =>
          modify fun s => s.fill mem (s.words (pteAddr entry / PGSIZE))
          if ← mappages d i PGSIZE (page2pa mem) (pteFlags entry) then
            copyLoop img pgdir sz d fuel (i + PGSIZE)
          else
            kfree img mem
            return false
    else return true

def copyuvm (img : Image) (pgdir sz : Nat) : M (Option Nat) := do
  match ← setupkvm img with
  | none => return none
  | some d =>
    if ← copyLoop img pgdir sz d (sz / PGSIZE + 1) 0 then return some d
    else
      freevm img (some d)
      return none

/-- The memory and the directories that are in use. -/
structure Machine where
  mem : Mem
  dirs : List Nat

/-- `main` up to the first process: `kinit1`, `kvmalloc` and `kinit2`. -/
def boot (img : Image) : M (Option Nat) := do
  kinit1 img img.fin (p2v (4 * 1024 * 1024))
  let kpgdir ← setupkvm img
  kinit2 img (p2v (4 * 1024 * 1024)) (p2v PHYSTOP)
  return kpgdir

inductive Op where
  | setupkvm
  | allocuvm (pgdir oldsz newsz : Nat)
  | deallocuvm (pgdir oldsz newsz : Nat)
  | copyuvm (pgdir sz : Nat)
  | freevm (pgdir : Nat)
  deriving DecidableEq, Repr

/-- A new directory joins those in use. -/
def Machine.joined (m : Machine) : Except Panic (Option Nat × Mem) → Option Machine
  | .ok (some pgdir, s) => some ⟨s, pgdir :: m.dirs⟩
  | .ok (none, s) => some ⟨s, m.dirs⟩
  | .error _ => none

def Machine.kept {α : Type} (m : Machine) : Except Panic (α × Mem) → Option Machine
  | .ok (_, s) => some ⟨s, m.dirs⟩
  | .error _ => none

/-- One call on a directory in use; `none` for a call that panics. All callers give
    `deallocuvm` sizes of processes, which end below the kernel. -/
def Machine.call (img : Image) (m : Machine) : Op → Option Machine
  | .setupkvm => m.joined (Xv6Vm.setupkvm img m.mem)
  | .allocuvm pgdir oldsz newsz =>
    if pgdir ∈ m.dirs then m.kept (Xv6Vm.allocuvm img pgdir oldsz newsz m.mem) else none
  | .deallocuvm pgdir oldsz newsz =>
    if pgdir ∈ m.dirs ∧ oldsz ≤ KERNBASE then m.kept (Xv6Vm.deallocuvm img pgdir oldsz newsz m.mem) else none
  | .copyuvm pgdir sz => if pgdir ∈ m.dirs then m.joined (Xv6Vm.copyuvm img pgdir sz m.mem) else none
  | .freevm pgdir =>
    if pgdir ∈ m.dirs then
      match Xv6Vm.freevm img (some pgdir) m.mem with
      | .ok (_, s) => some ⟨s, m.dirs.erase pgdir⟩
      | .error _ => none
    else none

/-- Nothing is known of the memory before `boot`, and of when `kalloc` will fail. -/
def Machine.booted (img : Image) (m : Machine) : Prop :=
  ∃ words deny kpgdir, boot img ⟨[], words, deny⟩ = .ok (kpgdir, m.mem) ∧ m.dirs = kpgdir.toList

def system (img : Image) : Transition.System Machine Op where
  start := Machine.booted img
  next := Machine.call img

end Xv6Vm
