import Mathlib.Algebra.CharZero.Defs
import Mathlib.Algebra.Ring.Nat
import Mathlib.Logic.Function.Basic
import KernelLabs.Lib.LinkedList

/-!
The JOS physical page allocator and two-level page tables (lab-3 `kern/pmap.c`,
with the macros of `inc/mmu.h` and the inline functions of `kern/pmap.h`). A
`struct PageInfo *` is the index of the page in `pages`, a physical page is an
array of 1024 words, and a `pte_t *` is the page and the index of the word it
points to. Words and addresses are naturals; only `pp_ref` is narrow enough to
wrap. `KADDR` reaches every physical page, as the machine has at most 256MB.
-/
namespace JosPmap

def NPTENTRIES : Nat := 1024
def PGSIZE : Nat := 4096
def UTOP : Nat := 0xeec00000
def UVPT : Nat := 0xef400000
def IOPHYSMEM : Nat := 0x0A0000
def EXTPHYSMEM : Nat := 0x100000
def PTE_P : Nat := 0x001
def PTE_W : Nat := 0x002
def PTE_U : Nat := 0x004
def PTE_PWT : Nat := 0x008
def PTE_PCD : Nat := 0x010
def PTE_A : Nat := 0x020
def PTE_D : Nat := 0x040
def PTE_PS : Nat := 0x080
def PTE_G : Nat := 0x100

def pgnum (la : Nat) : Nat := la / PGSIZE
def pdx (la : Nat) : Nat := la / (PGSIZE * NPTENTRIES) % 1024
def ptx (la : Nat) : Nat := la / PGSIZE % NPTENTRIES
def pteAddr (entry : Nat) : Nat := entry / PGSIZE * PGSIZE
def page2pa (pp : Nat) : Nat := pp * PGSIZE

def present (entry : Nat) : Bool := entry &&& PTE_P != 0

structure PageInfo where
  ppLink : Option Nat
  ppRef : Nat
  deriving DecidableEq, Repr

/-- `*pte` for a `pte_t *pte`. -/
structure PteLoc where
  page : Nat
  index : Nat
  deriving DecidableEq, Repr

structure Kernel where
  npages : Nat
  pages : Nat → PageInfo
  pageFreeList : Option Nat
  mem : Nat → Nat → Nat
  tlb : Nat → Option Nat

/-- One constructor for each call of `panic` in the modelled functions. -/
inductive Panic where
  | pageReferenceCountNotZero
  | pageLinkNotNull
  | kaddrInvalidPa
  | pa2pageInvalidPa
  deriving DecidableEq, Repr

def Kernel.link (s : Kernel) (p : Nat) : Option Nat := (s.pages p).ppLink
def Kernel.ref (s : Kernel) (p : Nat) : Nat := (s.pages p).ppRef

def Kernel.setLink (s : Kernel) (p : Nat) (next : Option Nat) : Kernel :=
  { s with pages := Function.update s.pages p { s.pages p with ppLink := next } }

/-- `pp_ref` is a `uint16_t`. -/
def Kernel.setRef (s : Kernel) (p : Nat) (n : Nat) : Kernel :=
  { s with pages := Function.update s.pages p { s.pages p with ppRef := n % 2 ^ 16 } }

def Kernel.load (s : Kernel) (loc : PteLoc) : Nat := s.mem loc.page loc.index

def Kernel.store (s : Kernel) (loc : PteLoc) (word : Nat) : Kernel :=
  let written := Function.update (s.mem loc.page) loc.index word
  { s with mem := Function.update s.mem loc.page written }

/-- `memset(page2kva(pp), 0, PGSIZE)`. -/
def Kernel.zeroPage (s : Kernel) (p : Nat) : Kernel :=
  { s with mem := Function.update s.mem p (fun _ => 0) }

/-- The page whose kernel address `KADDR` returns. -/
def kaddr (s : Kernel) (pa : Nat) : Except Panic Nat :=
  if pgnum pa ≥ s.npages then .error .kaddrInvalidPa else .ok (pgnum pa)

def pa2page (s : Kernel) (pa : Nat) : Except Panic Nat :=
  if pgnum pa ≥ s.npages then .error .pa2pageInvalidPa else .ok (pgnum pa)

/-- What `page_init` reads: the sizes found by `i386_detect_memory`, the first page
    after the boot allocations, `PADDR(boot_alloc(0))/PGSIZE`, and the page that
    `mem_init` took from `boot_alloc` for the directory. -/
structure Boot where
  npages : Nat
  npagesBasemem : Nat
  bootNext : Nat
  pgdir : Nat
  memory_window : npages ≤ 65536
  basemem_below_hole : npagesBasemem ≤ IOPHYSMEM / PGSIZE
  pgdir_above_hole : EXTPHYSMEM / PGSIZE ≤ pgdir
  pgdir_boot_allocated : pgdir < bootNext
  boot_in_memory : bootNext ≤ npages

/-- The branch of `page_init` for page `i ≥ 1`: is the page put on the free list? -/
def Boot.freed (b : Boot) (i : Nat) : Bool :=
  if i < b.npagesBasemem then true
  else if i ≥ IOPHYSMEM / PGSIZE ∧ i < EXTPHYSMEM / PGSIZE then false
  else if i ≥ EXTPHYSMEM / PGSIZE ∧ i < b.bootNext then false
  else true

def pageInitStep (b : Boot) (s : Kernel) (i : Nat) : Kernel :=
  if b.freed i then
    { (s.setRef i 0).setLink i s.pageFreeList with pageFreeList := some i }
  else s.setRef i 1

def pageInitFrom (b : Boot) (s : Kernel) : Nat → Nat → Kernel
  | _, 0 => s
  | i, fuel + 1 => pageInitFrom b (pageInitStep b s i) (i + 1) fuel

/-- `page_init` on the `pages` array that `mem_init` has cleared. -/
def pageInit (b : Boot) (mem : Nat → Nat → Nat) (tlb : Nat → Option Nat) : Kernel :=
  let cleared : Kernel := ⟨b.npages, fun _ => ⟨none, 0⟩, none, mem, tlb⟩
  pageInitFrom b (cleared.setRef 0 1) 1 (b.npages - 1)

def pageAlloc (s : Kernel) (allocZero : Bool) : Except Panic (Option Nat × Kernel) :=
  match s.pageFreeList with
  | none => .ok (none, s)
  | some sendPage =>
    let s := { s with pageFreeList := s.link sendPage }
    let s := s.setLink sendPage none
    if allocZero then do
      let page ← kaddr s (page2pa sendPage)
      return (some sendPage, s.zeroPage page)
    else .ok (some sendPage, s)

def pageFree (s : Kernel) (pp : Nat) : Except Panic Kernel :=
  if s.ref pp ≠ 0 then .error .pageReferenceCountNotZero
  else if s.link pp ≠ none then .error .pageLinkNotNull
  else .ok { s.setLink pp s.pageFreeList with pageFreeList := some pp }

/-- `--pp->pp_ref` on a `uint16_t`: from 0 it goes to 65535. -/
def pageDecref (s : Kernel) (pp : Nat) : Except Panic Kernel :=
  let s := s.setRef pp (s.ref pp + (2 ^ 16 - 1))
  if s.ref pp = 0 then pageFree s pp else .ok s

def pgdirWalk (s : Kernel) (pgdir : Nat) (va : Nat) (create : Bool) :
    Except Panic (Option PteLoc × Kernel) := do
  let pde : PteLoc := ⟨pgdir, pdx va⟩
  if present (s.load pde) then
    let table ← kaddr s (pteAddr (s.load pde))
    return (some ⟨table, ptx va⟩, s)
  else if create then
    match ← pageAlloc s true with
    | (none, s) => return (none, s)
    | (some newPage, s) =>
      let s := s.setRef newPage (s.ref newPage + 1)
      let s := s.store pde (page2pa newPage ||| PTE_P ||| PTE_W ||| PTE_U)
      let table ← kaddr s (pteAddr (s.load pde))
      return (some ⟨table, ptx va⟩, s)
  else return (none, s)

def pageLookup (s : Kernel) (pgdir : Nat) (va : Nat) :
    Except Panic (Option (Nat × PteLoc) × Kernel) := do
  match ← pgdirWalk s pgdir va false with
  | (none, s) => return (none, s)
  | (some pte, s) =>
    if present (s.load pte) then
      let page ← pa2page s (pteAddr (s.load pte))
      return (some (page, pte), s)
    else return (none, s)

def tlbInvalidate (s : Kernel) (va : Nat) : Kernel :=
  { s with tlb := Function.update s.tlb (pgnum va) none }

def pageRemove (s : Kernel) (pgdir : Nat) (va : Nat) : Except Panic Kernel := do
  match ← pageLookup s pgdir va with
  | (none, s) => return s
  | (some (checkPage, pte), s) =>
    let s ← pageDecref s checkPage
    return tlbInvalidate (s.store pte 0) va

/-- False for `-E_NO_MEM`. -/
def pageInsert (s : Kernel) (pgdir : Nat) (pp : Nat) (va perm : Nat) :
    Except Panic (Bool × Kernel) := do
  match ← pgdirWalk s pgdir va true with
  | (none, s) => return (false, s)
  | (some pte, s) =>
    let s := s.setRef pp (s.ref pp + 1)
    let s ← (if present (s.load pte) then pageRemove s pgdir va else .ok s : Except Panic Kernel)
    let s := s.store pte (page2pa pp ||| perm ||| PTE_P)
    let pde : PteLoc := ⟨pgdir, pdx va⟩
    return (true, s.store pde (s.load pde ||| perm))

end JosPmap
