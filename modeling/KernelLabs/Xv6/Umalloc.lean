import Mathlib.Algebra.CharZero.Defs
import Mathlib.Algebra.Ring.Nat
import Mathlib.Logic.Function.Basic
import KernelLabs.Lib.Transition

/-!
The allocator of xv6's user library (assignment-3 `umalloc.c`). A `Header *` is its
address and a header takes 8 bytes; the heap is below `KERNBASE`, so sums of addresses and
sizes do not wrap. `free(ap)` is called with the header before `ap`. The fuel bounds the
rounds of the loops.
-/
namespace Xv6Umalloc

def KERNBASE : Nat := 0x80000000

def sizeofHeader : Nat := 8

structure Header where
  ptr : Nat
  size : Nat
  deriving DecidableEq, Repr

/-- `answers` decides for each call of `sbrk` to come whether it fails or how far above the
    last break its memory starts. `live` has the blocks in use with the bytes asked for, and
    `obtained` the memory that came from `sbrk`. -/
structure Heap where
  hdr : Nat → Header
  freep : Option Nat
  brk : Nat
  answers : Nat → Option Nat
  live : List (Nat × Nat)
  obtained : List (Nat × Nat)

def Heap.ptr (s : Heap) (p : Nat) : Nat := (s.hdr p).ptr
def Heap.size (s : Heap) (p : Nat) : Nat := (s.hdr p).size

def Heap.setPtr (s : Heap) (p q : Nat) : Heap := { s with hdr := Function.update s.hdr p { s.hdr p with ptr := q } }
def Heap.setSize (s : Heap) (p n : Nat) : Heap := { s with hdr := Function.update s.hdr p { s.hdr p with size := n } }

/-- `p + p->s.size`. -/
def Heap.after (s : Heap) (p : Nat) : Nat := p + sizeofHeader * s.size p

/-- The loop of `free` from `p` on. -/
def freeLoop (s : Heap) (bp : Nat) : Nat → Nat → Option Nat
  | 0, _ => none
  | fuel + 1, p =>
    if bp > p ∧ bp < s.ptr p then some p
    else if p ≥ s.ptr p ∧ (bp > p ∨ bp < s.ptr p) then some p
    else freeLoop s bp fuel (s.ptr p)

/-- The first test of `free` after its loop: the block is joined to the upper neighbour. -/
def joinUpper (s : Heap) (bp p : Nat) : Heap :=
  if s.after bp = s.ptr p then
    let s := s.setSize bp (s.size bp + s.size (s.ptr p))
    s.setPtr bp (s.ptr (s.ptr p))
  else s.setPtr bp (s.ptr p)

/-- The second test: the block is joined to the lower neighbour. -/
def joinLower (s : Heap) (bp p : Nat) : Heap :=
  if s.after p = bp then
    let s := s.setSize p (s.size p + s.size bp)
    s.setPtr p (s.ptr bp)
  else s.setPtr p bp

/-- `none` when the fuel runs out, or where `freep` is null and the code would read through it. -/
def free (fuel : Nat) (s : Heap) (bp : Nat) : Option Heap := do
  let start ← s.freep
  let p ← freeLoop s bp fuel start
  return { joinLower (joinUpper s bp p) bp p with freep := some p }

/-- `sbrk(n)`, `none` for -1: new memory above all that came before, in steps of 8 bytes. -/
def sbrk (s : Heap) (n : Nat) : Option Nat × Heap :=
  let s' := { s with answers := fun k => s.answers (k + 1) }
  match s.answers 0 with
  | none => (none, s')
  | some gap =>
    let a := s.brk + 8 * gap
    if a + n ≤ KERNBASE then (some a, { s' with brk := a + n, obtained := (a, n) :: s.obtained }) else (none, s')

/-- The inner `none` is the null pointer. -/
def morecore (fuel : Nat) (s : Heap) (nu : Nat) : Option (Option Nat × Heap) :=
  let nu := if nu < 4096 then 4096 else nu
  match sbrk s (nu * sizeofHeader % 2 ^ 32) with
  | (none, s) => some (none, s)
  | (some hp, s) => do
    let s ← free fuel (s.setSize hp nu) hp
    return (s.freep, s)

/-- The block `p` after `prevp` is large enough. -/
def takeBlock (s : Heap) (nunits prevp p : Nat) : Nat × Heap :=
  if s.size p = nunits then (p, { s.setPtr prevp (s.ptr p) with freep := some prevp })
  else
    let s := s.setSize p (s.size p - nunits)
    let p := s.after p
    (p, { s.setSize p nunits with freep := some prevp })

def mallocLoop (nunits : Nat) : Nat → Heap → Nat → Nat → Option (Option Nat × Heap)
  | 0, _, _, _ => none
  | fuel + 1, s, prevp, p =>
    if s.size p ≥ nunits then
      let (p, s) := takeBlock s nunits prevp p
      some (some p, s)
    else if some p = s.freep then
      match morecore fuel s nunits with
      | none => none
      | some (none, s) => some (none, s)
      | some (some p, s) => mallocLoop nunits fuel s p (s.ptr p)
    else mallocLoop nunits fuel s p (s.ptr p)

def nunits (nbytes : Nat) : Nat := (nbytes + sizeofHeader - 1) % 2 ^ 32 / sizeofHeader + 1

/-- The header of the block that `malloc` returns, or null; `base` is the address of the
    static header. -/
def malloc (base fuel : Nat) (s : Heap) (nbytes : Nat) : Option (Option Nat × Heap) :=
  match s.freep with
  | none =>
    let s := { (s.setPtr base base).setSize base 0 with freep := some base }
    mallocLoop (nunits nbytes) fuel s base (s.ptr base)
  | some prevp => mallocLoop (nunits nbytes) fuel s prevp (s.ptr prevp)

inductive Act where
  | malloc (nbytes fuel : Nat)
  | free (bp fuel : Nat)
  /-- The program writes into a block it has. -/
  | write (a : Nat) (h : Header)
  deriving DecidableEq, Repr

/-- Whether `a` is the place of a header in the bytes after the header of a live block. -/
def Heap.inside (s : Heap) (a : Nat) : Bool := s.live.any fun b => decide (b.1 + sizeofHeader ≤ a ∧ a < s.after b.1)

def next (base : Nat) (s : Heap) : Act → Option Heap
  | .malloc nbytes fuel =>
    if nbytes ≤ 0x7ffffff0 then
      match malloc base fuel s nbytes with
      | some (some p, s) => some { s with live := (p, nbytes) :: s.live }
      | some (none, s) => some s
      | none => none
    else none
  | .free bp fuel =>
    if s.live.any (·.1 == bp) then
      (free fuel s bp).map fun t => { t with live := t.live.filter (·.1 != bp) }
    else none
  | .write a h => if s.inside a then some { s with hdr := Function.update s.hdr a h } else none

/-- No memory yet, and a first break above the static header. -/
def started (base : Nat) (s : Heap) : Prop :=
  s.freep = none ∧ s.live = [] ∧ s.obtained = [] ∧ base + sizeofHeader ≤ s.brk ∧ s.brk % 8 = 0

def system (base : Nat) : Transition.System Heap Act where
  start := started base
  next := next base

end Xv6Umalloc
