import Mathlib.Algebra.BigOperators.Group.Finset.Piecewise
import Mathlib.Algebra.Order.BigOperators.Group.Finset
import Mathlib.Data.Fintype.Basic
import KernelLabs.Lib.Counting
import KernelLabs.Lib.Transition

/-!
References to cached inodes under concurrency (assignment-3 `fs.c`: `iget`, `idup`,
`ilock`, `iput`). Each lock-protected section is one step, so an `iput` takes four:
the sleep-lock with the test of `valid` and `nlink`, the read of `ref` under
`icache.lock`, the freeing branch with the release of the sleep-lock, and the
decrement under `icache.lock`. There is one device. The section of a system call
that changes an inode under its lock and calls `iupdate` is one step with any new
link count and blocks. `readIn` and `truncated` are history: the entry has been read
from disk, and `itrunc` has run on it, since `iget` last filled it.
-/
namespace Xv6InodeRelease
open Transition Counting

def NINODE : Nat := 50

structure Dinode where
  type : Nat
  nlink : Nat
  addrs : List Nat
  deriving DecidableEq, Repr

structure Inode where
  inum : Nat
  ref : Nat
  valid : Bool
  type : Nat
  nlink : Nat
  addrs : List Nat
  deriving DecidableEq, Repr

/-- Where a process is inside `iput(&icache.inode[i])`. -/
inductive Pc where
  | idle
  | acquiring (i : Nat)
  | reading (i : Nat)
  | deciding (i r : Nat)
  | dropping (i : Nat)
  deriving DecidableEq, Repr

def Pc.slot : Pc → Option Nat
  | .idle => none
  | .acquiring i => some i
  | .reading i => some i
  | .deciding i _ => some i
  | .dropping i => some i

structure State (P : Type) where
  disk : Nat → Dinode
  bitmap : Nat → Bool
  inode : Nat → Inode
  locked : Nat → Bool
  holds : P → Nat → Nat
  pc : P → Pc
  readIn : Nat → Bool
  truncated : Nat → Bool

inductive Action (P : Type) where
  | iget (p : P) (inum : Nat)
  | idup (p : P) (i : Nat)
  | update (p : P) (i nlink : Nat) (addrs : List Nat)
  | iput (p : P) (i : Nat)
  | acquire (p : P)
  | readRef (p : P)
  | release (p : P)
  | decref (p : P)

section Model
variable {P : Type} [DecidableEq P]

def State.setInode (s : State P) (i : Nat) (ip : Inode) : State P :=
  { s with inode := Function.update s.inode i ip }

def State.setRef (s : State P) (i n : Nat) : State P :=
  s.setInode i { s.inode i with ref := n }

def State.setPc (s : State P) (p : P) (pc : Pc) : State P :=
  { s with pc := Function.update s.pc p pc }

def State.setHolds (s : State P) (p : P) (i n : Nat) : State P :=
  { s with holds := Function.update s.holds p (Function.update (s.holds p) i n) }

def State.setLocked (s : State P) (i : Nat) (b : Bool) : State P :=
  { s with locked := Function.update s.locked i b }

/-- The entry `iget` returns: the one that caches `inum`, else the first unused one. -/
def cachedSlot (s : State P) (inum : Nat) : Option Nat :=
  (List.range NINODE).find? fun i => 0 < (s.inode i).ref && (s.inode i).inum == inum

def emptySlot (s : State P) : Option Nat :=
  (List.range NINODE).find? fun i => (s.inode i).ref == 0

/-- `None` stands for `panic("iget: no inodes")`. -/
def iget (s : State P) (inum : Nat) : Option (Nat × State P) :=
  match cachedSlot s inum with
  | some i => some (i, s.setRef i ((s.inode i).ref + 1))
  | none =>
    match emptySlot s with
    | none => none
    | some i =>
      let s := s.setInode i { s.inode i with inum := inum, ref := 1, valid := false }
      some (i, { s with
        readIn := Function.update s.readIn i false
        truncated := Function.update s.truncated i false })

/-- The load in `ilock`; `None` stands for `panic("ilock: no type")`. -/
def load (s : State P) (i : Nat) : Option (State P) :=
  let ip := s.inode i
  if ip.valid then some s
  else
    let dip := s.disk ip.inum
    let s := s.setInode i
      { ip with type := dip.type, nlink := dip.nlink, addrs := dip.addrs, valid := true }
    if dip.type = 0 then none
    else some { s with readIn := Function.update s.readIn i true }

def iupdate (s : State P) (i : Nat) : State P :=
  let ip := s.inode i
  { s with disk := Function.update s.disk ip.inum ⟨ip.type, ip.nlink, ip.addrs⟩ }

def bfree (bitmap : Nat → Bool) (b : Nat) : Nat → Bool := Function.update bitmap b false

def itrunc (s : State P) (i : Nat) : State P :=
  let s := { s with
    bitmap := (s.inode i).addrs.foldl bfree s.bitmap
    truncated := Function.update s.truncated i true }
  iupdate (s.setInode i { s.inode i with addrs := [] }) i

/-- The freeing branch of `iput`. -/
def free (s : State P) (i : Nat) : State P :=
  let s := itrunc s i
  let s := iupdate (s.setInode i { s.inode i with type := 0 }) i
  s.setInode i { s.inode i with valid := false }

def next (s : State P) : Action P → Option (State P)
  | .iget p inum =>
    -- reached through a directory entry, so the inode is allocated and has a link
    if s.pc p = .idle ∧ (s.disk inum).type ≠ 0 ∧ 0 < (s.disk inum).nlink then
      (iget s inum).map fun r => r.2.setHolds p r.1 (s.holds p r.1 + 1)
    else none
  | .idup p i =>
    if s.pc p = .idle ∧ 0 < s.holds p i then
      some ((s.setRef i ((s.inode i).ref + 1)).setHolds p i (s.holds p i + 1))
    else none
  | .update p i nlink addrs =>
    if s.pc p = .idle ∧ 0 < s.holds p i ∧ s.locked i = false then
      (load s i).map fun s =>
        iupdate (s.setInode i { s.inode i with nlink := nlink, addrs := addrs }) i
    else none
  | .iput p i =>
    if s.pc p = .idle ∧ 0 < s.holds p i then
      some ((s.setHolds p i (s.holds p i - 1)).setPc p (.acquiring i))
    else none
  | .acquire p =>
    match s.pc p with
    | .acquiring i =>
      if s.locked i then none
      else if (s.inode i).valid = true ∧ (s.inode i).nlink = 0 then
        some ((s.setLocked i true).setPc p (.reading i))
      else some (s.setPc p (.dropping i))
    | _ => none
  | .readRef p =>
    match s.pc p with
    | .reading i => some (s.setPc p (.deciding i (s.inode i).ref))
    | _ => none
  | .release p =>
    match s.pc p with
    | .deciding i r =>
      let s := if r = 1 then free s i else s
      some ((s.setLocked i false).setPc p (.dropping i))
    | _ => none
  | .decref p =>
    match s.pc p with
    | .dropping i => some ((s.setRef i ((s.inode i).ref - 1)).setPc p .idle)
    | _ => none

/-- An empty inode cache over any disk. -/
def Start (s : State P) : Prop :=
  (∀ i, (s.inode i).ref = 0 ∧ (s.inode i).valid = false ∧ s.readIn i = false ∧
    s.locked i = false) ∧ ∀ p, s.pc p = .idle ∧ ∀ i, s.holds p i = 0

def system (P : Type) [DecidableEq P] : System (State P) (Action P) := ⟨Start, next⟩

end Model

/-- The two points of `iput` at which the process holds the sleep-lock. -/
def Pc.Owns (pc : Pc) (i : Nat) : Prop := pc = .reading i ∨ ∃ r, pc = .deciding i r

def Pc.putting (pc : Pc) (i : Nat) : Nat := if pc.slot = some i then 1 else 0

section Invariant
variable {P : Type}

/-- References of one process to entry `i`, the one being put included. -/
def weight (s : State P) (i : Nat) (p : P) : Nat := s.holds p i + (s.pc p).putting i

variable [Fintype P]

/-- The processes between their own check of entry `i` and their decrement. -/
def dropping (s : State P) (i : Nat) : Finset P := Finset.univ.filter fun p => s.pc p = .dropping i

/-- An `iput` that reads more than one reference leaves the freeing to a reference
    whose own check is still to come. -/
def Delegated (s : State P) : Action P → Prop
  | .readRef p => ∀ i, s.pc p = .reading i →
      (s.inode i).ref = 1 ∨ (dropping s i).card + 1 < (s.inode i).ref
  | _ => True

structure Inv (s : State P) : Prop where
  counted : ∀ i, (s.inode i).ref = ∑ p, weight s i p
  unique : ∀ i j, 0 < (s.inode i).ref → 0 < (s.inode j).ref →
    (s.inode i).inum = (s.inode j).inum → i = j
  owner : ∀ p i, (s.pc p).Owns i → s.locked i = true ∧ (s.inode i).valid = true ∧
    (s.inode i).nlink = 0 ∧ ∀ q, (s.pc q).Owns i → q = p
  undecided : ∀ p i r, s.pc p = .deciding i r →
    r = 1 ∨ (dropping s i).card + 1 < (s.inode i).ref
  pending : ∀ i, (s.inode i).valid = true → (s.inode i).nlink = 0 →
    (dropping s i).card < (s.inode i).ref
  freed : ∀ i, 0 < (s.inode i).ref → (s.inode i).valid = false → s.readIn i = true →
    s.truncated i = true ∧ (s.disk (s.inode i).inum).type = 0 ∧
      (s.disk (s.inode i).inum).addrs = []
  seen : ∀ i, (s.inode i).valid = true → s.readIn i = true
  in_cache : ∀ i, NINODE ≤ i → (s.inode i).ref = 0

theorem dropping_le_sum (s : State P) (i : Nat) (p : P) :
    (dropping s i).card + s.holds p i ≤ ∑ q, weight s i q := by
  have split : ∑ q, weight s i q = ∑ q, s.holds q i + ∑ q, (s.pc q).putting i :=
    Finset.sum_add_distrib
  have mine : s.holds p i ≤ ∑ q, s.holds q i :=
    Finset.single_le_sum (f := fun q => s.holds q i) (fun _ _ => Nat.zero_le _)
      (Finset.mem_univ p)
  have inside : (dropping s i).card ≤ ∑ q, (s.pc q).putting i := by
    unfold Pc.putting
    rw [← Finset.card_filter]
    apply Finset.card_le_card
    intro q mem
    simp only [dropping, Finset.mem_filter, Finset.mem_univ, true_and] at mem ⊢
    simp [mem, Pc.slot]
  omega

theorem pending_of_holder {s : State P} (inv : Inv s) {p : P} {i : Nat} (holder : 0 < s.holds p i) :
    (dropping s i).card < (s.inode i).ref := by
  have := dropping_le_sum s i p
  have := inv.counted i
  omega

theorem live_of_weight {s : State P} (inv : Inv s) {p : P} {i : Nat} (busy : 0 < weight s i p) :
    0 < (s.inode i).ref := by
  rw [inv.counted i]
  have : weight s i p ≤ ∑ q, weight s i q :=
    Finset.single_le_sum (f := weight s i) (fun _ _ => Nat.zero_le _) (Finset.mem_univ p)
  omega

/-- Steps that touch counters and program counters only. -/
theorem inv_of_same_entries {s t : State P} (inv : Inv s) (disk : t.disk = s.disk)
    (locked : t.locked = s.locked) (readIn : t.readIn = s.readIn)
    (truncated : t.truncated = s.truncated)
    (entries : ∀ i, (t.inode i).inum = (s.inode i).inum ∧ (t.inode i).valid = (s.inode i).valid ∧
      (t.inode i).nlink = (s.inode i).nlink)
    (live : ∀ i, 0 < (t.inode i).ref → 0 < (s.inode i).ref)
    (counted : ∀ i, (t.inode i).ref = ∑ p, weight t i p)
    (owners : ∀ p i, (t.pc p).Owns i → (s.pc p).Owns i)
    (undecided : ∀ p i r, t.pc p = .deciding i r →
      r = 1 ∨ (dropping t i).card + 1 < (t.inode i).ref)
    (pending : ∀ i, (s.inode i).valid = true → (s.inode i).nlink = 0 →
      (dropping t i).card < (t.inode i).ref) : Inv t where
  counted := counted
  unique := by
    intro i j hi hj same
    rw [(entries i).1, (entries j).1] at same
    exact inv.unique i j (live i hi) (live j hj) same
  owner := by
    intro p i own
    obtain ⟨lock,valid,unlinked,alone⟩ := inv.owner p i (owners p i own)
    rw [locked, (entries i).2.1, (entries i).2.2]
    exact ⟨lock, valid, unlinked, fun q hq => alone q (owners q i hq)⟩
  undecided := undecided
  pending := by
    intro i valid unlinked
    rw [(entries i).2.1] at valid
    rw [(entries i).2.2] at unlinked
    exact pending i valid unlinked
  freed := by
    intro i hi valid seen
    rw [(entries i).2.1] at valid
    rw [readIn] at seen
    rw [truncated, disk, (entries i).1]
    exact inv.freed i (live i hi) valid seen
  seen := by
    intro i valid
    rw [(entries i).2.1] at valid
    rw [readIn]
    exact inv.seen i valid
  in_cache := by
    intro i outside
    have dead := inv.in_cache i outside
    by_contra alive
    have := live i (by omega)
    omega

theorem inv_start {s : State P} (start : Start s) : Inv s := by
  obtain ⟨entries,procs⟩ := start
  have idle : ∀ i p, weight s i p = 0 := by
    intro i p
    simp [weight, (procs p).1, (procs p).2 i, Pc.putting, Pc.slot]
  constructor
  · intro i
    rw [(entries i).1]
    simp [idle]
  · intro i j hi
    have := (entries i).1
    omega
  · intro p i own
    simp [Pc.Owns, (procs p).1] at own
  · intro p i r here
    simp [(procs p).1] at here
  · intro i valid
    simp [(entries i).2.1] at valid
  · intro i hi
    have := (entries i).1
    omega
  · intro i valid
    simp [(entries i).2.1] at valid
  · intro i _
    exact (entries i).1

section Steps
variable [DecidableEq P]

theorem weight_change {s t : State P} (p : P) (i : Nat)
    (others : ∀ q, q ≠ p → weight t i q = weight s i q) :
    ∑ q, weight t i q + weight s i p = ∑ q, weight s i q + weight t i p :=
  sum_change Finset.univ (weight s i) (weight t i) (Finset.mem_univ p) (fun q _ => others q)

omit [Fintype P] [DecidableEq P] in
theorem setRef_entry (s : State P) (i n j : Nat) :
    ((s.setRef i n).inode j).inum = (s.inode j).inum ∧
    ((s.setRef i n).inode j).valid = (s.inode j).valid ∧
    ((s.setRef i n).inode j).nlink = (s.inode j).nlink ∧
    ((s.setRef i n).inode j).ref = if j = i then n else (s.inode j).ref := by
  by_cases here : j = i
  · subst here; simp [State.setRef, State.setInode]
  · simp [State.setRef, State.setInode, here]

/-- One more reference to a live entry, for a process outside `iput`. -/
theorem inv_gain {s : State P} (inv : Inv s) {p : P} {i : Nat} (live : 0 < (s.inode i).ref) :
    Inv ((s.setRef i ((s.inode i).ref + 1)).setHolds p i (s.holds p i + 1)) := by
  have entry := setRef_entry s i ((s.inode i).ref + 1)
  have grows : ∀ j, (s.inode j).ref ≤ ((s.setRef i ((s.inode i).ref + 1)).inode j).ref := by
    intro j
    rw [(entry j).2.2.2]
    split
    · rename_i here; subst here; omega
    · exact Nat.le_refl _
  refine inv_of_same_entries inv rfl rfl rfl rfl ?_ ?_ ?_ (fun _ _ own => own) ?_ ?_
  · intro j
    exact ⟨(entry j).1, (entry j).2.1, (entry j).2.2.1⟩
  · intro j hj
    change 0 < ((s.setRef i _).inode j).ref at hj
    rw [(entry j).2.2.2] at hj
    split at hj
    · rename_i here; subst here; exact live
    · exact hj
  · intro j
    have change := weight_change (s := s)
      (t := (s.setRef i ((s.inode i).ref + 1)).setHolds p i (s.holds p i + 1)) p j (by
        intro q other
        simp [weight, State.setRef, State.setInode, State.setHolds, other])
    have count := inv.counted j
    change ((s.setRef i _).inode j).ref = _
    rw [(entry j).2.2.2]
    by_cases here : j = i
    · subst here
      simp only [weight, State.setRef, State.setInode, State.setHolds, Function.update_self,
        ↓reduceIte] at *
      omega
    · simp only [weight, State.setRef, State.setInode, State.setHolds, Function.update_self,
        Function.update_of_ne here, here, ↓reduceIte] at *
      omega
  · intro q j r here
    rcases inv.undecided q j r here with one | more
    · exact Or.inl one
    · exact Or.inr (Nat.lt_of_lt_of_le more (grows j))
  · intro j valid unlinked
    exact Nat.lt_of_lt_of_le (inv.pending j valid unlinked) (grows j)

theorem dropping_change {s t : State P} (p : P) (pc : Pc)
    (moved : t.pc = Function.update s.pc p pc) (i : Nat) :
    (dropping t i).card + (if s.pc p = .dropping i then 1 else 0) =
      (dropping s i).card + if pc = .dropping i then 1 else 0 := by
  have change := card_filter_change Finset.univ (fun q => s.pc q = .dropping i)
    (fun q => t.pc q = .dropping i) (Finset.mem_univ p) (by
      intro q _ other
      rw [moved, Function.update_of_ne other])
  simp only [moved, Function.update_self] at change
  simpa only [dropping, moved] using change

theorem dropping_same {s t : State P} (p : P) (pc : Pc)
    (moved : t.pc = Function.update s.pc p pc) (before : ∀ i, s.pc p ≠ .dropping i)
    (after : ∀ i, pc ≠ .dropping i) (i : Nat) : (dropping t i).card = (dropping s i).card := by
  have change := dropping_change p pc moved i
  simpa only [before i, after i, ↓reduceIte, Nat.add_zero] using change

omit [Fintype P] in
theorem moved_deciding {s t : State P} {p : P} {pc : Pc} (moved : t.pc = Function.update s.pc p pc)
    {q : P} {i r : Nat} (here : t.pc q = .deciding i r) :
    s.pc q = .deciding i r ∨ pc = .deciding i r := by
  rw [moved] at here
  by_cases same : q = p
  · subst same
    right
    simpa using here
  · left
    simpa [same] using here

/-- One process advances and its references move with the counter. -/
theorem inv_move {s t : State P} (inv : Inv s) {p : P} (pc : Pc)
    (moved : t.pc = Function.update s.pc p pc) (held : ∀ q, q ≠ p → t.holds q = s.holds q)
    (disk : t.disk = s.disk) (locked : t.locked = s.locked) (readIn : t.readIn = s.readIn)
    (truncated : t.truncated = s.truncated)
    (entries : ∀ i, (t.inode i).inum = (s.inode i).inum ∧ (t.inode i).valid = (s.inode i).valid ∧
      (t.inode i).nlink = (s.inode i).nlink)
    (balance : ∀ i, (t.inode i).ref + weight s i p = (s.inode i).ref + weight t i p)
    (live : ∀ i, 0 < (t.inode i).ref → 0 < (s.inode i).ref)
    (own : ∀ i, pc.Owns i → (s.pc p).Owns i)
    (undecided : ∀ q i r, t.pc q = .deciding i r →
      r = 1 ∨ (dropping t i).card + 1 < (t.inode i).ref)
    (pending : ∀ i, (s.inode i).valid = true → (s.inode i).nlink = 0 →
      (dropping t i).card < (t.inode i).ref) : Inv t := by
  have others : ∀ q, q ≠ p → t.pc q = s.pc q := by
    intro q other
    rw [moved, Function.update_of_ne other]
  refine inv_of_same_entries inv disk locked readIn truncated entries live ?_ ?_ undecided pending
  · intro i
    have change := weight_change (s := s) (t := t) p i (by
      intro q other
      simp only [weight, others q other, held q other])
    have := balance i
    have := inv.counted i
    omega
  · intro q i owns
    by_cases same : q = p
    · subst same
      rw [moved, Function.update_self] at owns
      exact own i owns
    · rwa [others q same] at owns

theorem inv_iput {s : State P} (inv : Inv s) {p : P} {i : Nat} (idle : s.pc p = .idle)
    (holder : 0 < s.holds p i) :
    Inv ((s.setHolds p i (s.holds p i - 1)).setPc p (.acquiring i)) := by
  have drops := dropping_same (s := s)
    (t := (s.setHolds p i (s.holds p i - 1)).setPc p (.acquiring i)) p (.acquiring i) rfl
    (by simp [idle]) (by simp)
  refine inv_move inv (.acquiring i) rfl ?_ rfl rfl rfl rfl (fun _ => ⟨rfl,rfl,rfl⟩) ?_
    (fun _ h => h) ?_ ?_ ?_
  · intro q other
    simp [State.setPc, State.setHolds, other]
  · intro j
    change (s.inode j).ref + _ = (s.inode j).ref + _
    by_cases here : j = i
    · subst here
      simp only [weight, State.setPc, State.setHolds, Function.update_self, idle, Pc.putting,
        Pc.slot, ↓reduceIte, reduceCtorEq]
      omega
    · have apart : ¬ (some i = some j) := fun eq => here (by simpa using eq.symm)
      simp only [weight, State.setPc, State.setHolds, Function.update_self,
        Function.update_of_ne here, idle, Pc.putting, Pc.slot, apart, reduceCtorEq]
  · intro j own
    simp [Pc.Owns] at own
  · intro q j r dec
    rcases moved_deciding (s := s) (p := p) rfl dec with old | never
    · rw [drops]
      exact inv.undecided q j r old
    · simp at never
  · intro j valid unlinked
    rw [drops]
    exact inv.pending j valid unlinked

theorem inv_acquire_skip {s : State P} (inv : Inv s) {p : P} {i : Nat}
    (here : s.pc p = .acquiring i) (unlocked : s.locked i = false)
    (linked : ¬ ((s.inode i).valid = true ∧ (s.inode i).nlink = 0)) :
    Inv (s.setPc p (.dropping i)) := by
  have drops : ∀ j, i ≠ j → (dropping (s.setPc p (.dropping i)) j).card = (dropping s j).card := by
    intro j apart
    have change := dropping_change (s := s) (t := s.setPc p (.dropping i)) p (.dropping i) rfl j
    simpa only [here, reduceCtorEq, Pc.dropping.injEq, apart, ↓reduceIte, Nat.add_zero] using change
  refine inv_move inv (.dropping i) rfl (fun _ _ => rfl) rfl rfl rfl rfl
    (fun _ => ⟨rfl,rfl,rfl⟩) ?_ (fun _ h => h) ?_ ?_ ?_
  · intro j
    simp only [weight, State.setPc, Function.update_self, here, Pc.putting, Pc.slot]
  · intro j own
    simp [Pc.Owns] at own
  · intro q j r dec
    rcases moved_deciding (s := s) (p := p) rfl dec with old | never
    · -- the deciding process still holds the sleep-lock that this step found free
      have apart : i ≠ j := by
        intro same
        have lock := (inv.owner q j (Or.inr ⟨r,old⟩)).1
        simp [← same, unlocked] at lock
      rw [drops j apart]
      exact inv.undecided q j r old
    · simp at never
  · intro j valid unlinked
    have apart : i ≠ j := fun same => linked (same ▸ ⟨valid,unlinked⟩)
    rw [drops j apart]
    exact inv.pending j valid unlinked

theorem inv_readRef {s : State P} (inv : Inv s) {p : P} {i : Nat} (here : s.pc p = .reading i)
    (backed : (s.inode i).ref = 1 ∨ (dropping s i).card + 1 < (s.inode i).ref) :
    Inv (s.setPc p (.deciding i (s.inode i).ref)) := by
  have drops := dropping_same (s := s) (t := s.setPc p (.deciding i (s.inode i).ref)) p _ rfl
    (by simp [here]) (by simp)
  refine inv_move inv (.deciding i (s.inode i).ref) rfl (fun _ _ => rfl) rfl rfl rfl rfl
    (fun _ => ⟨rfl,rfl,rfl⟩) ?_ (fun _ h => h) ?_ ?_ ?_
  · intro j
    simp only [weight, State.setPc, Function.update_self, here, Pc.putting, Pc.slot]
  · rintro j (never | ⟨r,same⟩)
    · simp at never
    · simp only [Pc.deciding.injEq] at same
      left
      rw [here, same.1]
  · intro q j r dec
    rw [drops]
    rcases moved_deciding (s := s) (p := p) rfl dec with old | now
    · exact inv.undecided q j r old
    · simp only [Pc.deciding.injEq] at now
      obtain ⟨slot,count⟩ := now
      subst slot
      rw [← count]
      exact backed
  · intro j valid unlinked
    rw [drops]
    exact inv.pending j valid unlinked

theorem inv_decref {s : State P} (inv : Inv s) {p : P} {i : Nat} (here : s.pc p = .dropping i) :
    Inv ((s.setRef i ((s.inode i).ref - 1)).setPc p .idle) := by
  have entry := setRef_entry s i ((s.inode i).ref - 1)
  have live : 0 < (s.inode i).ref :=
    live_of_weight inv (p := p) (by simp [weight, here, Pc.putting, Pc.slot])
  have fewer : ∀ j, ((s.setRef i ((s.inode i).ref - 1)).inode j).ref +
      (if j = i then 1 else 0) = (s.inode j).ref := by
    intro j
    rw [(entry j).2.2.2]
    split
    · rename_i same; subst same; omega
    · rfl
  -- the counter and the number of droppers go down together
  have balance : ∀ j, (dropping ((s.setRef i ((s.inode i).ref - 1)).setPc p .idle) j).card +
      (s.inode j).ref = (dropping s j).card +
        (((s.setRef i ((s.inode i).ref - 1)).setPc p .idle).inode j).ref := by
    intro j
    have change := dropping_change (s := s)
      (t := (s.setRef i ((s.inode i).ref - 1)).setPc p .idle) p .idle rfl j
    have count := fewer j
    change _ = _ + ((s.setRef i _).inode j).ref
    by_cases same : j = i
    · subst same
      simp only [here, reduceCtorEq, ↓reduceIte] at change count
      omega
    · have apart : ¬ i = j := fun eq => same eq.symm
      simp only [here, reduceCtorEq, Pc.dropping.injEq, apart, same, ↓reduceIte] at change count
      omega
  refine inv_move inv .idle rfl (fun _ _ => rfl) rfl rfl rfl rfl
    (fun j => ⟨(entry j).1, (entry j).2.1, (entry j).2.2.1⟩) ?_ ?_ ?_ ?_ ?_
  · intro j
    have count := fewer j
    change ((s.setRef i _).inode j).ref + _ = _
    by_cases same : j = i
    · subst same
      simp only [weight, State.setPc, State.setRef, State.setInode, Function.update_self, here,
        Pc.putting, Pc.slot, ↓reduceIte, reduceCtorEq] at count ⊢
      omega
    · have apart : ¬ (some i = some j) := fun eq => same (by simpa using eq.symm)
      simp only [same, ↓reduceIte, Nat.add_zero] at count
      rw [count]
      simp only [weight, State.setPc, State.setRef, State.setInode, Function.update_self, here,
        Pc.putting, Pc.slot, apart, reduceCtorEq]
  · intro j hj
    have := fewer j
    change 0 < ((s.setRef i _).inode j).ref at hj
    omega
  · intro j own
    simp [Pc.Owns] at own
  · intro q j r dec
    rcases moved_deciding (s := s) (p := p) rfl dec with old | never
    · have := balance j
      rcases inv.undecided q j r old with one | more
      · exact Or.inl one
      · right
        omega
    · simp at never
  · intro j valid unlinked
    have := balance j
    have := inv.pending j valid unlinked
    omega

omit [DecidableEq P] in
theorem owner_slot_live {s : State P} (inv : Inv s) {p : P} {i : Nat} (own : (s.pc p).Owns i) :
    0 < (s.inode i).ref := by
  apply live_of_weight inv (p := p)
  rcases own with here | ⟨r,here⟩ <;> simp [weight, here, Pc.putting, Pc.slot]

theorem inv_acquire_lock {s : State P} (inv : Inv s) {p : P} {i : Nat}
    (here : s.pc p = .acquiring i) (unlocked : s.locked i = false)
    (valid : (s.inode i).valid = true) (unlinked : (s.inode i).nlink = 0) :
    Inv ((s.setLocked i true).setPc p (.reading i)) := by
  have drops := dropping_same (s := s) (t := (s.setLocked i true).setPc p (.reading i)) p _ rfl
    (by simp [here]) (by simp)
  have others : ∀ q, q ≠ p → ((s.setLocked i true).setPc p (.reading i)).pc q = s.pc q := by
    intro q other
    simp [State.setPc, State.setLocked, other]
  have mine : ((s.setLocked i true).setPc p (.reading i)).pc p = .reading i := by
    simp [State.setPc]
  have unowned : ∀ q, ¬ (s.pc q).Owns i := by
    intro q own
    have lock := (inv.owner q i own).1
    simp [unlocked] at lock
  constructor
  · intro j
    have change := weight_change (s := s) (t := (s.setLocked i true).setPc p (.reading i)) p j (by
      intro q other
      simp [weight, State.setPc, State.setLocked, other])
    have count := inv.counted j
    have same : weight ((s.setLocked i true).setPc p (.reading i)) j p = weight s j p := by
      simp only [weight, mine, here, Pc.putting, Pc.slot]
      rfl
    change (s.inode j).ref = _
    omega
  · exact inv.unique
  · intro q j own
    by_cases same : q = p
    · subst same
      rw [mine] at own
      have slot : i = j := by
        rcases own with eq | ⟨r,eq⟩ <;> simp at eq
        exact eq
      subst slot
      refine ⟨by simp [State.setPc, State.setLocked], valid, unlinked, fun q' own' => ?_⟩
      by_contra other
      rw [others q' other] at own'
      exact unowned q' own'
    · rw [others q same] at own
      obtain ⟨lock,good,zero,alone⟩ := inv.owner q j own
      have apart : j ≠ i := fun eq => unowned q (eq ▸ own)
      refine ⟨by simp [State.setPc, State.setLocked, apart, lock], good, zero, fun q' own' => ?_⟩
      by_cases same' : q' = p
      · subst same'
        rw [mine] at own'
        rcases own' with eq | ⟨r,eq⟩ <;> simp at eq
        exact absurd eq.symm apart
      · rw [others q' same'] at own'
        exact alone q' own'
  · intro q j r dec
    rcases moved_deciding (s := s) (p := p) rfl dec with old | never
    · rw [drops]
      exact inv.undecided q j r old
    · simp at never
  · intro j good zero
    rw [drops]
    exact inv.pending j good zero
  · exact inv.freed
  · exact inv.seen
  · exact inv.in_cache

omit [Fintype P] [DecidableEq P] in
theorem free_inode (s : State P) (i : Nat) : (free s i).inode =
    Function.update s.inode i { s.inode i with type := 0, addrs := [], valid := false } := by
  simp [free, itrunc, iupdate, State.setInode]

omit [Fintype P] [DecidableEq P] in
theorem free_disk (s : State P) (i : Nat) : (free s i).disk =
    Function.update s.disk (s.inode i).inum ⟨0, (s.inode i).nlink, []⟩ := by
  simp [free, itrunc, iupdate, State.setInode]

/-- The owner of the sleep-lock leaves it; the entries are as in `s`, or `i` is freed. -/
theorem inv_release {s u : State P} (inv : Inv s) {p : P} {i r : Nat}
    (here : s.pc p = .deciding i r) (body : u = if r = 1 then free s i else s) :
    Inv ((u.setLocked i false).setPc p (.dropping i)) := by
  obtain ⟨_,valid,unlinked,alone⟩ := inv.owner p i (Or.inr ⟨r,here⟩)
  have live := owner_slot_live inv (Or.inr ⟨r,here⟩ : (s.pc p).Owns i)
  have pcs : u.pc = s.pc := by rw [body]; split <;> rfl
  have holds : u.holds = s.holds := by rw [body]; split <;> rfl
  have locks : u.locked = s.locked := by rw [body]; split <;> rfl
  have seen : u.readIn = s.readIn := by rw [body]; split <;> rfl
  have moved : ((u.setLocked i false).setPc p (.dropping i)).pc =
      Function.update s.pc p (.dropping i) := by rw [← pcs]; rfl
  have others : ∀ q, q ≠ p → ((u.setLocked i false).setPc p (.dropping i)).pc q = s.pc q := by
    intro q other
    rw [moved, Function.update_of_ne other]
  have mine : ((u.setLocked i false).setPc p (.dropping i)).pc p = .dropping i := by
    rw [moved, Function.update_self]
  have kept : ∀ j, (u.inode j).ref = (s.inode j).ref ∧ (u.inode j).inum = (s.inode j).inum ∧
      (u.inode j).nlink = (s.inode j).nlink ∧ (j ≠ i → (u.inode j).valid = (s.inode j).valid) := by
    intro j
    rw [body]
    split
    · rw [free_inode]
      by_cases same : j = i
      · subst same; simp
      · simp [same]
    · simp
  have ownedApart : ∀ q j, q ≠ p → (s.pc q).Owns j → j ≠ i := by
    intro q j other own same
    subst same
    exact other (alone q own)
  constructor
  · intro j
    have change := weight_change (s := s) (t := (u.setLocked i false).setPc p (.dropping i)) p j (by
      intro q other
      simp only [weight, others q other]
      simp [State.setPc, State.setLocked, holds])
    have same : weight ((u.setLocked i false).setPc p (.dropping i)) j p = weight s j p := by
      simp only [weight, mine, here, Pc.putting, Pc.slot]
      simp [State.setPc, State.setLocked, holds]
    have := inv.counted j
    change (u.inode j).ref = _
    rw [(kept j).1]
    omega
  · intro j k hj hk same
    change 0 < (u.inode j).ref at hj
    change 0 < (u.inode k).ref at hk
    change (u.inode j).inum = (u.inode k).inum at same
    rw [(kept j).1] at hj
    rw [(kept k).1] at hk
    rw [(kept j).2.1, (kept k).2.1] at same
    exact inv.unique j k hj hk same
  · intro q j own
    have other : q ≠ p := by
      intro same
      subst same
      rw [mine] at own
      rcases own with eq | ⟨r,eq⟩ <;> simp at eq
    rw [others q other] at own
    have apart := ownedApart q j other own
    obtain ⟨lock,good,zero,single⟩ := inv.owner q j own
    refine ⟨?_, ?_, ?_, ?_⟩
    · simp [State.setPc, State.setLocked, apart, locks, lock]
    · change (u.inode j).valid = true
      rw [(kept j).2.2.2 apart]
      exact good
    · change (u.inode j).nlink = 0
      rw [(kept j).2.2.1]
      exact zero
    · intro q' own'
      by_cases same' : q' = p
      · subst same'
        rw [mine] at own'
        rcases own' with eq | ⟨r,eq⟩ <;> simp at eq
      · rw [others q' same'] at own'
        exact single q' own'
  · intro q j r' dec
    have other : q ≠ p := by
      intro same
      subst same
      simp [mine] at dec
    rw [others q other] at dec
    have apart : ¬ i = j := fun eq => ownedApart q j other (Or.inr ⟨r',dec⟩) eq.symm
    have change := dropping_change p (.dropping i) moved j
    simp only [here, reduceCtorEq, ↓reduceIte, Nat.add_zero, Pc.dropping.injEq, apart] at change
    change r' = 1 ∨ _ < (u.inode j).ref
    rw [change, (kept j).1]
    exact inv.undecided q j r' dec
  · intro j good zero
    change (u.inode j).valid = true at good
    change (u.inode j).nlink = 0 at zero
    change _ < (u.inode j).ref
    have change := dropping_change p (.dropping i) moved j
    simp only [here, reduceCtorEq, ↓reduceIte, Nat.add_zero, Pc.dropping.injEq] at change
    rw [change, (kept j).1]
    by_cases same : j = i
    · subst same
      have many : r ≠ 1 := by
        intro one
        rw [body, if_pos one, free_inode] at good
        simp at good
      simp only [↓reduceIte]
      exact (inv.undecided p j r here).resolve_left many
    · have apart : ¬ i = j := fun eq => same eq.symm
      rw [(kept j).2.2.2 same] at good
      rw [(kept j).2.2.1] at zero
      simp only [apart, ↓reduceIte, Nat.add_zero]
      exact inv.pending j good zero
  · intro j hj good before
    change 0 < (u.inode j).ref at hj
    change (u.inode j).valid = false at good
    change u.readIn j = true at before
    change u.truncated j = true ∧ (u.disk (u.inode j).inum).type = 0 ∧
      (u.disk (u.inode j).inum).addrs = []
    rw [(kept j).1] at hj
    rw [seen] at before
    rw [(kept j).2.1]
    by_cases one : r = 1
    · rw [if_pos one] at body
      rw [body, free_disk]
      by_cases same : j = i
      · subst same
        simp [free, itrunc, iupdate, State.setInode]
      · have apart : (s.inode j).inum ≠ (s.inode i).inum :=
          fun eq => same (inv.unique j i hj live eq)
        rw [(kept j).2.2.2 same] at good
        simpa [apart, same, free, itrunc, iupdate, State.setInode] using inv.freed j hj good before
    · rw [if_neg one] at body
      rw [body] at good ⊢
      exact inv.freed j hj good before
  · intro j good
    change (u.inode j).valid = true at good
    change u.readIn j = true
    rw [seen]
    by_cases same : j = i
    · subst same
      exact inv.seen j valid
    · rw [(kept j).2.2.2 same] at good
      exact inv.seen j good
  · intro j outside
    change (u.inode j).ref = 0
    rw [(kept j).1]
    exact inv.in_cache j outside

/-- `iget` refills an unused entry, and no live entry caches the same inode. -/
theorem inv_refill {s t : State P} (inv : Inv s) {p : P} {i inum : Nat} (inside : i < NINODE)
    (dead : (s.inode i).ref = 0)
    (uncached : ∀ j, 0 < (s.inode j).ref → (s.inode j).inum ≠ inum)
    (inode : t.inode = Function.update s.inode i
      { s.inode i with inum := inum, ref := 1, valid := false })
    (readIn : t.readIn = Function.update s.readIn i false)
    (truncated : t.truncated = Function.update s.truncated i false) (disk : t.disk = s.disk)
    (locked : t.locked = s.locked) (pc : t.pc = s.pc)
    (holds : t.holds = Function.update s.holds p
      (Function.update (s.holds p) i (s.holds p i + 1))) : Inv t := by
  have ofLive : ∀ j, j ≠ i → t.inode j = s.inode j := by
    intro j apart
    simp [inode, apart]
  have fresh : t.inode i = { s.inode i with inum := inum, ref := 1, valid := false } := by
    simp [inode]
  have ownedApart : ∀ q j, (s.pc q).Owns j → j ≠ i := by
    intro q j own same
    have := owner_slot_live inv own
    subst same
    omega
  have drops : ∀ j, dropping t j = dropping s j := by
    intro j
    simp only [dropping, pc]
  constructor
  · intro j
    have change := weight_change (s := s) (t := t) p j (by
      intro q other
      simp [weight, pc, holds, other])
    have count := inv.counted j
    by_cases same : j = i
    · subst same
      simp only [fresh, weight, pc, holds, Function.update_self] at change count ⊢
      omega
    · simp only [ofLive j same, weight, pc, holds, Function.update_self,
        Function.update_of_ne same] at change count ⊢
      omega
  · intro j k hj hk same
    by_cases hereJ : j = i
    · by_cases hereK : k = i
      · exact hereJ.trans hereK.symm
      · subst hereJ
        rw [ofLive k hereK] at hk same
        rw [fresh] at same
        exact absurd same.symm (uncached k hk)
    · by_cases hereK : k = i
      · subst hereK
        rw [ofLive j hereJ] at hj same
        rw [fresh] at same
        exact absurd same (uncached j hj)
      · rw [ofLive j hereJ] at hj same
        rw [ofLive k hereK] at hk same
        exact inv.unique j k hj hk same
  · intro q j own
    rw [pc] at own ⊢
    rw [ofLive j (ownedApart q j own), locked]
    exact inv.owner q j own
  · intro q j r dec
    rw [pc] at dec
    rw [ofLive j (ownedApart q j (Or.inr ⟨r,dec⟩)), drops]
    exact inv.undecided q j r dec
  · intro j valid unlinked
    by_cases same : j = i
    · subst same
      simp [fresh] at valid
    · rw [ofLive j same] at valid unlinked ⊢
      rw [drops]
      exact inv.pending j valid unlinked
  · intro j hj valid seen
    by_cases same : j = i
    · subst same
      simp [readIn] at seen
    · rw [ofLive j same] at hj valid ⊢
      rw [readIn, Function.update_of_ne same] at seen
      rw [truncated, Function.update_of_ne same, disk]
      exact inv.freed j hj valid seen
  · intro j valid
    by_cases same : j = i
    · subst same
      simp [fresh] at valid
    · rw [ofLive j same] at valid
      rw [readIn, Function.update_of_ne same]
      exact inv.seen j valid
  · intro j outside
    have apart : j ≠ i := by omega
    rw [ofLive j apart]
    exact inv.in_cache j outside

omit [DecidableEq P] in
/-- A section under the sleep-lock by a process that holds a reference. -/
theorem inv_update {s t : State P} (inv : Inv s) {p : P} {i : Nat} (holder : 0 < s.holds p i)
    (unlocked : s.locked i = false) (ip : Inode) (ref : ip.ref = (s.inode i).ref)
    (inum : ip.inum = (s.inode i).inum) (valid : ip.valid = true)
    (inode : t.inode = Function.update s.inode i ip)
    (disk : ∀ n, n ≠ (s.inode i).inum → t.disk n = s.disk n)
    (readIn : ∀ j, j ≠ i → t.readIn j = s.readIn j) (read : t.readIn i = true)
    (truncated : t.truncated = s.truncated) (locked : t.locked = s.locked) (pc : t.pc = s.pc)
    (holds : t.holds = s.holds) : Inv t := by
  have kept : ∀ j, j ≠ i → t.inode j = s.inode j := by
    intro j apart
    simp [inode, apart]
  have now : t.inode i = ip := by simp [inode]
  have refs : ∀ j, (t.inode j).ref = (s.inode j).ref ∧ (t.inode j).inum = (s.inode j).inum := by
    intro j
    by_cases same : j = i
    · subst same; rw [now]; exact ⟨ref,inum⟩
    · rw [kept j same]; exact ⟨rfl,rfl⟩
  have live : 0 < (s.inode i).ref :=
    live_of_weight inv (p := p) (by simp only [weight]; omega)
  have ownedApart : ∀ q j, (s.pc q).Owns j → j ≠ i := by
    intro q j own same
    have lock := (inv.owner q j own).1
    rw [same, unlocked] at lock
    simp at lock
  have drops : ∀ j, dropping t j = dropping s j := by
    intro j
    simp only [dropping, pc]
  constructor
  · intro j
    rw [(refs j).1, inv.counted j]
    simp only [weight, pc, holds]
  · intro j k hj hk same
    rw [(refs j).1] at hj
    rw [(refs k).1] at hk
    rw [(refs j).2, (refs k).2] at same
    exact inv.unique j k hj hk same
  · intro q j own
    rw [pc] at own ⊢
    rw [kept j (ownedApart q j own), locked]
    exact inv.owner q j own
  · intro q j r dec
    rw [pc] at dec
    rw [(refs j).1, drops]
    exact inv.undecided q j r dec
  · intro j good zero
    rw [drops, (refs j).1]
    by_cases same : j = i
    · subst same
      exact pending_of_holder inv holder
    · rw [kept j same] at good zero
      exact inv.pending j good zero
  · intro j hj good seen
    by_cases same : j = i
    · subst same
      simp [now, valid] at good
    · rw [kept j same] at hj good ⊢
      rw [readIn j same] at seen
      have apart : (s.inode j).inum ≠ (s.inode i).inum := fun eq => same (inv.unique j i hj live eq)
      rw [truncated, disk _ apart]
      exact inv.freed j hj good seen
  · intro j good
    by_cases same : j = i
    · subst same
      exact read
    · rw [kept j same] at good
      rw [readIn j same]
      exact inv.seen j good
  · intro j outside
    rw [(refs j).1]
    exact inv.in_cache j outside

theorem inv_iget {s u : State P} (inv : Inv s) {p : P} {i inum : Nat}
    (run : iget s inum = some (i, u)) : Inv (u.setHolds p i (s.holds p i + 1)) := by
  unfold iget at run
  split at run
  · rename_i k found
    simp only [Option.some.injEq, Prod.mk.injEq] at run
    obtain ⟨slot,state⟩ := run
    subst slot
    subst state
    have hit := List.find?_some found
    simp only [Bool.and_eq_true, decide_eq_true_eq] at hit
    exact inv_gain inv hit.1
  · rename_i none
    split at run
    · simp at run
    · rename_i k found
      simp only [Option.some.injEq, Prod.mk.injEq] at run
      obtain ⟨slot,state⟩ := run
      subst slot
      subst state
      have hit := List.find?_some found
      have inside := List.mem_of_find?_eq_some found
      simp only [beq_iff_eq] at hit
      refine inv_refill inv (List.mem_range.mp inside) hit ?_ rfl rfl rfl rfl rfl rfl rfl
      intro j hj same
      have low : j < NINODE := by
        by_contra outside
        have := inv.in_cache j (by omega)
        omega
      have miss := List.find?_eq_none.mp none j (List.mem_range.mpr low)
      simp [hj, same] at miss

theorem next_inv {s t : State P} {a : Action P} (inv : Inv s) (delegated : Delegated s a)
    (run : next s a = some t) : Inv t := by
  cases a with
  | iget p inum =>
    simp only [next] at run
    split at run
    · simp only [Option.map_eq_some_iff] at run
      obtain ⟨⟨i,u⟩,found,done⟩ := run
      exact done ▸ inv_iget inv found
    · simp at run
  | idup p i =>
    simp only [next] at run
    split at run
    · rename_i guard
      simp only [Option.some.injEq] at run
      have live : 0 < (s.inode i).ref :=
        live_of_weight inv (p := p) (by simp only [weight]; omega)
      exact run ▸ inv_gain inv live
    · simp at run
  | update p i nlink addrs =>
    simp only [next] at run
    split at run
    · rename_i guard
      simp only [Option.map_eq_some_iff, load] at run
      obtain ⟨u,loaded,done⟩ := run
      subst done
      split at loaded
      · rename_i valid
        simp only [Option.some.injEq] at loaded
        subst loaded
        refine inv_update inv guard.2.1 guard.2.2
          { s.inode i with nlink := nlink, addrs := addrs } rfl rfl valid rfl ?_
          (fun _ _ => rfl) (inv.seen i valid) rfl rfl rfl rfl
        intro n apart
        simp [iupdate, State.setInode, apart]
      · split at loaded
        · simp at loaded
        · simp only [Option.some.injEq] at loaded
          subst loaded
          refine inv_update inv guard.2.1 guard.2.2
            { s.inode i with
              type := (s.disk (s.inode i).inum).type, nlink := nlink, addrs := addrs,
              valid := true }
            rfl rfl rfl ?_ ?_ ?_ ?_ rfl rfl rfl rfl
          · simp [iupdate, State.setInode]
          · intro n apart
            simp [iupdate, State.setInode, apart]
          · intro j apart
            simp [iupdate, State.setInode, apart]
          · simp [iupdate, State.setInode]
    · simp at run
  | iput p i =>
    simp only [next] at run
    split at run
    · rename_i guard
      simp only [Option.some.injEq] at run
      exact run ▸ inv_iput inv guard.1 guard.2
    · simp at run
  | acquire p =>
    simp only [next] at run
    split at run
    · rename_i i here
      split at run
      · simp at run
      · rename_i lock
        have unlocked : s.locked i = false := by simpa using lock
        split at run
        · rename_i test
          simp only [Option.some.injEq] at run
          exact run ▸ inv_acquire_lock inv here unlocked test.1 test.2
        · rename_i test
          simp only [Option.some.injEq] at run
          exact run ▸ inv_acquire_skip inv here unlocked test
    · simp at run
  | readRef p =>
    simp only [next] at run
    split at run
    · rename_i i here
      simp only [Option.some.injEq] at run
      exact run ▸ inv_readRef inv here (delegated i here)
    · simp at run
  | release p =>
    simp only [next] at run
    split at run
    · rename_i i r here
      simp only [Option.some.injEq] at run
      exact run ▸ inv_release inv here rfl
    · simp at run
  | decref p =>
    simp only [next] at run
    split at run
    · rename_i i here
      simp only [Option.some.injEq] at run
      exact run ▸ inv_decref inv here
    · simp at run

omit [Fintype P] [DecidableEq P] in
theorem iget_ref_le {s u : State P} {inum k : Nat} (run : iget s inum = some (k, u)) (i : Nat) :
    (s.inode i).ref ≤ (u.inode i).ref := by
  unfold iget at run
  split at run
  · rename_i j found
    simp only [Option.some.injEq, Prod.mk.injEq] at run
    rw [← run.2, (setRef_entry s j _ i).2.2.2]
    split
    · rename_i same; subst same; omega
    · omega
  · split at run
    · simp at run
    · rename_i j found
      simp only [Option.some.injEq, Prod.mk.injEq] at run
      have unused := List.find?_some found
      simp only [beq_iff_eq] at unused
      rw [← run.2]
      by_cases same : i = j
      · subst same; simp [unused]
      · simp [State.setInode, same]

omit [Fintype P] [DecidableEq P] in
theorem load_ref {s u : State P} {i : Nat} (run : load s i = some u) (j : Nat) :
    (u.inode j).ref = (s.inode j).ref := by
  simp only [load] at run
  split at run
  · simp only [Option.some.injEq] at run
    rw [run]
  · split at run
    · simp at run
    · simp only [Option.some.injEq] at run
      rw [← run]
      by_cases same : j = i
      · subst same; simp [State.setInode]
      · simp [State.setInode, same]

omit [Fintype P] in
/-- Only the last section of `iput` lowers a reference count. -/
theorem ref_falls {s t : State P} {a : Action P} {i : Nat} (run : next s a = some t)
    (falls : (t.inode i).ref < (s.inode i).ref) :
    ∃ p, t = (s.setRef i ((s.inode i).ref - 1)).setPc p .idle := by
  cases a with
  | iget p inum =>
    simp only [next] at run
    split at run
    · simp only [Option.map_eq_some_iff] at run
      obtain ⟨⟨k,u⟩,found,done⟩ := run
      have := iget_ref_le found i
      rw [← done] at falls
      change (u.inode i).ref < _ at falls
      omega
    · simp at run
  | idup p k =>
    simp only [next] at run
    split at run
    · simp only [Option.some.injEq] at run
      rw [← run] at falls
      change ((s.setRef k _).inode i).ref < _ at falls
      rw [(setRef_entry s k _ i).2.2.2] at falls
      split at falls
      · rename_i same; subst same; omega
      · omega
    · simp at run
  | update p k nlink addrs =>
    simp only [next] at run
    split at run
    · simp only [Option.map_eq_some_iff] at run
      obtain ⟨u,loaded,done⟩ := run
      have kept := load_ref loaded i
      rw [← done] at falls
      by_cases same : i = k
      · subst same
        simp [iupdate, State.setInode] at falls
        omega
      · simp [iupdate, State.setInode, same] at falls
        omega
    · simp at run
  | iput p k =>
    simp only [next] at run
    split at run
    · simp only [Option.some.injEq] at run
      rw [← run] at falls
      exact absurd falls (Nat.lt_irrefl _)
    · simp at run
  | acquire p =>
    simp only [next] at run
    split at run
    · split at run
      · simp at run
      · split at run
        · simp only [Option.some.injEq] at run
          rw [← run] at falls
          exact absurd falls (Nat.lt_irrefl _)
        · simp only [Option.some.injEq] at run
          rw [← run] at falls
          exact absurd falls (Nat.lt_irrefl _)
    · simp at run
  | readRef p =>
    simp only [next] at run
    split at run
    · simp only [Option.some.injEq] at run
      rw [← run] at falls
      exact absurd falls (Nat.lt_irrefl _)
    · simp at run
  | release p =>
    simp only [next] at run
    split at run
    · rename_i k r here
      simp only [Option.some.injEq] at run
      rw [← run] at falls
      change ((if r = 1 then free s k else s).inode i).ref < _ at falls
      split at falls
      · rw [free_inode] at falls
        by_cases same : i = k
        · subst same; simp at falls
        · simp [same] at falls
      · omega
    · simp at run
  | decref p =>
    simp only [next] at run
    split at run
    · rename_i k here
      simp only [Option.some.injEq] at run
      have slot : i = k := by
        by_contra other
        rw [← run] at falls
        change ((s.setRef k _).inode i).ref < _ at falls
        rw [(setRef_entry s k _ i).2.2.2, if_neg other] at falls
        omega
      subst slot
      exact ⟨p,run.symm⟩
    · simp at run

/-- The last reference is dropped: an inode that has been read in and has no links is
    already truncated and free on disk. -/
def Released (s t : State P) (i : Nat) : Prop :=
  0 < (s.inode i).ref → (t.inode i).ref = 0 → t.readIn i = true → (t.inode i).nlink = 0 →
    t.truncated i = true ∧ (t.disk (t.inode i).inum).type = 0 ∧
      (t.disk (t.inode i).inum).addrs = []

/-- In every run in which each `iput` that reads more than one reference leaves a
    reference whose check is still to come, no unlinked inode is leaked. -/
theorem delegated_iput_releases {s t : State P} {a : Action P} (i : Nat)
    (reach : (system P).Reach Delegated s) (delegated : Delegated s a)
    (run : next s a = some t) : Released s t i := by
  have inv : Inv s := System.reach_invariant (system P) (fun _ => inv_start)
    (fun _ _ _ before ok step => next_inv before ok step) reach
  have after := next_inv inv delegated run
  intro live dead seen unlinked
  by_cases valid : (t.inode i).valid = true
  · have := after.pending i valid unlinked
    omega
  · have invalid : (t.inode i).valid = false := by simpa using valid
    obtain ⟨p,step⟩ := ref_falls (i := i) run (by omega)
    have entry := setRef_entry s i ((s.inode i).ref - 1) i
    subst step
    change ((s.setRef i ((s.inode i).ref - 1)).inode i).valid = false at invalid
    change s.truncated i = true ∧
      (s.disk ((s.setRef i ((s.inode i).ref - 1)).inode i).inum).type = 0 ∧
      (s.disk ((s.setRef i ((s.inode i).ref - 1)).inode i).inum).addrs = []
    rw [entry.2.1] at invalid
    rw [entry.1]
    exact inv.freed i live invalid seen

end Steps
end Invariant

/-- One file, inode 1, with one link and block 60. -/
def oneFile : State Bool where
  disk := fun n => if n = 1 then ⟨2, 1, [60]⟩ else ⟨0, 0, []⟩
  bitmap := fun b => b == 60
  inode := fun _ => ⟨0, 0, false, 0, 0, []⟩
  locked := fun _ => false
  holds := fun _ _ => 0
  pc := fun _ => .idle
  readIn := fun _ => false
  truncated := fun _ => false

theorem oneFile_start : Start oneFile := ⟨fun _ => ⟨rfl,rfl,rfl,rfl⟩, fun _ => ⟨rfl,fun _ => rfl⟩⟩

/-- The only holder unlinks the file and puts it. -/
def lonePut : List (Action Bool) := [.iget false 1, .update false 0 0 [60], .iput false 0, .acquire false]

def lonePutState : State Bool := (System.exec next oneFile lonePut).get (by decide)

theorem delegated_iput_releases_lone : ∃ s t : State Bool, ∃ a, (system Bool).Reach Delegated s ∧
    Delegated s a ∧ next s a = some t ∧ 0 < (s.inode 0).ref ∧ (t.inode 0).ref = 0 ∧
    t.readIn 0 = true ∧ (t.inode 0).nlink = 0 ∧ Released s t 0 := by
  have waiting : (system Bool).Reach Delegated lonePutState := by
    apply System.exec_reach lonePut _ (.start oneFile_start) (Option.some_get _).symm
    intro a mem s
    simp only [lonePut, List.mem_cons, List.not_mem_nil, or_false] at mem
    rcases mem with same | same | same | same <;> subst same <;> trivial
  have reading : Delegated lonePutState (.readRef false) := by
    intro i here
    have slot : i = 0 := by
      have : lonePutState.pc false = .reading 0 := by decide
      rw [this] at here
      simpa using here.symm
    subst slot
    left
    decide
  have reach := (waiting.step (.readRef false) reading rfl).step (.release false) (by trivial) rfl
  exact ⟨_, _, .decref false, reach, trivial, rfl, by decide, by decide, by decide, by decide,
    delegated_iput_releases (a := .decref false) 0 reach trivial rfl⟩

/-- Both holders of the unlinked file pass the test before either decrements. -/
def racingPuts : List (Action Bool) :=
  [.iget false 1, .iget true 1, .update false 0 0 [60], .iput false 0, .iput true 0,
    .acquire false, .readRef false, .release false, .acquire true, .readRef true, .release true,
    .decref false]

theorem iput_race_leaks : ∃ s t : State Bool, ∃ a, (system Bool).Reach System.Free s ∧
    next s a = some t ∧ ¬ Released s t 0 := by
  have reach : (system Bool).Reach System.Free ((System.exec next oneFile racingPuts).get (by decide)) :=
    System.exec_reach racingPuts (fun _ _ _ => trivial) (.start oneFile_start)
      (Option.some_get _).symm
  refine ⟨_, _, .decref true, reach, rfl, fun released => ?_⟩
  have freed := released (by decide) (by decide) (by decide) (by decide)
  exact absurd freed.2.1 (by decide)

end Xv6InodeRelease
