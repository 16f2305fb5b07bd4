import KernelLabs.Lib.Shares
import KernelLabs.Xv6.FileTable

/-!
Who holds the references that `ref` counts. Besides the descriptors of its table a process
may have references in hand, in the middle of a call; and it may have a descriptor whose
reference it has not yet taken (`dup`), or has already dropped (`exit`). The count of a file
is the sum of these shares over all processes, in every state.
-/
namespace Xv6File
open Transition Shares

section Tables

/-- Descriptors of a table that refer to a file, but for one that is not counted. -/
def held (table : Table) (hide : Option (Fin NOFILE)) (f : Fin NFILE) : Nat :=
  (Finset.univ.filter fun fd => table fd = some f ∧ hide ≠ some fd).card

variable {table : Table} {fd : Fin NOFILE} {g : Fin NFILE}

theorem held_set (free : table fd = none) (f : Fin NFILE) :
    held (Function.update table fd (some g)) none f = held table none f + if g = f then 1 else 0 := by
  have change := Counting.card_filter_change Finset.univ (fun e => table e = some f ∧ none ≠ some fd)
    (fun e => Function.update table fd (some g) e = some f ∧ none ≠ some fd) (Finset.mem_univ fd) (by
      intro e _ away
      simp [away])
  simpa [held, free] using change

theorem held_hide (here : table fd = some g) (f : Fin NFILE) :
    held table (some fd) f + (if g = f then 1 else 0) = held table none f := by
  have change := Counting.card_filter_change Finset.univ (fun e => table e = some f ∧ some fd ≠ some e)
    (fun e => table e = some f) (Finset.mem_univ fd) (by
      intro e _ away
      simp [Ne.symm away])
  simp only [here, Option.some.injEq, ne_eq, not_true_eq_false, and_false, ↓reduceIte, Nat.add_zero] at change
  simpa [held] using change.symm

theorem held_clear (table : Table) (fd : Fin NOFILE) (f : Fin NFILE) :
    held (Function.update table fd none) none f = held table (some fd) f := by
  unfold held
  congr 1
  refine Finset.filter_congr fun e _ => ?_
  by_cases same : e = fd
  · simp [same]
  · simp [same, Ne.symm same]

theorem held_pos {e : Fin NOFILE} (hide : Option (Fin NOFILE)) (here : table e = some g) (shown : hide ≠ some e) :
    0 < held table hide g :=
  Finset.card_pos.mpr ⟨e, by simp [here, shown]⟩

theorem held_empty (f : Fin NFILE) (hide : Option (Fin NOFILE)) : held (fun _ => none) hide f = 0 := by
  simp [held]

end Tables

/-- The descriptor that is not backed by a reference. -/
def hidden : Pc → Option (Fin NOFILE)
  | .dupRef _ fd => some fd
  | .pipeclose _ _ (.clear fd) => some fd
  | .exitClear fd => some fd
  | _ => none

def one (g f : Fin NFILE) : Nat := if g = f then 1 else 0

def creditAfter (f : Fin NFILE) : After → Nat
  | .also g _ => one g f
  | _ => 0

/-- References in hand. -/
def credit (f : Fin NFILE) : Pc → Nat
  | .openFd g _ _ => one g f
  | .fileclose _ (.clear _) => 0
  | .fileclose g k => one g f + creditAfter f k
  | .pipeclose _ _ k => creditAfter f k
  | .pipeAlloc1 g => one g f
  | .pipeKalloc g h => one g f + one h f
  | .pipeFd0 g h => one g f + one h f
  | .pipeFd1 _ h _ => one h f
  | _ => 0

def share (s : State) (p : Fin NPROC) (f : Fin NFILE) : Nat :=
  held (s.ofile p) (hidden (s.pc p)) f + credit f (s.pc p)

/-- Files that the process has just allocated and not yet set. -/
def Fresh (f : Fin NFILE) : Pc → Prop
  | .openFd g _ _ => g = f
  | .openSet g _ _ _ => g = f
  | .pipeAlloc1 g => g = f
  | .pipeKalloc g h => g = f ∨ h = f
  | _ => False

/-- What the table of a process says about the descriptors its call speaks of. -/
def PcOk (table : Table) : Pc → Prop
  | .openSet f fd _ _ => table fd = some f
  | .dupRef f fd => table fd = some f ∧ ∃ e, e ≠ fd ∧ table e = some f
  | .fileclose f (.clear fd) => table fd = some f ∧ ∀ e, e.val < fd.val → table e = none
  | .pipeclose _ _ (.clear fd) => ∀ e, e.val < fd.val → table e = none
  | .exitClear fd => ∀ e, e.val < fd.val → table e = none
  | .exiting i => ∀ e : Fin NOFILE, e.val < i → table e = none
  | .pipeKalloc f0 f1 => f0 ≠ f1
  | .pipeFd1 f0 _ fd0 => table fd0 = some f0
  | _ => True

def failsAfter : After → Prop
  | .ret r => r = -1
  | .also _ r => r = -1
  | .clear _ => False

/-- The table as the call found it, for the places from which a call may fail. -/
def Restores (saved table : Table) (result : Option Int) : Pc → Prop
  | .user => result = some (-1) → table = saved
  | .openAlloc _ _ | .openFd _ _ _ | .pipeAlloc0 | .pipeAlloc1 _ | .pipeKalloc _ _ | .pipeFd0 _ _ | .forkCopy _ =>
    table = saved
  | .fileclose _ k | .pipeclose _ _ k => failsAfter k → table = saved
  | .pipeFd1 _ _ fd0 => Function.update table fd0 none = saved
  | _ => True

def forkTarget : Pc → Option (Fin NPROC)
  | .forkCopy np => some np
  | .forking np _ => some np
  | _ => none

/-- The child's descriptors that are not copied yet. -/
def uncopied : Pc → Nat
  | .forking _ i => i
  | _ => 0

def endOf (x : File) (k : Nat) (w : Bool) : Prop := x.type = .pipe ∧ x.pipe = k ∧ x.writable = w

instance (x : File) (k : Nat) (w : Bool) : Decidable (endOf x k w) := inferInstanceAs (Decidable (_ ∧ _))

/-- An end whose file is closed and whose `pipeclose` is still to come. -/
def pending : Pc → Option (Nat × Bool)
  | .pipeclose k w _ => some (k, w)
  | _ => none

def ends (s : State) (k : Nat) (w : Bool) : Nat :=
  (Finset.univ.filter fun f => endOf (s.file f) k w).card +
    (Finset.univ.filter fun p => pending (s.pc p) = some (k, w)).card

def isOpen (s : State) (k : Nat) (w : Bool) : Bool := if w then (s.pipe k).writeopen else (s.pipe k).readopen

/-- The page of a pipe has been freed once if both ends are closed, else never. -/
structure PagesOk (s : State) : Prop where
  freed : ∀ k, k < s.npipes → (s.pipe k).freed = if isOpen s k false = false ∧ isOpen s k true = false then 1 else 0
  unborn : ∀ k, s.npipes ≤ k → s.pipe k = ⟨false, false, 0⟩

structure FileInv (s : State) : Prop where
  counted : Counted s.ref (share s)
  dead : ∀ f, s.ref f = 0 → (s.file f).type = .none
  fresh : ∀ p f, Fresh f (s.pc p) → s.ref f = 1 ∧ (s.file f).type = .none
  ok : ∀ p, PcOk (s.ofile p) (s.pc p)
  restores : ∀ p, Restores (s.saved p) (s.ofile p) (s.result p) (s.pc p)
  idle : ∀ p, (s.proc p).life ≠ .live → s.pc p = .user ∧ s.result p = none
  empty : ∀ p, (s.proc p).life = .unused ∨ (s.proc p).life = .zombie → s.ofile p = fun _ => none
  child : ∀ p np, forkTarget (s.pc p) = some np →
    (s.proc np).life = .embryo ∧ ∀ fd : Fin NOFILE, uncopied (s.pc p) ≤ fd.val → s.ofile np fd = none
  parent : ∀ p q np, forkTarget (s.pc p) = some np → forkTarget (s.pc q) = some np → p = q
  ends : ∀ k w, ends s k w = (isOpen s k w).toNat
  pages : PagesOk s

section Local
variable {s t : State} {p : Fin NPROC}

/-- A step of one process that touches nothing but its own table, files it has a share of,
    free files, and pipes. -/
structure Local (s t : State) (p : Fin NPROC) : Prop where
  pcs : ∀ q, q ≠ p → t.pc q = s.pc q
  procs : ∀ q, q ≠ p → t.proc q = s.proc q
  others : ∀ q, q ≠ p → t.saved q = s.saved q ∧ t.result q = s.result q
  life : (t.proc p).life = (s.proc p).life
  live : (s.proc p).life = .live
  solo : forkTarget (t.pc p) = none
  files : ∀ f, share s p f = 0 → s.ref f ≠ 0 → t.file f = s.file f
  counts : ∀ f, t.ref f + share s p f = s.ref f + share t p f
  dead : ∀ f, t.ref f = 0 → (t.file f).type = .none
  fresh : ∀ f, Fresh f (t.pc p) → t.ref f = 1 ∧ (t.file f).type = .none
  ok : PcOk (t.ofile p) (t.pc p)
  restores : Restores (t.saved p) (t.ofile p) (t.result p) (t.pc p)
  ends : ∀ k w, (isOpen t k w).toNat + Xv6File.ends s k w = (isOpen s k w).toNat + Xv6File.ends t k w
  pages : PagesOk t

theorem share_other (step : Local s t p) (q : Fin NPROC) (away : q ≠ p) : share t q = share s q := by
  funext f
  simp only [share, State.ofile, step.pcs q away, step.procs q away]

theorem fresh_share {q : Fin NPROC} {f : Fin NFILE} (ok : PcOk (s.ofile q) (s.pc q)) (fresh : Fresh f (s.pc q)) :
    0 < share s q f := by
  unfold share
  cases place : s.pc q <;> rw [place] at ok fresh <;> simp only [Fresh] at fresh
  case openFd g ip omode =>
    simp only [credit, one, fresh, ↓reduceIte]
    omega
  case openSet g fd ip omode =>
    subst fresh
    have pos := held_pos (hidden (.openSet g fd ip omode)) ok (by simp [hidden])
    omega
  case pipeAlloc1 g =>
    simp only [credit, one, fresh, ↓reduceIte]
    omega
  case pipeKalloc g h =>
    rcases fresh with same | same
    · simp only [credit, one, same, ↓reduceIte]
      omega
    · simp only [credit, one, same, ↓reduceIte]
      omega

theorem local_inv (inv : FileInv s) (step : Local s t p) : FileInv t := by
  have same : ∀ q f, q ≠ p → Fresh f (s.pc q) → t.file f = s.file f := by
    intro q f away fresh
    have mine := fresh_share (inv.ok q) fresh
    have one := (inv.fresh q f fresh).1
    have none := inv.counted.sole (p := q) (f := f) (by omega) (Ne.symm away)
    exact step.files f none (by omega)
  have fork : ∀ q np, forkTarget (t.pc q) = some np → q ≠ p ∧ forkTarget (s.pc q) = some np := by
    intro q np target
    have away : q ≠ p := by
      rintro rfl
      rw [step.solo] at target
      simp at target
    exact ⟨away, step.pcs q away ▸ target⟩
  have child : ∀ q np, forkTarget (s.pc q) = some np → np ≠ p := by
    rintro q np target rfl
    have embryo := (inv.child q np target).1
    rw [step.live] at embryo
    simp at embryo
  constructor
  · exact inv.counted.local p (share_other step) step.counts
  · exact step.dead
  · intro q f fresh
    by_cases own : q = p
    · exact step.fresh f (own ▸ fresh)
    · rw [step.pcs q own] at fresh
      rw [State.ref, same q f own fresh]
      exact inv.fresh q f fresh
  · intro q
    by_cases own : q = p
    · exact own ▸ step.ok
    · rw [State.ofile, step.pcs q own, step.procs q own]
      exact inv.ok q
  · intro q
    by_cases own : q = p
    · exact own ▸ step.restores
    · rw [State.ofile, step.pcs q own, step.procs q own, (step.others q own).1, (step.others q own).2]
      exact inv.restores q
  · intro q
    by_cases own : q = p
    · intro gone
      rw [own, step.life, step.live] at gone
      simp at gone
    · rw [step.pcs q own, step.procs q own, (step.others q own).2]
      exact inv.idle q
  · intro q
    by_cases own : q = p
    · intro gone
      rw [own, step.life, step.live] at gone
      simp at gone
    · rw [State.ofile, step.procs q own]
      exact inv.empty q
  · intro q np target
    obtain ⟨away,before⟩ := fork q np target
    rw [State.ofile, step.procs np (child q np before), step.pcs q away]
    exact inv.child q np before
  · intro q r np first second
    exact inv.parent q r np (fork q np first).2 (fork r np second).2
  · intro k w
    have before := inv.ends k w
    have move := step.ends k w
    omega
  · exact step.pages

theorem ends_congr (file : ∀ f k w, endOf (t.file f) k w ↔ endOf (s.file f) k w)
    (pcs : ∀ q, pending (t.pc q) = pending (s.pc q)) (k : Nat) (w : Bool) :
    Xv6File.ends t k w = Xv6File.ends s k w := by
  simp only [Xv6File.ends, file, pcs]

/-- A step that changes no file and no pipe. -/
structure Quiet (s t : State) (p : Fin NPROC) : Prop where
  file : t.file = s.file
  pipe : t.pipe = s.pipe
  npipes : t.npipes = s.npipes
  pcs : ∀ q, q ≠ p → t.pc q = s.pc q
  procs : ∀ q, q ≠ p → t.proc q = s.proc q
  others : ∀ q, q ≠ p → t.saved q = s.saved q ∧ t.result q = s.result q
  life : (t.proc p).life = (s.proc p).life
  live : (s.proc p).life = .live
  solo : forkTarget (t.pc p) = none
  shares : ∀ f, share t p f = share s p f
  fresh : ∀ f, Fresh f (t.pc p) → Fresh f (s.pc p)
  pends : pending (t.pc p) = pending (s.pc p)
  ok : PcOk (t.ofile p) (t.pc p)
  restores : Restores (t.saved p) (t.ofile p) (t.result p) (t.pc p)

theorem Quiet.local (inv : FileInv s) (quiet : Quiet s t p) : Local s t p := by
  have ref : t.ref = s.ref := by
    funext f
    rw [State.ref, quiet.file]
    rfl
  have opens : ∀ k w, isOpen t k w = isOpen s k w := by
    intro k w
    rw [isOpen, quiet.pipe]
    rfl
  refine ⟨quiet.pcs, quiet.procs, quiet.others, quiet.life, quiet.live, quiet.solo, fun f _ _ => by rw [quiet.file],
    fun f => ?_, fun f gone => ?_, fun f fresh => ?_, quiet.ok, quiet.restores, fun k w => ?_, ?_, ?_⟩
  · rw [ref, quiet.shares f]
  · rw [ref] at gone
    rw [quiet.file]
    exact inv.dead f gone
  · rw [ref, quiet.file]
    exact inv.fresh p f (quiet.fresh f fresh)
  · have same := ends_congr (s := s) (t := t) (fun f k w => by rw [quiet.file]) (fun q => by
      by_cases own : q = p
      · rw [own, quiet.pends]
      · rw [quiet.pcs q own]) k w
    rw [same, opens]
  · intro k low
    rw [opens, opens, quiet.pipe]
    exact inv.pages.freed k (quiet.npipes ▸ low)
  · intro k high
    rw [quiet.pipe]
    exact inv.pages.unborn k (quiet.npipes ▸ high)

end Local

section Quiets
variable {s t : State} {p : Fin NPROC}

theorem freeFd_none {table : Table} {fd : Fin NOFILE} (found : freeFd table = some fd) : table fd = none := by
  have hit := List.find?_some found
  simpa using hit

theorem hidden_user : hidden .user = none := rfl

theorem credit_user (f : Fin NFILE) : credit f .user = 0 := rfl

/-- The process moves on with its table as it is. -/
theorem quiet_setPc (pc : Pc) (live : (s.proc p).life = .live) (solo : forkTarget pc = none)
    (hide : hidden pc = hidden (s.pc p)) (credits : ∀ f, credit f pc = credit f (s.pc p))
    (fresh : ∀ f, Fresh f pc → Fresh f (s.pc p)) (pends : pending pc = pending (s.pc p))
    (ok : PcOk (s.ofile p) pc) (restores : Restores (s.saved p) (s.ofile p) (s.result p) pc) :
    Quiet s (s.setPc p pc) p := by
  constructor <;> try rfl
  · intro q away
    simp [away]
  · exact fun _ _ => rfl
  · exact fun _ _ => ⟨rfl,rfl⟩
  · exact live
  · simpa using solo
  · intro f
    simp [share, State.ofile, hide, credits]
  · intro f
    simpa using fresh f
  · simpa using pends
  · simpa [State.ofile] using ok
  · simpa [State.ofile] using restores

/-- The process changes one descriptor and moves on. -/
theorem quiet_setFd (fd : Fin NOFILE) (x : Option (Fin NFILE)) (pc : Pc) (live : (s.proc p).life = .live)
    (solo : forkTarget pc = none)
    (shares : ∀ f, held (Function.update (s.ofile p) fd x) (hidden pc) f + credit f pc = share s p f)
    (fresh : ∀ f, Fresh f pc → Fresh f (s.pc p)) (pends : pending pc = pending (s.pc p))
    (ok : PcOk (Function.update (s.ofile p) fd x) pc)
    (restores : Restores (s.saved p) (Function.update (s.ofile p) fd x) (s.result p) pc) :
    Quiet s ((s.setFd p fd x).setPc p pc) p := by
  constructor <;> try rfl
  · intro q away
    simp [State.setFd, away]
  · intro q away
    simp [State.setFd, away]
  · exact fun _ _ => ⟨rfl,rfl⟩
  · simp [State.setFd]
  · exact live
  · simpa using solo
  · intro f
    rw [← shares f]
    simp [share, State.ofile, State.setFd]
  · intro f
    simpa [State.setFd] using fresh f
  · simpa using pends
  · simpa [State.ofile, State.setFd] using ok
  · simpa [State.ofile, State.setFd] using restores

theorem quiet_returns (live : (s.proc p).life = .live) {r : Int} (hide : hidden (s.pc p) = none)
    (credits : ∀ f, credit f (s.pc p) = 0) (pends : pending (s.pc p) = none)
    (restores : r = -1 → s.ofile p = s.saved p) : Quiet s (s.returns p r) p := by
  constructor <;> try rfl
  · intro q away
    simp [away]
  · exact fun _ _ => rfl
  · intro q away
    simp [away]
  · exact live
  · simp [forkTarget]
  · intro f
    rw [share, share, hide, credits f]
    simp [State.ofile, hidden_user, credit_user]
  · intro f
    simp [Fresh]
  · rw [pends, returns_pc, Function.update_self]
    rfl
  · simp [PcOk]
  · simpa [State.ofile, Restores] using restores

/-- The process changes one descriptor and returns. -/
theorem quiet_setFd_returns (fd : Fin NOFILE) (x : Option (Fin NFILE)) (r : Int) (live : (s.proc p).life = .live)
    (shares : ∀ f, held (Function.update (s.ofile p) fd x) none f = share s p f) (pends : pending (s.pc p) = none)
    (success : r ≠ -1) : Quiet s ((s.setFd p fd x).returns p r) p := by
  constructor <;> try rfl
  · intro q away
    simp [State.setFd, away]
  · intro q away
    simp [State.setFd, away]
  · intro q away
    simp [State.setFd, away]
  · simp [State.setFd]
  · exact live
  · simp [forkTarget]
  · intro f
    rw [← shares f]
    simp [share, State.ofile, State.setFd, hidden_user, credit_user]
  · intro f
    simp [Fresh]
  · rw [pends, returns_pc, Function.update_self]
    rfl
  · simp [PcOk]
  · simp [Restores, success]

end Quiets

section Steps
variable {s t : State} {p : Fin NPROC}

/-- Taking a free file. -/
theorem local_filealloc (inv : FileInv s) (live : (s.proc p).life = .live) {f : Fin NFILE}
    (found : s.freeFile = some f) {pc : Pc} (solo : forkTarget pc = none) (hide : hidden pc = hidden (s.pc p))
    (credits : ∀ g, credit g pc = credit g (s.pc p) + one f g)
    (fresh : ∀ g, Fresh g pc → g = f ∨ Fresh g (s.pc p)) (pends : pending pc = pending (s.pc p))
    (ok : PcOk (s.ofile p) pc) (restores : Restores (s.saved p) (s.ofile p) (s.result p) pc) :
    Local s ((s.filealloc f).setPc p pc) p := by
  have zero : s.ref f = 0 := by
    have hit := List.find?_some found
    simpa using hit
  have type := inv.dead f zero
  have ref : ∀ g, ((s.filealloc f).setPc p pc).ref g = if g = f then 1 else s.ref g := by
    intro g
    by_cases same : g = f
    · simp [State.ref, State.filealloc, same]
    · simp [State.ref, State.filealloc, same]
  have types : ∀ g, (((s.filealloc f).setPc p pc).file g).type = (s.file g).type := by
    intro g
    by_cases same : g = f
    · simp [State.filealloc, same]
    · simp [State.filealloc, same]
  refine ⟨?_, fun _ _ => rfl, fun _ _ => ⟨rfl,rfl⟩, rfl, live, ?_, ?_, ?_, ?_, ?_, ?_, ?_, ?_, ?_, ?_⟩
  · intro q away
    simp [State.filealloc, away]
  · simpa using solo
  · intro g _ used
    have other : g ≠ f := fun same => used (same ▸ zero)
    simp [State.filealloc, other]
  · intro g
    have sharing : share ((s.filealloc f).setPc p pc) p g = share s p g + one f g := by
      rw [share, share, setPc_pc, Function.update_self, hide, credits g]
      simp only [State.ofile, setPc_proc, State.filealloc, setFile_proc]
      omega
    rw [ref, sharing]
    by_cases same : g = f
    · subst same
      simp [one, zero]
      omega
    · simp [one, same, Ne.symm same]
  · intro g gone
    rw [types]
    by_cases same : g = f
    · rw [same]
      exact type
    · rw [ref, if_neg same] at gone
      exact inv.dead g gone
  · intro g new
    simp only [setPc_pc, Function.update_self] at new
    rw [types, ref]
    rcases fresh g new with same | old
    · rw [same, if_pos rfl]
      exact ⟨rfl,type⟩
    · have known := inv.fresh p g old
      have other : g ≠ f := by
        rintro rfl
        omega
      rw [if_neg other]
      exact known
  · simpa [State.ofile, State.filealloc] using ok
  · simpa [State.ofile, State.filealloc] using restores
  · intro k w
    have same := ends_congr (s := s) (t := (s.filealloc f).setPc p pc) (fun g k w => by
      by_cases same : g = f
      · simp [State.filealloc, same, endOf]
      · simp [State.filealloc, same]) (fun q => by
      by_cases own : q = p
      · simp [own, pends]
      · simp [own, State.filealloc]) k w
    rw [same]
    rfl
  · exact inv.pages.freed
  · exact inv.pages.unborn

/-- What the ends of a pipe gain and lose when one file and one process change. -/
theorem ends_update {f : Fin NFILE} {x : File} {pc : Pc} (file : t.file = Function.update s.file f x)
    (pcs : t.pc = Function.update s.pc p pc) (k : Nat) (w : Bool) :
    ends t k w + ((if endOf (s.file f) k w then 1 else 0) + if pending (s.pc p) = some (k, w) then 1 else 0) =
    ends s k w + ((if endOf x k w then 1 else 0) + if pending pc = some (k, w) then 1 else 0) := by
  have files := Counting.card_filter_change Finset.univ (fun g => endOf (s.file g) k w) (fun g => endOf (t.file g) k w)
    (Finset.mem_univ f) (fun g _ away => by rw [file, Function.update_of_ne away])
  have procs := Counting.card_filter_change Finset.univ (fun q => pending (s.pc q) = some (k, w))
    (fun q => pending (t.pc q) = some (k, w)) (Finset.mem_univ p)
    (fun q _ away => by rw [pcs, Function.update_of_ne away])
  rw [file, Function.update_self] at files
  rw [pcs, Function.update_self] at procs
  simp only [ends, file, pcs] at files procs ⊢
  omega

/-- The state after a process changed one file and went on. -/
structure Rewrites (s t : State) (p : Fin NPROC) (f : Fin NFILE) (x : File) (pc : Pc) : Prop where
  file : t.file = Function.update s.file f x
  pipe : t.pipe = s.pipe
  npipes : t.npipes = s.npipes
  proc : t.proc = s.proc
  pcs : t.pc = Function.update s.pc p pc
  saved : t.saved = s.saved
  result : ∀ q, q ≠ p → t.result q = s.result q

theorem Rewrites.local (inv : FileInv s) (live : (s.proc p).life = .live) {f : Fin NFILE} {x : File} {pc : Pc}
    (rewrites : Rewrites s t p f x pc) (solo : forkTarget pc = none) (touch : share s p f ≠ 0)
    (counts : ∀ g, (if g = f then x.ref else s.ref g) + share s p g =
      s.ref g + (held (s.ofile p) (hidden pc) g + credit g pc))
    (dead : x.ref = 0 → x.type = .none) (fresh : ∀ g, ¬ Fresh g pc) (ok : PcOk (s.ofile p) pc)
    (restores : Restores (s.saved p) (s.ofile p) (t.result p) pc)
    (ends : ∀ k w, (if endOf x k w then 1 else 0) + (if pending pc = some (k, w) then 1 else 0) =
      (if endOf (s.file f) k w then 1 else 0) + if pending (s.pc p) = some (k, w) then 1 else 0) : Local s t p := by
  obtain ⟨file,pipe,npipes,proc,pcs,saved,result⟩ := rewrites
  have ref : ∀ g, t.ref g = if g = f then x.ref else s.ref g := by
    intro g
    rw [State.ref, file]
    by_cases same : g = f
    · simp [same]
    · simp [same, State.ref]
  have table : t.ofile p = s.ofile p := by rw [State.ofile, proc, State.ofile]
  have place : t.pc p = pc := by rw [pcs, Function.update_self]
  have opens : ∀ k w, isOpen t k w = isOpen s k w := fun k w => by rw [isOpen, pipe, isOpen]
  refine ⟨fun q away => by rw [pcs, Function.update_of_ne away], fun q _ => by rw [proc],
    fun q away => ⟨by rw [saved], result q away⟩, by rw [proc], live, by rw [place]; exact solo,
    fun g none used => ?_, fun g => ?_, fun g gone => ?_, fun g new => absurd (place ▸ new) (fresh g),
    by rw [place, table]; exact ok, by rw [place, table, saved]; exact restores, fun k w => ?_, ?_, ?_⟩
  · have other : g ≠ f := fun same => touch (same ▸ none)
    rw [file, Function.update_of_ne other]
  · have sharing : share t p g = held (s.ofile p) (hidden pc) g + credit g pc := by rw [share, table, place]
    rw [ref, sharing]
    exact counts g
  · rw [ref] at gone
    rw [file]
    by_cases same : g = f
    · rw [if_pos same] at gone
      rw [same, Function.update_self]
      exact dead gone
    · rw [if_neg same] at gone
      rw [Function.update_of_ne same]
      exact inv.dead g gone
  · have move := ends_update file pcs k w
    have balance := ends k w
    rw [opens]
    omega
  · intro k low
    rw [opens, opens, pipe]
    exact inv.pages.freed k (npipes ▸ low)
  · intro k high
    rw [pipe]
    exact inv.pages.unborn k (npipes ▸ high)

/-- Where a process goes when its `fileclose` is done. -/
def afterPc : After → Pc
  | .ret _ => .user
  | .also f r => .fileclose f (.ret r)
  | .clear fd => .exitClear fd

theorem resume_rewrites (f : Fin NFILE) (x : File) (k : After) :
    Rewrites s ((s.setFile f x).resume p k) p f x (afterPc k) := by
  cases k with
  | ret r => exact ⟨rfl, rfl, rfl, rfl, rfl, rfl, fun q away => by simp [State.resume, away]⟩
  | also g r => exact ⟨rfl, rfl, rfl, rfl, rfl, rfl, fun _ _ => rfl⟩
  | clear fd => exact ⟨rfl, rfl, rfl, rfl, rfl, rfl, fun _ _ => rfl⟩

section After
variable {table saved : Table} {f : Fin NFILE} {k : After}

theorem share_after_fileclose (ok : PcOk table (.fileclose f k)) (g : Fin NFILE) :
    held table (hidden (.fileclose f k)) g + credit g (.fileclose f k) =
      held table (hidden (afterPc k)) g + credit g (afterPc k) + one f g := by
  cases k with
  | ret r =>
    simp only [hidden, credit, afterPc, creditAfter]
    omega
  | also h r =>
    simp only [hidden, credit, afterPc, creditAfter]
    omega
  | clear fd =>
    have drop := held_hide ok.1 g
    simp only [hidden, credit, afterPc, one]
    omega

theorem share_after_pipeclose (x : Nat) (w : Bool) (k : After) (g : Fin NFILE) :
    held table (hidden (.pipeclose x w k)) g + credit g (.pipeclose x w k) =
      held table (hidden (afterPc k)) g + credit g (afterPc k) := by
  cases k <;> simp [hidden, credit, afterPc, creditAfter]

theorem ok_after_fileclose (ok : PcOk table (.fileclose f k)) : PcOk table (afterPc k) := by
  cases k with
  | ret r => trivial
  | also h r => trivial
  | clear fd => exact ok.2

theorem ok_pipeclose (ok : PcOk table (.fileclose f k)) (x : Nat) (w : Bool) : PcOk table (.pipeclose x w k) := by
  cases k with
  | ret r => trivial
  | also h r => trivial
  | clear fd => exact ok.2

theorem ok_after_pipeclose {x : Nat} {w : Bool} (ok : PcOk table (.pipeclose x w k)) : PcOk table (afterPc k) := by
  cases k with
  | ret r => trivial
  | also h r => trivial
  | clear fd => exact ok

theorem afterPc_plain (k : After) : pending (afterPc k) = none ∧ forkTarget (afterPc k) = none ∧
    ∀ g, ¬ Fresh g (afterPc k) := by
  cases k <;> exact ⟨rfl, rfl, fun _ no => no⟩

theorem restores_after (u : State) (restores : failsAfter k → table = saved) :
    Restores saved table ((u.resume p k).result p) (afterPc k) := by
  cases k with
  | ret r =>
    intro failed
    simp only [State.resume, returns_result, Function.update_self, Option.some.injEq] at failed
    exact restores failed
  | also h r => exact fun failed => restores failed
  | clear fd => trivial

end After

theorem share_fileclose_pos {f : Fin NFILE} {k : After} (inv : FileInv s) (place : s.pc p = .fileclose f k) :
    share s p f ≠ 0 := by
  have ok := inv.ok p
  rw [place] at ok
  rw [share, place, share_after_fileclose ok f]
  simp [one]

theorem local_fileclose (inv : FileInv s) (live : (s.proc p).life = .live) {f : Fin NFILE} {k : After}
    (place : s.pc p = .fileclose f k) (run : s.fileclose p f k = some t) : Local s t p := by
  have ok := inv.ok p
  have restores := inv.restores p
  rw [place] at ok restores
  have touch := share_fileclose_pos inv place
  have bound := inv.counted.share_le p f
  have shares : ∀ g, share s p g =
      held (s.ofile p) (hidden (afterPc k)) g + credit g (afterPc k) + one f g := by
    intro g
    rw [share, place, share_after_fileclose ok g]
  obtain ⟨quiet,solo,old⟩ := afterPc_plain k
  unfold State.fileclose at run
  rw [if_neg (by omega)] at run
  split at run
  · -- other references remain
    rename_i more
    cases run
    refine (resume_rewrites f _ k).local inv live solo touch (fun g => ?_) (fun zero => ?_) old (ok_after_fileclose ok)
      (restores_after _ restores) (fun x w => ?_)
    · rw [shares g]
      by_cases same : g = f
      · subst same
        simp only [↓reduceIte, one]
        omega
      · simp only [same, ↓reduceIte, one, Ne.symm same]
        omega
    · dsimp only at zero
      omega
    · rw [quiet, place]
      rfl
  · -- the last reference
    rename_i last
    have counts : ∀ g, (if g = f then 0 else s.ref g) + share s p g =
        s.ref g + (held (s.ofile p) (hidden (afterPc k)) g + credit g (afterPc k)) := by
      intro g
      rw [shares g]
      by_cases same : g = f
      · subst same
        simp only [↓reduceIte, one]
        omega
      · simp only [same, ↓reduceIte, one, Ne.symm same]
        omega
    dsimp only at run
    split at run
    · rename_i type
      cases run
      have away : Rewrites s ((s.setFile f { s.file f with ref := 0, type := .none }).setPc p
          (.pipeclose (s.file f).pipe (s.file f).writable k)) p f { s.file f with ref := 0, type := .none }
          (.pipeclose (s.file f).pipe (s.file f).writable k) := ⟨rfl, rfl, rfl, rfl, rfl, rfl, fun _ _ => rfl⟩
      refine away.local inv live rfl touch (fun g => ?_) (fun _ => rfl) (fun _ no => no) (ok_pipeclose ok _ _) restores
        (fun x w => ?_)
      · rw [share_after_pipeclose]
        exact counts g
      · rw [place]
        simp only [endOf, pending, type, reduceCtorEq, false_and, ↓reduceIte, Nat.zero_add, Option.some.injEq,
          Prod.mk.injEq, true_and, Nat.add_zero]
    · rename_i type
      cases run
      refine (resume_rewrites f _ k).local inv live solo touch counts (fun _ => rfl) old (ok_after_fileclose ok)
        (restores_after _ restores) (fun x w => ?_)
      rw [quiet, place]
      simp [endOf, pending, type]

theorem returns_rewrites (f : Fin NFILE) (x : File) (r : Int) :
    Rewrites s ((s.setFile f x).returns p r) p f x .user :=
  ⟨rfl, rfl, rfl, rfl, rfl, rfl, fun q away => by simp [away]⟩

theorem local_openSet (inv : FileInv s) (live : (s.proc p).life = .live) {f : Fin NFILE} {fd : Fin NOFILE}
    {ip omode : Nat} (place : s.pc p = .openSet f fd ip omode) {x : File} (ref : x.ref = s.ref f)
    (type : x.type = .inode) : Local s ((s.setFile f x).returns p fd.val) p := by
  have fresh : Fresh f (s.pc p) := by rw [place]; rfl
  have touch := fresh_share (inv.ok p) fresh
  obtain ⟨one,bare⟩ := inv.fresh p f fresh
  refine (returns_rewrites f x fd.val).local inv live rfl (by omega) (fun g => ?_) (fun zero => ?_) (fun _ no => no)
    trivial (fun failed => ?_) (fun k w => ?_)
  · rw [share, place]
    by_cases same : g = f
    · rw [if_pos same, same, ref]
      rfl
    · rw [if_neg same]
      rfl
  · omega
  · simp only [returns_result, Function.update_self, Option.some.injEq] at failed
    omega
  · rw [place]
    simp [endOf, type, bare, pending]

theorem local_dupRef (inv : FileInv s) (live : (s.proc p).life = .live) {f : Fin NFILE} {fd : Fin NOFILE}
    (place : s.pc p = .dupRef f fd) :
    0 < s.ref f ∧ Local s ((s.setFile f { s.file f with ref := s.ref f + 1 }).returns p fd.val) p := by
  have ok := inv.ok p
  rw [place] at ok
  obtain ⟨here,e,away,other⟩ := ok
  have touch : 0 < share s p f := by
    have pos := held_pos (hidden (.dupRef f fd)) other (by simpa [hidden] using Ne.symm away)
    rw [share, place]
    omega
  have bound := inv.counted.share_le p f
  refine ⟨by omega, (returns_rewrites f _ fd.val).local inv live rfl (by omega) (fun g => ?_) (fun zero => ?_)
    (fun _ no => no) trivial (fun failed => ?_) (fun k w => ?_)⟩
  · have take := held_hide here g
    rw [share, place]
    simp only [hidden, credit]
    by_cases same : g = f
    · subst same
      simp only [↓reduceIte] at take ⊢
      omega
    · simp only [same, Ne.symm same, ↓reduceIte] at take ⊢
      omega
  · dsimp only at zero
    omega
  · simp only [returns_result, Function.update_self, Option.some.injEq] at failed
    omega
  · rw [place]
    rfl

def endOpen (x : Pipe) (w : Bool) : Bool := if w then x.writeopen else x.readopen

theorem close_open (x : Pipe) (w v : Bool) : endOpen (x.close w) v = if v = w then false else endOpen x v := by
  cases w <;> cases v <;> simp only [Pipe.close, endOpen] <;> simp <;> split <;> rfl

/-- Closing an end that is open frees the page when the other end is closed already. -/
theorem close_freed (x : Pipe) (w : Bool) : (x.close w).freed = if endOpen x (!w) = false then x.freed + 1 else x.freed := by
  cases w <;> simp only [Pipe.close, endOpen] <;> simp <;> split <;> rfl

theorem pipeclose_open (s : State) (x : Nat) (w : Bool) (k : Nat) (v : Bool) :
    isOpen (s.pipeclose x w) k v = if k = x ∧ v = w then false else isOpen s k v := by
  change endOpen (Function.update s.pipe x ((s.pipe x).close w) k) v = _
  by_cases same : k = x
  · subst same
    rw [Function.update_self, close_open]
    simp only [true_and]
    rfl
  · rw [Function.update_of_ne same, if_neg fun both => same both.1]
    rfl

theorem pipeclose_pages (inv : FileInv s) {x : Nat} {w : Bool} (here : isOpen s x w = true) :
    PagesOk (s.pipeclose x w) := by
  have young : x < s.npipes := by
    by_contra old
    have gone := inv.pages.unborn x (by omega)
    rw [isOpen, gone] at here
    cases w <;> simp at here
  constructor
  · intro k low
    have before := inv.pages.freed k low
    by_cases same : k = x
    · subst same
      have unfreed : (s.pipe k).freed = 0 := by
        rw [before, if_neg]
        rintro ⟨r,v⟩
        cases w <;> simp_all
      change (Function.update s.pipe k ((s.pipe k).close w) k).freed = _
      rw [Function.update_self, close_freed, unfreed, pipeclose_open, pipeclose_open]
      cases w <;> simp [isOpen, endOpen]
    · have kept : ∀ v, isOpen (s.pipeclose x w) k v = isOpen s k v := fun v => by
        rw [pipeclose_open, if_neg fun both => same both.1]
      rw [kept, kept, ← before]
      simp [State.pipeclose, same]
  · intro k high
    have other : k ≠ x := by
      rintro rfl
      exact absurd young (Nat.not_lt.mpr high)
    simp [State.pipeclose, other, inv.pages.unborn k high]

theorem resume_quiet (u : State) (k : After) : (u.resume p k).file = u.file ∧ (u.resume p k).pipe = u.pipe ∧
    (u.resume p k).npipes = u.npipes ∧ (u.resume p k).proc = u.proc ∧ (u.resume p k).saved = u.saved ∧
    (u.resume p k).pc = Function.update u.pc p (afterPc k) ∧ ∀ q, q ≠ p → (u.resume p k).result q = u.result q := by
  cases k with
  | ret r => exact ⟨rfl, rfl, rfl, rfl, rfl, rfl, fun q away => by simp [State.resume, away]⟩
  | also g r => exact ⟨rfl, rfl, rfl, rfl, rfl, rfl, fun _ _ => rfl⟩
  | clear fd => exact ⟨rfl, rfl, rfl, rfl, rfl, rfl, fun _ _ => rfl⟩

theorem pending_open (inv : FileInv s) {x : Nat} {w : Bool} (pends : pending (s.pc p) = some (x, w)) :
    isOpen s x w = true := by
  have some : 0 < ends s x w := by
    have one : 0 < (Finset.univ.filter fun q => pending (s.pc q) = some (x, w)).card :=
      Finset.card_pos.mpr ⟨p, by simp [pends]⟩
    rw [ends]
    omega
  rw [inv.ends] at some
  cases here : isOpen s x w
  · rw [here] at some
    simp at some
  · rfl

theorem local_pipeclose (inv : FileInv s) (live : (s.proc p).life = .live) {x : Nat} {w : Bool} {k : After}
    (place : s.pc p = .pipeclose x w k) : Local s ((s.pipeclose x w).resume p k) p := by
  have ok := inv.ok p
  have restores := inv.restores p
  rw [place] at ok restores
  obtain ⟨quiet,solo,old⟩ := afterPc_plain k
  have here := pending_open inv (show pending (s.pc p) = some (x, w) by rw [place]; rfl)
  have result := restores_after (p := p) (s.pipeclose x w) restores
  obtain ⟨file,pipe,npipes,proc,saved,pcs,others⟩ := resume_quiet (p := p) (s.pipeclose x w) k
  generalize (s.pipeclose x w).resume p k = t at *
  have table : t.ofile p = s.ofile p := by
    rw [State.ofile, proc]
    rfl
  have at' : t.pc p = afterPc k := by rw [pcs, Function.update_self]
  have opens : ∀ y v, isOpen t y v = if y = x ∧ v = w then false else isOpen s y v := by
    intro y v
    rw [← pipeclose_open s x w y v, isOpen, pipe]
    rfl
  refine ⟨fun q away => by rw [pcs, Function.update_of_ne away]; rfl, fun q _ => by rw [proc]; rfl,
    fun q away => ⟨by rw [saved]; rfl, others q away⟩, by rw [proc]; rfl, live, by rw [at']; exact solo,
    fun g _ _ => by rw [file]; rfl, fun g => ?_, fun g gone => ?_, fun g new => absurd (at' ▸ new) (old g),
    by rw [at', table]; exact ok_after_pipeclose ok, ?_, fun y v => ?_, ?_⟩
  · rw [share, share, at', table, place, share_after_pipeclose, State.ref, file]
    rfl
  · rw [State.ref, file] at gone
    rw [file]
    exact inv.dead g gone
  · rw [at', table, saved]
    exact result
  · have move := ends_update (s := s) (t := t) (p := p) (f := ⟨0, by decide⟩) (x := s.file ⟨0, by decide⟩)
      (by rw [file, Function.update_eq_self]; rfl) pcs y v
    have closing : pending (s.pc p) = some (y, v) ↔ y = x ∧ v = w := by
      rw [place]
      simp [pending, eq_comm]
    rw [opens]
    simp only [quiet, closing, reduceCtorEq, ↓reduceIte] at move
    by_cases same : y = x ∧ v = w
    · rw [if_pos same] at move
      rw [if_pos same, same.1, same.2, here]
      rw [same.1, same.2] at move
      simp only [Bool.toNat_false, Bool.toNat_true]
      omega
    · rw [if_neg same] at move
      rw [if_neg same]
      omega
  · have pages := pipeclose_pages inv here
    constructor
    · intro y low
      rw [opens, opens, ← pipeclose_open, ← pipeclose_open, pipe]
      exact pages.freed y (npipes ▸ low)
    · intro y high
      rw [pipe]
      exact pages.unborn y (npipes ▸ high)

theorem makePipe_ends (f0 f1 : Fin NFILE) (pc : Pc) (differ : f0 ≠ f1) (bare0 : (s.file f0).type = .none)
    (bare1 : (s.file f1).type = .none) (before : pending (s.pc p) = none) (after : pending pc = none) (k : Nat)
    (w : Bool) : ends ((s.makePipe f0 f1).setPc p pc) k w = ends s k w + if k = s.npipes then 1 else 0 := by
  let x0 : File := { s.file f0 with type := .pipe, readable := true, writable := false, pipe := s.npipes }
  let x1 : File := { s.file f1 with type := .pipe, readable := false, writable := true, pipe := s.npipes }
  let u : State := { s with file := Function.update s.file f0 x0 }
  have first := ends_update (s := s) (t := u) (p := p) (f := f0) (x := x0) rfl
    (Function.update_eq_self p s.pc).symm k w
  have second := ends_update (s := u) (t := (s.makePipe f0 f1).setPc p pc) (p := p) (f := f1) (x := x1)
    (by
      have other : u.file f1 = s.file f1 := Function.update_of_ne (Ne.symm differ) _ _
      simp only [State.makePipe, setPc_file, setFile_file, setPipe_file]
      rw [Function.update_of_ne (Ne.symm differ)]) rfl k w
  have none0 : ¬ endOf (s.file f0) k w := fun is => by simp [endOf, bare0] at is
  have none1 : ¬ endOf (u.file f1) k w := by
    change ¬ endOf (Function.update s.file f0 x0 f1) k w
    rw [Function.update_of_ne (Ne.symm differ)]
    exact fun is => by simp [endOf, bare1] at is
  have some0 : endOf x0 k w ↔ k = s.npipes ∧ w = false := by simp [endOf, x0, eq_comm]
  have some1 : endOf x1 k w ↔ k = s.npipes ∧ w = true := by simp [endOf, x1, eq_comm]
  have idle : pending (u.pc p) = none := before
  simp only [none0, none1, some0, some1, before, after, idle, reduceCtorEq, ↓reduceIte] at first second
  cases w <;> by_cases same : k = s.npipes <;> simp [same] at first second ⊢ <;> omega

theorem local_makePipe (inv : FileInv s) (live : (s.proc p).life = .live) {f0 f1 : Fin NFILE}
    (place : s.pc p = .pipeKalloc f0 f1) : Local s ((s.makePipe f0 f1).setPc p (.pipeFd0 f0 f1)) p := by
  have ok := inv.ok p
  have restores := inv.restores p
  have fresh := inv.fresh p
  rw [place] at ok restores fresh
  obtain ⟨one0,bare0⟩ := fresh f0 (Or.inl rfl)
  obtain ⟨one1,bare1⟩ := fresh f1 (Or.inr rfl)
  have differ : f0 ≠ f1 := ok
  have ref : ∀ g, ((s.makePipe f0 f1).setPc p (.pipeFd0 f0 f1)).ref g = s.ref g := by
    intro g
    by_cases second : g = f1
    · subst second
      simp [State.ref, State.makePipe, Ne.symm differ]
    · by_cases first : g = f0
      · subst first
        simp [State.ref, State.makePipe, second]
      · simp [State.ref, State.makePipe, first, second]
  have opens : ∀ k w, isOpen ((s.makePipe f0 f1).setPc p (.pipeFd0 f0 f1)) k w =
      if k = s.npipes then true else isOpen s k w := by
    intro k w
    by_cases same : k = s.npipes
    · cases w <;> simp [isOpen, State.makePipe, same]
    · cases w <;> simp [isOpen, State.makePipe, same]
  have closed : ∀ w, isOpen s s.npipes w = false := by
    intro w
    rw [isOpen, inv.pages.unborn _ (Nat.le_refl _)]
    cases w <;> rfl
  refine ⟨fun q away => by simp [State.makePipe, away], fun _ _ => rfl, fun _ _ => ⟨rfl,rfl⟩, rfl, live, by
    simp [forkTarget], fun g none used => ?_, fun g => ?_, fun g gone => ?_, fun g new => ?_, ?_, ?_,
    fun k w => ?_, ?_, ?_⟩
  · have away : g ≠ f0 ∧ g ≠ f1 := by
      constructor <;> rintro rfl <;> simp [share, place, credit, one] at none
    simp [State.makePipe, away.1, away.2]
  · rw [ref]
    simp [share, place, State.ofile, State.makePipe, hidden, credit]
  · rw [ref] at gone
    have away : g ≠ f0 ∧ g ≠ f1 := by
      constructor <;> rintro rfl <;> omega
    simp only [State.makePipe, setPc_file, setFile_file, setPipe_file, Function.update_of_ne away.1,
      Function.update_of_ne away.2]
    exact inv.dead g gone
  · simp [Fresh] at new
  · simp [PcOk]
  · simpa [State.ofile, State.makePipe, Restores] using restores
  · rw [makePipe_ends f0 f1 _ differ bare0 bare1 (by rw [place]; rfl) rfl, opens]
    by_cases same : k = s.npipes
    · rw [if_pos same, if_pos same, same, closed]
      simp only [Bool.toNat_true, Bool.toNat_false]
      omega
    · rw [if_neg same, if_neg same]
      rfl
  · intro k low
    rw [opens, opens]
    by_cases same : k = s.npipes
    · simp [State.makePipe, same]
    · rw [if_neg same, if_neg same]
      have older : k < s.npipes := by
        have : k < s.npipes + 1 := low
        omega
      have kept : ((s.makePipe f0 f1).setPc p (.pipeFd0 f0 f1)).pipe k = s.pipe k := by
        simp [State.makePipe, same]
      rw [kept]
      exact inv.pages.freed k older
  · intro k high
    have later : s.npipes + 1 ≤ k := high
    have other : k ≠ s.npipes := by omega
    have kept : ((s.makePipe f0 f1).setPc p (.pipeFd0 f0 f1)).pipe k = s.pipe k := by
      simp [State.makePipe, other]
    rw [kept]
    exact inv.pages.unborn k (by omega)

end Steps
end Xv6File
