import Mathlib.Data.Fintype.BigOperators
import KernelLabs.Xv6.FileRefs

/-!
Every step of every call keeps the accounting of open files, so it holds in all states of
all interleavings. Where no call is in progress the shares are the descriptors.
-/
namespace Xv6File
open Transition Shares

section Advance
variable {s t : State} {p : Fin NPROC}

theorem advance_local (inv : FileInv s) (live : (s.proc p).life = .live) {memory : Bool}
    (alone : forkTarget (s.pc p) = none) (open' : ∀ i, s.pc p = .exiting i → i < NOFILE)
    (run : advance s p memory = some t) : Local s t p := by
  have ok := inv.ok p
  have restores := inv.restores p
  unfold advance at run
  cases place : s.pc p with
  | user => simp [place] at run
  | openAlloc ip omode =>
    rw [place] at restores
    simp only [place] at run
    split at run
    · cases run
      exact (quiet_returns live (by rw [place]; rfl) (fun _ => by rw [place]; rfl) (by rw [place]; rfl)
        (fun _ => restores)).local inv
    · rename_i f found
      cases run
      refine local_filealloc inv live found rfl (by rw [place]; rfl) (fun g => ?_) (fun g new => Or.inl new.symm)
        (by rw [place]; rfl) trivial restores
      rw [place]
      simp [credit]
  | openFd f ip omode =>
    rw [place] at restores
    simp only [place] at run
    split at run
    · cases run
      exact (quiet_setPc (.fileclose f (.ret (-1))) live rfl (by rw [place]; rfl) (fun g => by rw [place]; rfl)
        (fun _ no => no.elim) (by rw [place]; rfl) trivial (fun _ => restores)).local inv
    · rename_i fd found
      cases run
      refine (quiet_setFd fd (some f) (.openSet f fd ip omode) live rfl (fun g => ?_)
        (fun g new => by rw [place]; exact new) (by rw [place]; rfl) (by simp [PcOk]) trivial).local inv
      rw [share, place]
      simp only [hidden, credit, one]
      rw [held_set (freeFd_none found)]
      rfl
  | openSet f fd ip omode =>
    simp only [place] at run
    cases run
    exact local_openSet inv live place rfl rfl
  | dupRef f fd =>
    simp only [place] at run
    obtain ⟨pos,done⟩ := local_dupRef inv live place
    simp only [State.filedup, if_neg (show ¬ s.ref f < 1 by omega), Option.map_some, Option.some.injEq] at run
    exact run ▸ done
  | fileclose f k =>
    simp only [place] at run
    exact local_fileclose inv live place run
  | pipeclose x w k =>
    simp only [place] at run
    cases run
    exact local_pipeclose inv live place
  | exitClear fd =>
    rw [place] at ok
    simp only [place] at run
    cases run
    refine (quiet_setFd fd none (.exiting (fd.val + 1)) live rfl (fun g => ?_) (fun _ no => no.elim)
      (by rw [place]; rfl) (fun e low => ?_) trivial).local inv
    · rw [share, place]
      simp only [hidden, credit]
      rw [held_clear]
    · by_cases same : e = fd
      · simp [same]
      · have before : e.val < fd.val := by
          have differ : e.val ≠ fd.val := fun eq => same (Fin.ext eq)
          omega
        simpa [same] using ok e before
  | pipeAlloc0 =>
    rw [place] at restores
    simp only [place] at run
    split at run
    · cases run
      exact (quiet_returns live (by rw [place]; rfl) (fun _ => by rw [place]; rfl) (by rw [place]; rfl)
        (fun _ => restores)).local inv
    · rename_i f found
      cases run
      refine local_filealloc inv live found rfl (by rw [place]; rfl) (fun g => ?_) (fun g new => Or.inl new.symm)
        (by rw [place]; rfl) trivial restores
      rw [place]
      simp [credit]
  | pipeAlloc1 f0 =>
    rw [place] at restores
    simp only [place] at run
    split at run
    · cases run
      exact (quiet_setPc (.fileclose f0 (.ret (-1))) live rfl (by rw [place]; rfl) (fun g => by rw [place]; rfl)
        (fun _ no => no.elim) (by rw [place]; rfl) trivial (fun _ => restores)).local inv
    · rename_i f1 found
      cases run
      have zero : s.ref f1 = 0 := by
        have hit := List.find?_some found
        simpa using hit
      have one := (inv.fresh p f0 (by rw [place]; rfl)).1
      refine local_filealloc inv live found rfl (by rw [place]; rfl) (fun g => ?_) (fun g new => ?_)
        (by rw [place]; rfl) (fun same => ?_) restores
      · rw [place]
        rfl
      · rcases new with first | second
        · exact Or.inr (by rw [place]; exact first)
        · exact Or.inl second.symm
      · rw [same] at one
        omega
  | pipeKalloc f0 f1 =>
    rw [place] at restores
    simp only [place] at run
    split at run
    · cases run
      exact local_makePipe inv live place
    · cases run
      exact (quiet_setPc (.fileclose f0 (.also f1 (-1))) live rfl (by rw [place]; rfl) (fun g => by rw [place]; rfl)
        (fun _ no => no.elim) (by rw [place]; rfl) trivial (fun _ => restores)).local inv
  | pipeFd0 f0 f1 =>
    rw [place] at restores
    simp only [place] at run
    split at run
    · cases run
      exact (quiet_setPc (.fileclose f0 (.also f1 (-1))) live rfl (by rw [place]; rfl) (fun g => by rw [place]; rfl)
        (fun _ no => no.elim) (by rw [place]; rfl) trivial (fun _ => restores)).local inv
    · rename_i fd0 found
      cases run
      refine (quiet_setFd fd0 (some f0) (.pipeFd1 f0 f1 fd0) live rfl (fun g => ?_) (fun _ no => no.elim)
        (by rw [place]; rfl) (by simp [PcOk]) ?_).local inv
      · rw [share, place]
        simp only [hidden, credit, one]
        rw [held_set (freeFd_none found)]
        omega
      · change Function.update (Function.update (s.ofile p) fd0 (some f0)) fd0 none = s.saved p
        rw [Function.update_idem, ← freeFd_none found, Function.update_eq_self]
        exact restores
  | pipeFd1 f0 f1 fd0 =>
    rw [place] at restores ok
    simp only [place] at run
    split at run
    · cases run
      refine (quiet_setFd fd0 none (.fileclose f0 (.also f1 (-1))) live rfl (fun g => ?_) (fun _ no => no.elim)
        (by rw [place]; rfl) trivial (fun _ => restores)).local inv
      have drop := held_hide ok g
      rw [share, place]
      simp only [hidden, credit, creditAfter, one]
      rw [held_clear]
      omega
    · rename_i fd1 found
      cases run
      refine (quiet_setFd_returns fd1 (some f1) 0 live (fun g => ?_) (by rw [place]; rfl) (by decide)).local inv
      rw [share, place]
      simp only [hidden, credit, one]
      rw [held_set (freeFd_none found)]
  | forkCopy np =>
    rw [place] at alone
    simp [forkTarget] at alone
  | forking np i =>
    rw [place] at alone
    simp [forkTarget] at alone
  | exiting i =>
    rw [place] at ok
    have inside := open' i place
    simp only [place, dif_pos inside] at run
    split at run
    · rename_i gone
      cases run
      refine (quiet_setPc (.exiting (i + 1)) live rfl (by rw [place]; rfl) (fun g => by rw [place]; rfl)
        (fun _ no => no.elim) (by rw [place]; rfl) (fun e low => ?_) trivial).local inv
      by_cases same : e.val = i
      · have eq : e = ⟨i,inside⟩ := Fin.ext same
        rw [eq]
        exact gone
      · exact ok e (by omega)
    · rename_i f here
      cases run
      exact (quiet_setPc (.fileclose f (.clear ⟨i,inside⟩)) live rfl (by rw [place]; rfl)
        (fun g => by rw [place]; rfl) (fun _ no => no.elim) (by rw [place]; rfl) ⟨here, fun e low => ok e low⟩
        (fun no => no.elim)).local inv

end Advance

section Forks
variable {s t : State} {p np : Fin NPROC}

theorem freeProc_unused (found : s.freeProc = some np) : (s.proc np).life = .unused := by
  have hit := List.find?_some found
  simpa using hit

/-- Steps of `fork`, `exit` and `wait` that change no file and no table. -/
structure Family (s t : State) : Prop where
  file : t.file = s.file
  pipe : t.pipe = s.pipe
  npipes : t.npipes = s.npipes
  tables : ∀ q, t.ofile q = s.ofile q
  saved : t.saved = s.saved
  hides : ∀ q, hidden (t.pc q) = hidden (s.pc q)
  credits : ∀ q f, credit f (t.pc q) = credit f (s.pc q)
  fresh : ∀ q f, Fresh f (t.pc q) → Fresh f (s.pc q)
  pends : ∀ q, pending (t.pc q) = pending (s.pc q)

/-- A place where a process has nothing in hand. -/
def PlainPc (pc : Pc) : Prop :=
  hidden pc = none ∧ (∀ f, credit f pc = 0) ∧ (∀ f, ¬ Fresh f pc) ∧ pending pc = none

theorem plain_user : PlainPc .user := ⟨rfl, fun _ => rfl, fun _ no => no, rfl⟩

theorem plain_forkCopy (np : Fin NPROC) : PlainPc (.forkCopy np) := ⟨rfl, fun _ => rfl, fun _ no => no, rfl⟩

theorem plain_forking (np : Fin NPROC) (i : Nat) : PlainPc (.forking np i) :=
  ⟨rfl, fun _ => rfl, fun _ no => no, rfl⟩

theorem plain_of_target {pc : Pc} (target : forkTarget pc = some np) : PlainPc pc := by
  cases pc with
  | forkCopy r => exact plain_forkCopy r
  | forking r i => exact plain_forking r i
  | _ => simp [forkTarget] at target

theorem Family.of_plain {pc : Pc} (file : t.file = s.file) (pipe : t.pipe = s.pipe) (npipes : t.npipes = s.npipes)
    (tables : ∀ q, t.ofile q = s.ofile q) (saved : t.saved = s.saved) (pcs : t.pc = Function.update s.pc p pc)
    (before : PlainPc (s.pc p)) (after : PlainPc pc) : Family s t := by
  obtain ⟨hide,credits,_,pends⟩ := before
  obtain ⟨hide',credits',fresh',pends'⟩ := after
  refine ⟨file, pipe, npipes, tables, saved, fun q => ?_, fun q f => ?_, fun q f => ?_, fun q => ?_⟩ <;> rw [pcs] <;>
    by_cases own : q = p
  · rw [own, Function.update_self, hide, hide']
  · rw [Function.update_of_ne own]
  · rw [own, Function.update_self, credits, credits']
  · rw [Function.update_of_ne own]
  · rw [own, Function.update_self]
    exact fun new => absurd new (fresh' f)
  · rw [Function.update_of_ne own]
    exact id
  · rw [own, Function.update_self, pends, pends']
  · rw [Function.update_of_ne own]

/-- What is left to show of such a step. -/
theorem Family.inv (inv : FileInv s) (family : Family s t) (ok : ∀ q, PcOk (s.ofile q) (t.pc q))
    (restores : ∀ q, Restores (s.saved q) (s.ofile q) (t.result q) (t.pc q))
    (idle : ∀ q, (t.proc q).life ≠ .live → t.pc q = .user ∧ t.result q = none)
    (empty : ∀ q, (t.proc q).life = .unused ∨ (t.proc q).life = .zombie → s.ofile q = fun _ => none)
    (child : ∀ q r, forkTarget (t.pc q) = some r →
      (t.proc r).life = .embryo ∧ ∀ fd : Fin NOFILE, uncopied (t.pc q) ≤ fd.val → s.ofile r fd = none)
    (parent : ∀ q r u, forkTarget (t.pc q) = some u → forkTarget (t.pc r) = some u → q = r) : FileInv t := by
  obtain ⟨file,pipe,npipes,tables,saved,hides,credits,fresh,pends⟩ := family
  have ref : ∀ f, t.ref f = s.ref f := fun f => by rw [State.ref, file, State.ref]
  have opens : ∀ k w, isOpen t k w = isOpen s k w := fun k w => by rw [isOpen, pipe, isOpen]
  constructor
  · intro f
    rw [ref, inv.counted f]
    refine Finset.sum_congr rfl fun q _ => ?_
    rw [share, share, tables, hides, credits]
  · intro f gone
    rw [ref] at gone
    rw [file]
    exact inv.dead f gone
  · intro q f new
    rw [ref, file]
    exact inv.fresh q f (fresh q f new)
  · intro q
    rw [tables]
    exact ok q
  · intro q
    rw [tables, saved]
    exact restores q
  · exact idle
  · intro q gone
    rw [tables]
    exact empty q gone
  · intro q r target
    rw [tables]
    exact child q r target
  · exact parent
  · intro k w
    rw [opens, ← inv.ends k w]
    exact ends_congr (fun f k w => by rw [file]) pends k w
  · refine ⟨fun k low => ?_, fun k high => ?_⟩
    · rw [opens, opens, pipe]
      exact inv.pages.freed k (npipes ▸ low)
    · rw [pipe]
      exact inv.pages.unborn k (npipes ▸ high)

theorem child_other (inv : FileInv s) (live : (s.proc p).life = .live) {q : Fin NPROC}
    (target : forkTarget (s.pc q) = some np) : np ≠ p := by
  rintro rfl
  have embryo := (inv.child q np target).1
  rw [live] at embryo
  simp at embryo

/-- `allocproc` in `fork`. -/
theorem fork_begin_inv (inv : FileInv s) (live : (s.proc p).life = .live) (place : s.pc p = .user)
    (found : s.freeProc = some np) (start : s.ofile p = s.saved p) (pid : Nat) :
    FileInv ({ s.setProc np { s.proc np with life := .embryo, pid := pid } with nextpid := pid + 1 }.setPc p
      (.forkCopy np)) := by
  have unused := freeProc_unused found
  have differ : np ≠ p := by
    rintro rfl
    rw [live] at unused
    simp at unused
  have untouched : ∀ q r, forkTarget (s.pc q) = some r → r ≠ np := by
    rintro q r target rfl
    have embryo := (inv.child q r target).1
    rw [unused] at embryo
    simp at embryo
  have pcs : ∀ q, q ≠ p → ({ s.setProc np { s.proc np with life := .embryo, pid := pid } with
      nextpid := pid + 1 }.setPc p (.forkCopy np)).pc q = s.pc q := fun q away => by simp [away]
  have family : Family s ({ s.setProc np { s.proc np with life := .embryo, pid := pid } with
      nextpid := pid + 1 }.setPc p (.forkCopy np)) := by
    refine .of_plain rfl rfl rfl (fun q => ?_) rfl rfl (by rw [place]; exact plain_user)
      (plain_forkCopy np)
    by_cases same : q = np
    · simp [State.ofile, same]
    · simp [State.ofile, same]
  refine family.inv inv (fun q => ?_) (fun q => ?_) (fun q => ?_) (fun q => ?_) (fun q r => ?_) (fun q r u => ?_)
  · by_cases own : q = p
    · simp [own, PcOk]
    · rw [pcs q own]
      exact inv.ok q
  · by_cases own : q = p
    · subst own
      simpa [Restores] using start
    · rw [pcs q own]
      exact inv.restores q
  · by_cases own : q = p
    · intro gone
      simp [own, Ne.symm differ, live] at gone
    · rw [pcs q own]
      by_cases same : q = np
      · intro _
        rw [same]
        exact inv.idle np (by rw [unused]; simp)
      · intro gone
        refine inv.idle q ?_
        simpa [same] using gone
  · by_cases same : q = np
    · simp [same]
    · intro gone
      refine inv.empty q ?_
      simpa [same] using gone
  · by_cases own : q = p
    · subst own
      intro target
      have eq : r = np := by simpa [forkTarget, eq_comm] using target
      subst eq
      refine ⟨by simp, fun fd _ => ?_⟩
      rw [inv.empty r (Or.inl unused)]
    · rw [pcs q own]
      intro target
      have other := untouched q r target
      have before := inv.child q r target
      refine ⟨?_, before.2⟩
      simpa [other] using before.1
  · by_cases ownQ : q = p
    · by_cases ownR : r = p
      · intro _ _
        exact ownQ.trans ownR.symm
      · rw [pcs r ownR]
        subst ownQ
        intro first second
        have eq : u = np := by simpa [forkTarget, eq_comm] using first
        exact absurd eq (untouched r u second)
    · rw [pcs q ownQ]
      by_cases ownR : r = p
      · subst ownR
        intro first second
        have eq : u = np := by simpa [forkTarget, eq_comm] using second
        exact absurd eq (untouched q u first)
      · rw [pcs r ownR]
        exact inv.parent q r u

/-- `fork` goes on with the same child. -/
theorem fork_move_inv (inv : FileInv s) (live : (s.proc p).life = .live) (target : forkTarget (s.pc p) = some np)
    {i : Nat} (copied : ∀ fd : Fin NOFILE, i ≤ fd.val → s.ofile np fd = none) :
    FileInv (s.setPc p (.forking np i)) := by
  have pcs : ∀ q, q ≠ p → (s.setPc p (.forking np i)).pc q = s.pc q := fun q away => by simp [away]
  have targets : ∀ q, forkTarget ((s.setPc p (.forking np i)).pc q) = forkTarget (s.pc q) := by
    intro q
    by_cases own : q = p
    · rw [own, target]
      simp [forkTarget]
    · rw [pcs q own]
  have family : Family s (s.setPc p (.forking np i)) :=
    .of_plain rfl rfl rfl (fun _ => rfl) rfl rfl (plain_of_target target) (plain_forking np i)
  refine family.inv inv (fun q => ?_) (fun q => ?_) (fun q gone => ?_) inv.empty (fun q r new => ?_)
    (fun q r u first second => ?_)
  · by_cases own : q = p
    · simp [own, PcOk]
    · rw [pcs q own]
      exact inv.ok q
  · by_cases own : q = p
    · simp [own, Restores]
    · rw [pcs q own]
      exact inv.restores q
  · have away : q ≠ p := fun same => gone (same ▸ live)
    rw [pcs q away]
    exact inv.idle q gone
  · rw [targets] at new
    by_cases own : q = p
    · subst own
      have eq : np = r := by simpa [target] using new
      subst eq
      refine ⟨(inv.child q np target).1, fun fd high => copied fd ?_⟩
      simpa [uncopied] using high
    · rw [pcs q own]
      exact inv.child q r new
  · rw [targets] at first second
    exact inv.parent q r u first second

/-- `fork` ends: the slot is given back or the child is made runnable. -/
theorem fork_end_inv (inv : FileInv s) (live : (s.proc p).life = .live) (target : forkTarget (s.pc p) = some np)
    {x : Proc} (table : x.ofile = s.ofile np) (life : x.life = .live ∨ x.life = .unused ∧ s.ofile np = fun _ => none)
    {r : Int} (restores : r = -1 → s.ofile p = s.saved p) : FileInv ((s.setProc np x).returns p r) := by
  have differ := child_other inv live target
  have embryo := (inv.child p np target).1
  have pcs : ∀ q, q ≠ p → ((s.setProc np x).returns p r).pc q = s.pc q := fun q away => by simp [away]
  have targets : ∀ q u, forkTarget (((s.setProc np x).returns p r).pc q) = some u →
      q ≠ p ∧ forkTarget (s.pc q) = some u ∧ u ≠ np := by
    intro q u new
    have away : q ≠ p := by
      rintro rfl
      simp [forkTarget] at new
    rw [pcs q away] at new
    refine ⟨away, new, ?_⟩
    rintro rfl
    exact away (inv.parent q p u new target)
  have family : Family s ((s.setProc np x).returns p r) := by
    refine .of_plain rfl rfl rfl (fun q => ?_) rfl rfl (plain_of_target target) plain_user
    by_cases same : q = np
    · simp [State.ofile, same, table]
    · simp [State.ofile, same]
  refine family.inv inv (fun q => ?_) (fun q => ?_) (fun q gone => ?_) (fun q gone => ?_) (fun q u new => ?_)
    (fun q v u first second => inv.parent q v u (targets q u first).2.1 (targets v u second).2.1)
  · by_cases own : q = p
    · simp [own, PcOk]
    · rw [pcs q own]
      exact inv.ok q
  · by_cases own : q = p
    · subst own
      simpa [Restores] using restores
    · rw [pcs q own]
      simpa [own] using inv.restores q
  · have away : q ≠ p := by
      rintro rfl
      simp [Ne.symm differ, live] at gone
    by_cases same : q = np
    · subst same
      simpa [away] using inv.idle q (by rw [embryo]; simp)
    · have before : (s.proc q).life ≠ .live := by simpa [same] using gone
      simpa [away] using inv.idle q before
  · by_cases same : q = np
    · subst same
      rcases life with alive | ⟨_,bare⟩
      · simp [alive] at gone
      · exact bare
    · refine inv.empty q ?_
      simpa [same] using gone
  · obtain ⟨away,before,other⟩ := targets q u new
    rw [pcs q away]
    have kept := inv.child q u before
    refine ⟨?_, kept.2⟩
    simpa [other] using kept.1

/-- `fork` copies one descriptor. -/
theorem fork_copy_inv (inv : FileInv s) (live : (s.proc p).life = .live) {i : Nat} (inside : i < NOFILE)
    (place : s.pc p = .forking np i) {f : Fin NFILE} (here : s.ofile p ⟨i, inside⟩ = some f) :
    0 < s.ref f ∧ FileInv (((s.setFile f { s.file f with ref := s.ref f + 1 }).setFd np ⟨i, inside⟩ (some f)).setPc p
      (.forking np (i + 1))) := by
  have target : forkTarget (s.pc p) = some np := by rw [place]; rfl
  have differ := child_other inv live target
  obtain ⟨embryo,vacant⟩ := inv.child p np target
  rw [place] at vacant
  have free : s.ofile np ⟨i,inside⟩ = none := vacant _ (Nat.le_refl i)
  obtain ⟨atUser,silent⟩ := inv.idle np (by rw [embryo]; simp)
  have mine : 0 < share s p f := by
    have pos := held_pos (hidden (s.pc p)) here (by rw [place]; simp [hidden])
    rw [share]
    omega
  have bound := inv.counted.share_le p f
  refine ⟨by omega, ?_⟩
  let t : State := ((s.setFile f { s.file f with ref := s.ref f + 1 }).setFd np ⟨i, inside⟩ (some f)).setPc p
    (.forking np (i + 1))
  change FileInv t
  have pcs : ∀ q, q ≠ p → t.pc q = s.pc q := fun q away => by simp [t, State.setFd, away]
  have own : t.pc p = .forking np (i + 1) := by simp [t, State.setFd]
  have procs : ∀ q, q ≠ np → t.proc q = s.proc q := fun q away => by simp [t, State.setFd, away]
  have lives : ∀ q, (t.proc q).life = (s.proc q).life := by
    intro q
    by_cases same : q = np
    · subst same
      simp [t, State.setFd]
    · rw [procs q same]
  have table : t.ofile np = Function.update (s.ofile np) ⟨i,inside⟩ (some f) := by
    simp [t, State.ofile, State.setFd]
  have tables : ∀ q, q ≠ np → t.ofile q = s.ofile q := fun q away => by rw [State.ofile, procs q away, State.ofile]
  have files : ∀ g, t.file g = if g = f then { s.file f with ref := s.ref f + 1 } else s.file g := by
    intro g
    by_cases same : g = f
    · simp [t, State.setFd, same]
    · simp [t, State.setFd, same]
  have targets : ∀ q, forkTarget (t.pc q) = forkTarget (s.pc q) := by
    intro q
    by_cases same : q = p
    · rw [same, own, place]
      rfl
    · rw [pcs q same]
  have sharing : ∀ q, q ≠ np → share t q = share s q := by
    intro q away
    funext g
    rw [share, share, tables q away]
    by_cases same : q = p
    · rw [same, own, place]
      rfl
    · rw [pcs q same]
  constructor
  · refine inv.counted.local np sharing fun g => ?_
    rw [share, share, table, pcs np differ, atUser, State.ref, files]
    simp only [hidden_user, credit_user, Nat.add_zero]
    rw [held_set free]
    by_cases same : g = f
    · subst same
      simp only [↓reduceIte]
      omega
    · simp only [same, Ne.symm same, ↓reduceIte, State.ref]
      omega
  · intro g gone
    rw [State.ref, files] at gone
    rw [files]
    by_cases same : g = f
    · rw [if_pos same] at gone
      simp at gone
    · rw [if_neg same] at gone ⊢
      exact inv.dead g gone
  · intro q g new
    have away : q ≠ p := by
      rintro rfl
      rw [own] at new
      exact new
    rw [pcs q away] at new
    have known := inv.fresh q g new
    have other : g ≠ f := by
      rintro rfl
      have theirs := fresh_share (inv.ok q) new
      have none := inv.counted.sole (p := q) (f := g) (by omega) (Ne.symm away)
      omega
    rw [State.ref, files, if_neg other]
    exact known
  · intro q
    by_cases same : q = p
    · rw [same, own]
      trivial
    · rw [pcs q same]
      by_cases young : q = np
      · rw [young, atUser]
        trivial
      · rw [tables q young]
        exact inv.ok q
  · intro q
    by_cases same : q = p
    · rw [same, own]
      trivial
    · rw [pcs q same]
      by_cases young : q = np
      · rw [young, atUser]
        intro failed
        have quiet : t.result np = s.result np := rfl
        rw [quiet, silent] at failed
        simp at failed
      · rw [tables q young]
        exact inv.restores q
  · intro q gone
    rw [lives] at gone
    have away : q ≠ p := fun same => gone (same ▸ live)
    rw [pcs q away]
    exact inv.idle q gone
  · intro q gone
    rw [lives] at gone
    have young : q ≠ np := by
      rintro rfl
      rw [embryo] at gone
      simp at gone
    rw [tables q young]
    exact inv.empty q gone
  · intro q r new
    rw [targets] at new
    have before := inv.child q r new
    rw [lives]
    refine ⟨before.1, fun fd high => ?_⟩
    by_cases same : q = p
    · subst same
      have eq : np = r := by simpa [target] using new
      subst eq
      rw [own] at high
      have later : i + 1 ≤ fd.val := high
      have other : fd ≠ ⟨i,inside⟩ := by
        rintro rfl
        simp at later
      rw [table, Function.update_of_ne other]
      exact vacant fd (by simp only [uncopied]; omega)
    · have other : r ≠ np := by
        rintro rfl
        exact same (inv.parent q p r new target)
      rw [pcs q same] at high
      rw [tables r other]
      exact before.2 fd high
  · intro q r u first second
    rw [targets] at first second
    exact inv.parent q r u first second
  · intro k w
    have same : isOpen t k w = isOpen s k w := rfl
    rw [same, ← inv.ends k w]
    refine ends_congr (fun g k w => ?_) (fun q => ?_) k w
    · rw [files]
      split
      · rename_i eq
        rw [eq]
        rfl
      · rfl
    · by_cases mine : q = p
      · rw [mine, own, place]
        rfl
      · rw [pcs q mine]
  · exact ⟨inv.pages.freed, inv.pages.unborn⟩

theorem exit_end_inv (inv : FileInv s) {i : Nat} (done : ¬ i < NOFILE) (place : s.pc p = .exiting i) :
    FileInv ({ s.setProc p { s.proc p with life := .zombie } with
      result := Function.update s.result p none }.setPc p .user) := by
  have ok := inv.ok p
  rw [place] at ok
  have bare : s.ofile p = fun _ => none := funext fun e => ok e (by omega)
  let t : State := { s.setProc p { s.proc p with life := .zombie } with
    result := Function.update s.result p none }.setPc p .user
  change FileInv t
  have pcs : ∀ q, q ≠ p → t.pc q = s.pc q := fun q away => by simp [t, away]
  have own : t.pc p = .user := by simp [t]
  have procs : ∀ q, q ≠ p → t.proc q = s.proc q := fun q away => by simp [t, away]
  have results : ∀ q, q ≠ p → t.result q = s.result q := fun q away => by simp [t, away]
  have target : ∀ q u, forkTarget (t.pc q) = some u → q ≠ p ∧ forkTarget (s.pc q) = some u := by
    intro q u new
    have away : q ≠ p := by
      rintro rfl
      rw [own] at new
      simp [forkTarget] at new
    exact ⟨away, pcs q away ▸ new⟩
  have family : Family s t := by
    refine .of_plain rfl rfl rfl (fun q => ?_) rfl rfl (p := p) ?_ plain_user
    · by_cases same : q = p
      · simp [t, State.ofile, same]
      · simp [t, State.ofile, same]
    · rw [place]
      exact ⟨rfl, fun _ => rfl, fun _ no => no, rfl⟩
  refine family.inv inv (fun q => ?_) (fun q => ?_) (fun q gone => ?_) (fun q gone => ?_) (fun q u new => ?_)
    (fun q r u first second => inv.parent q r u (target q u first).2 (target r u second).2)
  · by_cases same : q = p
    · rw [same, own]
      trivial
    · rw [pcs q same]
      exact inv.ok q
  · by_cases same : q = p
    · rw [same, own]
      intro failed
      simp [t] at failed
    · rw [pcs q same, results q same]
      exact inv.restores q
  · by_cases same : q = p
    · rw [same]
      exact ⟨own, by simp [t]⟩
    · rw [procs q same] at gone
      rw [pcs q same, results q same]
      exact inv.idle q gone
  · by_cases same : q = p
    · rw [same]
      exact bare
    · rw [procs q same] at gone
      exact inv.empty q gone
  · obtain ⟨away,before⟩ := target q u new
    have kept := inv.child q u before
    have other : u ≠ p := by
      rintro rfl
      have idle := (inv.idle u (by rw [kept.1]; simp)).1
      rw [place] at idle
      simp at idle
    rw [procs u other, pcs q away]
    exact kept

theorem wait_inv (inv : FileInv s) (zombie : (s.proc p).life = .zombie) :
    FileInv (s.setProc p { s.proc p with life := .unused, pid := 0 }) := by
  let t : State := s.setProc p { s.proc p with life := .unused, pid := 0 }
  change FileInv t
  have procs : ∀ q, q ≠ p → t.proc q = s.proc q := fun q away => by simp [t, away]
  have family : Family s t := by
    refine ⟨rfl, rfl, rfl, fun q => ?_, rfl, fun _ => rfl, fun _ _ => rfl, fun _ _ => id, fun _ => rfl⟩
    by_cases same : q = p
    · simp [t, State.ofile, same]
    · simp [t, State.ofile, same]
  refine family.inv inv inv.ok inv.restores (fun q gone => ?_) (fun q gone => ?_) (fun q u target => ?_) inv.parent
  · by_cases same : q = p
    · rw [same]
      exact inv.idle p (by rw [zombie]; simp)
    · rw [procs q same] at gone
      exact inv.idle q gone
  · by_cases same : q = p
    · rw [same]
      exact inv.empty p (Or.inr zombie)
    · rw [procs q same] at gone
      exact inv.empty q gone
  · have kept := inv.child q u target
    have other : u ≠ p := by
      rintro rfl
      rw [zombie] at kept
      simp at kept
    rw [procs u other]
    exact kept

end Forks

section Runs
variable {s t : State} {p : Fin NPROC}

theorem begins_quiet (live : (s.proc p).life = .live) (place : s.pc p = .user) : Quiet s (s.begins p) p := by
  constructor <;> try rfl
  · exact fun _ _ => rfl
  · exact fun _ _ => rfl
  · intro q away
    simp [State.begins, away]
  · exact live
  · change forkTarget (s.pc p) = none
    rw [place]
    rfl
  · exact fun _ => rfl
  · exact fun _ => id
  · change PcOk (s.ofile p) (s.pc p)
    rw [place]
    trivial
  · change Restores _ _ _ (s.pc p)
    rw [place]
    simp [Restores, State.begins]

theorem argfd_some {table : Table} {fd : Int} {e : Fin NOFILE} {f : Fin NFILE} (found : argfd table fd = some (e, f)) :
    table e = some f := by
  unfold argfd at found
  split at found
  · simp only [Option.map_eq_some_iff, Prod.mk.injEq] at found
    obtain ⟨g,here,rfl,rfl⟩ := found
    exact here
  · simp at found

theorem enter_inv (inv : FileInv s) (live : (s.proc p).life = .live) (place : s.pc p = .user)
    (start : s.ofile p = s.saved p) (c : Call) : FileInv (enter s p c) := by
  have fails : Local s (s.returns p (-1)) p :=
    (quiet_returns live (by rw [place]; rfl) (fun _ => by rw [place]; rfl) (by rw [place]; rfl) (fun _ => start)).local inv
  have idle : ∀ f, share s p f = held (s.ofile p) none f := by
    intro f
    rw [share, place]
    rfl
  cases c with
  | sysOpen ip omode =>
    cases ip with
    | none => exact local_inv inv fails
    | some ip =>
      exact local_inv inv ((quiet_setPc (.openAlloc ip omode) live rfl (by rw [place]; rfl) (fun g => by rw [place]; rfl)
        (fun _ no => no.elim) (by rw [place]; rfl) trivial start).local inv)
  | sysDup fd =>
    simp only [enter]
    split
    · exact local_inv inv fails
    · rename_i e f found
      have here := argfd_some found
      split
      · exact local_inv inv fails
      · rename_i fd' free
        have vacant := freeFd_none free
        have differ : e ≠ fd' := by
          rintro rfl
          rw [here] at vacant
          simp at vacant
        refine local_inv inv ((quiet_setFd fd' (some f) (.dupRef f fd') live rfl (fun g => ?_) (fun _ no => no.elim)
          (by rw [place]; rfl) ⟨by simp, e, differ, by simpa [differ] using here⟩ trivial).local inv)
        rw [idle]
        simp only [hidden, credit, Nat.add_zero]
        rw [← held_clear, Function.update_idem, ← vacant, Function.update_eq_self]
  | sysClose fd =>
    simp only [enter]
    split
    · exact local_inv inv fails
    · rename_i e f found
      have here := argfd_some found
      refine local_inv inv ((quiet_setFd e none (.fileclose f (.ret 0)) live rfl (fun g => ?_) (fun _ no => no.elim)
        (by rw [place]; rfl) trivial (fun no => absurd no (by simp [failsAfter]))).local inv)
      have drop := held_hide here g
      rw [idle]
      simp only [hidden, credit, creditAfter, one]
      rw [held_clear]
      omega
  | sysPipe args =>
    simp only [enter]
    split
    · exact local_inv inv ((quiet_setPc .pipeAlloc0 live rfl (by rw [place]; rfl) (fun g => by rw [place]; rfl)
        (fun _ no => no.elim) (by rw [place]; rfl) trivial start).local inv)
    · exact local_inv inv fails
  | fork =>
    simp only [enter]
    split
    · exact local_inv inv fails
    · rename_i np found
      exact fork_begin_inv inv live place found start s.nextpid
  | exit =>
    exact local_inv inv ((quiet_setPc (.exiting 0) live rfl (by rw [place]; rfl) (fun g => by rw [place]; rfl)
      (fun _ no => no.elim) (by rw [place]; rfl) (fun e low => absurd low (Nat.not_lt_zero _)) trivial).local inv)

theorem advance_inv (inv : FileInv s) (live : (s.proc p).life = .live) {memory : Bool}
    (run : advance s p memory = some t) : FileInv t := by
  by_cases fork : forkTarget (s.pc p) = none
  · by_cases last : ∃ i, s.pc p = .exiting i ∧ ¬ i < NOFILE
    · obtain ⟨i,place,done⟩ := last
      simp only [advance, place, dif_neg done] at run
      cases run
      exact exit_end_inv inv done place
    · refine local_inv inv (advance_local inv live fork (fun i place => ?_) run)
      by_contra done
      exact last ⟨i,place,done⟩
  · cases place : s.pc p with
    | forkCopy np =>
      have target : forkTarget (s.pc p) = some np := by rw [place]; rfl
      have restores := inv.restores p
      have vacant := (inv.child p np target).2
      rw [place] at restores vacant
      have bare : s.ofile np = fun _ => none := funext fun fd => vacant fd (Nat.zero_le _)
      simp only [advance, place] at run
      split at run
      · cases run
        exact fork_move_inv inv live target fun fd _ => vacant fd (Nat.zero_le _)
      · cases run
        exact fork_end_inv (x := { s.proc np with life := .unused }) inv live target rfl (Or.inr ⟨rfl,bare⟩)
          fun _ => restores
    | forking np i =>
      have target : forkTarget (s.pc p) = some np := by rw [place]; rfl
      have vacant := (inv.child p np target).2
      rw [place] at vacant
      simp only [advance, place] at run
      split at run
      · rename_i inside
        split at run
        · cases run
          exact fork_move_inv inv live target fun fd high => vacant fd (by simp only [uncopied]; omega)
        · rename_i f here
          obtain ⟨pos,done⟩ := fork_copy_inv inv live inside place here
          simp only [State.filedup, if_neg (show ¬ s.ref f < 1 by omega), Option.map_some, Option.some.injEq] at run
          exact run ▸ done
      · cases run
        exact fork_end_inv (x := { s.proc np with life := .live }) (r := (s.proc np).pid) inv live target rfl (Or.inl rfl)
          fun failed => by omega
    | _ => simp [place, forkTarget] at fork

/-- No call panics: a process that is in a call can take its next step. -/
theorem advance_runs (inv : FileInv s) (live : (s.proc p).life = .live) (busy : s.pc p ≠ .user) (memory : Bool) :
    ∃ t, advance s p memory = some t := by
  unfold advance
  cases place : s.pc p <;> dsimp only
  case user => exact absurd place busy
  case dupRef f fd =>
    have pos := (local_dupRef inv live place).1
    exact ⟨_, by rw [State.filedup, if_neg (by omega)]; rfl⟩
  case fileclose f k =>
    have touch := share_fileclose_pos inv place
    have bound := inv.counted.share_le p f
    rw [State.fileclose, if_neg (by omega)]
    split
    · exact ⟨_,rfl⟩
    · dsimp only
      split <;> exact ⟨_,rfl⟩
  case forking np i =>
    split
    · rename_i inside
      split
      · exact ⟨_,rfl⟩
      · rename_i f here
        have pos := (fork_copy_inv inv live inside place here).1
        exact ⟨_, by rw [State.filedup, if_neg (by omega)]; rfl⟩
    · exact ⟨_,rfl⟩
  case exiting i =>
    split
    · split <;> exact ⟨_,rfl⟩
    · exact ⟨_,rfl⟩
  all_goals
    first
    | exact ⟨_,rfl⟩
    | (split <;> exact ⟨_,rfl⟩)

theorem next_inv (inv : FileInv s) {e : Event} (run : next s e = some t) : FileInv t := by
  cases e with
  | call p c =>
    simp only [next, Option.ite_none_right_eq_some, Option.some.injEq] at run
    obtain ⟨⟨live,place,_⟩,rfl⟩ := run
    have begun := local_inv inv ((begins_quiet live place).local inv)
    exact enter_inv begun live place (by simp [State.begins, State.ofile]) c
  | step p memory =>
    simp only [next, Option.ite_none_right_eq_some] at run
    exact advance_inv inv run.1 run.2
  | wait p =>
    simp only [next, Option.ite_none_right_eq_some, Option.some.injEq] at run
    obtain ⟨zombie,rfl⟩ := run
    exact wait_inv inv zombie

theorem start_inv (start : Start s) : FileInv s := by
  obtain ⟨files,npipes,pipes,tables,pcs,lives,results⟩ := start
  have table : ∀ p, s.ofile p = fun _ => none := tables
  constructor
  · intro f
    rw [State.ref, (files f).1]
    symm
    refine Finset.sum_eq_zero fun p _ => ?_
    rw [share, table, pcs, held_empty]
    rfl
  · exact fun f _ => (files f).2
  · intro p f new
    rw [pcs] at new
    exact new.elim
  · intro p
    rw [pcs]
    trivial
  · intro p
    rw [pcs]
    intro failed
    rw [results] at failed
    simp at failed
  · exact fun p _ => ⟨pcs p, results p⟩
  · exact fun p _ => table p
  · intro p np target
    rw [pcs] at target
    simp [forkTarget] at target
  · intro p q np target
    rw [pcs] at target
    simp [forkTarget] at target
  · intro k w
    have none : ends s k w = 0 := by
      simp [ends, endOf, pcs, pending, (files _).2]
    rw [none, isOpen, pipes]
    cases w <;> rfl
  · refine ⟨fun k low => ?_, fun k _ => pipes k⟩
    rw [npipes] at low
    omega

theorem reach_inv (reach : fileSystem.Reach System.Free s) : FileInv s :=
  System.reach_invariant fileSystem (fun _ => start_inv) (fun _ _ _ before _ step => next_inv before step) reach

end Runs

section Quiescent
variable {s t u : State} {p : Fin NPROC}

/-- The descriptors, of all processes, that refer to a file. -/
def slots (s : State) (f : Fin NFILE) : Finset (Fin NPROC × Fin NOFILE) :=
  Finset.univ.filter fun x => s.ofile x.1 x.2 = some f

theorem slots_card (s : State) (f : Fin NFILE) : (slots s f).card = ∑ p, held (s.ofile p) none f := by
  simp only [slots, held, Finset.card_filter, Fintype.sum_prod_type, ne_eq, reduceCtorEq, not_false_eq_true, and_true]

theorem quiet_count (inv : FileInv s) (quiet : ∀ p, s.pc p = .user) (f : Fin NFILE) : s.ref f = (slots s f).card := by
  rw [inv.counted f, slots_card]
  refine Finset.sum_congr rfl fun p _ => ?_
  rw [share, quiet p]
  rfl

/-- An end of a pipe that some file with references still is. -/
def EndUsed (s : State) (k : Nat) (w : Bool) : Prop := ∃ f, 0 < s.ref f ∧ endOf (s.file f) k w

theorem endUsed_iff (inv : FileInv s) (quiet : ∀ p, s.pc p = .user) (k : Nat) (w : Bool) :
    EndUsed s k w ↔ isOpen s k w = true := by
  have count := inv.ends k w
  have none : (Finset.univ.filter fun p => pending (s.pc p) = some (k, w)).card = 0 := by
    simp [quiet, pending]
  rw [ends, none, Nat.add_zero] at count
  constructor
  · rintro ⟨f,_,is⟩
    have pos : 0 < (Finset.univ.filter fun f => endOf (s.file f) k w).card := Finset.card_pos.mpr ⟨f, by simp [is]⟩
    cases here : isOpen s k w
    · rw [here, Bool.toNat_false] at count
      omega
    · rfl
  · intro here
    rw [here, Bool.toNat_true] at count
    obtain ⟨f,mem⟩ := Finset.card_pos.mp (by omega : 0 < (Finset.univ.filter fun f => endOf (s.file f) k w).card)
    have is : endOf (s.file f) k w := by simpa using mem
    refine ⟨f, Nat.pos_of_ne_zero fun zero => ?_, is⟩
    have bare := inv.dead f zero
    rw [is.1] at bare
    simp at bare

theorem quiet_freed (inv : FileInv s) (quiet : ∀ p, s.pc p = .user) {k : Nat} (low : k < s.npipes) :
    (s.pipe k).freed ≤ 1 ∧ ((s.pipe k).freed = 1 ↔ ¬ EndUsed s k false ∧ ¬ EndUsed s k true) := by
  rw [endUsed_iff inv quiet, endUsed_iff inv quiet, inv.pages.freed k low]
  split
  · rename_i closed
    simp [closed.1, closed.2]
  · rename_i someOpen
    simpa using someOpen

end Quiescent

section Failing
variable {s t u : State} {p : Fin NPROC}

/-- A call of one process with nothing of the others in between. -/
inductive Alone (p : Fin NPROC) (s : State) : State → Prop where
  | call {t : State} (c : Call) (run : next s (.call p c) = some t) : Alone p s t
  | step {t u : State} (memory : Bool) (before : Alone p s t) (run : next t (.step p memory) = some u) : Alone p s u

theorem alone_inv (inv : FileInv s) (run : Alone p s t) : FileInv t := by
  induction run with
  | call c run => exact next_inv inv run
  | step memory _ run ih => exact next_inv ih run

theorem alone_user (run : Alone p s t) : s.pc p = .user := by
  induction run with
  | call c run =>
    simp only [next, Option.ite_none_right_eq_some] at run
    exact run.1.2.1
  | step memory _ _ ih => exact ih

/-- What a call leaves of the others: their places, and their tables unless it is a `fork`
    that does not fail. -/
structure Aside (p : Fin NPROC) (s t : State) : Prop where
  pcs : ∀ q, q ≠ p → t.pc q = s.pc q
  saved : t.saved p = s.ofile p
  tables : (∃ np i, t.pc p = .forking np i) ∨ (t.pc p = .user ∧ t.result p ≠ some (-1)) ∨
    ∀ q, q ≠ p → t.ofile q = s.ofile q

theorem resume_saved (u : State) (k : After) : (u.resume p k).saved = u.saved := (resume_quiet u k).2.2.2.2.1

theorem filedup_saved {f : Fin NFILE} (run : s.filedup f = some t) : t.saved = s.saved := by
  simp only [State.filedup, Option.ite_none_left_eq_some, Option.some.injEq] at run
  rw [← run.2]
  rfl

theorem fileclose_saved {f : Fin NFILE} {k : After} (run : s.fileclose p f k = some t) : t.saved = s.saved := by
  simp only [State.fileclose, Option.ite_none_left_eq_some] at run
  obtain ⟨_,run⟩ := run
  split at run
  · cases run
    exact resume_saved _ k
  · split at run
    · cases run
      rfl
    · cases run
      exact resume_saved _ k

theorem advance_saved {memory : Bool} (run : advance s p memory = some t) : t.saved = s.saved := by
  unfold advance at run
  cases place : s.pc p <;> simp only [place] at run
  case user => simp at run
  case dupRef f fd =>
    obtain ⟨u,dup,rfl⟩ := Option.map_eq_some_iff.mp run
    exact (returns_saved u p _).trans (filedup_saved dup)
  case fileclose f k => exact fileclose_saved run
  case pipeclose x w k =>
    cases run
    exact resume_saved _ k
  case forking np i =>
    split at run
    · split at run
      · cases run
        rfl
      · obtain ⟨u,dup,rfl⟩ := Option.map_eq_some_iff.mp run
        exact (filedup_saved dup : u.saved = s.saved)
    · cases run
      rfl
  case exiting i =>
    split at run
    · split at run <;> cases run <;> rfl
    · cases run
      rfl
  case openSet f fd ip omode =>
    cases run
    rfl
  case exitClear fd =>
    cases run
    rfl
  all_goals split at run <;> cases run <;> rfl

/-- A step of a call that is not in its `fork` loop leaves the others alone. -/
theorem advance_others (inv : FileInv s) (live : (s.proc p).life = .live) {memory : Bool}
    (copied : ∀ np i, s.pc p ≠ .forking np i) (run : advance s p memory = some t) :
    (∀ q, q ≠ p → t.pc q = s.pc q) ∧ ∀ q, q ≠ p → t.ofile q = s.ofile q := by
  by_cases fork : forkTarget (s.pc p) = none
  · by_cases last : ∃ i, s.pc p = .exiting i ∧ ¬ i < NOFILE
    · obtain ⟨i,place,done⟩ := last
      simp only [advance, place, dif_neg done] at run
      cases run
      exact ⟨fun q away => by simp [away], fun q away => by simp [State.ofile, away]⟩
    · have step : Local s t p := by
        refine advance_local inv live fork (fun i place => ?_) run
        by_contra done
        exact last ⟨i,place,done⟩
      exact ⟨step.pcs, fun q away => by rw [State.ofile, step.procs q away]; rfl⟩
  · cases place : s.pc p with
    | forkCopy np =>
      simp only [advance, place] at run
      split at run
      · cases run
        exact ⟨fun q away => by simp [away], fun _ _ => rfl⟩
      · cases run
        refine ⟨fun q away => by simp [away], fun q away => ?_⟩
        by_cases same : q = np
        · simp [State.ofile, same]
        · simp [State.ofile, same]
    | forking np i => exact absurd place (copied np i)
    | _ => simp [place, forkTarget] at fork

theorem filedup_pc {f : Fin NFILE} (run : s.filedup f = some t) : t.pc = s.pc := by
  simp only [State.filedup, Option.ite_none_left_eq_some, Option.some.injEq] at run
  rw [← run.2]
  rfl

/-- From its loop `fork` can only go on or succeed. -/
theorem forking_others {memory : Bool} {np : Fin NPROC} {i : Nat} (place : s.pc p = .forking np i)
    (run : advance s p memory = some t) : (∀ q, q ≠ p → t.pc q = s.pc q) ∧
    (t.pc p = .forking np (i + 1) ∨ t.pc p = .user ∧ t.result p ≠ some (-1)) := by
  simp only [advance, place] at run
  split at run
  · split at run
    · cases run
      exact ⟨fun q away => by simp [away], by simp⟩
    · obtain ⟨u,dup,rfl⟩ := Option.map_eq_some_iff.mp run
      refine ⟨fun q away => ?_, by simp⟩
      simp [State.setFd, away, filedup_pc dup]
  · cases run
    refine ⟨fun q away => by simp [away], Or.inr ⟨by simp, ?_⟩⟩
    simp only [returns_result, Function.update_self, ne_eq, Option.some.injEq]
    omega

theorem enter_others (s : State) (p : Fin NPROC) (c : Call) : (∀ q, q ≠ p → (enter s p c).pc q = s.pc q) ∧
    (enter s p c).saved = s.saved ∧ ∀ q, q ≠ p → (enter s p c).ofile q = s.ofile q := by
  cases c with
  | sysOpen ip omode => cases ip <;> exact ⟨fun q away => by simp [enter, away], rfl, fun _ _ => rfl⟩
  | sysDup fd =>
    simp only [enter]
    split
    · exact ⟨fun q away => by simp [away], rfl, fun _ _ => rfl⟩
    · split
      · exact ⟨fun q away => by simp [away], rfl, fun _ _ => rfl⟩
      · exact ⟨fun q away => by simp [State.setFd, away], rfl, fun q away => by simp [State.ofile, State.setFd, away]⟩
  | sysClose fd =>
    simp only [enter]
    split
    · exact ⟨fun q away => by simp [away], rfl, fun _ _ => rfl⟩
    · exact ⟨fun q away => by simp [State.setFd, away], rfl, fun q away => by simp [State.ofile, State.setFd, away]⟩
  | sysPipe args => cases args <;> exact ⟨fun q away => by simp [enter, away], rfl, fun _ _ => rfl⟩
  | fork =>
    simp only [enter]
    split
    · exact ⟨fun q away => by simp [away], rfl, fun _ _ => rfl⟩
    · rename_i np _
      refine ⟨fun q away => by simp [away], rfl, fun q away => ?_⟩
      by_cases same : q = np
      · simp [State.ofile, same]
      · simp [State.ofile, same]
  | exit => exact ⟨fun q away => by simp [enter, away], rfl, fun _ _ => rfl⟩

theorem forking_aside (aside : Aside p s t) {memory : Bool} {np : Fin NPROC} {i : Nat} (place : t.pc p = .forking np i)
    (run : advance t p memory = some u) : Aside p s u := by
  obtain ⟨pcs,after⟩ := forking_others place run
  refine ⟨fun q away => (pcs q away).trans (aside.pcs q away), by rw [advance_saved run, aside.saved], ?_⟩
  rcases after with place | done
  · exact Or.inl ⟨np,i + 1,place⟩
  · exact Or.inr (Or.inl done)

theorem aside_step (inv : FileInv t) (live : (t.proc p).life = .live) (aside : Aside p s t) {memory : Bool}
    (run : advance t p memory = some u) : Aside p s u := by
  by_cases fork : ∃ np i, t.pc p = .forking np i
  · obtain ⟨np,i,place⟩ := fork
    exact forking_aside aside place run
  · obtain ⟨pcs,same⟩ := advance_others inv live (fun np i place => fork ⟨np,i,place⟩) run
    refine ⟨fun q away => (pcs q away).trans (aside.pcs q away), by rw [advance_saved run, aside.saved], ?_⟩
    rcases aside.tables with copying | ⟨place,_⟩ | tables
    · exact absurd copying fork
    · simp [advance, place] at run
    · exact Or.inr (Or.inr fun q away => (same q away).trans (tables q away))

theorem alone_aside (inv : FileInv s) (run : Alone p s t) : Aside p s t := by
  induction run with
  | call c run =>
    simp only [next, Option.ite_none_right_eq_some, Option.some.injEq] at run
    obtain ⟨_,rfl⟩ := run
    obtain ⟨pcs,saved,tables⟩ := enter_others (s.begins p) p c
    refine ⟨pcs, ?_, Or.inr (Or.inr tables)⟩
    rw [saved]
    simp [State.begins]
  | step memory before run ih =>
    simp only [next, Option.ite_none_right_eq_some] at run
    exact aside_step (alone_inv inv before) run.1 ih run.2

theorem failed_tables (inv : FileInv s) (run : Alone p s t) (done : t.pc p = .user) (failed : t.result p = some (-1)) :
    ∀ q, t.ofile q = s.ofile q := by
  have aside := alone_aside inv run
  intro q
  by_cases own : q = p
  · have restores := (alone_inv inv run).restores p
    rw [done] at restores
    rw [own, restores failed, aside.saved]
  · rcases aside.tables with ⟨np,i,place⟩ | ⟨_,fine⟩ | tables
    · rw [place] at done
      simp at done
    · exact absurd failed fine
    · exact tables q own

theorem failed_counts (inv : FileInv s) (run : Alone p s t) (done : t.pc p = .user) (failed : t.result p = some (-1))
    (f : Fin NFILE) : t.ref f = s.ref f := by
  have aside := alone_aside inv run
  rw [inv.counted f, (alone_inv inv run).counted f]
  refine Finset.sum_congr rfl fun q _ => ?_
  have place : t.pc q = s.pc q := by
    by_cases own : q = p
    · rw [own, done, alone_user run]
    · exact aside.pcs q own
  rw [share, share, place, failed_tables inv run done failed q]

end Failing

section Main
variable {s : State}

/-- With no call in progress the counts are the numbers of descriptors, and the page of a
    pipe is freed, once, when no file of either end has a reference. A call that fails leaves
    its own table as it found it, whatever runs beside it, and by itself changes no count and
    no table. -/
theorem files_counted (reach : fileSystem.Reach System.Free s) :
    ((∀ p, s.pc p = .user) → (∀ f, s.ref f = (slots s f).card) ∧ (∀ f, s.ref f = 0 → ∀ p fd, s.ofile p fd ≠ some f) ∧
      ∀ k, k < s.npipes → (s.pipe k).freed ≤ 1 ∧ ((s.pipe k).freed = 1 ↔ ¬ EndUsed s k false ∧ ¬ EndUsed s k true)) ∧
    (∀ p, s.pc p = .user → s.result p = some (-1) → s.ofile p = s.saved p) ∧
    ∀ p t, Alone p s t → t.pc p = .user → t.result p = some (-1) →
      (∀ f, t.ref f = s.ref f) ∧ ∀ q, t.ofile q = s.ofile q := by
  have inv := reach_inv reach
  refine ⟨fun quiet => ⟨quiet_count inv quiet, fun f zero p fd here => ?_, fun k low => quiet_freed inv quiet low⟩,
    fun p done failed => ?_, fun p t run done failed => ⟨failed_counts inv run done failed,
      failed_tables inv run done failed⟩⟩
  · have pos : 0 < (slots s f).card := Finset.card_pos.mpr ⟨(p, fd), by simpa [slots] using here⟩
    rw [← quiet_count inv quiet f] at pos
    omega
  · have restores := inv.restores p
    rw [done] at restores
    exact restores failed

def boot : State where
  file := fun _ => ⟨.none, 0, false, false, 0, 0, 0⟩
  pipe := fun _ => ⟨false, false, 0⟩
  npipes := 0
  proc := fun p => ⟨if p.val = 0 then .live else .unused, 1, fun _ => none⟩
  nextpid := 2
  pc := fun _ => .user
  saved := fun _ _ => none
  result := fun _ => none

theorem boot_start : Start boot :=
  ⟨fun _ => ⟨rfl,rfl⟩, rfl, fun _ => rfl, fun _ => rfl, fun _ => rfl, fun _ => rfl, fun _ => rfl⟩

theorem exec_alone {p : Fin NPROC} {s t u : State} (memory : List Bool) (before : Alone p s t)
    (run : System.exec next t (memory.map (.step p)) = some u) : Alone p s u := by
  induction memory generalizing t with
  | nil =>
    simp only [List.map_nil, System.exec, Option.some.injEq] at run
    exact run ▸ before
  | cons m rest ih =>
    simp only [List.map_cons, System.exec, Option.bind_eq_some_iff] at run
    obtain ⟨v,first,run⟩ := run
    exact ih (.step m before first) run

def initproc : Fin NPROC := ⟨0, by decide⟩
def firstChild : Fin NPROC := ⟨1, by decide⟩
def firstFile : Fin NFILE := ⟨0, by decide⟩

/-- `init` makes a pipe and duplicates its read end; `fork` is done, with a copy of the three
    descriptors, and the child closes one of them. -/
def pipedEvents : List Event :=
  .call initproc (.sysPipe true) :: List.replicate 5 (.step initproc true) ++
    .call initproc (.sysDup 0) :: .step initproc true ::
    .call initproc .fork :: List.replicate 18 (.step initproc true) ++
    [.call firstChild (.sysClose 2), .step firstChild true]

def piped : State := (System.exec next boot pipedEvents).get (by decide +kernel)

/-- Then `pipe` finds no memory. -/
def refusing : State := (next piped (.call initproc (.sysPipe true))).get (by decide +kernel)

def refused : State :=
  (System.exec next refusing ([true, true, false, true, true].map (.step initproc))).get (by decide +kernel)

theorem files_counted_piped : (piped.ref firstFile = 3 ∧ piped.ref firstFile = (slots piped firstFile).card) ∧
    ((piped.pipe 0).freed = 1 ↔ ¬ EndUsed piped 0 false ∧ ¬ EndUsed piped 0 true) ∧
    refused.result initproc = some (-1) ∧ (∀ f, refused.ref f = piped.ref f) ∧ ∀ q, refused.ofile q = piped.ofile q := by
  have reach : fileSystem.Reach System.Free piped :=
    System.exec_reach _ (fun _ _ _ => trivial) (.start boot_start) (Option.some_get _).symm
  have alone : Alone initproc piped refused := exec_alone _ (.call _ (Option.some_get _).symm) (Option.some_get _).symm
  obtain ⟨quiet,_,failing⟩ := files_counted reach
  obtain ⟨count,_,pages⟩ := quiet (by decide +kernel)
  have failed : refused.result initproc = some (-1) := by decide
  exact ⟨⟨by decide +kernel, count firstFile⟩, (pages 0 (by decide +kernel)).2, failed,
    failing initproc refused alone (by decide +kernel) failed⟩

end Main
end Xv6File
