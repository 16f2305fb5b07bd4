import KernelLabs.Xv6.ProcLife

/-!
What `wait` hands back and frees: pids are distinct until `nextpid` wraps, every stack
and address space has one owner, and the processes that have exited are those that
`wait` has reaped together with the zombies in the table.
-/
namespace Xv6ProcReap
open Xv6Proc Xv6ProcLife Transition Counting

/-- `kfree` and `freevm` touch the allocators only. -/
theorem kfree_rest (s : State) (page : Option Nat) :
    (kfree s page).proc = s.proc ∧ (kfree s page).pc = s.pc ∧
    (kfree s page).pgdirs = s.pgdirs ∧ (kfree s page).nextpid = s.nextpid ∧
    (kfree s page).made = s.made ∧ (kfree s page).exited = s.exited ∧
    (kfree s page).reaped = s.reaped := by
  cases page <;> exact ⟨rfl,rfl,rfl,rfl,rfl,rfl,rfl⟩

theorem freevm_rest (s : State) (space : Option Nat) :
    (freevm s space).proc = s.proc ∧ (freevm s space).pc = s.pc ∧
    (freevm s space).kstacks = s.kstacks ∧ (freevm s space).nextpid = s.nextpid ∧
    (freevm s space).made = s.made ∧ (freevm s space).exited = s.exited ∧
    (freevm s space).reaped = s.reaped := by
  cases space <;> exact ⟨rfl,rfl,rfl,rfl,rfl,rfl,rfl⟩

def reapedProc (p : Proc) : Proc :=
  { p with kstack := none, pid := 0, parent := none, killed := false, state := .unused }

theorem reap_rest (s : State) (z : Fin NPROC) :
    (reap s z).proc = Function.update s.proc z (reapedProc (s.proc z)) ∧ (reap s z).pc = s.pc ∧
    (reap s z).nextpid = s.nextpid ∧ (reap s z).made = s.made ∧ (reap s z).exited = s.exited ∧
    (reap s z).reaped = (s.proc z).remains :: s.reaped := by
  obtain ⟨proc,pc,_,nextpid,made,exited,reaped⟩ := kfree_rest s (s.proc z).kstack
  obtain ⟨proc',pc',_,nextpid',made',exited',reaped'⟩ :=
    freevm_rest (kfree s (s.proc z).kstack) (s.proc z).pgdir
  refine ⟨?_, pc'.trans pc, nextpid'.trans nextpid, made'.trans made, exited'.trans exited, ?_⟩
  · simp [reap, State.set, proc', proc, reapedProc]
  · simp [reap, State.set, reaped', reaped]

theorem copy_none_rest (s : State) (p np : Fin NPROC) :
    (copyParent s p np none).proc = Function.update s.proc np
      { s.proc np with pgdir := none, kstack := none, state := .unused } ∧
    (copyParent s p np none).pc = Function.update s.pc p .elsewhere ∧
    (copyParent s p np none).kstacks = (kfree s (s.proc np).kstack).kstacks ∧
    (copyParent s p np none).pgdirs = s.pgdirs ∧
    (copyParent s p np none).nextpid = s.nextpid ∧ (copyParent s p np none).made = s.made ∧
    (copyParent s p np none).exited = s.exited ∧ (copyParent s p np none).reaped = s.reaped := by
  obtain ⟨proc,pc,pgdirs,nextpid,made,exited,reaped⟩ := kfree_rest s (s.proc np).kstack
  refine ⟨?_, ?_, rfl, pgdirs, nextpid, made, exited, reaped⟩
  · simp [copyParent, State.setPc, State.set, proc]
  · simp [copyParent, State.setPc, State.set, pc]

section Pids

structure Pids (s : State) : Prop where
  next : s.nextpid = s.made + 1
  below : ∀ i, (s.proc i).state ≠ .unused → (s.proc i).pid ≤ s.made
  distinct : ∀ i j, (s.proc i).state ≠ .unused → (s.proc j).state ≠ .unused →
    (s.proc i).pid = (s.proc j).pid → i = j
  past : ∀ r ∈ s.exited, r.pid ≤ s.made
  apart : ∀ i, (s.proc i).state ≠ .unused → (s.proc i).state ≠ .zombie →
    ∀ r ∈ s.exited, r.pid ≠ (s.proc i).pid
  once : (s.exited.map Remains.pid).Nodup

/-- Steps that give no new pid and let nobody exit. -/
theorem pids_keep {s t : State} (pids : Pids s) (nextpid : t.nextpid = s.nextpid)
    (made : t.made = s.made) (exited : t.exited = s.exited)
    (used : ∀ i, (t.proc i).state ≠ .unused → (s.proc i).state ≠ .unused ∧
      (t.proc i).pid = (s.proc i).pid ∧
      ((t.proc i).state ≠ .zombie → (s.proc i).state ≠ .zombie)) : Pids t where
  next := by rw [nextpid, made]; exact pids.next
  below := by
    intro i here
    rw [(used i here).2.1, made]
    exact pids.below i (used i here).1
  distinct := by
    intro i j hereI hereJ same
    rw [(used i hereI).2.1, (used j hereJ).2.1] at same
    exact pids.distinct i j (used i hereI).1 (used j hereJ).1 same
  past := by rw [exited, made]; exact pids.past
  apart := by
    intro i here alive r member
    rw [exited] at member
    rw [(used i here).2.1]
    exact pids.apart i (used i here).1 ((used i here).2.2 alive) r member
  once := by rw [exited]; exact pids.once

theorem pids_slot {s t : State} (pids : Pids s) {np : Fin NPROC} {me : Proc}
    (nextpid : t.nextpid = s.nextpid) (made : t.made = s.made) (exited : t.exited = s.exited)
    (proc : t.proc = Function.update s.proc np me)
    (slot : me.state ≠ .unused → (s.proc np).state = .embryo ∧ me.pid = (s.proc np).pid) :
    Pids t := by
  apply pids_keep pids nextpid made exited
  intro i here
  by_cases same : i = np
  · subst same
    rw [proc, Function.update_self] at here ⊢
    obtain ⟨embryo,pid⟩ := slot here
    simp [embryo, pid]
  · rw [proc, Function.update_of_ne same] at here ⊢
    exact ⟨here,rfl,fun h => h⟩

theorem wrap_small {n : Nat} (small : n + 1 < 2 ^ 31) : wrap (n + 1 : Int) = n + 1 := by
  unfold wrap
  apply Int.bmod_eq_of_le <;> omega

theorem pids_found {s : State} (pids : Pids s) {p np : Fin NPROC} (small : s.made + 2 < 2 ^ 31)
    (unused : (s.proc np).state = .unused) : Pids (found s p np) := by
  have here : (found s p np).proc np = { s.proc np with state := .embryo, pid := s.nextpid } := by
    simp [found, State.set, State.setPc]
  have there : ∀ i, i ≠ np → (found s p np).proc i = s.proc i := by
    intro i other
    simp [found, State.set, State.setPc, other]
  have made : ((found s p np).made : Int) = s.made + 1 := by simp [found, State.set, State.setPc]
  have next := pids.next
  constructor
  · change wrap (s.nextpid + 1) = _
    rw [made, next]
    exact_mod_cast wrap_small (n := s.made + 1) (by omega)
  · intro i used
    rw [made]
    by_cases same : i = np
    · rw [same, here]
      exact le_of_eq next
    · rw [there i same] at used ⊢
      have := pids.below i used
      omega
  · intro i j usedI usedJ same
    by_cases hereI : i = np
    · by_cases hereJ : j = np
      · exact hereI.trans hereJ.symm
      · subst hereI
        rw [here, there j hereJ] at same
        rw [there j hereJ] at usedJ
        have := pids.below j usedJ
        simp only at same
        omega
    · by_cases hereJ : j = np
      · subst hereJ
        rw [here, there i hereI] at same
        rw [there i hereI] at usedI
        have := pids.below i usedI
        simp only at same
        omega
      · rw [there i hereI, there j hereJ] at same
        rw [there i hereI] at usedI
        rw [there j hereJ] at usedJ
        exact pids.distinct i j usedI usedJ same
  · intro r member
    rw [made]
    have := pids.past r member
    omega
  · intro i used alive r member
    by_cases same : i = np
    · rw [same, here]
      have := pids.past r member
      simp only
      omega
    · rw [there i same] at used alive ⊢
      exact pids.apart i used alive r member
  · exact pids.once

theorem handOver_remains (s : State) (p : Fin NPROC) : (handOver s p p).remains = (s.proc p).remains := by
  have whole := ((exit_exited s p).fields p).1
  simpa only [exit, Function.update_self, zombie_remains] using whole

theorem pids_exit {s : State} (pids : Pids s) {p : Fin NPROC}
    (running : (s.proc p).state = .running) : Pids (exit s p) := by
  have spec := exit_exited s p
  have pid : ∀ i, ((exit s p).proc i).pid = (s.proc i).pid :=
    fun i => congrArg Remains.pid (spec.fields i).1
  have used : ∀ i, ((exit s p).proc i).state ≠ .unused → (s.proc i).state ≠ .unused := by
    intro i here
    by_cases same : i = p
    · rw [same, running]
      simp
    · rcases spec.state i same with eq | ⟨asleep,_⟩
      · rwa [eq] at here
      · simp [asleep]
  have mine : (handOver s p p).remains.pid = (s.proc p).pid :=
    congrArg Remains.pid (handOver_remains s p)
  constructor
  · exact pids.next
  · intro i here
    rw [pid]
    exact pids.below i (used i here)
  · intro i j hereI hereJ same
    rw [pid, pid] at same
    exact pids.distinct i j (used i hereI) (used j hereJ) same
  · intro r member
    rcases List.mem_cons.mp member with now | before
    · rw [now, mine]
      exact pids.below p (by simp [running])
    · exact pids.past r before
  · intro i here alive r member
    have other : i ≠ p := by
      intro same
      rw [same] at alive
      exact alive spec.zombie
    rw [pid]
    rcases List.mem_cons.mp member with now | before
    · rw [now, mine]
      intro same
      exact other (pids.distinct i p (used i here) (by simp [running]) same.symm)
    · have aliveBefore : (s.proc i).state ≠ .zombie := by
        rcases spec.state i other with eq | ⟨asleep,_⟩
        · rwa [eq] at alive
        · simp [asleep]
      exact pids.apart i (used i here) aliveBefore r before
  · change ((handOver s p p).remains :: s.exited).map Remains.pid |>.Nodup
    rw [List.map_cons, List.nodup_cons]
    refine ⟨fun member => ?_, pids.once⟩
    obtain ⟨r,before,same⟩ := List.mem_map.mp member
    rw [mine] at same
    exact pids.apart p (by simp [running]) (by simp [running]) r before same

theorem change_pids {s t : State} (tree : Tree s) (pids : Pids s) (change : Change s t)
    (small : t.made + 1 < 2 ^ 31) : Pids t := by
  cases change with
  | sched sched =>
    apply pids_keep pids sched.nextpid sched.made sched.exited
    intro i here
    refine ⟨fun h => here ((sched.state_iff i (Or.inl rfl)).mpr h),
      congrArg Remains.pid (sched.fields i).2,
      fun alive h => alive ((sched.state_iff i (Or.inr (Or.inr rfl))).mpr h)⟩
  | found p np running here unused => exact pids_found pids small unused
  | stack p np page running here fresh =>
    have embryo := (tree.forked p .allocated np (by rw [here]; rfl)).1
    cases page with
    | none => exact pids_slot pids rfl rfl rfl rfl (fun wrong => by simp at wrong)
    | some k => exact pids_slot pids rfl rfl rfl rfl (fun _ => ⟨embryo,rfl⟩)
  | copy p np space running here fresh =>
    have embryo := (tree.forked p .stacked np (by rw [here]; rfl)).1
    cases space with
    | none =>
      obtain ⟨proc,_,_,_,nextpid,made,exited,_⟩ := copy_none_rest s p np
      exact pids_slot pids nextpid made exited proc (fun wrong => by simp at wrong)
    | some d => exact pids_slot pids rfl rfl rfl rfl (fun _ => ⟨embryo,rfl⟩)
  | publish p np running here =>
    have embryo := (tree.forked p .copied np (by rw [here]; rfl)).1
    exact pids_slot pids rfl rfl rfl rfl (fun _ => ⟨embryo,rfl⟩)
  | exit p running here other => exact pids_exit pids running
  | reap p z running here parent zombie =>
    obtain ⟨proc,_,nextpid,made,exited,_⟩ := reap_rest s z
    exact pids_slot pids nextpid made exited proc (fun wrong => by simp [reapedProc] at wrong)

theorem change_made {s t : State} (change : Change s t) : s.made ≤ t.made := by
  cases change with
  | sched sched => exact le_of_eq sched.made.symm
  | found p np running here unused => exact Nat.le_succ _
  | stack p np page running here fresh => cases page <;> exact le_refl _
  | copy p np space running here fresh =>
    cases space with
    | none =>
      obtain ⟨_,_,_,_,_,made,_⟩ := copy_none_rest s p np
      exact le_of_eq made.symm
    | some d => exact le_refl _
  | publish p np running here => exact le_refl _
  | exit p running here other => exact le_refl _
  | reap p z running here parent zombie =>
    obtain ⟨_,_,_,made,_⟩ := reap_rest s z
    exact le_of_eq made.symm

end Pids

section Owners

/-- Slots whose `pgdir` is an address space of their own. `wait` leaves the old value in
    an unused slot, so unused slots and embryos before the copy do not count. -/
def Mapped (s : State) (i : Fin NPROC) : Prop :=
  Born (s.proc i) ∨ ∃ p, forkOf (s.pc p) = some (.copied, i)

def Stacked (s : State) (i : Fin NPROC) : Prop :=
  Born (s.proc i) ∨ ∃ p stage, forkOf (s.pc p) = some (stage, i) ∧ stage ≠ .allocated

structure Owners (s : State) : Prop where
  stackKept : ∀ i k, (s.proc i).kstack = some k → k ∈ s.kstacks
  stackOwner : ∀ i j k, (s.proc i).kstack = some k → (s.proc j).kstack = some k → i = j
  stacked : ∀ i, Stacked s i → ∃ k, (s.proc i).kstack = some k
  spaceKept : ∀ i, Mapped s i → ∃ d ∈ s.pgdirs, (s.proc i).pgdir = some d
  spaceOwner : ∀ i j, Mapped s i → Mapped s j → (s.proc i).pgdir = (s.proc j).pgdir → i = j

theorem owners_same {s t : State} (owners : Owners s) (kstacks : t.kstacks = s.kstacks)
    (pgdirs : t.pgdirs = s.pgdirs) (remains : ∀ i, (t.proc i).remains = (s.proc i).remains)
    (born : ∀ i, Born (t.proc i) → Born (s.proc i))
    (forking : ∀ i, forkOf (t.pc i) = forkOf (s.pc i)) : Owners t := by
  have kstack : ∀ i, (t.proc i).kstack = (s.proc i).kstack :=
    fun i => congrArg Remains.kstack (remains i)
  have pgdir : ∀ i, (t.proc i).pgdir = (s.proc i).pgdir :=
    fun i => congrArg Remains.pgdir (remains i)
  have mapped : ∀ i, Mapped t i → Mapped s i := by
    intro i here
    rcases here with ready | ⟨p,there⟩
    · exact Or.inl (born i ready)
    · exact Or.inr ⟨p,(forking p).symm.trans there⟩
  constructor
  · intro i k here
    rw [kstack] at here
    rw [kstacks]
    exact owners.stackKept i k here
  · intro i j k hereI hereJ
    rw [kstack] at hereI hereJ
    exact owners.stackOwner i j k hereI hereJ
  · intro i here
    rw [kstack]
    rcases here with ready | ⟨p,stage,there,later⟩
    · exact owners.stacked i (Or.inl (born i ready))
    · exact owners.stacked i (Or.inr ⟨p,stage,(forking p).symm.trans there,later⟩)
  · intro i here
    rw [pgdir, pgdirs]
    exact owners.spaceKept i (mapped i here)
  · intro i j hereI hereJ same
    rw [pgdir, pgdir] at same
    exact owners.spaceOwner i j (mapped i hereI) (mapped j hereJ) same

/-- One slot changes hands; the running process `p` is the only one at work on it. -/
theorem owners_slot {s t : State} (owners : Owners s) (p np : Fin NPROC) (me : Proc) (pc : Pc)
    (proc : t.proc = Function.update s.proc np me) (pcs : t.pc = Function.update s.pc p pc)
    (mine : ∀ q stage, forkOf (s.pc q) = some (stage, np) → q = p)
    (now : ∀ stage k, forkOf pc = some (stage, k) → k = np)
    (stackKept : ∀ k, (me.kstack = some k ∨ ∃ j, j ≠ np ∧ (s.proc j).kstack = some k) →
      k ∈ t.kstacks)
    (stackOwner : ∀ k, me.kstack = some k → ∀ j, j ≠ np → (s.proc j).kstack ≠ some k)
    (stacked : Born me ∨ (∃ stage, forkOf pc = some (stage, np) ∧ stage ≠ .allocated) →
      ∃ k, me.kstack = some k)
    (spaceKept : ∀ j d, j ≠ np → Mapped s j → (s.proc j).pgdir = some d → d ∈ t.pgdirs)
    (space : Born me ∨ forkOf pc = some (.copied, np) → ∃ d ∈ t.pgdirs, me.pgdir = some d ∧
      ∀ j, j ≠ np → Mapped s j → (s.proc j).pgdir ≠ some d) : Owners t := by
  have here : t.proc np = me := by simp [proc]
  have there : ∀ i, i ≠ np → t.proc i = s.proc i := by
    intro i other
    simp [proc, other]
  -- a fork in progress on another slot was there before the step
  have before : ∀ q stage i, i ≠ np → forkOf (t.pc q) = some (stage, i) →
      forkOf (s.pc q) = some (stage, i) := by
    intro q stage i other forking
    rw [pcs] at forking
    by_cases same : q = p
    · subst same
      rw [Function.update_self] at forking
      exact absurd (now stage i forking) other
    · rwa [Function.update_of_ne same] at forking
  have onSlot : ∀ q stage, forkOf (t.pc q) = some (stage, np) → forkOf pc = some (stage, np) := by
    intro q stage forking
    rw [pcs] at forking
    by_cases same : q = p
    · subst same
      rwa [Function.update_self] at forking
    · rw [Function.update_of_ne same] at forking
      exact absurd (mine q stage forking) same
  have mapped : ∀ i, i ≠ np → Mapped t i → Mapped s i := by
    intro i other ready
    rcases ready with born | ⟨q,forking⟩
    · rw [there i other] at born
      exact Or.inl born
    · exact Or.inr ⟨q,before q _ i other forking⟩
  have mappedSlot : Mapped t np → Born me ∨ forkOf pc = some (.copied, np) := by
    intro ready
    rcases ready with born | ⟨q,forking⟩
    · rw [here] at born
      exact Or.inl born
    · exact Or.inr (onSlot q _ forking)
  constructor
  · intro i k stack
    by_cases same : i = np
    · rw [same, here] at stack
      exact stackKept k (Or.inl stack)
    · rw [there i same] at stack
      exact stackKept k (Or.inr ⟨i,same,stack⟩)
  · intro i j k stackI stackJ
    by_cases sameI : i = np
    · by_cases sameJ : j = np
      · exact sameI.trans sameJ.symm
      · rw [sameI, here] at stackI
        rw [there j sameJ] at stackJ
        exact absurd stackJ (stackOwner k stackI j sameJ)
    · by_cases sameJ : j = np
      · rw [sameJ, here] at stackJ
        rw [there i sameI] at stackI
        exact absurd stackI (stackOwner k stackJ i sameI)
      · rw [there i sameI] at stackI
        rw [there j sameJ] at stackJ
        exact owners.stackOwner i j k stackI stackJ
  · intro i ready
    by_cases same : i = np
    · subst same
      rw [here]
      rcases ready with born | ⟨q,stage,forking,later⟩
      · rw [here] at born
        exact stacked (Or.inl born)
      · exact stacked (Or.inr ⟨stage,onSlot q stage forking,later⟩)
    · rw [there i same]
      rcases ready with born | ⟨q,stage,forking,later⟩
      · rw [there i same] at born
        exact owners.stacked i (Or.inl born)
      · exact owners.stacked i (Or.inr ⟨q,stage,before q stage i same forking,later⟩)
  · intro i ready
    by_cases same : i = np
    · subst same
      rw [here]
      obtain ⟨d,member,mySpace,_⟩ := space (mappedSlot ready)
      exact ⟨d,member,mySpace⟩
    · rw [there i same]
      obtain ⟨d,_,itsSpace⟩ := owners.spaceKept i (mapped i same ready)
      exact ⟨d,spaceKept i d same (mapped i same ready) itsSpace,itsSpace⟩
  · intro i j readyI readyJ eq
    by_cases sameI : i = np
    · by_cases sameJ : j = np
      · exact sameI.trans sameJ.symm
      · subst sameI
        obtain ⟨d,_,mySpace,alone⟩ := space (mappedSlot readyI)
        rw [here, there j sameJ, mySpace] at eq
        exact absurd eq.symm (alone j sameJ (mapped j sameJ readyJ))
    · by_cases sameJ : j = np
      · subst sameJ
        obtain ⟨d,_,mySpace,alone⟩ := space (mappedSlot readyJ)
        rw [here, there i sameI, mySpace] at eq
        exact absurd eq (alone i sameI (mapped i sameI readyI))
      · rw [there i sameI, there j sameJ] at eq
        exact owners.spaceOwner i j (mapped i sameI readyI) (mapped j sameJ readyJ) eq

theorem space_kept {s : State} (owners : Owners s) {i : Fin NPROC} {d : Nat} (mapped : Mapped s i)
    (space : (s.proc i).pgdir = some d) : d ∈ s.pgdirs := by
  obtain ⟨d',member,same⟩ := owners.spaceKept i mapped
  rw [space, Option.some.injEq] at same
  exact same ▸ member

/-- Freeing the stack of one slot leaves the stacks of the others. -/
theorem kfree_keeps {s : State} (owners : Owners s) {np j : Fin NPROC} {k : Nat} (other : j ≠ np)
    (stack : (s.proc j).kstack = some k) : k ∈ (kfree s (s.proc np).kstack).kstacks := by
  have member := owners.stackKept j k stack
  cases freed : (s.proc np).kstack with
  | none => exact member
  | some f =>
    apply Finset.mem_erase.mpr
    refine ⟨fun same => ?_, member⟩
    exact other (owners.stackOwner j np k stack (same ▸ freed))

theorem freevm_keeps {s u : State} (owners : Owners s) {z j : Fin NPROC} {d : Nat} (other : j ≠ z)
    (mapped : Mapped s j) (mine : Mapped s z) (pgdirs : u.pgdirs = s.pgdirs)
    (space : (s.proc j).pgdir = some d) : d ∈ (freevm u (s.proc z).pgdir).pgdirs := by
  have member := space_kept owners mapped space
  cases freed : (s.proc z).pgdir with
  | none => exact pgdirs ▸ member
  | some f =>
    apply Finset.mem_erase.mpr
    refine ⟨fun same => ?_, pgdirs ▸ member⟩
    exact other (owners.spaceOwner j z mapped mine (by rw [space, freed, same]))

theorem owners_found {s : State} (tree : Tree s) (owners : Owners s) {p np : Fin NPROC}
    (unused : (s.proc np).state = .unused) : Owners (found s p np) := by
  refine owners_slot owners p np
    { s.proc np with state := .embryo, pid := s.nextpid } (.forking .allocated np)
    rfl rfl ?_ ?_ ?_ ?_ ?_ ?_ ?_
  · intro q stage forking
    have embryo := (tree.forked q stage np forking).1
    simp [unused] at embryo
  · intro stage k forking
    simp only [forkOf, Option.some.injEq, Prod.mk.injEq] at forking
    exact forking.2.symm
  · intro k stack
    rcases stack with mine | ⟨j,_,its⟩
    · exact owners.stackKept np k mine
    · exact owners.stackKept j k its
  · intro k mine j other its
    exact other (owners.stackOwner j np k its mine)
  · intro ready
    rcases ready with born | ⟨stage,forking,later⟩
    · simp [Xv6ProcLife.Born] at born
    · simp only [forkOf, Option.some.injEq, Prod.mk.injEq] at forking
      exact absurd forking.1.symm later
  · intro j d _ mapped space
    exact space_kept owners mapped space
  · intro ready
    rcases ready with born | forking
    · simp [Xv6ProcLife.Born] at born
    · simp [forkOf] at forking

/-- The embryo given up by a failing `fork`. -/
theorem owners_drop {s t : State} (tree : Tree s) (owners : Owners s) (p np : Fin NPROC) {me : Proc}
    (stage : Stage) (here : forkOf (s.pc p) = some (stage, np))
    (proc : t.proc = Function.update s.proc np me) (pcs : t.pc = Function.update s.pc p .elsewhere)
    (state : me.state = .unused) (stack : me.kstack = none) (pgdirs : t.pgdirs = s.pgdirs)
    (kept : ∀ j k, j ≠ np → (s.proc j).kstack = some k → k ∈ t.kstacks) : Owners t := by
  refine owners_slot owners p np _ _ proc pcs
    (fun q stage' forking => tree.single q p stage' stage np forking here)
    (fun _ _ forking => by simp [forkOf] at forking) ?_ ?_ ?_ ?_ ?_
  · intro k ready
    rcases ready with mine | ⟨j,other,its⟩
    · simp [stack] at mine
    · exact kept j k other its
  · intro k mine
    simp [stack] at mine
  · intro ready
    rcases ready with born | ⟨_,forking,_⟩
    · exact absurd state born.1
    · simp [forkOf] at forking
  · intro j d _ mapped space
    rw [pgdirs]
    exact space_kept owners mapped space
  · intro ready
    rcases ready with born | forking
    · exact absurd state born.1
    · simp [forkOf] at forking

theorem owners_stack {s : State} (tree : Tree s) (owners : Owners s) {p np : Fin NPROC} {k : Nat}
    (here : s.pc p = .forking .allocated np) (fresh : k ∉ s.kstacks) :
    Owners (allocStack s p np (some k)) := by
  have forking : forkOf (s.pc p) = some (.allocated, np) := by rw [here]; rfl
  have embryo := (tree.forked p .allocated np forking).1
  refine owners_slot owners p np { s.proc np with kstack := some k }
    (.forking .stacked np) rfl rfl
    (fun q stage' other => tree.single q p stage' .allocated np other forking) ?_ ?_ ?_ ?_ ?_ ?_
  · intro stage k now
    simp only [forkOf, Option.some.injEq, Prod.mk.injEq] at now
    exact now.2.symm
  · intro k' ready
    change k' ∈ insert k s.kstacks
    rcases ready with mine | ⟨j,_,its⟩
    · simp only [Option.some.injEq] at mine
      simp [mine]
    · exact Finset.mem_insert_of_mem (owners.stackKept j k' its)
  · intro k' mine j _ its
    simp only [Option.some.injEq] at mine
    exact fresh (mine ▸ owners.stackKept j k' its)
  · exact fun _ => ⟨k,rfl⟩
  · intro j d _ mapped space
    exact space_kept owners mapped space
  · intro ready
    rcases ready with born | forking
    · exact absurd embryo born.2
    · simp [forkOf] at forking

theorem owners_copy {s : State} (tree : Tree s) (owners : Owners s) {p np : Fin NPROC} {d : Nat}
    (here : s.pc p = .forking .stacked np) (fresh : d ∉ s.pgdirs) :
    Owners (copyParent s p np (some d)) := by
  have forking : forkOf (s.pc p) = some (.stacked, np) := by rw [here]; rfl
  refine owners_slot owners p np
    { s.proc np with pgdir := some d, parent := some p } (.forking .copied np) rfl rfl
    (fun q stage' other => tree.single q p stage' .stacked np other forking) ?_ ?_ ?_ ?_ ?_ ?_
  · intro stage k now
    simp only [forkOf, Option.some.injEq, Prod.mk.injEq] at now
    exact now.2.symm
  · intro k ready
    rcases ready with mine | ⟨j,_,its⟩
    · exact owners.stackKept np k mine
    · exact owners.stackKept j k its
  · intro k mine j other its
    exact other (owners.stackOwner j np k its mine)
  · exact fun _ => owners.stacked np (Or.inr ⟨p,.stacked,forking,by simp⟩)
  · intro j d' _ mapped space
    exact Finset.mem_insert_of_mem (space_kept owners mapped space)
  · intro _
    refine ⟨d, Finset.mem_insert_self d s.pgdirs, rfl, ?_⟩
    intro j _ mapped space
    exact fresh (space_kept owners mapped space)

theorem owners_publish {s : State} (tree : Tree s) (owners : Owners s) {p np : Fin NPROC}
    (here : s.pc p = .forking .copied np) : Owners (publish s p np) := by
  have forking : forkOf (s.pc p) = some (.copied, np) := by rw [here]; rfl
  refine owners_slot owners p np { s.proc np with state := .runnable }
    .elsewhere rfl rfl
    (fun q stage' other => tree.single q p stage' .copied np other forking)
    (fun _ _ now => by simp [forkOf] at now) ?_ ?_ ?_ ?_ ?_
  · intro k ready
    rcases ready with mine | ⟨j,_,its⟩
    · exact owners.stackKept np k mine
    · exact owners.stackKept j k its
  · intro k mine j other its
    exact other (owners.stackOwner j np k its mine)
  · exact fun _ => owners.stacked np (Or.inr ⟨p,.copied,forking,by simp⟩)
  · intro j d _ mapped space
    exact space_kept owners mapped space
  · intro _
    have mapped : Mapped s np := Or.inr ⟨p,forking⟩
    obtain ⟨d,member,mine⟩ := owners.spaceKept np mapped
    refine ⟨d, member, mine, fun j other its space => ?_⟩
    exact other (owners.spaceOwner j np its mapped (space.trans mine.symm))

theorem owners_reap {s : State} (tree : Tree s) (owners : Owners s) {p z : Fin NPROC}
    (zombie : (s.proc z).state = .zombie) : Owners ((reap s z).setPc p .elsewhere) := by
  obtain ⟨proc,pc,_⟩ := reap_rest s z
  have mine : Mapped s z := Or.inl ⟨by simp [zombie],by simp [zombie]⟩
  refine owners_slot owners p z (reapedProc (s.proc z)) .elsewhere proc
    (by rw [← pc]; rfl) ?_ (fun _ _ now => by simp [forkOf] at now) ?_ ?_ ?_ ?_ ?_
  · intro q stage forking
    have embryo := (tree.forked q stage z forking).1
    simp [zombie] at embryo
  · intro k ready
    rcases ready with now | ⟨j,other,its⟩
    · simp [reapedProc] at now
    · have kept := kfree_keeps owners other its
      obtain ⟨_,_,kstacks,_⟩ := freevm_rest (kfree s (s.proc z).kstack) (s.proc z).pgdir
      exact kstacks ▸ kept
  · intro k now
    simp [reapedProc] at now
  · intro ready
    rcases ready with born | ⟨_,now,_⟩
    · simp [Xv6ProcLife.Born, reapedProc] at born
    · simp [forkOf] at now
  · intro j d other mapped space
    obtain ⟨_,_,pgdirs,_⟩ := kfree_rest s (s.proc z).kstack
    exact freevm_keeps owners other mapped mine pgdirs space
  · intro ready
    rcases ready with born | now
    · simp [Xv6ProcLife.Born, reapedProc] at born
    · simp [forkOf] at now

theorem change_owners {s t : State} (tree : Tree s) (owners : Owners s) (change : Change s t) :
    Owners t := by
  cases change with
  | sched sched =>
    exact owners_same owners sched.kstacks sched.pgdirs (fun i => (sched.fields i).2)
      (fun i => (sched.born_iff i).mp) sched.forking
  | found p np running here unused => exact owners_found tree owners unused
  | stack p np page running here fresh =>
    cases page with
    | none =>
      exact owners_drop tree owners p np .allocated (by rw [here]; rfl) rfl rfl
        rfl rfl rfl (fun j k _ stack => owners.stackKept j k stack)
    | some k => exact owners_stack tree owners here (fresh k rfl)
  | copy p np space running here fresh =>
    cases space with
    | none =>
      obtain ⟨proc,pcs,kstacks,pgdirs,_⟩ := copy_none_rest s p np
      exact owners_drop tree owners p np .stacked (by rw [here]; rfl) proc pcs
        rfl rfl pgdirs (fun j k other stack => kstacks ▸ kfree_keeps owners other stack)
    | some d => exact owners_copy tree owners here (fresh d rfl)
  | publish p np running here => exact owners_publish tree owners here
  | exit p running here other =>
    have spec := exit_exited s p
    refine owners_same owners rfl rfl (fun i => (spec.fields i).1) ?_ (fun _ => rfl)
    intro i born
    by_cases same : i = p
    · rw [same]
      exact alive_born (Or.inr (Or.inr running))
    · rcases spec.state i same with eq | ⟨asleep,_⟩
      · exact ⟨eq ▸ born.1,eq ▸ born.2⟩
      · exact alive_born (Or.inl asleep)
  | reap p z running here parent zombie => exact owners_reap tree owners zombie

end Owners

section Accounting

def zombies (s : State) (r : Remains) : Finset (Fin NPROC) :=
  Finset.univ.filter fun i => (s.proc i).state = .zombie ∧ (s.proc i).remains = r

/-- Every process that has exited has been reaped or is still in the table. -/
def Accounted (s : State) : Prop :=
  ∀ r, s.exited.count r = s.reaped.count r + (zombies s r).card

theorem zombies_change {s t : State} (i : Fin NPROC)
    (others : ∀ j, j ≠ i → ((t.proc j).state = .zombie ↔ (s.proc j).state = .zombie) ∧
      (t.proc j).remains = (s.proc j).remains) (r : Remains) :
    (zombies t r).card + (if (s.proc i).state = .zombie ∧ (s.proc i).remains = r then 1 else 0) =
      (zombies s r).card +
        if (t.proc i).state = .zombie ∧ (t.proc i).remains = r then 1 else 0 :=
  card_filter_change Finset.univ (fun j => (s.proc j).state = .zombie ∧ (s.proc j).remains = r)
    (fun j => (t.proc j).state = .zombie ∧ (t.proc j).remains = r) (Finset.mem_univ i) (by
      intro j _ other
      rw [(others j other).1, (others j other).2])

theorem accounted_keep {s t : State} (accounted : Accounted s) (exited : t.exited = s.exited)
    (reaped : t.reaped = s.reaped) (np : Fin NPROC) (before : (s.proc np).state ≠ .zombie)
    (after : (t.proc np).state ≠ .zombie)
    (others : ∀ j, j ≠ np → ((t.proc j).state = .zombie ↔ (s.proc j).state = .zombie) ∧
      (t.proc j).remains = (s.proc j).remains) : Accounted t := by
  intro r
  have change := zombies_change np others r
  simp only [before, after, false_and, ↓reduceIte, Nat.add_zero] at change
  rw [exited, reaped, change]
  exact accounted r

theorem accounted_slot {s t : State} (accounted : Accounted s) {np : Fin NPROC} {me : Proc}
    (exited : t.exited = s.exited) (reaped : t.reaped = s.reaped)
    (proc : t.proc = Function.update s.proc np me) (before : (s.proc np).state ≠ .zombie)
    (after : me.state ≠ .zombie) : Accounted t := by
  apply accounted_keep accounted exited reaped np before
  · rw [proc, Function.update_self]
    exact after
  · intro j other
    rw [proc, Function.update_of_ne other]
    exact ⟨Iff.rfl,rfl⟩

theorem accounted_exit {s : State} (accounted : Accounted s) {p : Fin NPROC}
    (running : (s.proc p).state = .running) : Accounted (exit s p) := by
  have spec := exit_exited s p
  intro r
  have change := zombies_change (s := s) (t := exit s p) p (by
    intro j other
    refine ⟨?_, (spec.fields j).1⟩
    rcases spec.state j other with same | ⟨asleep,awake⟩
    · rw [same]
    · simp [asleep, awake]) r
  simp only [running, spec.zombie, (spec.fields p).1, reduceCtorEq, false_and, true_and, ↓reduceIte,
    Nat.add_zero] at change
  have count := accounted r
  change (((handOver s p p).remains :: s.exited).count r) = s.reaped.count r + _
  rw [handOver_remains, List.count_cons, change, count]
  simp only [beq_iff_eq]
  omega

theorem accounted_reap {s : State} (accounted : Accounted s) {p z : Fin NPROC}
    (zombie : (s.proc z).state = .zombie) : Accounted ((reap s z).setPc p .elsewhere) := by
  obtain ⟨proc,_,_,_,exited,reaped⟩ := reap_rest s z
  intro r
  have change := zombies_change (s := s) (t := (reap s z).setPc p .elsewhere) z (by
    intro j other
    change (((reap s z).proc j).state = .zombie ↔ _) ∧ ((reap s z).proc j).remains = _
    rw [proc, Function.update_of_ne other]
    exact ⟨Iff.rfl,rfl⟩) r
  have after : (((reap s z).setPc p .elsewhere).proc z).state ≠ .zombie := by
    change ((reap s z).proc z).state ≠ .zombie
    rw [proc, Function.update_self]
    simp [reapedProc]
  simp only [zombie, after, true_and, false_and, ↓reduceIte, Nat.add_zero] at change
  have count := accounted r
  change (reap s z).exited.count r = (reap s z).reaped.count r + _
  rw [exited, reaped, List.count_cons, count]
  simp only [beq_iff_eq]
  omega

theorem change_accounted {s t : State} (tree : Tree s) (accounted : Accounted s)
    (change : Change s t) : Accounted t := by
  cases change with
  | sched sched =>
    refine accounted_keep accounted sched.exited sched.reaped s.initproc
      (alive_not_zombie tree.init) (alive_not_zombie ((sched.alive_iff _).mpr tree.init)) ?_
    intro j _
    exact ⟨sched.state_iff j (Or.inr (Or.inr rfl)),(sched.fields j).2⟩
  | found p np running here unused =>
    exact accounted_slot accounted rfl rfl rfl (by simp [unused]) (by simp)
  | stack p np page running here fresh =>
    have embryo := (tree.forked p .allocated np (by rw [here]; rfl)).1
    cases page with
    | none => exact accounted_slot accounted rfl rfl rfl (by simp [embryo]) (by simp)
    | some k => exact accounted_slot accounted rfl rfl rfl (by simp [embryo]) (by simp [embryo])
  | copy p np space running here fresh =>
    have embryo := (tree.forked p .stacked np (by rw [here]; rfl)).1
    cases space with
    | none =>
      obtain ⟨proc,_,_,_,_,_,exited,reaped⟩ := copy_none_rest s p np
      exact accounted_slot accounted exited reaped proc (by simp [embryo]) (by simp)
    | some d => exact accounted_slot accounted rfl rfl rfl (by simp [embryo]) (by simp [embryo])
  | publish p np running here =>
    have embryo := (tree.forked p .copied np (by rw [here]; rfl)).1
    exact accounted_slot accounted rfl rfl rfl (by simp [embryo]) (by simp)
  | exit p running here other => exact accounted_exit accounted running
  | reap p z running here parent zombie => exact accounted_reap accounted zombie

end Accounting

/-- What holds in every reachable state. -/
structure Inv (s : State) : Prop where
  tree : Tree s
  pids : s.made + 1 < 2 ^ 31 → Pids s
  owners : Owners s
  accounted : Accounted s

theorem inv_start {s : State} (start : Start s) : Inv s := by
  have tree := tree_start start
  obtain ⟨stack,space,_,proc,pcs,nextpid,stackMem,spaceMem,made,exited,reaped⟩ := start
  have first : s.proc 0 = ⟨.runnable, 1, none, none, false, some stack, some space⟩ := by simp [proc]
  have others : ∀ i, i ≠ 0 → s.proc i = unusedProc := by
    intro i other
    simp [proc, other]
  have used : ∀ i, (s.proc i).state ≠ .unused → i = 0 := by
    intro i here
    by_contra other
    simp [others i other, unusedProc] at here
  have mapped : ∀ i, Mapped s i → i = 0 := by
    intro i here
    rcases here with born | ⟨p,forking⟩
    · exact used i born.1
    · simp [pcs, forkOf] at forking
  have withStack : ∀ i k, (s.proc i).kstack = some k → i = 0 := by
    intro i k here
    by_contra other
    simp [others i other, unusedProc] at here
  refine ⟨tree, fun _ => ⟨?_, ?_, ?_, ?_, ?_, ?_⟩, ⟨?_, ?_, ?_, ?_, ?_⟩, ?_⟩
  · rw [nextpid, made]; rfl
  · intro i here
    rw [used i here, first, made]
    exact le_refl 1
  · intro i j hereI hereJ _
    exact (used i hereI).trans (used j hereJ).symm
  · simp [exited]
  · simp [exited]
  · simp [exited]
  · intro i k here
    rw [withStack i k here, first, Option.some.injEq] at here
    exact here ▸ stackMem
  · intro i j k hereI hereJ
    exact (withStack i k hereI).trans (withStack j k hereJ).symm
  · intro i here
    rcases here with born | ⟨p,stage,forking,_⟩
    · rw [used i born.1, first]
      exact ⟨stack,rfl⟩
    · simp [pcs, forkOf] at forking
  · intro i here
    rw [mapped i here, first]
    exact ⟨space,spaceMem,rfl⟩
  · intro i j hereI hereJ _
    exact (mapped i hereI).trans (mapped j hereJ).symm
  · intro r
    have none : zombies s r = ∅ := by
      unfold zombies
      rw [Finset.filter_eq_empty_iff]
      intro i _ here
      have := used i (by simp [here.1])
      rw [this, first] at here
      simp at here
    simp [exited, reaped, none]

theorem next_inv {s t : State} {a : Action} (inv : Inv s) (run : next s a = some t) : Inv t := by
  have change := next_change run
  refine ⟨change_tree inv.tree change, fun small => ?_, change_owners inv.tree inv.owners change,
    change_accounted inv.tree inv.accounted change⟩
  have grows := change_made change
  exact change_pids inv.tree (inv.pids (by omega)) change small

theorem wait_reaps {s : State} {p z : Fin NPROC} {k d : Nat} (scanned : scan s p = .reaped z)
    (stack : (s.proc z).kstack = some k) (space : (s.proc z).pgdir = some d) :
    (wait s p).reaped = (s.proc z).remains :: s.reaped ∧ ((wait s p).proc z).state = .unused ∧
    (wait s p).kstacks = s.kstacks.erase k ∧ (wait s p).pgdirs = s.pgdirs.erase d := by
  obtain ⟨proc,_,_,_,_,reaped⟩ := reap_rest s z
  have done : wait s p = (reap s z).setPc p .elsewhere := by
    unfold wait
    rw [scanned]
  rw [done]
  refine ⟨reaped, ?_, ?_, ?_⟩
  · change ((reap s z).proc z).state = .unused
    rw [proc, Function.update_self]
    rfl
  · simp [State.setPc, reap, State.set, stack, space, kfree, freevm]
  · simp [State.setPc, reap, State.set, stack, space, kfree, freevm]

/-- The life cycle law, over the table as it stands while the lock is free. -/
structure LifeCycle (s : State) : Prop where
  parentAlive : ∀ p, Born (s.proc p) → p ≠ s.initproc → ∃ q, (s.proc p).parent = some q ∧
    (s.proc q).state ≠ .unused ∧ (s.proc q).state ≠ .zombie
  noneSleptThrough : ∀ p z, (s.proc p).state = .sleeping → (s.proc p).chan = some (.slot p) →
    (s.proc z).parent = some p → (s.proc z).state ≠ .zombie
  distinctPids : s.made + 1 < 2 ^ 31 → ∀ i j, (s.proc i).state ≠ .unused →
    (s.proc j).state ≠ .unused → (s.proc i).pid = (s.proc j).pid → i = j
  exitedOnce : s.made + 1 < 2 ^ 31 → (s.exited.map Remains.pid).Nodup
  reapedOnce : Accounted s
  waitFinds : ∀ p z, (s.proc z).parent = some p → (s.proc z).state = .zombie →
    ∃ k, scan s p = .reaped k ∧ (s.proc k).parent = some p ∧ (s.proc k).state = .zombie
  freedOnce : ∀ z, (s.proc z).state = .zombie → ∃ k ∈ s.kstacks, ∃ d ∈ s.pgdirs,
    (s.proc z).remains = ⟨(s.proc z).pid, some k, some d⟩ ∧
    (∀ i, i ≠ z → (s.proc i).kstack ≠ some k ∧ (Born (s.proc i) → (s.proc i).pgdir ≠ some d)) ∧
    ∀ p, scan s p = .reaped z → (wait s p).reaped = (s.proc z).remains :: s.reaped ∧
      ((wait s p).proc z).state = .unused ∧ (wait s p).kstacks = s.kstacks.erase k ∧
      (wait s p).pgdirs = s.pgdirs.erase d

theorem life_cycle {s : State} (reach : system.Reach System.Free s) : LifeCycle s := by
  have inv : Inv s := System.reach_invariant system (fun _ => inv_start)
    (fun _ _ _ before _ step => next_inv before step) reach
  refine ⟨?_, inv.tree.woken, fun small => (inv.pids small).distinct,
    fun small => (inv.pids small).once, inv.accounted, ?_, ?_⟩
  · intro p born other
    obtain ⟨q,parent,alive⟩ := inv.tree.parented p born other
    exact ⟨q,parent,(alive_born alive).1,alive_not_zombie alive⟩
  · intro p z parent zombie
    obtain ⟨k,scanned⟩ := scan_complete parent zombie
    exact ⟨k,scanned,scan_reaped scanned⟩
  · intro z zombie
    have born : Born (s.proc z) := ⟨by simp [zombie],by simp [zombie]⟩
    obtain ⟨k,stack⟩ := inv.owners.stacked z (Or.inl born)
    obtain ⟨d,member,space⟩ := inv.owners.spaceKept z (Or.inl born)
    refine ⟨k, inv.owners.stackKept z k stack, d, member, by simp [Proc.remains, stack, space],
      fun i other => ⟨fun its => other (inv.owners.stackOwner i z k its stack), fun ready its => ?_⟩,
      fun p scanned => wait_reaps scanned stack space⟩
    exact other (inv.owners.spaceOwner i z (Or.inl ready) (Or.inl born) (its.trans space.symm))

def booted : State where
  proc := Function.update (fun _ => unusedProc) 0 ⟨.runnable, 1, none, none, false, some 0, some 0⟩
  pc := fun _ => .elsewhere
  initproc := 0
  nextpid := 2
  kstacks := {0}
  pgdirs := {0}
  made := 1
  exited := []
  reaped := []

theorem booted_start : Start booted :=
  ⟨0,0,rfl,rfl,fun _ => rfl,rfl,by decide,by decide,rfl,rfl,rfl⟩

/-- `init` forks a child, sleeps in `wait`, and the child exits. -/
def childExits : List Action :=
  [.scheduler 0, .allocproc 0, .kalloc 0 (some 1), .copyuvm 0 (some 1), .publish 0, .wait 0,
    .scheduler 1, .exit 1]

theorem life_cycle_of_child : ∃ s : State, system.Reach System.Free s ∧
    (s.proc 1).state = .zombie ∧ (s.proc 0).state = .runnable ∧ LifeCycle s := by
  have reach : system.Reach System.Free ((System.exec next booted childExits).get (by decide)) :=
    System.exec_reach childExits (fun _ _ _ => trivial) (.start booted_start) (Option.some_get _).symm
  exact ⟨_, reach, by decide, by decide +kernel, life_cycle reach⟩

end Xv6ProcReap
