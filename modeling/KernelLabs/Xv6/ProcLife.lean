import Mathlib.Algebra.BigOperators.Group.Finset.Piecewise
import KernelLabs.Lib.Counting
import KernelLabs.Xv6.Proc

/-!
Parents and children over every run of the process table: parents stay alive, and no
exited child is slept through. The steps are sorted into mere scheduling, the work of a
running process on one slot that is not alive, and `exit`.
-/
namespace Xv6ProcLife
open Xv6Proc Transition Counting

def Alive (p : Proc) : Prop := p.state = .sleeping ∨ p.state = .runnable ∨ p.state = .running

def Active (p : Proc) : Prop := p.state = .runnable ∨ p.state = .running

/-- Fully set up: `RUNNABLE`, `RUNNING`, `SLEEPING` or `ZOMBIE`. -/
def Born (p : Proc) : Prop := p.state ≠ .unused ∧ p.state ≠ .embryo

def forkOf : Pc → Option (Stage × Fin NPROC)
  | .forking stage np => some (stage, np)
  | _ => none

theorem alive_born {p : Proc} (alive : Alive p) : Born p := by
  rcases alive with h | h | h <;> simp [Born, h]

theorem alive_not_zombie {p : Proc} (alive : Alive p) : p.state ≠ .zombie := by
  rcases alive with h | h | h <;> simp [h]

theorem active_alive {p : Proc} (active : Active p) : Alive p := by
  rcases active with h | h
  · exact Or.inr (Or.inl h)
  · exact Or.inr (Or.inr h)

/-- Parents, children and the progress of `fork`. -/
structure Tree (s : State) : Prop where
  forked : ∀ p stage np, forkOf (s.pc p) = some (stage, np) →
    (s.proc np).state = .embryo ∧ Active (s.proc p) ∧
      (s.proc np).parent = if stage = .copied then some p else none
  single : ∀ p q stage stage' np, forkOf (s.pc p) = some (stage, np) →
    forkOf (s.pc q) = some (stage', np) → p = q
  embryo : ∀ np, (s.proc np).state = .embryo → ∃ p stage, forkOf (s.pc p) = some (stage, np)
  dormant : ∀ p, ¬ Alive (s.proc p) → s.pc p = .elsewhere
  unused : ∀ p, (s.proc p).state = .unused → (s.proc p).parent = none
  parented : ∀ p, Born (s.proc p) → p ≠ s.initproc →
    ∃ q, (s.proc p).parent = some q ∧ Alive (s.proc q)
  init : Alive (s.proc s.initproc)
  root : (s.proc s.initproc).parent = none
  other : ∀ p, (s.proc p).parent ≠ some p
  woken : ∀ p z, (s.proc p).state = .sleeping → (s.proc p).chan = some (.slot p) →
    (s.proc z).parent = some p → (s.proc z).state ≠ .zombie

structure SameRest (s t : State) : Prop where
  initproc : t.initproc = s.initproc
  nextpid : t.nextpid = s.nextpid
  made : t.made = s.made
  kstacks : t.kstacks = s.kstacks
  pgdirs : t.pgdirs = s.pgdirs
  exited : t.exited = s.exited
  reaped : t.reaped = s.reaped

/-- Steps that only move live processes between `RUNNABLE`, `RUNNING` and `SLEEPING`. -/
structure Sched (s t : State) : Prop extends SameRest s t where
  fields : ∀ i, (t.proc i).parent = (s.proc i).parent ∧ (t.proc i).remains = (s.proc i).remains
  state : ∀ i, (t.proc i).state = (s.proc i).state ∨ Alive (s.proc i) ∧ Alive (t.proc i)
  forking : ∀ i, forkOf (t.pc i) = forkOf (s.pc i)
  active : ∀ i, forkOf (s.pc i) ≠ none → Active (s.proc i) → Active (t.proc i)
  dormant : ∀ i, ¬ Alive (t.proc i) → s.pc i = .elsewhere → t.pc i = .elsewhere
  asleep : ∀ i, (t.proc i).state = .sleeping → (t.proc i).chan = some (.slot i) →
    ((s.proc i).state = .sleeping ∧ (s.proc i).chan = some (.slot i)) ∨
    ∀ z, (s.proc z).parent = some i → (s.proc z).state ≠ .zombie

theorem Sched.alive_iff {s t : State} (sched : Sched s t) (i : Fin NPROC) :
    Alive (t.proc i) ↔ Alive (s.proc i) := by
  rcases sched.state i with same | ⟨before,after⟩
  · simp [Alive, same]
  · simp [before, after]

theorem Sched.state_iff {s t : State} (sched : Sched s t) (i : Fin NPROC) {st : Procstate}
    (dead : st = .unused ∨ st = .embryo ∨ st = .zombie) :
    (t.proc i).state = st ↔ (s.proc i).state = st := by
  rcases sched.state i with same | ⟨before,after⟩
  · rw [same]
  · rcases dead with h | h | h <;> subst h <;> rcases before with b | b | b <;>
      rcases after with a | a | a <;> simp [a, b]

theorem Sched.born_iff {s t : State} (sched : Sched s t) (i : Fin NPROC) :
    Born (t.proc i) ↔ Born (s.proc i) := by
  have unused := sched.state_iff i (Or.inl rfl : Procstate.unused = .unused ∨ _)
  have embryo := sched.state_iff i (Or.inr (Or.inl rfl) : Procstate.embryo = .unused ∨ _)
  exact and_congr (not_congr unused) (not_congr embryo)

theorem tree_sched {s t : State} (tree : Tree s) (sched : Sched s t) : Tree t where
  forked := by
    intro p stage np forking
    rw [sched.forking p] at forking
    obtain ⟨embryo,active,parent⟩ := tree.forked p stage np forking
    refine ⟨(sched.state_iff np (Or.inr (Or.inl rfl))).mpr embryo,
      sched.active p (by simp [forking]) active, ?_⟩
    rw [(sched.fields np).1]
    exact parent
  single := by
    intro p q stage stage' np first second
    rw [sched.forking] at first second
    exact tree.single p q stage stage' np first second
  embryo := by
    intro np embryo
    obtain ⟨p,stage,forking⟩ := tree.embryo np ((sched.state_iff np (Or.inr (Or.inl rfl))).mp embryo)
    exact ⟨p,stage,(sched.forking p).trans forking⟩
  dormant := by
    intro p dead
    exact sched.dormant p dead (tree.dormant p (fun alive => dead ((sched.alive_iff p).mpr alive)))
  unused := by
    intro p unused
    rw [(sched.fields p).1]
    exact tree.unused p ((sched.state_iff p (Or.inl rfl)).mp unused)
  parented := by
    intro p born other
    rw [sched.initproc] at other
    obtain ⟨q,parent,alive⟩ := tree.parented p ((sched.born_iff p).mp born) other
    exact ⟨q,(sched.fields p).1.trans parent,(sched.alive_iff q).mpr alive⟩
  init := by
    rw [sched.initproc]
    exact (sched.alive_iff _).mpr tree.init
  root := by
    rw [sched.initproc, (sched.fields _).1]
    exact tree.root
  other := by
    intro p
    rw [(sched.fields p).1]
    exact tree.other p
  woken := by
    intro p z sleeping chan parent zombie
    rw [(sched.fields z).1] at parent
    have zombie := (sched.state_iff z (Or.inr (Or.inr rfl))).mp zombie
    rcases sched.asleep p sleeping chan with ⟨before,there⟩ | none
    · exact tree.woken p z before there parent zombie
    · exact none z parent zombie

/-- Such a step at one slot. -/
theorem sched_one {s t : State} {p : Fin NPROC} (me : Proc) (pc : Pc) (rest : SameRest s t)
    (proc : t.proc = Function.update s.proc p me) (pcs : t.pc = Function.update s.pc p pc)
    (fields : me.parent = (s.proc p).parent ∧ me.remains = (s.proc p).remains)
    (state : me.state = (s.proc p).state ∨ Alive (s.proc p) ∧ Alive me)
    (forking : forkOf pc = forkOf (s.pc p))
    (active : forkOf (s.pc p) ≠ none → Active (s.proc p) → Active me)
    (dormant : ¬ Alive me → s.pc p = .elsewhere → pc = .elsewhere)
    (asleep : me.state = .sleeping → me.chan = some (.slot p) →
      ((s.proc p).state = .sleeping ∧ (s.proc p).chan = some (.slot p)) ∨
      ∀ z, (s.proc z).parent = some p → (s.proc z).state ≠ .zombie) : Sched s t := by
  have here : t.proc p = me ∧ t.pc p = pc := by simp [proc, pcs]
  have there : ∀ i, i ≠ p → t.proc i = s.proc i ∧ t.pc i = s.pc i := by
    intro i other
    simp [proc, pcs, other]
  refine ⟨rest, ?_, ?_, ?_, ?_, ?_, ?_⟩
  · intro i
    by_cases same : i = p
    · subst same; rw [here.1]; exact fields
    · rw [(there i same).1]; exact ⟨rfl,rfl⟩
  · intro i
    by_cases same : i = p
    · subst same; rw [here.1]; exact state
    · rw [(there i same).1]; exact Or.inl rfl
  · intro i
    by_cases same : i = p
    · subst same; rw [here.2]; exact forking
    · rw [(there i same).2]
  · intro i
    by_cases same : i = p
    · subst same; rw [here.1]; exact active
    · rw [(there i same).1]; exact fun _ h => h
  · intro i
    by_cases same : i = p
    · subst same; rw [here.1, here.2]; exact dormant
    · rw [(there i same).1, (there i same).2]; exact fun _ h => h
  · intro i
    by_cases same : i = p
    · subst same; rw [here.1]; exact asleep
    · rw [(there i same).1]; exact fun sleeping chan => Or.inl ⟨sleeping,chan⟩

theorem sched_scheduler {s : State} {p : Fin NPROC} (runnable : (s.proc p).state = .runnable) :
    Sched s (scheduler s p) := by
  have before : Alive (s.proc p) := Or.inr (Or.inl runnable)
  unfold scheduler
  split
  · rename_i here
    refine sched_one { s.proc p with state := .running, chan := none } .elsewhere
      ⟨rfl,rfl,rfl,rfl,rfl,rfl,rfl⟩ rfl rfl ⟨rfl,rfl⟩ (Or.inr ⟨before,Or.inr (Or.inr rfl)⟩) ?_
      (fun _ _ => Or.inr rfl) (fun _ _ => rfl) (fun wrong => by simp at wrong)
    rw [here]; rfl
  · rename_i here
    refine sched_one { s.proc p with state := .running, chan := none } (s.pc p)
      ⟨rfl,rfl,rfl,rfl,rfl,rfl,rfl⟩ rfl (by simp [State.set]) ⟨rfl,rfl⟩
      (Or.inr ⟨before,Or.inr (Or.inr rfl)⟩) rfl (fun _ _ => Or.inr rfl) (fun _ h => h)
      (fun wrong => by simp at wrong)
  · refine sched_one { s.proc p with state := .running } (s.pc p)
      ⟨rfl,rfl,rfl,rfl,rfl,rfl,rfl⟩ rfl (by simp [State.set]) ⟨rfl,rfl⟩
      (Or.inr ⟨before,Or.inr (Or.inr rfl)⟩) rfl (fun _ _ => Or.inr rfl) (fun _ h => h)
      (fun wrong => by simp at wrong)

theorem sched_yield {s : State} {p : Fin NPROC} (running : (s.proc p).state = .running) :
    Sched s (s.set p { s.proc p with state := .runnable }) :=
  sched_one _ (s.pc p) ⟨rfl,rfl,rfl,rfl,rfl,rfl,rfl⟩ rfl (by simp [State.set]) ⟨rfl,rfl⟩
    (Or.inr ⟨Or.inr (Or.inr running),Or.inr (Or.inl rfl)⟩) rfl (fun _ _ => Or.inl rfl)
    (fun _ h => h) (fun wrong => by simp at wrong)

/-- `sleep` on an address that is no slot, or in `wait` after a scan without zombies. -/
theorem sched_sleep {s : State} {p : Fin NPROC} {chan : Chan} {pc : Pc}
    (running : (s.proc p).state = .running) (here : forkOf (s.pc p) = none) (there : forkOf pc = none)
    (none : chan = .slot p → ∀ z, (s.proc z).parent = some p → (s.proc z).state ≠ .zombie) :
    Sched s (sleep s p chan pc) := by
  refine sched_one { s.proc p with chan := some chan, state := .sleeping } pc
    ⟨rfl,rfl,rfl,rfl,rfl,rfl,rfl⟩ rfl rfl ⟨rfl,rfl⟩
    (Or.inr ⟨Or.inr (Or.inr running),Or.inl rfl⟩) (there.trans here.symm)
    (fun busy => absurd here busy) (fun dead => absurd (Or.inl rfl) dead) ?_
  intro _ same
  right
  exact none (by simpa using same)

theorem wake_fields (chan : Option Chan) (p : Proc) :
    (wake chan p).parent = p.parent ∧ (wake chan p).remains = p.remains ∧
    (wake chan p).chan = p.chan := by
  unfold wake
  split <;> exact ⟨rfl,rfl,rfl⟩

theorem wake_state (chan : Option Chan) (p : Proc) :
    ((wake chan p).state = p.state ∧ ¬ (p.state = .sleeping ∧ p.chan = chan)) ∨
    (p.state = .sleeping ∧ p.chan = chan ∧ (wake chan p).state = .runnable) := by
  unfold wake
  split
  · rename_i asleep
    exact Or.inr ⟨asleep.1,asleep.2,rfl⟩
  · rename_i awake
    exact Or.inl ⟨rfl,awake⟩

theorem sched_wakeup (s : State) (chan : Option Chan) :
    Sched s { s with proc := wakeup1 s.proc chan } := by
  refine ⟨⟨rfl,rfl,rfl,rfl,rfl,rfl,rfl⟩, ?_, ?_, ?_, ?_, ?_, ?_⟩
  · intro i
    exact ⟨(wake_fields chan (s.proc i)).1, (wake_fields chan (s.proc i)).2.1⟩
  · intro i
    rcases wake_state chan (s.proc i) with ⟨same,_⟩ | ⟨asleep,_,woken⟩
    · exact Or.inl same
    · exact Or.inr ⟨Or.inl asleep,Or.inr (Or.inl woken)⟩
  · exact fun _ => rfl
  · intro i _ active
    rcases wake_state chan (s.proc i) with ⟨same,_⟩ | ⟨_,_,woken⟩
    · rcases active with h | h
      · exact Or.inl (same.trans h)
      · exact Or.inr (same.trans h)
    · exact Or.inl woken
  · exact fun _ _ h => h
  · intro i sleeping there
    left
    change (wake chan (s.proc i)).state = .sleeping at sleeping
    change (wake chan (s.proc i)).chan = _ at there
    rw [(wake_fields chan (s.proc i)).2.2] at there
    rcases wake_state chan (s.proc i) with ⟨same,_⟩ | ⟨_,_,woken⟩
    · exact ⟨same.symm.trans sleeping,there⟩
    · rw [woken] at sleeping
      simp at sleeping

theorem sched_refl (s : State) : Sched s s :=
  sched_one (s.proc s.initproc) (s.pc s.initproc) ⟨rfl,rfl,rfl,rfl,rfl,rfl,rfl⟩ (by simp) (by simp)
    ⟨rfl,rfl⟩ (Or.inl rfl) rfl (fun _ h => h) (fun _ h => h) (fun a b => Or.inl ⟨a,b⟩)

theorem sched_kill (s : State) (pid : Int) : Sched s (kill s pid) := by
  unfold kill
  split
  · exact sched_refl s
  · rename_i i _
    dsimp only
    split
    · rename_i asleep
      refine sched_one { s.proc i with killed := true, state := .runnable } (s.pc i)
        ⟨rfl,rfl,rfl,rfl,rfl,rfl,rfl⟩ rfl (by simp [State.set]) ⟨rfl,rfl⟩
        (Or.inr ⟨Or.inl asleep,Or.inr (Or.inl rfl)⟩) rfl (fun _ _ => Or.inl rfl) (fun _ h => h)
        (fun wrong => by simp at wrong)
    · exact sched_one { s.proc i with killed := true } (s.pc i)
        ⟨rfl,rfl,rfl,rfl,rfl,rfl,rfl⟩ rfl (by simp [State.set]) ⟨rfl,rfl⟩ (Or.inl rfl) rfl
        (fun _ h => h) (fun _ h => h) (fun a b => Or.inl ⟨a,b⟩)

/-- The steps that are not mere scheduling. -/
inductive Change (s : State) : State → Prop where
  | sched {t : State} (sched : Sched s t) : Change s t
  | found (p np : Fin NPROC) (running : (s.proc p).state = .running) (here : s.pc p = .elsewhere)
      (unused : (s.proc np).state = .unused) : Change s (found s p np)
  | stack (p np : Fin NPROC) (page : Option Nat) (running : (s.proc p).state = .running)
      (here : s.pc p = .forking .allocated np) (fresh : ∀ k, page = some k → k ∉ s.kstacks) :
      Change s (allocStack s p np page)
  | copy (p np : Fin NPROC) (space : Option Nat) (running : (s.proc p).state = .running)
      (here : s.pc p = .forking .stacked np) (fresh : ∀ k, space = some k → k ∉ s.pgdirs) :
      Change s (copyParent s p np space)
  | publish (p np : Fin NPROC) (running : (s.proc p).state = .running)
      (here : s.pc p = .forking .copied np) : Change s (publish s p np)
  | exit (p : Fin NPROC) (running : (s.proc p).state = .running) (here : s.pc p = .elsewhere)
      (other : p ≠ s.initproc) : Change s (exit s p)
  | reap (p z : Fin NPROC) (running : (s.proc p).state = .running) (here : forkOf (s.pc p) = none)
      (parent : (s.proc z).parent = some p) (zombie : (s.proc z).state = .zombie) :
      Change s ((reap s z).setPc p .elsewhere)

theorem scan_reaped {s : State} {p z : Fin NPROC} (scanned : scan s p = .reaped z) :
    (s.proc z).parent = some p ∧ (s.proc z).state = .zombie := by
  unfold scan at scanned
  split at scanned
  · rename_i k seen
    simp only [Waited.reaped.injEq] at scanned
    subst scanned
    simpa using List.find?_some seen
  · dsimp only at scanned
    split at scanned <;> simp at scanned

theorem scan_complete {s : State} {p z : Fin NPROC} (parent : (s.proc z).parent = some p)
    (zombie : (s.proc z).state = .zombie) : ∃ k, scan s p = .reaped k := by
  unfold scan
  split
  · rename_i k _
    exact ⟨k,rfl⟩
  · rename_i missing
    have miss := List.find?_eq_none.mp missing z (List.mem_finRange z)
    simp [parent, zombie] at miss

theorem change_wait {s : State} {p : Fin NPROC} (running : (s.proc p).state = .running)
    (here : s.pc p = .elsewhere ∨ s.pc p = .waiting) : Change s (wait s p) := by
  have idle : forkOf (s.pc p) = none := by
    rcases here with h | h <;> rw [h] <;> rfl
  unfold wait
  split
  · rename_i z scanned
    obtain ⟨parent,zombie⟩ := scan_reaped scanned
    exact .reap p z running idle parent zombie
  · apply Change.sched
    exact sched_one (s.proc p) .elsewhere ⟨rfl,rfl,rfl,rfl,rfl,rfl,rfl⟩ (by simp [State.setPc]) rfl
      ⟨rfl,rfl⟩ (Or.inl rfl) (by rw [idle]; rfl) (fun _ h => h) (fun _ _ => rfl)
      (fun a b => Or.inl ⟨a,b⟩)
  · rename_i scanned
    apply Change.sched
    apply sched_sleep running idle rfl
    intro _ z parent zombie
    obtain ⟨k,found⟩ := scan_complete parent zombie
    simp [scanned] at found

theorem next_change {s t : State} {a : Action} (run : next s a = some t) : Change s t := by
  cases a with
  | scheduler p =>
    simp only [next, Option.ite_none_right_eq_some, Option.some.injEq] at run
    exact run.2 ▸ .sched (sched_scheduler run.1)
  | yield p =>
    simp only [next, Option.ite_none_right_eq_some, Option.some.injEq] at run
    exact run.2 ▸ .sched (sched_yield run.1.1)
  | sleep p addr =>
    simp only [next, Option.ite_none_right_eq_some, Option.some.injEq] at run
    obtain ⟨⟨running,here⟩,done⟩ := run
    exact done ▸ .sched (sched_sleep running (by rw [here]; rfl) rfl (fun wrong => by simp at wrong))
  | wakeup chan =>
    simp only [next, Option.some.injEq] at run
    exact run ▸ .sched (sched_wakeup s (some chan))
  | kill pid =>
    simp only [next, Option.some.injEq] at run
    exact run ▸ .sched (sched_kill s pid)
  | allocproc p =>
    simp only [next, Option.ite_none_right_eq_some, Option.some.injEq] at run
    obtain ⟨⟨running,here⟩,done⟩ := run
    subst done
    unfold allocproc
    split
    · exact .sched (sched_refl s)
    · rename_i np seen
      have unused := List.find?_some seen
      simp only [beq_iff_eq] at unused
      exact .found p np running here unused
  | kalloc p page =>
    simp only [next] at run
    split at run
    · rename_i np here
      simp only [Option.ite_none_right_eq_some, Option.some.injEq] at run
      exact run.2 ▸ .stack p np page run.1.1 here run.1.2
    · simp at run
  | copyuvm p space =>
    simp only [next] at run
    split at run
    · rename_i np here
      simp only [Option.ite_none_right_eq_some, Option.some.injEq] at run
      exact run.2 ▸ .copy p np space run.1.1 here run.1.2
    · simp at run
  | publish p =>
    simp only [next] at run
    split at run
    · rename_i np here
      simp only [Option.ite_none_right_eq_some, Option.some.injEq] at run
      exact run.2 ▸ .publish p np run.1 here
    · simp at run
  | exit p =>
    simp only [next, Option.ite_none_right_eq_some, Option.some.injEq] at run
    obtain ⟨⟨running,here,other⟩,done⟩ := run
    exact done ▸ .exit p running here other
  | wait p =>
    simp only [next, Option.ite_none_right_eq_some, Option.some.injEq] at run
    exact run.2 ▸ change_wait run.1.1 run.1.2

/-- A running process works on one slot that is not alive: it forks or reaps it. -/
theorem tree_child {s t : State} (tree : Tree s) (p np : Fin NPROC) (me : Proc) (pc : Pc)
    (initproc : t.initproc = s.initproc) (proc : t.proc = Function.update s.proc np me)
    (pcs : t.pc = Function.update s.pc p pc) (running : (s.proc p).state = .running)
    (dead : ¬ Alive (s.proc np))
    (mine : ∀ q stage, forkOf (s.pc q) = some (stage, np) → q = p)
    (only : ∀ stage k, forkOf (s.pc p) = some (stage, k) → k = np)
    (forked : ∀ stage k, forkOf pc = some (stage, k) →
      k = np ∧ me.state = .embryo ∧ me.parent = if stage = .copied then some p else none)
    (embryo : me.state = .embryo → ∃ stage, forkOf pc = some (stage, np))
    (unused : me.state = .unused → me.parent = none) (born : Born me → me.parent = some p)
    (parent : me.parent = none ∨ me.parent = some p)
    (state : me.state ≠ .sleeping ∧ me.state ≠ .zombie) : Tree t := by
  have alive : Alive (s.proc p) := Or.inr (Or.inr running)
  have apart : p ≠ np := fun same => dead (same ▸ alive)
  have here : t.proc np = me := by simp [proc]
  have there : ∀ i, i ≠ np → t.proc i = s.proc i := by
    intro i other
    simp [proc, other]
  have myPc : t.pc p = pc := by simp [pcs]
  have otherPc : ∀ i, i ≠ p → t.pc i = s.pc i := by
    intro i other
    simp [pcs, other]
  constructor
  · intro q stage k forking
    by_cases same : q = p
    · subst same
      rw [myPc] at forking
      obtain ⟨slot,state,parent⟩ := forked stage k forking
      subst slot
      rw [here, there q apart]
      exact ⟨state, Or.inr running, parent⟩
    · rw [otherPc q same] at forking
      have otherSlot : k ≠ np := fun slot => same (mine q stage (slot ▸ forking))
      obtain ⟨state,active,parent⟩ := tree.forked q stage k forking
      have otherProc : q ≠ np := fun slot => dead (slot ▸ active_alive active)
      rw [there k otherSlot, there q otherProc]
      exact ⟨state,active,parent⟩
  · intro q r stage stage' k first second
    by_cases sameQ : q = p
    · by_cases sameR : r = p
      · exact sameQ.trans sameR.symm
      · subst sameQ
        rw [myPc] at first
        rw [otherPc r sameR] at second
        rw [(forked stage k first).1] at second
        exact (mine r stage' second).symm
    · by_cases sameR : r = p
      · subst sameR
        rw [myPc] at second
        rw [otherPc q sameQ] at first
        rw [(forked stage' k second).1] at first
        exact mine q stage first
      · rw [otherPc q sameQ] at first
        rw [otherPc r sameR] at second
        exact tree.single q r stage stage' k first second
  · intro k state
    by_cases same : k = np
    · subst same
      rw [here] at state
      obtain ⟨stage,forking⟩ := embryo state
      exact ⟨p,stage,myPc ▸ forking⟩
    · rw [there k same] at state
      obtain ⟨q,stage,forking⟩ := tree.embryo k state
      have other : q ≠ p := fun eq => same (only stage k (eq ▸ forking))
      exact ⟨q,stage,(otherPc q other).symm ▸ forking⟩
  · intro i quiet
    by_cases same : i = np
    · rw [otherPc i (fun eq => apart (eq.symm.trans same)), same]
      exact tree.dormant np dead
    · rw [there i same] at quiet
      have other : i ≠ p := fun eq => quiet (eq ▸ alive)
      rw [otherPc i other]
      exact tree.dormant i quiet
  · intro i state
    by_cases same : i = np
    · subst same
      rw [here] at state ⊢
      exact unused state
    · rw [there i same] at state ⊢
      exact tree.unused i state
  · intro i ready other
    rw [initproc] at other
    by_cases same : i = np
    · subst same
      rw [here] at ready ⊢
      refine ⟨p, born ready, ?_⟩
      rw [there p apart]
      exact alive
    · rw [there i same] at ready ⊢
      obtain ⟨q,link,live⟩ := tree.parented i ready other
      refine ⟨q, link, ?_⟩
      rw [there q (fun slot => dead (slot ▸ live))]
      exact live
  · rw [initproc, there _ (fun slot => dead (slot ▸ tree.init))]
    exact tree.init
  · rw [initproc, there _ (fun slot => dead (slot ▸ tree.init))]
    exact tree.root
  · intro i
    by_cases same : i = np
    · subst same
      rw [here]
      rcases parent with none | some
      · simp [none]
      · rw [some]
        simpa using apart
    · rw [there i same]
      exact tree.other i
  · intro q z sleeping chan link zombie
    have otherQ : q ≠ np := by
      intro same
      subst same
      rw [here] at sleeping
      exact state.1 sleeping
    have otherZ : z ≠ np := by
      intro same
      subst same
      rw [here] at zombie
      exact state.2 zombie
    rw [there q otherQ] at sleeping chan
    rw [there z otherZ] at link zombie
    exact tree.woken q z sleeping chan link zombie

theorem tree_found {s : State} (tree : Tree s) {p np : Fin NPROC}
    (running : (s.proc p).state = .running) (here : s.pc p = .elsewhere)
    (unused : (s.proc np).state = .unused) : Tree (found s p np) := by
  have none : ∀ q stage, forkOf (s.pc q) ≠ some (stage, np) := by
    intro q stage forking
    have := (tree.forked q stage np forking).1
    simp [unused] at this
  refine tree_child tree p np
    { s.proc np with state := .embryo, pid := s.nextpid } (.forking .allocated np)
    rfl rfl rfl running (by simp [Alive, unused])
    (fun q stage forking => absurd forking (none q stage)) ?_ ?_ (fun _ => ⟨_,rfl⟩)
    (fun wrong => by simp at wrong) (fun wrong => by simp [Born] at wrong)
    (Or.inl (tree.unused np unused)) (by simp)
  · intro stage k forking
    simp [here, forkOf] at forking
  · intro stage k forking
    simp only [forkOf, Option.some.injEq, Prod.mk.injEq] at forking
    obtain ⟨rfl,rfl⟩ := forking
    exact ⟨rfl, rfl, by simpa using tree.unused np unused⟩

/-- The other steps of `fork` change the embryo of the running process. -/
theorem tree_fork {s t : State} (tree : Tree s) (p np : Fin NPROC) (me : Proc) (pc : Pc)
    {stage : Stage} (initproc : t.initproc = s.initproc)
    (proc : t.proc = Function.update s.proc np me) (pcs : t.pc = Function.update s.pc p pc)
    (running : (s.proc p).state = .running) (here : s.pc p = .forking stage np)
    (after : (me.state = .unused ∧ me.parent = none ∧ pc = .elsewhere) ∨
      (me.state = .runnable ∧ me.parent = some p ∧ pc = .elsewhere) ∨
      (me.state = .embryo ∧ ∃ stage', pc = .forking stage' np ∧
        me.parent = if stage' = .copied then some p else none)) : Tree t := by
  have forking : forkOf (s.pc p) = some (stage, np) := by rw [here]; rfl
  have embryo := (tree.forked p stage np forking).1
  refine tree_child tree p np _ _ initproc proc pcs running (by simp [Alive, embryo])
    (fun q stage' other => tree.single q p stage' stage np other forking) ?_ ?_ ?_ ?_ ?_ ?_ ?_
  · intro stage' k same
    rw [forking, Option.some.injEq, Prod.mk.injEq] at same
    exact same.2.symm
  · intro stage' k now
    rcases after with ⟨_,_,gone⟩ | ⟨_,_,gone⟩ | ⟨state,stage'',still,parent⟩
    · simp [gone, forkOf] at now
    · simp [gone, forkOf] at now
    · rw [still] at now
      simp only [forkOf, Option.some.injEq, Prod.mk.injEq] at now
      obtain ⟨same,slot⟩ := now
      subst same
      exact ⟨slot.symm,state,parent⟩
  · intro state
    rcases after with ⟨wrong,_⟩ | ⟨wrong,_⟩ | ⟨_,stage',still,_⟩
    · simp [state] at wrong
    · simp [state] at wrong
    · exact ⟨stage',by rw [still]; rfl⟩
  · intro state
    rcases after with ⟨_,none,_⟩ | ⟨wrong,_⟩ | ⟨wrong,_⟩
    · exact none
    · simp [state] at wrong
    · simp [state] at wrong
  · intro born
    rcases after with ⟨wrong,_⟩ | ⟨_,parent,_⟩ | ⟨wrong,_⟩
    · exact absurd wrong born.1
    · exact parent
    · exact absurd wrong born.2
  · rcases after with ⟨_,none,_⟩ | ⟨_,parent,_⟩ | ⟨_,stage',_,parent⟩
    · exact Or.inl none
    · exact Or.inr parent
    · split at parent
      · exact Or.inr parent
      · exact Or.inl parent
  · rcases after with ⟨state,_⟩ | ⟨state,_⟩ | ⟨state,_⟩ <;> simp [state]

theorem tree_reap {s : State} (tree : Tree s) {p z : Fin NPROC}
    (running : (s.proc p).state = .running) (here : forkOf (s.pc p) = none)
    (zombie : (s.proc z).state = .zombie) : Tree ((reap s z).setPc p .elsewhere) := by
  have rest : (freevm (kfree s (s.proc z).kstack) (s.proc z).pgdir).proc = s.proc ∧
      (freevm (kfree s (s.proc z).kstack) (s.proc z).pgdir).pc = s.pc ∧
      (freevm (kfree s (s.proc z).kstack) (s.proc z).pgdir).initproc = s.initproc := by
    cases (s.proc z).kstack <;> cases (s.proc z).pgdir <;> exact ⟨rfl,rfl,rfl⟩
  have none : ∀ q stage, forkOf (s.pc q) ≠ some (stage, z) := by
    intro q stage forking
    have := (tree.forked q stage z forking).1
    simp [zombie] at this
  refine tree_child tree p z
    { s.proc z with
      kstack := Option.none, pid := 0, parent := Option.none, killed := false, state := .unused }
    .elsewhere rest.2.2 ?_ ?_ running (by simp [Alive, zombie])
    (fun q stage forking => absurd forking (none q stage)) (fun _ _ forking => by simp [here] at forking)
    (fun _ _ forking => by simp [forkOf] at forking) (fun wrong => by simp at wrong) (fun _ => rfl)
    (fun wrong => by simp [Born] at wrong) (Or.inl rfl) (by simp)
  · simp [State.setPc, reap, State.set, rest.1]
  · simp [State.setPc, reap, State.set, rest.2.1]

/-- What the loop of `exit` has done once it has passed over the slots in `l`. -/
structure Abandoned (initproc p : Fin NPROC) (l : List (Fin NPROC))
    (old new : Fin NPROC → Proc) : Prop where
  fields : ∀ i, (new i).remains = (old i).remains ∧ (new i).chan = (old i).chan
  parent : ∀ i, (new i).parent =
    if (old i).parent = some p ∧ i ∈ l then some initproc else (old i).parent
  state : ∀ i, (new i).state = (old i).state ∨
    (old i).state = .sleeping ∧ (new i).state = .runnable
  woken : (∃ i ∈ l, (old i).parent = some p ∧ (old i).state = .zombie) →
    ∀ j, ¬ ((new j).state = .sleeping ∧ (new j).chan = some (.slot initproc))

theorem abandon_one (initproc p : Fin NPROC) (proc : Fin NPROC → Proc) (i : Fin NPROC) :
    Abandoned initproc p [i] proc (abandon initproc p proc i) := by
  unfold abandon
  split
  · rename_i child
    have updated : Abandoned initproc p [i] proc
        (if (proc i).state = .zombie then
          wakeup1 (Function.update proc i { proc i with parent := some initproc })
            (some (.slot initproc))
        else Function.update proc i { proc i with parent := some initproc }) := by
      have slot : ∀ j, (Function.update proc i { proc i with parent := some initproc } j).remains =
            (proc j).remains ∧
          (Function.update proc i { proc i with parent := some initproc } j).chan = (proc j).chan ∧
          (Function.update proc i { proc i with parent := some initproc } j).state =
            (proc j).state ∧
          (Function.update proc i { proc i with parent := some initproc } j).parent =
            if (proc j).parent = some p ∧ j ∈ [i] then some initproc else (proc j).parent := by
        intro j
        by_cases same : j = i
        · subst same
          simp [child, Proc.remains]
        · simp [same]
      split
      · refine ⟨fun j => ?_, fun j => ?_, fun j => ?_, fun _ j => ?_⟩
        · obtain ⟨_,remains,chan⟩ := wake_fields (some (.slot initproc))
            (Function.update proc i { proc i with parent := some initproc } j)
          exact ⟨remains.trans (slot j).1, chan.trans (slot j).2.1⟩
        · exact (wake_fields (some (.slot initproc)) _).1.trans (slot j).2.2.2
        · rcases wake_state (some (.slot initproc))
            (Function.update proc i { proc i with parent := some initproc } j) with
            ⟨same,_⟩ | ⟨asleep,_,awake⟩
          · exact Or.inl (same.trans (slot j).2.2.1)
          · exact Or.inr ⟨(slot j).2.2.1.symm.trans asleep,awake⟩
        · intro asleep
          unfold wakeup1 at asleep
          rcases wake_state (some (.slot initproc))
            (Function.update proc i { proc i with parent := some initproc } j) with
            ⟨same,never⟩ | ⟨_,_,awake⟩
          · rw [same, (wake_fields _ _).2.2] at asleep
            exact never asleep
          · rw [awake] at asleep
            simp at asleep
      · rename_i alive
        refine ⟨fun j => ⟨(slot j).1,(slot j).2.1⟩, fun j => (slot j).2.2.2,
          fun j => Or.inl (slot j).2.2.1, fun ⟨k,mem,_,zombie⟩ => ?_⟩
        simp only [List.mem_singleton] at mem
        exact absurd (mem ▸ zombie) alive
    simpa using updated
  · rename_i other
    refine ⟨fun _ => ⟨rfl,rfl⟩, fun j => ?_, fun _ => Or.inl rfl, fun ⟨k,mem,child,_⟩ => ?_⟩
    · split
      · rename_i child
        simp only [List.mem_singleton] at child
        exact absurd (child.2 ▸ child.1) other
      · rfl
    · simp only [List.mem_singleton] at mem
      exact absurd (mem ▸ child) other

theorem abandon_all (initproc p : Fin NPROC) (l : List (Fin NPROC)) (proc : Fin NPROC → Proc) :
    Abandoned initproc p l proc (l.foldl (abandon initproc p) proc) := by
  induction l generalizing proc with
  | nil =>
    exact ⟨fun _ => ⟨rfl,rfl⟩, fun _ => by simp, fun _ => Or.inl rfl, fun ⟨_,mem,_⟩ => by simp at mem⟩
  | cons i rest ih =>
    have first := abandon_one initproc p proc i
    have later := ih (abandon initproc p proc i)
    simp only [List.foldl_cons]
    refine ⟨fun j => ?_, fun j => ?_, fun j => ?_, fun ⟨k,mem,child,zombie⟩ j asleep => ?_⟩
    · exact ⟨(later.fields j).1.trans (first.fields j).1, (later.fields j).2.trans (first.fields j).2⟩
    · rw [later.parent j, first.parent j]
      by_cases child : (proc j).parent = some p
      · by_cases same : j = i
        · subst same
          simp [child]
        · simp [child, same]
      · simp [child]
    · rcases later.state j with same | ⟨asleep,awake⟩
      · rcases first.state j with before | ⟨asleep,awake⟩
        · exact Or.inl (same.trans before)
        · exact Or.inr ⟨asleep,same.trans awake⟩
      · rcases first.state j with before | ⟨_,wrong⟩
        · exact Or.inr ⟨before.symm.trans asleep,awake⟩
        · rw [wrong] at asleep
          simp at asleep
    · rcases later.state j with same | ⟨_,awake⟩
      · by_cases here : k = i
        · apply first.woken ⟨k,by simp [here],child,zombie⟩ j
          rw [← same, ← (later.fields j).2]
          exact asleep
        · refine later.woken ⟨k, ?_, ?_, ?_⟩ j asleep
          · simpa [here] using mem
          · rw [first.parent k]
            simp [here, child]
          · rcases first.state k with before | ⟨wrong,_⟩
            · exact before.trans zombie
            · simp [zombie] at wrong
      · rw [awake] at asleep
        simp at asleep

/-- The table that the locked section of `exit` leaves. -/
structure Exited (s t : State) (p : Fin NPROC) : Prop where
  fields : ∀ i, (t.proc i).remains = (s.proc i).remains ∧ (t.proc i).chan = (s.proc i).chan
  parent : ∀ i, (t.proc i).parent =
    if (s.proc i).parent = some p then some s.initproc else (s.proc i).parent
  zombie : (t.proc p).state = .zombie
  state : ∀ i, i ≠ p → (t.proc i).state = (s.proc i).state ∨
    (s.proc i).state = .sleeping ∧ (t.proc i).state = .runnable
  parentWoken : ∀ q, (s.proc p).parent = some q → ∀ j, j ≠ p →
    ¬ ((t.proc j).state = .sleeping ∧ (t.proc j).chan = some (.slot q))
  initWoken : (∃ i, (s.proc i).parent = some p ∧ (s.proc i).state = .zombie) →
    ∀ j, j ≠ p → ¬ ((t.proc j).state = .sleeping ∧ (t.proc j).chan = some (.slot s.initproc))

theorem zombie_remains (p : Proc) : Proc.remains { p with state := .zombie } = p.remains := rfl

theorem exit_exited (s : State) (p : Fin NPROC) : Exited s (exit s p) p := by
  have loop := abandon_all s.initproc p (List.finRange NPROC)
    (wakeup1 s.proc ((s.proc p).parent.map .slot))
  have woke := fun i => wake_state ((s.proc p).parent.map .slot) (s.proc i)
  have kept := fun i => wake_fields ((s.proc p).parent.map .slot) (s.proc i)
  change Abandoned s.initproc p _ _ (handOver s p) at loop
  have there : ∀ i, i ≠ p → (exit s p).proc i = handOver s p i := by
    intro i other
    simp [exit, other]
  have fields : ∀ i, ((exit s p).proc i).remains = (s.proc i).remains ∧
      ((exit s p).proc i).chan = (s.proc i).chan ∧ ((exit s p).proc i).parent =
        if (s.proc i).parent = some p then some s.initproc else (s.proc i).parent := by
    intro i
    have parent := loop.parent i
    simp only [wakeup1, (kept i).1, List.mem_finRange, and_true] at parent
    have remains := (loop.fields i).1.trans (kept i).2.1
    have chan := (loop.fields i).2.trans (kept i).2.2
    by_cases same : i = p
    · subst same
      simp only [exit, Function.update_self, zombie_remains]
      exact ⟨remains,chan,parent⟩
    · rw [there i same]
      exact ⟨remains,chan,parent⟩
  refine ⟨fun i => ⟨(fields i).1,(fields i).2.1⟩, fun i => (fields i).2.2, by simp [exit], ?_, ?_, ?_⟩
  · intro i other
    rw [there i other]
    rcases loop.state i with same | ⟨asleep,awake⟩
    · rcases woke i with ⟨before,_⟩ | ⟨asleep,_,awake⟩
      · exact Or.inl (same.trans before)
      · exact Or.inr ⟨asleep,same.trans awake⟩
    · rcases woke i with ⟨before,_⟩ | ⟨_,_,wrong⟩
      · exact Or.inr ⟨before.symm.trans asleep,awake⟩
      · unfold wakeup1 at asleep
        rw [wrong] at asleep
        simp at asleep
  · intro q parent j other asleep
    rw [there j other] at asleep
    rcases loop.state j with same | ⟨_,awake⟩
    · rw [same, (loop.fields j).2] at asleep
      unfold wakeup1 at asleep
      rw [(kept j).2.2] at asleep
      rcases woke j with ⟨before,never⟩ | ⟨_,_,awake⟩
      · rw [before] at asleep
        rw [parent] at never
        exact never asleep
      · rw [awake] at asleep
        simp at asleep
    · rw [awake] at asleep
      simp at asleep
  · intro child j other asleep
    obtain ⟨i,parent,zombie⟩ := child
    rw [there j other] at asleep
    refine loop.woken ⟨i, List.mem_finRange i, (kept i).1.trans parent, ?_⟩ j asleep
    rcases woke i with ⟨same,_⟩ | ⟨wrong,_⟩
    · exact same.trans zombie
    · simp [zombie] at wrong

theorem Exited.alive {s t : State} {p : Fin NPROC} (exited : Exited s t p) {i : Fin NPROC}
    (other : i ≠ p) : Alive (t.proc i) ↔ Alive (s.proc i) := by
  rcases exited.state i other with same | ⟨asleep,awake⟩
  · simp [Alive, same]
  · simp [Alive, asleep, awake]

theorem tree_exit {s t : State} (tree : Tree s) {p : Fin NPROC} (exited : Exited s t p)
    (initproc : t.initproc = s.initproc) (pcs : t.pc = s.pc)
    (running : (s.proc p).state = .running) (here : s.pc p = .elsewhere) (notInit : p ≠ s.initproc) : Tree t := by
  have stable : ∀ i st, i ≠ p → st = .unused ∨ st = .embryo ∨ st = .zombie →
      ((t.proc i).state = st ↔ (s.proc i).state = st) := by
    intro i st other dead
    rcases exited.state i other with same | ⟨asleep,awake⟩
    · rw [same]
    · rw [asleep, awake]
      rcases dead with h | h | h <;> subst h <;> simp
  have notP : ∀ i st, (t.proc i).state = st → st ≠ .zombie → i ≠ p := by
    intro i st state other same
    subst same
    exact other (state.symm.trans exited.zombie)
  constructor
  · intro q stage np forking
    rw [pcs] at forking
    obtain ⟨embryo,active,parent⟩ := tree.forked q stage np forking
    have otherQ : q ≠ p := by
      intro same
      subst same
      simp [here, forkOf] at forking
    refine ⟨?_, ?_, ?_⟩
    · have otherNp : np ≠ p := by
        intro same
        rw [same, running] at embryo
        simp at embryo
      exact (stable np .embryo otherNp (Or.inr (Or.inl rfl))).mpr embryo
    · rcases exited.state q otherQ with same | ⟨_,awake⟩
      · rcases active with h | h
        · exact Or.inl (same.trans h)
        · exact Or.inr (same.trans h)
      · exact Or.inl awake
    · rw [exited.parent np, parent]
      split
      · simp [otherQ]
      · simp
  · rw [pcs]
    exact tree.single
  · intro np embryo
    rw [pcs]
    exact tree.embryo np ((stable np .embryo (notP np _ embryo (by simp)) (Or.inr (Or.inl rfl))).mp embryo)
  · intro i dead
    rw [pcs]
    by_cases same : i = p
    · rw [same]
      exact here
    · exact tree.dormant i (fun alive => dead ((exited.alive same).mpr alive))
  · intro i unused
    have before := (stable i .unused (notP i _ unused (by simp)) (Or.inl rfl)).mp unused
    rw [exited.parent i, tree.unused i before]
    simp
  · intro i born other
    rw [initproc] at other
    have bornBefore : Born (s.proc i) := by
      by_cases same : i = p
      · rw [same]
        exact alive_born (Or.inr (Or.inr running))
      · exact ⟨fun h => born.1 ((stable i _ same (Or.inl rfl)).mpr h),
          fun h => born.2 ((stable i _ same (Or.inr (Or.inl rfl))).mpr h)⟩
    rw [exited.parent i]
    split
    · exact ⟨s.initproc,rfl,(exited.alive (fun same => notInit same.symm)).mpr tree.init⟩
    · rename_i notChild
      obtain ⟨q,parent,alive⟩ := tree.parented i bornBefore other
      have otherQ : q ≠ p := fun same => notChild (same ▸ parent)
      exact ⟨q,parent,(exited.alive otherQ).mpr alive⟩
  · rw [initproc]
    exact (exited.alive (fun same => notInit same.symm)).mpr tree.init
  · rw [initproc, exited.parent, tree.root]
    simp
  · intro i
    rw [exited.parent i]
    split
    · rename_i child
      intro same
      simp only [Option.some.injEq] at same
      rw [← same, tree.root] at child
      simp at child
    · exact tree.other i
  · intro q z sleeping chan parent zombie
    have otherQ := notP q _ sleeping (by simp)
    have before : (s.proc q).state = .sleeping := by
      rcases exited.state q otherQ with same | ⟨asleep,_⟩
      · exact same.symm.trans sleeping
      · exact asleep
    rw [exited.parent z] at parent
    by_cases same : z = p
    · -- the exiting process itself: its parent was woken by name
      subst same
      rw [if_neg (tree.other z)] at parent
      exact exited.parentWoken q parent q otherQ ⟨sleeping,chan⟩
    · have zombie := (stable z .zombie same (Or.inr (Or.inr rfl))).mp zombie
      split at parent
      · rename_i child
        simp only [Option.some.injEq] at parent
        subst parent
        exact exited.initWoken ⟨z,child,zombie⟩ _ otherQ ⟨sleeping,chan⟩
      · exact tree.woken q z before ((exited.fields q).2 ▸ chan) parent zombie

theorem change_tree {s t : State} (tree : Tree s) (change : Change s t) : Tree t := by
  cases change with
  | sched sched => exact tree_sched tree sched
  | found p np running here unused => exact tree_found tree running here unused
  | stack p np page running here fresh =>
    have forking : forkOf (s.pc p) = some (.allocated, np) := by rw [here]; rfl
    obtain ⟨embryo,_,parent⟩ := tree.forked p _ np forking
    cases page with
    | none =>
      refine tree_fork tree p np
        { s.proc np with kstack := none, state := .unused } .elsewhere rfl rfl rfl
        running here (Or.inl ⟨rfl, by simpa using parent, rfl⟩)
    | some k =>
      exact tree_fork tree p np { s.proc np with kstack := some k }
        (.forking .stacked np) rfl rfl rfl running here
        (Or.inr (Or.inr ⟨embryo,.stacked,rfl,by simpa using parent⟩))
  | copy p np space running here fresh =>
    have forking : forkOf (s.pc p) = some (.stacked, np) := by rw [here]; rfl
    obtain ⟨embryo,_,parent⟩ := tree.forked p _ np forking
    have rest : (kfree s (s.proc np).kstack).proc = s.proc ∧
        (kfree s (s.proc np).kstack).pc = s.pc ∧
        (kfree s (s.proc np).kstack).initproc = s.initproc := by
      cases (s.proc np).kstack <;> exact ⟨rfl,rfl,rfl⟩
    cases space with
    | none =>
      refine tree_fork tree p np
        { s.proc np with pgdir := none, kstack := none, state := .unused }
        .elsewhere rest.2.2 ?_ ?_ running here (Or.inl ⟨rfl, by simpa using parent, rfl⟩)
      · simp [copyParent, State.setPc, State.set, rest.1]
      · simp [copyParent, State.setPc, State.set, rest.2.1]
    | some d =>
      exact tree_fork tree p np
        { s.proc np with pgdir := some d, parent := some p } (.forking .copied np)
        rfl rfl rfl running here (Or.inr (Or.inr ⟨embryo,.copied,rfl,rfl⟩))
  | publish p np running here =>
    have forking : forkOf (s.pc p) = some (.copied, np) := by rw [here]; rfl
    obtain ⟨_,_,parent⟩ := tree.forked p _ np forking
    exact tree_fork tree p np { s.proc np with state := .runnable }
      .elsewhere rfl rfl rfl running here (Or.inr (Or.inl ⟨rfl,parent,rfl⟩))
  | exit p running here other => exact tree_exit tree (exit_exited s p) rfl rfl running here other
  | reap p z running here parent zombie => exact tree_reap tree running here zombie

theorem tree_start {s : State} (start : Start s) : Tree s := by
  obtain ⟨stack,space,init,proc,pcs,_⟩ := start
  have first : s.proc 0 = ⟨.runnable, 1, none, none, false, some stack, some space⟩ := by simp [proc]
  have others : ∀ i, i ≠ 0 → s.proc i = unusedProc := by
    intro i other
    simp [proc, other]
  have parentless : ∀ i, (s.proc i).parent = none := by
    intro i
    by_cases same : i = 0
    · rw [same, first]
    · rw [others i same]; rfl
  constructor
  · intro p stage np forking
    simp [pcs, forkOf] at forking
  · intro p q stage stage' np forking
    simp [pcs, forkOf] at forking
  · intro np embryo
    by_cases same : np = 0
    · simp [same, first] at embryo
    · simp [others np same, unusedProc] at embryo
  · intro p _
    exact pcs p
  · intro p _
    exact parentless p
  · intro p born other
    by_cases same : p = 0
    · exact absurd (same.trans init.symm) other
    · simp [Born, others p same, unusedProc] at born
  · rw [init, first]
    exact Or.inr (Or.inl rfl)
  · exact parentless _
  · intro p
    simp [parentless p]
  · intro p z _ _ parent
    simp [parentless z] at parent

end Xv6ProcLife
