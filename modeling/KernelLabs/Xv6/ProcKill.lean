import KernelLabs.Xv6.ProcReap

/-!
The `killed` flag. `kill` looks for a pid and not for a process, so it may find a slot
that is free, and `fork` may give up a slot whose flag is set. The runs here are those of
the process table with faults of running processes (`trap.c`), and with a history that
tells for each slot whether its process has been named by `kill` or has faulted.
-/
namespace Xv6ProcKill
open Xv6Proc Xv6ProcLife Xv6ProcReap Transition

/-- The slot that `kill` finds. -/
def named (s : State) (pid : Int) : Option (Fin NPROC) :=
  (List.finRange NPROC).find? fun i => (s.proc i).pid == pid

/-- The value `kill` returns. -/
def killReturns (s : State) (pid : Int) : Int := if (named s pid).isSome then 0 else -1

/-- The default branch of `trap` for a process in user space. -/
def fault (s : State) (p : Fin NPROC) : State := s.set p { s.proc p with killed := true }

inductive Event where
  | step (a : Action)
  | fault (p : Fin NPROC)

structure History where
  table : State
  blamed : Fin NPROC → Bool

/-- The slot that `allocproc` gives to a new process. -/
def allocated (s : State) : Event → Option (Fin NPROC)
  | .step (.allocproc _) => (List.finRange NPROC).find? fun i => (s.proc i).state == .unused
  | _ => none

def blames (s : State) (i : Fin NPROC) : Event → Bool
  | .step (.kill pid) => (s.proc i).pid == pid
  | .fault p => i == p
  | _ => false

def nextTable (s : State) : Event → Option State
  | .step a => next s a
  | .fault p =>
    if (s.proc p).state = .running ∧ s.pc p = .elsewhere then some (fault s p) else none

def nextHistory (x : History) (e : Event) : Option History :=
  (nextTable x.table e).map fun t => ⟨t, fun i =>
    if allocated x.table e = some i then false else x.blamed i || blames x.table i e⟩

def killSystem : System History Event where
  start x := Start x.table ∧ ∀ i, x.blamed i = false
  next := nextHistory

/-- The number of the process is that of no process but of a free slot. -/
def Stale (s : State) (pid : Int) : Prop :=
  (∃ i, (s.proc i).state = .unused ∧ (s.proc i).pid = pid) ∧
  ∀ i, (s.proc i).state ≠ .unused → (s.proc i).pid ≠ pid

/-- `kill` finds no free slot, and `fork` gives up no process that was killed. -/
def Careful (s : State) : Event → Prop
  | .step (.kill pid) => ∀ i, named s pid = some i → (s.proc i).state ≠ .unused
  | .step (.kalloc p none) => ∀ np, s.pc p = .forking .allocated np → (s.proc np).killed = false
  | .step (.copyuvm p none) => ∀ np, s.pc p = .forking .stacked np → (s.proc np).killed = false
  | _ => True

/-- Free slots are not killed. -/
def FreshSlots (s : State) : Prop := ∀ i, (s.proc i).state = .unused → (s.proc i).killed = false

section Returns
variable {s : State} {pid : Int}

theorem named_some {i : Fin NPROC} (found : named s pid = some i) : (s.proc i).pid = pid := by
  have hit := List.find?_some found
  simpa using hit

theorem named_isSome : (named s pid).isSome = true ↔ ∃ i, (s.proc i).pid = pid := by
  unfold named
  rw [List.find?_isSome]
  simp

/-- `kill` tells whether there is a process unless the number is a stale one. -/
theorem returns_iff_not_stale :
    (killReturns s pid = 0 ↔ ∃ i, (s.proc i).state ≠ .unused ∧ (s.proc i).pid = pid) ↔ ¬ Stale s pid := by
  have zero : killReturns s pid = 0 ↔ ∃ i, (s.proc i).pid = pid := by
    unfold killReturns
    rw [← named_isSome]
    split <;> simp_all
  rw [zero]
  constructor
  · rintro same ⟨⟨i,_,pid⟩,none⟩
    obtain ⟨j,live,number⟩ := same.mp ⟨i,pid⟩
    exact none j live number
  · intro fresh
    constructor
    · rintro ⟨i,number⟩
      by_contra none
      push Not at none
      refine fresh ⟨⟨i, ?_, number⟩, none⟩
      by_contra live
      exact none i live number
    · rintro ⟨i,_,number⟩
      exact ⟨i,number⟩

end Returns

/-- A slot that is neither given out nor given up, and whose flag stays. -/
def Untouched (p q : Proc) : Prop :=
  q.killed = p.killed ∧ (q.state = .unused ↔ p.state = .unused)

section Steps
variable {s t : State}

theorem untouched_wake (chan : Option Chan) (p : Proc) : Untouched p (wake chan p) := by
  unfold wake
  split
  · rename_i asleep
    simp [Untouched, asleep.1]
  · exact ⟨rfl,Iff.rfl⟩

theorem Untouched.trans {p q r : Proc} (first : Untouched p q) (second : Untouched q r) : Untouched p r :=
  ⟨second.1.trans first.1, second.2.trans first.2⟩

theorem untouched_abandon (initproc p : Fin NPROC) (proc : Fin NPROC → Proc) (k i : Fin NPROC) :
    Untouched (proc i) (abandon initproc p proc k i) := by
  have passed : Untouched (proc i)
      (Function.update proc k { proc k with parent := some initproc } i) := by
    by_cases same : i = k
    · subst same
      simp [Untouched]
    · simp [same, Untouched]
  unfold abandon
  split
  · dsimp only
    split
    · exact passed.trans (untouched_wake _ _)
    · exact passed
  · exact ⟨rfl,Iff.rfl⟩

theorem untouched_handOver (s : State) (p i : Fin NPROC) : Untouched (s.proc i) (handOver s p i) := by
  have loop : ∀ (l : List (Fin NPROC)) proc, Untouched (proc i) (l.foldl (abandon s.initproc p) proc i) := by
    intro l
    induction l with
    | nil => exact fun _ => ⟨rfl,Iff.rfl⟩
    | cons k rest ih =>
      intro proc
      exact (untouched_abandon s.initproc p proc k i).trans (ih _)
  exact (untouched_wake _ _).trans (loop _ _)

/-- What one step does to the flag of a slot. -/
inductive Fate (s : State) (e : Event) (i : Fin NPROC) (q : Proc) : Prop
  | same (untouched : Untouched (s.proc i) q)
  | taken (new : allocated s e = some i) (free : (s.proc i).state = .unused)
      (state : q.state ≠ .unused) (flag : q.killed = (s.proc i).killed)
  | reaped (state : q.state = .unused) (flag : q.killed = false)
  | dropped (state : q.state = .unused) (flag : q.killed = (s.proc i).killed)
      (careful : Careful s e ↔ (s.proc i).killed = false)
  | marked (flag : q.killed = true) (state : q.state = .unused ↔ (s.proc i).state = .unused)
      (blamed : blames s i e = true) (careful : Careful s e ↔ (s.proc i).state ≠ .unused)

theorem fate_set {e : Event} {p : Fin NPROC} {q : Proc} (table : t.proc = Function.update s.proc p q)
    (here : Fate s e p q) (i : Fin NPROC) : Fate s e i (t.proc i) := by
  rw [table]
  by_cases same : i = p
  · subst same
    rw [Function.update_self]
    exact here
  · rw [Function.update_of_ne same]
    exact .same ⟨rfl,Iff.rfl⟩

theorem fate_kill (pid : Int) (i : Fin NPROC) : Fate s (.step (.kill pid)) i ((kill s pid).proc i) := by
  unfold kill
  split
  · exact .same ⟨rfl,Iff.rfl⟩
  · rename_i j found
    have careful : Careful s (.step (.kill pid)) ↔ (s.proc j).state ≠ .unused := by
      constructor
      · exact fun all => all j found
      · intro live k again
        have same : j = k := Option.some.inj (found.symm.trans again)
        exact same ▸ live
    refine fate_set rfl (.marked ?_ ?_ ?_ careful) i
    · split <;> rfl
    · dsimp only
      split
      · rename_i asleep
        simp [asleep]
      · rfl
    · have number := named_some found
      simpa [blames] using number

/-- A process that is there gets another state, channel, stack or address space. -/
theorem fate_live {e : Event} {p : Fin NPROC} {q : Proc} (table : t.proc = Function.update s.proc p q)
    (before : (s.proc p).state ≠ .unused) (after : q.state ≠ .unused)
    (flag : q.killed = (s.proc p).killed) (i : Fin NPROC) : Fate s e i (t.proc i) :=
  fate_set table (.same ⟨flag, fun free => absurd free after, fun free => absurd free before⟩) i

theorem fate_wait {p : Fin NPROC} (running : (s.proc p).state = .running) (i : Fin NPROC) (e : Event) :
    Fate s e i ((wait s p).proc i) := by
  unfold wait
  split
  · rename_i z _
    change Fate s e i ((reap s z).proc i)
    rw [(reap_rest s z).1]
    by_cases same : i = z
    · rw [same, Function.update_self]
      exact .reaped rfl rfl
    · rw [Function.update_of_ne same]
      exact .same ⟨rfl,Iff.rfl⟩
  · exact .same ⟨rfl,Iff.rfl⟩
  · exact fate_live rfl (by simp [running]) (by simp) (by rfl) i

theorem fate_scheduler {p : Fin NPROC} (runnable : (s.proc p).state = .runnable) (i : Fin NPROC) (e : Event) :
    Fate s e i ((scheduler s p).proc i) := by
  unfold scheduler
  split <;> exact fate_live rfl (by simp [runnable]) (by simp) (by rfl) i

theorem fate_allocproc (p i : Fin NPROC) :
    Fate s (.step (.allocproc p)) i ((allocproc s p).proc i) := by
  unfold allocproc
  split
  · exact .same ⟨rfl,Iff.rfl⟩
  · rename_i np found
    have free := List.find?_some found
    simp only [beq_iff_eq] at free
    refine fate_set rfl ?_ i
    exact .taken found free (by simp) rfl

theorem fate_exit {p : Fin NPROC} (running : (s.proc p).state = .running) (i : Fin NPROC) (e : Event) :
    Fate s e i ((exit s p).proc i) := by
  have handed := untouched_handOver s p i
  by_cases same : i = p
  · subst same
    refine .same ⟨?_, ?_⟩
    · simpa [exit] using handed.1
    · simp [exit, running]
  · simpa [exit, same] using Fate.same (e := e) handed

theorem fate_allocStack {p np : Fin NPROC} (tree : Tree s) (here : s.pc p = .forking .allocated np)
    (page : Option Nat) (i : Fin NPROC) :
    Fate s (.step (.kalloc p page)) i ((allocStack s p np page).proc i) := by
  have embryo := (tree.forked p .allocated np (by rw [here]; rfl)).1
  cases page with
  | none =>
    refine fate_set rfl ?_ i
    refine .dropped rfl rfl ⟨fun all => all np here, fun clear k again => ?_⟩
    rw [here] at again
    simp only [Pc.forking.injEq, true_and] at again
    exact again ▸ clear
  | some k => exact fate_live rfl (by simp [embryo]) (by simp [embryo]) (by rfl) i

theorem fate_copyParent {p np : Fin NPROC} (tree : Tree s) (here : s.pc p = .forking .stacked np)
    (space : Option Nat) (i : Fin NPROC) :
    Fate s (.step (.copyuvm p space)) i ((copyParent s p np space).proc i) := by
  have embryo := (tree.forked p .stacked np (by rw [here]; rfl)).1
  cases space with
  | none =>
    refine fate_set (copy_none_rest s p np).1 ?_ i
    refine .dropped rfl rfl ⟨fun all => all np here, fun clear k again => ?_⟩
    rw [here] at again
    simp only [Pc.forking.injEq, true_and] at again
    exact again ▸ clear
  | some k => exact fate_live rfl (by simp [embryo]) (by simp [embryo]) (by rfl) i

theorem fate_next {e : Event} (tree : Tree s) (run : nextTable s e = some t) (i : Fin NPROC) :
    Fate s e i (t.proc i) := by
  cases e with
  | fault p =>
    simp only [nextTable, Option.ite_none_right_eq_some, Option.some.injEq] at run
    obtain ⟨⟨running,_⟩,rfl⟩ := run
    refine fate_set rfl ?_ i
    exact .marked rfl Iff.rfl (by simp [blames]) ⟨fun _ => by simp [running], fun _ => trivial⟩
  | step a =>
    change next s a = some t at run
    cases a with
    | scheduler p =>
      simp only [next, Option.ite_none_right_eq_some, Option.some.injEq] at run
      obtain ⟨runnable,rfl⟩ := run
      exact fate_scheduler runnable i _
    | yield p =>
      simp only [next, Option.ite_none_right_eq_some, Option.some.injEq] at run
      obtain ⟨⟨running,_⟩,rfl⟩ := run
      exact fate_live rfl (by simp [running]) (by simp) (by rfl) i
    | sleep p addr =>
      simp only [next, Option.ite_none_right_eq_some, Option.some.injEq] at run
      obtain ⟨⟨running,_⟩,rfl⟩ := run
      exact fate_live rfl (by simp [running]) (by simp) (by rfl) i
    | wakeup chan =>
      simp only [next, Option.some.injEq] at run
      subst run
      exact .same (untouched_wake _ _)
    | kill pid =>
      simp only [next, Option.some.injEq] at run
      subst run
      exact fate_kill pid i
    | allocproc p =>
      simp only [next, Option.ite_none_right_eq_some, Option.some.injEq] at run
      obtain ⟨_,rfl⟩ := run
      exact fate_allocproc p i
    | kalloc p page =>
      simp only [next] at run
      split at run
      · rename_i np here
        simp only [Option.ite_none_right_eq_some, Option.some.injEq] at run
        obtain ⟨_,rfl⟩ := run
        exact fate_allocStack tree here page i
      · simp at run
    | copyuvm p space =>
      simp only [next] at run
      split at run
      · rename_i np here
        simp only [Option.ite_none_right_eq_some, Option.some.injEq] at run
        obtain ⟨_,rfl⟩ := run
        exact fate_copyParent tree here space i
      · simp at run
    | publish p =>
      simp only [next] at run
      split at run
      · rename_i np here
        simp only [Option.ite_none_right_eq_some, Option.some.injEq] at run
        obtain ⟨_,rfl⟩ := run
        have embryo := (tree.forked p .copied np (by rw [here]; rfl)).1
        exact fate_live rfl (by simp [embryo]) (by simp) (by rfl) i
      · simp at run
    | exit p =>
      simp only [next, Option.ite_none_right_eq_some, Option.some.injEq] at run
      obtain ⟨⟨running,_⟩,rfl⟩ := run
      exact fate_exit running i _
    | wait p =>
      simp only [next, Option.ite_none_right_eq_some, Option.some.injEq] at run
      obtain ⟨⟨running,_⟩,rfl⟩ := run
      exact fate_wait running i _

/-- The condition fails only at a slot that the step frees or marks. -/
theorem careful_of_fates {e : Event} (run : nextTable s e = some t)
    (fresh : FreshSlots t) : Careful s e := by
  cases e with
  | fault p => trivial
  | step a =>
    change next s a = some t at run
    cases a with
    | kill pid =>
      intro i found free
      simp only [next, Option.some.injEq] at run
      subst run
      have flag := fresh i
      unfold kill at flag
      unfold named at found
      simp [found, State.set, free] at flag
    | kalloc p page =>
      cases page with
      | some k => trivial
      | none =>
        intro np here
        simp only [next, here, Option.ite_none_right_eq_some, Option.some.injEq] at run
        obtain ⟨_,rfl⟩ := run
        have flag := fresh np
        simpa [allocStack, State.set, State.setPc] using flag
    | copyuvm p space =>
      cases space with
      | some k => trivial
      | none =>
        intro np here
        simp only [next, here, Option.ite_none_right_eq_some, Option.some.injEq] at run
        obtain ⟨_,rfl⟩ := run
        have flag := fresh np
        rw [(copy_none_rest s p np).1] at flag
        simpa using flag
    | scheduler p => trivial
    | yield p => trivial
    | sleep p addr => trivial
    | wakeup chan => trivial
    | allocproc p => trivial
    | publish p => trivial
    | exit p => trivial
    | wait p => trivial

theorem tree_fault {p : Fin NPROC} (tree : Tree s) : Tree (fault s p) := by
  have same : ∀ i, ((fault s p).proc i).state = (s.proc i).state ∧
      ((fault s p).proc i).parent = (s.proc i).parent ∧ ((fault s p).proc i).chan = (s.proc i).chan ∧
      ((fault s p).proc i).remains = (s.proc i).remains := by
    intro i
    by_cases here : i = p
    · subst here
      simp [fault, State.set, Proc.remains]
    · simp [fault, State.set, here]
  apply tree_sched tree
  refine ⟨⟨rfl,rfl,rfl,rfl,rfl,rfl,rfl⟩,fun i => ⟨(same i).2.1,(same i).2.2.2⟩,fun i => Or.inl (same i).1,
    fun _ => rfl,fun i _ active => ?_,fun _ _ there => there,fun i sleeping chan => Or.inl ⟨?_,?_⟩⟩
  · unfold Active at active ⊢
    rw [(same i).1]
    exact active
  · exact (same i).1.symm.trans sleeping
  · exact (same i).2.2.1.symm.trans chan

theorem tree_next {e : Event} (tree : Tree s) (run : nextTable s e = some t) : Tree t := by
  cases e with
  | step a => exact change_tree tree (next_change run)
  | fault p =>
    simp only [nextTable, Option.ite_none_right_eq_some, Option.some.injEq] at run
    obtain ⟨_,rfl⟩ := run
    exact tree_fault tree

theorem fresh_iff_careful {e : Event} (tree : Tree s) (fresh : FreshSlots s) (run : nextTable s e = some t) :
    FreshSlots t ↔ Careful s e := by
  refine ⟨careful_of_fates run, fun careful i free => ?_⟩
  cases fate_next tree run i with
  | same untouched =>
    rw [untouched.1]
    exact fresh i (untouched.2.mp free)
  | taken _ _ state _ => exact absurd free state
  | reaped _ flag => exact flag
  | dropped _ flag only => exact flag.trans (only.mp careful)
  | marked _ state _ only => exact absurd (state.mp free) (only.mp careful)

end Steps

section Runs

/-- Every killed process has been named by `kill`, or has faulted. -/
def KilledForCause (x : History) : Prop :=
  ∀ i, (x.table.proc i).state ≠ .unused → (x.table.proc i).killed = true → x.blamed i = true

structure KillInv (x : History) : Prop where
  tree : Tree x.table
  fresh : FreshSlots x.table
  cause : KilledForCause x

theorem killInv_start {x : History} (start : killSystem.start x) : KillInv x := by
  obtain ⟨boot,_⟩ := start
  have clear : ∀ i, (x.table.proc i).killed = false := by
    obtain ⟨_,_,_,proc,_⟩ := boot
    intro i
    rw [proc]
    by_cases first : i = 0
    · simp [first]
    · simp [first, unusedProc]
  refine ⟨tree_start boot, fun i _ => clear i, fun i _ killed => ?_⟩
  rw [clear i] at killed
  simp at killed

theorem killInv_next {x y : History} {e : Event} (inv : KillInv x) (careful : Careful x.table e)
    (run : nextHistory x e = some y) : KillInv y := by
  simp only [nextHistory, Option.map_eq_some_iff] at run
  obtain ⟨t,step,rfl⟩ := run
  refine ⟨tree_next inv.tree step, (fresh_iff_careful inv.tree inv.fresh step).mpr careful,
    fun i live killed => ?_⟩
  dsimp only at live killed ⊢
  cases fate_next inv.tree step i with
  | same untouched =>
    rw [untouched.1] at killed
    have before : (x.table.proc i).state ≠ .unused := fun free => live (untouched.2.mpr free)
    by_cases new : allocated x.table e = some i
    · -- a slot that is given out was free
      cases e with
      | fault p => simp [allocated] at new
      | step a =>
        cases a with
        | allocproc p =>
          have free := List.find?_some new
          simp only [beq_iff_eq] at free
          exact absurd free before
        | _ => simp [allocated] at new
    · rw [if_neg new, inv.cause i before killed]
      rfl
  | taken _ free _ flag =>
    rw [flag, inv.fresh i free] at killed
    simp at killed
  | reaped state _ => exact absurd state live
  | dropped state _ _ => exact absurd state live
  | marked _ state blamed _ =>
    have old : allocated x.table e ≠ some i := by
      cases e with
      | fault p => simp [allocated]
      | step a => cases a <;> simp_all [allocated, blames]
    rw [if_neg old, blamed, Bool.or_true]

/-- In runs where `kill` finds no free slot and no killed process is given up by `fork`, free
    slots are not killed and every process that is killed was named or has faulted; such
    steps are the only ones that keep the free slots so. The answer of `kill` is right for
    every number that is not stale. -/
theorem kill_targets_live {x : History}
    (reach : killSystem.Reach (fun x e => Careful x.table e) x) :
    (∀ pid, (killReturns x.table pid = 0 ↔
      ∃ i, (x.table.proc i).state ≠ .unused ∧ (x.table.proc i).pid = pid) ↔ ¬ Stale x.table pid) ∧
    FreshSlots x.table ∧ KilledForCause x ∧
    ∀ e y, nextHistory x e = some y → (FreshSlots y.table ↔ Careful x.table e) := by
  have inv : KillInv x := System.reach_invariant killSystem (fun _ => killInv_start)
    (fun _ _ _ before careful step => killInv_next before careful step) reach
  refine ⟨fun _ => returns_iff_not_stale, inv.fresh, inv.cause, fun e y run => ?_⟩
  simp only [nextHistory, Option.map_eq_some_iff] at run
  obtain ⟨t,step,rfl⟩ := run
  exact fresh_iff_careful inv.tree inv.fresh step

instance (s : State) (e : Event) : Decidable (Careful s e) :=
  match e with
  | .step (.kill pid) => inferInstanceAs (Decidable (∀ i, named s pid = some i → (s.proc i).state ≠ .unused))
  | .step (.kalloc p none) =>
    inferInstanceAs (Decidable (∀ np, s.pc p = .forking .allocated np → (s.proc np).killed = false))
  | .step (.copyuvm p none) =>
    inferInstanceAs (Decidable (∀ np, s.pc p = .forking .stacked np → (s.proc np).killed = false))
  | .fault _ | .step (.scheduler _) | .step (.yield _) | .step (.sleep _ _) | .step (.wakeup _)
  | .step (.allocproc _) | .step (.kalloc _ (some _)) | .step (.copyuvm _ (some _)) | .step (.publish _)
  | .step (.exit _) | .step (.wait _) => .isTrue trivial

def bootedHistory : History := ⟨booted, fun _ => false⟩

theorem bootedHistory_start : killSystem.start bootedHistory := ⟨booted_start, fun _ => rfl⟩

/-- `init` forks. -/
def forks : List Event :=
  [.step (.allocproc 0), .step (.kalloc 0 (some 1)), .step (.copyuvm 0 (some 1)), .step (.publish 0)]

/-- The child is killed under its own number. -/
def killedChild : History :=
  (System.exec (System.guarded (fun x e => decide (Careful x.table e)) nextHistory) bootedHistory
    (.step (.scheduler 0) :: forks ++ [.step (.kill 2)])).get (by decide +kernel)

theorem kill_targets_live_child : (killedChild.table.proc 1).killed = true ∧
    FreshSlots killedChild.table ∧ KilledForCause killedChild := by
  have reach : killSystem.Reach (fun x e => Careful x.table e) killedChild :=
    System.guarded_reach (fun x e => decide (Careful x.table e)) (fun _ _ ok => of_decide_eq_true ok) _
      (.start bootedHistory_start) (Option.some_get _).symm
  have law := kill_targets_live reach
  exact ⟨by decide, law.2.1, law.2.2.1⟩

/-- `kill(0)`, and then a fork. -/
def bornKilled : History :=
  (System.exec nextHistory bootedHistory (.step (.kill 0) :: .step (.scheduler 0) :: forks)).get
    (by decide +kernel)

/-- A child is killed before it is set up, and the fork fails. -/
def droppedKilled : History :=
  (System.exec nextHistory bootedHistory [.step (.scheduler 0), .step (.allocproc 0),
    .step (.kalloc 0 (some 1)), .step (.kill 2), .step (.copyuvm 0 none)]).get (by decide +kernel)

/-- `kill(0)` succeeds though there is no process 0, and the next process starts killed. A
    fork that fails leaves the flag and the number behind. -/
theorem stale_kill : killSystem.start bootedHistory ∧ killReturns bootedHistory.table 0 = 0 ∧
    (∀ i, (bootedHistory.table.proc i).state ≠ .unused → (bootedHistory.table.proc i).pid ≠ 0) ∧
    killSystem.Reach System.Free bornKilled ∧ (bornKilled.table.proc 1).state = .runnable ∧
    (bornKilled.table.proc 1).killed = true ∧ bornKilled.blamed 1 = false ∧
    killSystem.Reach System.Free droppedKilled ∧ ¬ FreshSlots droppedKilled.table ∧
    killReturns droppedKilled.table 2 = 0 ∧ Stale droppedKilled.table 2 := by
  have born : killSystem.Reach System.Free bornKilled :=
    System.exec_reach _ (fun _ _ _ => trivial) (.start bootedHistory_start) (Option.some_get _).symm
  have dropped : killSystem.Reach System.Free droppedKilled :=
    System.exec_reach _ (fun _ _ _ => trivial) (.start bootedHistory_start) (Option.some_get _).symm
  have facts : killReturns bootedHistory.table 0 = 0 ∧
      (∀ i, (bootedHistory.table.proc i).state ≠ .unused → (bootedHistory.table.proc i).pid ≠ 0) ∧
      (bornKilled.table.proc 1).state = .runnable ∧ (bornKilled.table.proc 1).killed = true ∧
      bornKilled.blamed 1 = false := by decide
  have after : (droppedKilled.table.proc 1).state = .unused ∧ (droppedKilled.table.proc 1).killed = true ∧
      killReturns droppedKilled.table 2 = 0 ∧ (droppedKilled.table.proc 1).pid = 2 ∧
      ∀ i, (droppedKilled.table.proc i).state ≠ .unused → (droppedKilled.table.proc i).pid ≠ 2 := by
    decide
  obtain ⟨zero,none,runnable,killed,blameless⟩ := facts
  obtain ⟨free,flag,answer,number,nobody⟩ := after
  refine ⟨bootedHistory_start, zero, none, born, runnable, killed, blameless, dropped, fun fresh => ?_,
    answer, ⟨1,free,number⟩, nobody⟩
  have clear := fresh 1 free
  rw [flag] at clear
  simp at clear

end Runs
end Xv6ProcKill
