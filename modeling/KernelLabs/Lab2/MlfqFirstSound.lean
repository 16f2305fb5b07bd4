import KernelLabs.Lab2.MlfqFirstMoves
import KernelLabs.Lib.Leases

/-!
Who is at work on a slot: the CPU that runs its process or to which the process has just
switched back, the CPU in `userinit`, or the process in `fork` that is making it. In
every run a slot has at most one of them, and its state says which.
-/
namespace MlfqFirstSound
open MlfqFirst MlfqFirstMoves Leases Transition
open Xv6Proc (NPROC Procstate Chan Stage)
open Mlfq (MAXPRIORITY DEFAULT_BUDGET Action int)

section Tables
variable {t u v : Table} {why : Fin NPROC → Prop}

/-- Some sleepers become runnable, each for the reason `why`, and no other state changes. -/
structure Rouses (why : Fin NPROC → Prop) (t u : Table) : Prop where
  chan : ∀ q, (u.proc q).chan = (t.proc q).chan
  state : ∀ q, (u.proc q).state = (t.proc q).state ∨
    (t.proc q).state = .sleeping ∧ (u.proc q).state = .runnable ∧ why q

theorem Rouses.refl (why : Fin NPROC → Prop) (t : Table) : Rouses why t t :=
  ⟨fun _ => rfl, fun _ => Or.inl rfl⟩

theorem Rouses.trans (first : Rouses why t u) (second : Rouses why u v) : Rouses why t v := by
  refine ⟨fun q => (second.chan q).trans (first.chan q), fun q => ?_⟩
  rcases first.state q with same | ⟨asleep,awake,reason⟩
  · rcases second.state q with again | ⟨asleep,awake,reason⟩
    · exact Or.inl (again.trans same)
    · exact Or.inr ⟨same ▸ asleep, awake, reason⟩
  · rcases second.state q with again | ⟨asleep',_,_⟩
    · exact Or.inr ⟨asleep, again.trans awake, reason⟩
    · rw [awake] at asleep'
      exact nomatch asleep'

theorem Rouses.mono {more : Fin NPROC → Prop} (weaker : ∀ q, why q → more q) (rouses : Rouses why t u) :
    Rouses more t u :=
  ⟨rouses.chan, fun q => (rouses.state q).imp_right fun ⟨asleep,awake,reason⟩ =>
    ⟨asleep, awake, weaker q reason⟩⟩

/-- A loop over slots whose turns rouse sleepers, judged by their channels at its start. -/
theorem rouses_foldl {f : Table → Fin NPROC → Table}
    (turn : ∀ u p, (∀ q, (u.proc q).chan = (t.proc q).chan) → Rouses why u (f u p))
    (l : List (Fin NPROC)) : Rouses why t (l.foldl f t) := by
  suffices from_here : ∀ u, Rouses why t u → Rouses why t (l.foldl f u) from
    from_here t (Rouses.refl why t)
  induction l with
  | nil => exact fun u before => before
  | cons p rest ih =>
    intro u before
    exact ih (f u p) (before.trans (turn u p before.chan))

theorem set_rouses {p : Fin NPROC} {me : Proc} (chan : me.chan = (t.proc p).chan)
    (state : me.state = (t.proc p).state ∨ (t.proc p).state = .sleeping ∧ me.state = .runnable ∧ why p) :
    Rouses why t (t.set p me) := by
  constructor <;> intro q <;> by_cases same : q = p
  · subst same
    simpa [Table.set] using chan
  · simp [Table.set, same]
  · subst same
    simpa [Table.set] using state
  · exact Or.inl (by simp [Table.set, same])

theorem wakeOne_rouses (chan : Option Chan) (t : Table) (p : Fin NPROC) :
    Rouses (fun q => (t.proc q).chan = chan) t (wakeOne chan t p) := by
  unfold wakeOne
  split
  · rename_i due
    have woken : Rouses (fun q => (t.proc q).chan = chan) t
        (t.set p { t.proc p with state := .runnable, woken := true }) :=
      set_rouses rfl (Or.inr ⟨due.1, rfl, due.2⟩)
    exact ⟨woken.chan, woken.state⟩
  · exact Rouses.refl _ t

theorem wakeup1_rouses (chan : Option Chan) (t : Table) :
    Rouses (fun q => (t.proc q).chan = chan) t (wakeup1 t chan) :=
  rouses_foldl (fun u p same => (wakeOne_rouses chan u p).mono fun q here => same q ▸ here) _

theorem kill_rouses (t : Table) (pid : Int) : Rouses (fun q => (t.proc q).pid = pid) t (kill t pid) := by
  unfold kill
  split
  · exact Rouses.refl _ t
  · rename_i i hit
    have named := List.find?_some hit
    simp only [beq_iff_eq] at named
    dsimp only
    split
    · rename_i asleep
      exact set_rouses rfl (Or.inr ⟨asleep, rfl, named⟩)
    · exact set_rouses rfl (Or.inl rfl)

theorem abandon_rouses (initproc : Option (Fin NPROC)) (p : Fin NPROC) (t : Table) (i : Fin NPROC) :
    Rouses (fun q => (t.proc q).chan = initproc.map .slot) t (abandon initproc p t i) := by
  unfold abandon
  split
  · have passed : Rouses (fun q => (t.proc q).chan = initproc.map .slot) t
        (t.set i { t.proc i with parent := initproc }) := set_rouses rfl (Or.inl rfl)
    dsimp only
    split
    · refine passed.trans ((wakeup1_rouses _ _).mono fun q here => ?_)
      rw [← passed.chan q]
      exact here
    · exact passed
  · exact Rouses.refl _ t

/-- What may rouse a sleeper when `p` exits: `wakeup1` on its parent and on `initproc`. -/
def ExitWakes (t : Table) (initproc : Option (Fin NPROC)) (p q : Fin NPROC) : Prop :=
  (t.proc q).chan = (t.proc p).parent.map .slot ∨ (t.proc q).chan = initproc.map .slot

theorem exit_state (t : Table) (initproc : Option (Fin NPROC)) (p : Fin NPROC) :
    ((exit t initproc p).proc p).state = .zombie ∧
      ∀ q, q ≠ p → ((exit t initproc p).proc q).state = (t.proc q).state ∨
        (t.proc q).state = .sleeping ∧ ((exit t initproc p).proc q).state = .runnable ∧
          ExitWakes t initproc p q := by
  have first : Rouses (ExitWakes t initproc p) t (wakeup1 t ((t.proc p).parent.map .slot)) :=
    (wakeup1_rouses _ t).mono fun q here => Or.inl here
  have rest : Rouses (ExitWakes t initproc p) t ((List.finRange NPROC).foldl (abandon initproc p)
      (wakeup1 t ((t.proc p).parent.map .slot))) := by
    refine first.trans (rouses_foldl (fun u i same => ?_) _)
    refine (abandon_rouses initproc p u i).mono fun q here => Or.inr ?_
    rw [← first.chan q, ← same q]
    exact here
  unfold exit
  dsimp only
  generalize (List.finRange NPROC).foldl (abandon initproc p)
    (wakeup1 t ((t.proc p).parent.map .slot)) = u at rest ⊢
  constructor
  · simp [remove, Table.setQueue, Table.set]
  · intro q away
    have same : ((remove (u.set p { u.proc p with state := .zombie }) p).proc q) = u.proc q := by
      simp [remove, Table.setQueue, Table.set, away]
    rw [same]
    exact rest.state q

theorem promote_rouses (t : Table) : Rouses (fun _ => False) t (promote t) := by
  refine rouses_foldl (fun u p _ => ?_) _
  unfold promoteOne
  dsimp only
  split
  · have raised : Rouses (fun _ => False) u (u.set p { u.proc p with
        original_priority := (u.proc p).priority, priority := (u.proc p).priority + 1
        budget := DEFAULT_BUDGET }) := set_rouses rfl (Or.inl rfl)
    exact ⟨raised.chan, raised.state⟩
  · exact Rouses.refl _ u

theorem setpriority_rouses (t : Table) (pid priority : Int) :
    Rouses (fun _ => False) t (setpriority t pid priority) := by
  unfold setpriority
  split
  · exact Rouses.refl _ t
  · split
    · exact Rouses.refl _ t
    · exact set_rouses rfl (Or.inl rfl)

theorem demote_state (t : Table) (p q : Fin NPROC) : ((demote t p).proc q).state = (t.proc q).state := by
  unfold demote
  dsimp only
  split
  · by_cases same : q = p
    · subst same
      simp [append, remove, Table.setQueue, Table.set]
    · simp [append, remove, Table.setQueue, Table.set, same]
  · rfl

theorem toTail_proc (t : Table) (p : Fin NPROC) : (toTail t p).proc = t.proc := by
  unfold toTail
  dsimp only
  split <;> rfl

theorem setState_state (t : Table) (p q : Fin NPROC) (state : Procstate) :
    ((setState t p state).proc q).state = if q = p then state else (t.proc q).state := by
  by_cases same : q = p
  · subst same
    simp [setState, Table.set]
  · simp [setState, Table.set, same]

/-- Whatever state the process came back in, it is `RUNNABLE` afterwards. -/
theorem requeue_state (t : Table) (p q : Fin NPROC) (ran : Int) :
    ((requeue t p ran).proc q).state = if q = p then .runnable else (t.proc q).state := by
  unfold requeue
  dsimp only
  generalize made : t.set p { t.proc p with budget := int ((t.proc p).budget - ran) } = u
  have charged : (u.proc q).state = (t.proc q).state := by
    rw [← made]
    by_cases same : q = p
    · subst same
      simp [Table.set]
    · simp [Table.set, same]
  have moved : ((if (u.proc p).budget ≤ 0 then demote u p else toTail u p).proc q).state = (t.proc q).state := by
    split
    · exact (demote_state u p q).trans charged
    · rw [toTail_proc]
      exact charged
  generalize (if (u.proc p).budget ≤ 0 then demote u p else toTail u p) = w at moved
  have last := setState_state w p q .runnable
  unfold setState at last
  rw [last, moved]

theorem doze_state (t : Table) (p q : Fin NPROC) (chan : Chan) :
    ((doze t p chan).proc q).state = if q = p then .sleeping else (t.proc q).state := by
  by_cases same : q = p
  · subst same
    simp [doze, Table.set]
  · simp [doze, Table.set, same]

theorem found_state (t : Table) (np q : Fin NPROC) (pid : Int) :
    ((found t np pid).proc q).state = if q = np then .embryo else (t.proc q).state := by
  by_cases same : q = np
  · subst same
    simp [found, append, Table.setQueue, Table.set]
  · simp [found, append, Table.setQueue, Table.set, same]

theorem reap_state (t : Table) (z q : Fin NPROC) :
    ((reap t z).proc q).state = if q = z then .unused else (t.proc q).state := by
  by_cases same : q = z
  · subst same
    simp [reap, Table.set]
  · simp [reap, Table.set, same]

end Tables

/-- What is being done with a slot. -/
inductive Phase where
  | making
  | running
  | stopped

def Phase.fits : Phase → Procstate → Prop
  | .making, state => state = .embryo
  | .running, state => state = .running
  | .stopped, state => state = .runnable ∨ state = .sleeping ∨ state = .zombie

def ofCpu : Cpu → Option (Fin NPROC × Phase)
  | .setup p => some (p, .making)
  | .ran _ _ p => some (p, .running)
  | .back _ _ p => some (p, .stopped)
  | _ => none

def ofPc : Pc → Option (Fin NPROC × Phase)
  | .forking _ np => some (np, .making)
  | _ => none

/-- The CPU is inside the locked part of `scheduler`. -/
def Holds : Cpu → Prop
  | .scan _ => True
  | .back _ _ _ => True
  | _ => False

section Runs
variable {C : Type}

def claim (s : State C) : C ⊕ Fin NPROC → Option (Fin NPROC × Phase)
  | .inl c => ofCpu (s.cpu c)
  | .inr q => ofPc (s.pc q)

structure Sound (s : State C) : Prop where
  leased : Leased (claim s) fun p k => k.fits (s.proc p).state
  held : ∀ c, Holds (s.cpu c) → s.lock = some c

/-- What a step does to the state of a slot that is not its own. -/
def Bystands (s t : State C) (q : Fin NPROC) : Prop :=
  (t.proc q).state = (s.proc q).state ∨
    (s.proc q).state = .sleeping ∧ (t.proc q).state = .runnable

variable {s t u : State C}

theorem Rouses.bystands {why : Fin NPROC → Prop} (rouses : Rouses why s.toTable t.toTable) (q : Fin NPROC) :
    Bystands s t q :=
  (rouses.state q).imp_right fun ⟨asleep,awake,_⟩ => ⟨asleep,awake⟩

theorem fits_bystands {q : Fin NPROC} {k : Phase} (fits : k.fits (s.proc q).state) (change : Bystands s t q) :
    k.fits (t.proc q).state := by
  rcases change with same | ⟨asleep,awake⟩
  · exact same ▸ fits
  · rw [asleep] at fits
    rw [awake]
    cases k with
    | making => exact nomatch fits
    | running => exact nomatch fits
    | stopped => exact Or.inl rfl

theorem Sound.nobody (sound : Sound s) {p : Fin NPROC} (none : ∀ k : Phase, ¬ k.fits (s.proc p).state)
    (v : C ⊕ Fin NPROC) (k : Phase) : claim s v ≠ some (p, k) :=
  sound.leased.idle none v k

theorem Sound.alone (sound : Sound s) {v : C ⊕ Fin NPROC} {p : Fin NPROC} {k : Phase}
    (mine : claim s v = some (p, k)) (w : C ⊕ Fin NPROC) (l : Phase) (busy : claim s w = some (p, l)) : w = v :=
  sound.leased.alone w v p l k busy mine

/-- No other CPU is in the locked part while this one has the lock or could take it. -/
theorem Sound.apart (sound : Sound s) {c d : C} (access : s.lock = none ∨ s.lock = some c)
    (holds : Holds (s.cpu d)) : d = c := by
  have held := sound.held d holds
  rcases access with free | mine
  · rw [free] at held
    exact nomatch held
  · exact Option.some.inj (held.symm.trans mine)

theorem unused_fits {p : Fin NPROC} (unused : (s.proc p).state = .unused) (k : Phase) :
    ¬ k.fits (s.proc p).state := by
  rw [unused]
  cases k <;> simp [Phase.fits]

/-- A runnable process is at no CPU when another one looks at its entry, nor is a zombie
    when its parent looks at it. -/
theorem Sound.off_cpu (sound : Sound s) {c : C} {p : Fin NPROC} (access : s.lock = none ∨ s.lock = some c)
    (away : ∀ k, ofCpu (s.cpu c) ≠ some (p, k))
    (waits : (s.proc p).state = .runnable ∨ (s.proc p).state = .zombie) (v : C ⊕ Fin NPROC) (k : Phase) :
    claim s v ≠ some (p, k) := by
  intro busy
  have fits := sound.leased.agree v p k busy
  cases v with
  | inl d =>
    cases there : s.cpu d with
    | back i start q =>
      have same : d = c := sound.apart access (by rw [there]; trivial)
      exact away k (same ▸ busy)
    | ran i start q =>
      simp only [claim, there, ofCpu, Option.some.injEq, Prod.mk.injEq] at busy
      rw [← busy.2] at fits
      rcases waits with h | h <;> simp [Phase.fits, h] at fits
    | setup q =>
      simp only [claim, there, ofCpu, Option.some.injEq, Prod.mk.injEq] at busy
      rw [← busy.2] at fits
      rcases waits with h | h <;> simp [Phase.fits, h] at fits
    | boot => simp [claim, there, ofCpu] at busy
    | top => simp [claim, there, ofCpu] at busy
    | scan i => simp [claim, there, ofCpu] at busy
  | inr q =>
    cases there : s.pc q with
    | forking stage np =>
      simp only [claim, there, ofPc, Option.some.injEq, Prod.mk.injEq] at busy
      rw [← busy.2] at fits
      rcases waits with h | h <;> simp [Phase.fits, h] at fits
    | elsewhere => simp [claim, there, ofPc] at busy
    | sleeping => simp [claim, there, ofPc] at busy
    | waiting => simp [claim, there, ofPc] at busy
    | exited => simp [claim, there, ofPc] at busy

/-- Steps after which everybody has what he had, or less. -/
theorem sound_keep (sound : Sound s) (cpus : ∀ c, ofCpu (t.cpu c) = ofCpu (s.cpu c) ∨ ofCpu (t.cpu c) = none)
    (pcs : ∀ q, ofPc (t.pc q) = ofPc (s.pc q) ∨ ofPc (t.pc q) = none)
    (held : ∀ c, Holds (t.cpu c) → t.lock = some c) (change : ∀ q, Bystands s t q) : Sound t := by
  refine ⟨sound.leased.keep (fun v => ?_) (fun v q k _ fits => fits_bystands fits (change q)), held⟩
  cases v with
  | inl c => exact cpus c
  | inr q => exact pcs q

theorem sound_onTable {why : Fin NPROC → Prop} (sound : Sound s) {f : Table → Table}
    (rouses : Rouses why s.toTable (f s.toTable)) : Sound (s.onTable f) :=
  sound_keep sound (fun _ => Or.inl rfl) (fun _ => Or.inl rfl) sound.held rouses.bystands

/-- Steps of a process in `fork` on the slot `p`. -/
theorem sound_pc (sound : Sound s) {q : Fin NPROC} (p : Fin NPROC) (cpu : t.cpu = s.cpu)
    (held : ∀ c, Holds (s.cpu c) → t.lock = some c)
    (pcs : ∀ r, r ≠ q → ofPc (t.pc r) = ofPc (s.pc r) ∨ ofPc (t.pc r) = none)
    (free : ∀ v l, claim s v = some (p, l) → v = .inr q) (others : ∀ r, r ≠ p → Bystands s t r)
    (mine : ∀ r k, ofPc (t.pc q) = some (r, k) → r = p ∧ k.fits (t.proc p).state) : Sound t := by
  refine ⟨sound.leased.move (.inr q) (fun v away => ?_) (fun r k now => ?_) (fun v r k away busy fits => ?_),
    fun c holds => held c (by rw [← cpu]; exact holds)⟩
  · cases v with
    | inl c => exact Or.inl (by simp [claim, cpu])
    | inr r => exact pcs r fun same => away (congrArg Sum.inr same)
  · obtain ⟨rfl,fits⟩ := mine r k now
    exact ⟨fits,free⟩
  · have apart : r ≠ p := by
      rintro rfl
      exact away (free v k busy)
    exact fits_bystands fits (others r apart)

variable [DecidableEq C]

theorem held_update {c : C} {new : Cpu} (sound : Sound s) (access : s.lock = none ∨ s.lock = some c)
    (cpu : t.cpu = Function.update s.cpu c new) (lock : Holds new → t.lock = some c) (d : C)
    (holds : Holds (t.cpu d)) : t.lock = some d := by
  by_cases same : d = c
  · subst same
    rw [cpu, Function.update_self] at holds
    exact lock holds
  · rw [cpu, Function.update_of_ne same] at holds
    exact absurd (sound.apart access holds) same

/-- Steps of the CPU `c` with the lock on the slot `p`. -/
theorem sound_cpu (sound : Sound s) {c : C} (new : Cpu) (p : Fin NPROC)
    (access : s.lock = none ∨ s.lock = some c) (cpu : t.cpu = Function.update s.cpu c new)
    (pcs : ∀ q, ofPc (t.pc q) = ofPc (s.pc q) ∨ ofPc (t.pc q) = none)
    (lock : Holds new → t.lock = some c) (free : ∀ v l, claim s v = some (p, l) → v = .inl c)
    (others : ∀ q, q ≠ p → Bystands s t q)
    (mine : ∀ q k, ofCpu new = some (q, k) → q = p ∧ k.fits (t.proc p).state) : Sound t := by
  refine ⟨sound.leased.move (.inl c) (fun v away => ?_) (fun q k now => ?_) (fun v q k away busy fits => ?_),
    held_update sound access cpu lock⟩
  · cases v with
    | inl d =>
      have apart : d ≠ c := fun same => away (congrArg Sum.inl same)
      exact Or.inl (by simp [claim, cpu, apart])
    | inr q => exact pcs q
  · have now' : ofCpu new = some (q, k) := by simpa [claim, cpu] using now
    obtain ⟨rfl,fits⟩ := mine q k now'
    exact ⟨fits,free⟩
  · have apart : q ≠ p := by
      rintro rfl
      exact away (free v k busy)
    exact fits_bystands fits (others q apart)

/-- What switching to a process does to the state. -/
structure Dispatched (c : C) (i : Nat) (p : Fin NPROC) (s t : State C) : Prop where
  cpu : t.cpu = Function.update s.cpu c (.ran i s.ticks p)
  queue : t.queue = s.queue
  others : ∀ q, q ≠ p → t.proc q = s.proc q
  mine : ∃ chan, t.proc p = { s.proc p with state := .running, chan := chan }
  pc : ∀ q, t.pc q = s.pc q ∨ t.pc q = .elsewhere

theorem dispatch_dispatched (s : State C) (c : C) (i : Nat) (p : Fin NPROC) :
    Dispatched c i p s (dispatch s c i p) := by
  have set_others : ∀ (me : Proc) (q : Fin NPROC), q ≠ p → (s.set p me).proc q = s.proc q :=
    fun me q away => Function.update_of_ne away _ _
  have set_mine : ∀ me : Proc, (s.set p me).proc p = me := fun me => Function.update_self _ _ _
  unfold dispatch
  dsimp only
  split
  · exact ⟨rfl, rfl, set_others _, ⟨none, set_mine _⟩, fun _ => Or.inl rfl⟩
  · refine ⟨rfl, rfl, set_others _, ⟨none, set_mine _⟩, fun q => ?_⟩
    by_cases same : q = p
    · exact Or.inr (by rw [same]; exact Function.update_self _ _ _)
    · exact Or.inl (Function.update_of_ne same _ _)
  · exact ⟨rfl, rfl, set_others _, ⟨(s.proc p).chan, set_mine _⟩, fun _ => Or.inl rfl⟩
  · exact ⟨rfl, rfl, set_others _, ⟨(s.proc p).chan, set_mine _⟩, fun _ => Or.inl rfl⟩

theorem sched_spec {c : C} {i start : Nat} {p : Fin NPROC} (place : s.cpu c = .ran i start p) :
    sched s c = (s.setCpu c (.back i start p)).setLock (some c) := by
  unfold sched
  rw [place]

theorem sched_frame (s : State C) (c : C) : (sched s c).pc = s.pc ∧ (sched s c).panicked = s.panicked := by
  unfold sched
  split <;> exact ⟨rfl,rfl⟩

theorem sched_table (s : State C) (c : C) : (sched s c).toTable = s.toTable := by
  unfold sched
  split <;> rfl

omit [DecidableEq C] in
theorem ofPc_set {p : Fin NPROC} {new : Pc} (quiet : ofPc new = none) (q : Fin NPROC) :
    ofPc ((s.setPc p new).pc q) = ofPc (s.pc q) ∨ ofPc ((s.setPc p new).pc q) = none := by
  by_cases same : q = p
  · subst same
    exact Or.inr (by simp [State.setPc, quiet])
  · exact Or.inl (by simp [State.setPc, same])

/-- The process on `c` gives up the CPU with its state changed. -/
theorem sound_sched (sound : Sound s) {c : C} {i start : Nat} {p : Fin NPROC} (place : s.cpu c = .ran i start p)
    (access : s.lock = none ∨ s.lock = some c) (cpu : u.cpu = s.cpu)
    (pcs : ∀ q, ofPc (u.pc q) = ofPc (s.pc q) ∨ ofPc (u.pc q) = none)
    (state : Phase.stopped.fits (u.proc p).state) (others : ∀ q, q ≠ p → Bystands s u q) :
    Sound (sched u c) := by
  have here : u.cpu c = .ran i start p := by rw [cpu, place]
  have busy : claim s (.inl c) = some (p, .running) := by simp [claim, place, ofCpu]
  rw [sched_spec here]
  refine sound_cpu sound (.back i start p) p access ?_ pcs (fun _ => rfl) (sound.alone busy) others ?_
  · change Function.update u.cpu c _ = _
    rw [cpu]
  · intro q k now
    simp only [ofCpu, Option.some.injEq, Prod.mk.injEq] at now
    obtain ⟨rfl,rfl⟩ := now
    exact ⟨rfl,state⟩

theorem sound_userinit (sound : Sound s) {c : C} {p : Fin NPROC} (free : s.lock = none)
    (unused : (s.proc p).state = .unused)
    (cpu : t.cpu = Function.update s.cpu c (.setup p)) (pc : t.pc = Function.update s.pc p .elsewhere)
    (table : t.toTable = found s.toTable p s.nextpid) : Sound t := by
  have state : ∀ q, (t.proc q).state = if q = p then .embryo else (s.proc q).state := by
    intro q
    rw [table]
    exact found_state s.toTable p q s.nextpid
  refine sound_cpu sound (.setup p) p (Or.inl free) cpu (fun q => ?_) (fun holds => nomatch holds)
    (fun v l busy => absurd busy (sound.nobody (unused_fits unused) v l)) (fun q away => ?_) ?_
  · rw [pc]
    exact ofPc_set rfl q
  · exact Or.inl (by rw [state, if_neg away])
  · intro q k now
    simp only [ofCpu, Option.some.injEq, Prod.mk.injEq] at now
    obtain ⟨rfl,rfl⟩ := now
    exact ⟨rfl, by rw [state, if_pos rfl]; rfl⟩

theorem acquire_table (s : State C) (c : C) :
    (acquire s c).toTable = if s.promoteAtTime ≤ s.ticks then promote s.toTable else s.toTable := by
  unfold acquire
  generalize promote = f
  change (if s.promoteAtTime ≤ s.ticks then _ else _ : State C).toTable = _
  split <;> rfl

theorem acquire_frame (s : State C) (c : C) : (acquire s c).cpu = Function.update s.cpu c (.scan 2) ∧
    (acquire s c).pc = s.pc ∧ (acquire s c).lock = some c ∧ (acquire s c).panicked = s.panicked := by
  unfold acquire
  generalize promote = f
  dsimp only
  split <;> exact ⟨rfl,rfl,rfl,rfl⟩

theorem acquire_rouses (s : State C) (c : C) : Rouses (fun _ => False) s.toTable (acquire s c).toTable := by
  rw [acquire_table]
  split
  · exact promote_rouses s.toTable
  · exact Rouses.refl _ _

/-- A CPU in the scheduler that has no process in hand, before and after. -/
theorem sound_scan (sound : Sound s) {c : C} (new : Cpu) (access : s.lock = none ∨ s.lock = some c)
    (cpu : t.cpu = Function.update s.cpu c new) (quiet : ofCpu new = none) (pc : t.pc = s.pc)
    (lock : Holds new → t.lock = some c) (change : ∀ q, Bystands s t q) : Sound t := by
  refine sound_keep sound (fun d => ?_) (fun q => Or.inl (by rw [pc])) (held_update sound access cpu lock) change
  by_cases same : d = c
  · subst same
    exact Or.inr (by rw [cpu, Function.update_self, quiet])
  · exact Or.inl (by rw [cpu, Function.update_of_ne same])

theorem sound_dispatch (sound : Sound s) {c : C} {i j : Nat} {p : Fin NPROC} (place : s.cpu c = .scan j)
    (mine : s.lock = some c) (runnable : (s.proc p).state = .runnable) (cpu : u.cpu = s.cpu)
    (proc : u.proc = s.proc) (pc : u.pc = s.pc) : Sound (dispatch u c i p) := by
  obtain ⟨cpu',_,others,⟨chan,me⟩,pcs⟩ := dispatch_dispatched u c i p
  rw [cpu] at cpu'
  refine sound_cpu sound _ p (Or.inr mine) cpu' (fun q => ?_) (fun holds => nomatch holds) ?_ (fun q away => ?_) ?_
  · rcases pcs q with same | left
    · exact Or.inl (by rw [same, pc])
    · exact Or.inr (by rw [left]; rfl)
  · intro v l busy
    exact absurd busy (sound.off_cpu (Or.inr mine) (by simp [place, ofCpu]) (Or.inl runnable) v l)
  · exact Or.inl (by rw [others q away, proc])
  · intro q k now
    simp only [ofCpu, Option.some.injEq, Prod.mk.injEq] at now
    obtain ⟨rfl,rfl⟩ := now
    exact ⟨rfl, by rw [me]; rfl⟩

omit [DecidableEq C] in
/-- A part of `fork` by the process `p` on the slot `np`. -/
theorem sound_fork (sound : Sound s) {p : Fin NPROC} (np : Fin NPROC) {new : Pc} (cpu : t.cpu = s.cpu) (lock : t.lock = s.lock)
    (pc : t.pc = Function.update s.pc p new) (busy : claim s (.inr p) = some (np, .making))
    (others : ∀ q, q ≠ np → (t.proc q).state = (s.proc q).state)
    (mine : ofPc new = none ∨ ofPc new = some (np, .making) ∧ (t.proc np).state = .embryo) : Sound t := by
  refine sound_pc sound (q := p) np cpu (fun c holds => lock.trans (sound.held c holds)) (fun r away => ?_)
    (sound.alone busy) (fun q away => Or.inl (others q away)) (fun r k now => ?_)
  · exact Or.inl (by rw [pc, Function.update_of_ne away])
  · rw [pc, Function.update_self] at now
    rcases mine with none | ⟨same,embryo⟩
    · rw [none] at now
      exact nomatch now
    · simp only [same, Option.some.injEq, Prod.mk.injEq] at now
      obtain ⟨rfl,rfl⟩ := now
      exact ⟨rfl,embryo⟩

omit [DecidableEq C] in
theorem sound_allocate (sound : Sound s) {p np : Fin NPROC} (unused : (s.proc np).state = .unused) :
    Sound (allocate s p np) := by
  have state : ∀ q, ((allocate s p np).proc q).state = if q = np then .embryo else (s.proc q).state :=
    fun q => found_state s.toTable np q s.nextpid
  refine sound_pc sound (q := p) np rfl sound.held (fun r away => ?_)
    (fun v l busy => absurd busy (sound.nobody (unused_fits unused) v l)) (fun r away => ?_) (fun r k now => ?_)
  · have same : (allocate s p np).pc r = (s.setPc np .elsewhere).pc r := by
      simp [allocate, State.setPc, away, State.onTable]
    rw [same]
    exact ofPc_set rfl r
  · exact Or.inl (by rw [state, if_neg away])
  · have here : (allocate s p np).pc p = .forking .allocated np := by simp [allocate, State.setPc]
    simp only [here, ofPc, Option.some.injEq, Prod.mk.injEq] at now
    obtain ⟨rfl,rfl⟩ := now
    exact ⟨rfl, by rw [state, if_pos rfl]; rfl⟩

omit [DecidableEq C] in
theorem sound_reap (sound : Sound s) {c : C} {i start : Nat} {p z : Fin NPROC} (place : s.cpu c = .ran i start p)
    (access : s.lock = none ∨ s.lock = some c) (zombie : (s.proc z).state = .zombie)
    (apart : (s.proc p).state = .running) :
    Sound (((s.onTable fun t => reap t z).setPc p .elsewhere).setLock none) := by
  refine sound_pc sound (q := p) z rfl (fun d holds => ?_) (fun r away => ?_) ?_ (fun r away => ?_) (fun r k now => ?_)
  · have same := sound.apart access holds
    rw [same, place] at holds
    exact holds.elim
  · exact Or.inl (by simp [State.setLock, State.setPc, State.onTable, away])
  · intro v l busy
    refine absurd busy (sound.off_cpu access (fun k same => ?_) (Or.inr zombie) v l)
    simp only [place, ofCpu, Option.some.injEq, Prod.mk.injEq] at same
    rw [same.1, zombie] at apart
    exact nomatch apart
  · exact Or.inl ((reap_state s.toTable z r).trans (if_neg away))
  · have here : (((s.onTable fun t => reap t z).setPc p .elsewhere).setLock none).pc p = .elsewhere := by
      simp [State.setLock, State.setPc]
    rw [here] at now
    exact nomatch now

omit [DecidableEq C] in
theorem Sound.running (sound : Sound s) {c : C} {i start : Nat} {p : Fin NPROC} (place : s.cpu c = .ran i start p) :
    (s.proc p).state = .running :=
  sound.leased.agree (.inl c) p .running (by simp [claim, place, ofCpu])

omit [DecidableEq C] in
theorem Sound.embryo (sound : Sound s) {stage : Stage} {p np : Fin NPROC} (pc : s.pc p = .forking stage np) :
    (s.proc np).state = .embryo :=
  sound.leased.agree (.inr p) np .making (by simp [claim, pc, ofPc])

omit [DecidableEq C] in
theorem Sound.stopped (sound : Sound s) {c : C} {i start : Nat} {p : Fin NPROC} (place : s.cpu c = .back i start p) :
    (s.proc p).state = .runnable ∨ (s.proc p).state = .sleeping ∨ (s.proc p).state = .zombie :=
  sound.leased.agree (.inl c) p .stopped (by simp [claim, place, ofCpu])

theorem sound_moves {a : Action C} (sound : Sound s) (moves : Moves s a t) : Sound t := by
  cases moves with
  | userinit place free unused => exact sound_userinit sound free unused rfl rfl rfl
  | @publishInit c p place free =>
    have busy : claim s (.inl c) = some (p, .making) := by simp [claim, place, ofCpu]
    refine sound_cpu sound .top p (Or.inl free) rfl (fun _ => Or.inl rfl) (fun holds => nomatch holds)
      (sound.alone busy) (fun q away => Or.inl ?_) (fun q k now => nomatch now)
    exact (setState_state s.toTable p q .runnable).trans (if_neg away)
  | tick => exact ⟨sound.leased, sound.held⟩
  | @acquire c place free =>
    obtain ⟨cpu,pc,lock,_⟩ := acquire_frame s c
    exact sound_scan sound (.scan 2) (Or.inl free) cpu rfl pc (fun _ => lock) (acquire_rouses s c).bystands
  | release place mine empty =>
    exact sound_scan sound .top (Or.inr mine) rfl rfl rfl (fun holds => nomatch holds) (fun _ => Or.inl rfl)
  | @down c i place mine empty =>
    exact sound_scan sound (.scan i) (Or.inr mine) rfl rfl rfl (fun _ => mine) (fun _ => Or.inl rfl)
  | drop place mine front idle => exact ⟨sound.leased, sound.held⟩
  | dispatch place mine front runnable => exact sound_dispatch sound place mine runnable rfl rfl rfl
  | @requeue c i start p place mine =>
    have busy : claim s (.inl c) = some (p, .stopped) := by simp [claim, place, ofCpu]
    refine sound_cpu sound (.scan i) p (Or.inr mine) rfl (fun _ => Or.inl rfl) (fun _ => mine)
      (sound.alone busy) (fun q away => Or.inl ?_) (fun q k now => nomatch now)
    exact (requeue_state s.toTable p q _).trans (if_neg away)
  | @yield c i start p place free =>
    refine sound_sched sound place (Or.inl free) rfl (fun _ => Or.inl rfl) (Or.inl ?_) (fun q away => Or.inl ?_)
    · exact (setState_state s.toTable p p .runnable).trans (if_pos rfl)
    · exact (setState_state s.toTable p q .runnable).trans (if_neg away)
  | @sleep c addr i start p place free pc =>
    refine sound_sched sound place (Or.inl free) rfl (ofPc_set rfl) (Or.inr (Or.inl ?_)) (fun q away => Or.inl ?_)
    · exact (doze_state s.toTable p p (.other addr)).trans (if_pos rfl)
    · exact (doze_state s.toTable p q (.other addr)).trans (if_neg away)
  | @wakeup chan free => exact sound_onTable sound (wakeup1_rouses (some chan) s.toTable)
  | @kill c pid free => exact sound_onTable sound (kill_rouses s.toTable pid)
  | @setpriority c pid priority => exact sound_onTable sound (setpriority_rouses s.toTable pid priority)
  | full free => exact sound
  | allocproc place free unused => exact sound_allocate sound unused
  | @kalloc c i start p np place pc =>
    exact sound_fork sound np rfl rfl rfl (by simp [claim, pc, ofPc]) (fun _ _ => rfl)
      (Or.inr ⟨rfl, sound.embryo pc⟩)
  | @copyuvm c i start p np place pc =>
    have state : ∀ q, ((s.toTable.set np { s.proc np with parent := some p }).proc q).state = (s.proc q).state := by
      intro q
      by_cases same : q = np
      · subst same
        simp [Table.set]
      · simp [Table.set, same]
    exact sound_fork sound np rfl rfl rfl (by simp [claim, pc, ofPc]) (fun q _ => state q)
      (Or.inr ⟨rfl, (state np).trans (sound.embryo pc)⟩)
  | @discard c _ stage i start p np place pc failed =>
    exact sound_fork sound np rfl rfl rfl (by simp [claim, pc, ofPc])
      (fun q away => (setState_state s.toTable np q .unused).trans (if_neg away)) (Or.inl rfl)
  | @publish c i start p np place free pc =>
    exact sound_fork sound np rfl rfl rfl (by simp [claim, pc, ofPc])
      (fun q away => (setState_state s.toTable np q .runnable).trans (if_neg away)) (Or.inl rfl)
  | @exit c i start p place free pc =>
    obtain ⟨gone,others⟩ := exit_state s.toTable s.initproc p
    refine sound_sched sound place (Or.inl free) rfl (ofPc_set rfl) (Or.inr (Or.inr gone)) (fun q away => ?_)
    exact (others q away).imp_right fun ⟨asleep,awake,_⟩ => ⟨asleep,awake⟩
  | reap place free pc child zombie => exact sound_reap sound place free zombie (sound.running place)
  | @childless c i start p place free pc =>
    refine sound_keep sound (fun _ => Or.inl rfl) (ofPc_set rfl) (fun d holds => ?_) (fun _ => Or.inl rfl)
    have holds' : Holds (s.cpu d) := holds
    rw [sound.apart free holds', place] at holds'
    exact holds'.elim
  | @await c i start p place free pc =>
    refine sound_sched sound place free rfl (ofPc_set rfl) (Or.inr (Or.inl ?_)) (fun q away => Or.inl ?_)
    · exact (doze_state s.toTable p p (.slot p)).trans (if_pos rfl)
    · exact (doze_state s.toTable p q (.slot p)).trans (if_neg away)

omit [DecidableEq C] in
theorem sound_start (start : Start s) : Sound s := by
  obtain ⟨_,_,_,pcs,_,_,_,_,_,_,c,boot,tops⟩ := start
  have cpus : ∀ d, s.cpu d = .boot ∨ s.cpu d = .top := by
    intro d
    by_cases same : d = c
    · exact Or.inl (same ▸ boot)
    · exact Or.inr (tops d same)
  have none : ∀ v, claim s v = Option.none := by
    rintro (d | q)
    · rcases cpus d with here | here <;> simp [claim, here, ofCpu]
    · simp [claim, pcs q, ofPc]
  refine ⟨⟨fun v p k busy => ?_, fun v w p k l busy _ => ?_⟩, fun d holds => ?_⟩
  · rw [none v] at busy
    exact nomatch busy
  · rw [none v] at busy
    exact nomatch busy
  · rcases cpus d with here | here
    · rw [here] at holds
      exact holds.elim
    · rw [here] at holds
      exact holds.elim

theorem reach_sound {allowed : State C → Action C → Prop} (reach : (system C).Reach allowed s) : Sound s :=
  System.reach_invariant (system C) (fun _ start => sound_start start)
    (fun _ _ _ before _ run => sound_moves before (next_moves run).2.2) reach

end Runs

def poweredOn : State Unit where
  proc := fun _ => ⟨.unused, 0, none, none, false, 0, 0, 0, false⟩
  queue := fun _ => []
  overran := false
  pc := fun _ => .elsewhere
  initproc := none
  nextpid := 1
  ticks := 0
  promoteAtTime := 0
  cpu := fun _ => .boot
  lock := none
  panicked := false

theorem poweredOn_start : Start poweredOn :=
  ⟨fun _ => rfl,fun _ => rfl,rfl,fun _ => rfl,rfl,rfl,rfl,rfl,rfl,rfl,(),rfl,fun _ other => absurd rfl other⟩

/-- The scheduler has not looked at its first entry yet. -/
def scanning : State Unit :=
  (System.exec next poweredOn [.userinit (), .publishInit (), .acquire ()]).get (by decide +kernel)

theorem scanning_run :
    System.exec next poweredOn [.userinit (), .publishInit (), .acquire ()] = some scanning := by
  simp only [scanning, Option.some_get]

/-- The first process runs. -/
def initRuns : State Unit := (next scanning (.scan ())).get (by decide +kernel)

theorem initRuns_next : next scanning (.scan ()) = some initRuns := by simp only [initRuns, Option.some_get]

theorem initRuns_reach : (system Unit).Reach System.Free initRuns :=
  .step (.scan ()) (System.exec_reach _ (fun _ _ _ => trivial) (.start poweredOn_start) scanning_run) trivial
    initRuns_next

end MlfqFirstSound
