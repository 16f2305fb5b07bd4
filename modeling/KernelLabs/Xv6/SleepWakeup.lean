import KernelLabs.Lib.LockOwners
import KernelLabs.Xv6.Sleep

/-!
No wakeup is lost. A process that is about to sleep has had one of the two locks since it saw
the condition false: whoever makes the condition true meanwhile still has to get `ptable.lock`,
and then finds the process asleep.
-/
namespace Xv6Sleep
open Transition LockOwners
open Xv6Proc (NPROC Procstate)

variable {K L C δ : Type} {g : Guards L C δ} {s t : State K L C δ} {k : K} {p : Fin NPROC} {pc : Pc L C}

section Invariant

/-- The locks that a process at some place holds, while it runs. -/
def pcHolds (g : Guards L C δ) : Pc L C → L → Prop
  | .held l, m => m = l
  | .made c, m | .sleepAcquire c, m | .wakeAcquire c, m => m = g.lock c
  | .sleepRelease c, m | .wakeLoop c _, m | .wakeRelease c, m => m = g.lock c ∨ m = g.ptable
  | .out _, _ | .yieldAcquire _, _ => False
  | _, m => m = g.ptable

def holds (g : Guards L C δ) (s : State K L C δ) (k : K) (l : L) : Prop :=
  match s.mode k with
  | .out => False
  | .loop _ => l = g.ptable
  | .run p => pcHolds g (s.pc p) l

/-- The state is written and the processor not yet given up. -/
def Leaving : Pc L C → Prop
  | .sched _ | .yieldSched _ => True
  | _ => False

/-- Where a process without a processor is. -/
def Parked : Pc L C → Prop
  | .tidy _ | .yieldRelease _ => True
  | _ => False

def PcOk (g : Guards L C δ) (data : C → δ) (chan : Option C) : Pc L C → Prop
  | .sleepAcquire c | .sleepRelease c => g.lock c ≠ g.ptable ∧ g.cond c (data c) = false
  | .setState c | .sched c => chan = some c
  | .leave c | .wakeAcquire c | .wakeRelease c => g.lock c ≠ g.ptable
  | _ => True

/-- Asleep on the channel, or past the last lock operation on the way there. -/
def Drowsy (s : State K L C δ) (c : C) (q : Fin NPROC) : Prop :=
  s.pc q = .setChan c ∨ s.pc q = .setState c ∨ (s.state q = .sleeping ∧ s.chan q = some c)

/-- The process at this place will still wake `q` if it sleeps on `c`. -/
def Wakes (c : C) (q : Fin NPROC) : Pc L C → Prop
  | .made d | .wakeAcquire d => d = c
  | .wakeLoop d i => d = c ∧ i ≤ q.val
  | _ => False

structure SleepInv (g : Guards L C δ) (s : State K L C δ) : Prop where
  owned : Owned s.owner (holds g s)
  seats : ∀ k j p, s.mode k = .run p → s.mode j = .run p → k = j
  parked : ∀ p, (∀ k, s.mode k ≠ .run p) → Parked (s.pc p)
  running : ∀ k p, s.mode k = .run p → s.state p = .running ∨ Leaving (s.pc p)
  asleep : ∀ p, s.state p = .sleeping → ∃ c, (s.pc p = .sched c ∨ s.pc p = .tidy c) ∧ s.chan p = some c
  ok : ∀ p, PcOk g s.data (s.chan p) (s.pc p)
  wakes : ∀ c q, g.cond c (s.data c) = true → Drowsy s c q → ∃ p, Wakes c q (s.pc p)

theorem holds_run (here : s.mode k = .run p) (l : L) : holds g s k l ↔ pcHolds g (s.pc p) l := by
  rw [holds, here]

theorem holds_loop {i : Nat} (here : s.mode k = .loop i) (l : L) : holds g s k l ↔ l = g.ptable := by
  rw [holds, here]

/-- A process that is not parked has a processor. -/
theorem seated (inv : SleepInv g s) {q : Fin NPROC} (busy : ¬ Parked (s.pc q)) : ∃ j, s.mode j = .run q := by
  by_contra none
  exact busy (inv.parked q fun j at' => none ⟨j,at'⟩)

/-- Two processes that hold a lock and are not parked are one. -/
theorem same_holder (inv : SleepInv g s) (here : s.mode k = .run p) {q : Fin NPROC} {l : L} (busy : ¬ Parked (s.pc q))
    (mine : pcHolds g (s.pc p) l) (yours : pcHolds g (s.pc q) l) : q = p := by
  obtain ⟨j,at'⟩ := seated inv busy
  have same := inv.owned.exclusive ((holds_run here l).mpr mine) ((holds_run at' l).mpr yours)
  rw [← same, here, Mode.run.injEq] at at'
  exact at'.symm

end Invariant

section Turns

/-- A step of the process that runs on a processor, in which it keeps the processor. -/
structure Turn (s t : State K L C δ) (p : Fin NPROC) (pc : Pc L C) : Prop where
  mode : t.mode = s.mode
  pc : t.pc = Function.update s.pc p pc
  states : ∀ q, q ≠ p → t.state q = s.state q
  chans : ∀ q, q ≠ p → t.chan q = s.chan q

theorem Turn.at (turn : Turn s t p pc) : t.pc p = pc := by rw [turn.pc, Function.update_self]

theorem Turn.pcs (turn : Turn s t p pc) {q : Fin NPROC} (away : q ≠ p) : t.pc q = s.pc q := by
  rw [turn.pc, Function.update_of_ne away]

theorem Turn.others (inv : SleepInv g s) (here : s.mode k = .run p) (turn : Turn s t p pc) (j : K) (m : L) (away : j ≠ k) :
    holds g t j m ↔ holds g s j m := by
  rw [holds, holds, turn.mode]
  cases at' : s.mode j with
  | out => rfl
  | loop i => rfl
  | run q =>
    have other : q ≠ p := by
      rintro rfl
      exact away (inv.seats j k q at' here)
    simp only [turn.pcs other]

theorem Turn.mine (here : s.mode k = .run p) (turn : Turn s t p pc) (m : L) : holds g t k m ↔ pcHolds g pc m := by
  rw [holds_run (by rw [turn.mode]; exact here), turn.at]

theorem Turn.keep (inv : SleepInv g s) (here : s.mode k = .run p) (turn : Turn s t p pc) (owner : t.owner = s.owner)
    (same : ∀ m, pcHolds g pc m ↔ pcHolds g (s.pc p) m) : Owned t.owner (holds g t) := by
  rw [owner]
  refine inv.owned.keep fun j m => ?_
  by_cases own : j = k
  · rw [own, turn.mine here, holds_run here]
    exact same m
  · exact turn.others inv here j m own

theorem Turn.inv (inv : SleepInv g s) (here : s.mode k = .run p) (turn : Turn s t p pc)
    (owned : Owned t.owner (holds g t)) (datas : ∀ c, pcHolds g (s.pc p) (g.lock c) ∨ t.data c = s.data c)
    (ok : PcOk g t.data (t.chan p) pc) (running : t.state p = .running ∨ Leaving pc)
    (asleep : t.state p = .sleeping → ∃ c, (pc = .sched c ∨ pc = .tidy c) ∧ t.chan p = some c)
    (wakes : ∀ c q, g.cond c (t.data c) = true → Drowsy t c q → ∃ p, Wakes c q (t.pc p)) : SleepInv g t := by
  -- what a process about to sleep has seen was seen under the lock of the channel
  have seen : ∀ q c, q ≠ p → ¬ Parked (s.pc q) → pcHolds g (s.pc q) (g.lock c) → t.data c = s.data c := by
    intro q c away busy yours
    rcases datas c with mine | same
    · exact absurd (same_holder inv here busy mine yours) away
    · exact same
  refine ⟨owned, ?_, fun q none => ?_, fun j q at' => ?_, fun q sleeps => ?_, fun q => ?_, wakes⟩
  · rw [turn.mode]
    exact inv.seats
  · rw [turn.mode] at none
    have away : q ≠ p := by
      rintro rfl
      exact none k here
    rw [turn.pcs away]
    exact inv.parked q none
  · rw [turn.mode] at at'
    by_cases own : q = p
    · rw [own, turn.at]
      exact running
    · rw [turn.pcs own, turn.states q own]
      exact inv.running j q at'
  · by_cases own : q = p
    · rw [own] at sleeps ⊢
      rw [turn.at]
      exact asleep sleeps
    · rw [turn.states q own] at sleeps
      rw [turn.pcs own, turn.chans q own]
      exact inv.asleep q sleeps
  · by_cases own : q = p
    · rw [own, turn.at]
      exact ok
    · have before := inv.ok q
      rw [turn.pcs own, turn.chans q own]
      cases place : s.pc q <;> rw [place] at before <;> try exact before
      case sleepAcquire c =>
        refine ⟨before.1, ?_⟩
        rw [seen q c own (by rw [place]; exact id) (by rw [place]; rfl)]
        exact before.2
      case sleepRelease c =>
        refine ⟨before.1, ?_⟩
        rw [seen q c own (by rw [place]; exact id) (by rw [place]; exact Or.inl rfl)]
        exact before.2

/-- A step after which the process is no nearer to sleep and wakes whom it would have woken. -/
theorem Turn.wakes (inv : SleepInv g s) (turn : Turn s t p pc) (data : t.data = s.data)
    (drowsy : ∀ c, g.cond c (t.data c) = true → Drowsy t c p → Drowsy s c p) (goes : ∀ c q, Drowsy t c q → Wakes c q (s.pc p) → Wakes c q pc)
    (c : C) (q : Fin NPROC) (holds : g.cond c (t.data c) = true) (asleep : Drowsy t c q) : ∃ p, Wakes c q (t.pc p) := by
  have before : Drowsy s c q := by
    by_cases own : q = p
    · rw [own] at asleep ⊢
      exact drowsy c holds asleep
    · simpa only [Drowsy, turn.pcs own, turn.states q own, turn.chans q own] using asleep
  rw [data] at holds
  obtain ⟨r,wakes⟩ := inv.wakes c q holds before
  by_cases own : r = p
  · rw [own] at wakes
    exact ⟨p, by rw [turn.at]; exact goes c q asleep wakes⟩
  · exact ⟨r, by rw [turn.pcs own]; exact wakes⟩

theorem running_of (inv : SleepInv g s) (here : s.mode k = .run p) (stays : ¬ Leaving (s.pc p)) : s.state p = .running :=
  (inv.running k p here).resolve_right stays

/-- Places that are not on the way to sleep. -/
def Awake : Pc L C → Prop
  | .setChan _ | .setState _ => False
  | _ => True

/-- A step that writes nothing but lock words. -/
theorem Turn.plain (inv : SleepInv g s) (here : s.mode k = .run p) (turn : Turn s t p pc)
    (owned : Owned t.owner (holds g t)) (state : t.state = s.state) (chan : t.chan = s.chan) (data : t.data = s.data)
    (stays : ¬ Leaving (s.pc p)) (awake : Awake pc) (ok : PcOk g s.data (s.chan p) pc)
    (goes : ∀ c q, Wakes c q (s.pc p) → Wakes c q pc) : SleepInv g t := by
  have runs : t.state p = .running := by
    rw [state]
    exact running_of inv here stays
  refine turn.inv inv here owned (fun c => Or.inr (by rw [data])) (by rw [data, chan]; exact ok) (Or.inl runs)
    (fun sleeps => absurd (runs.symm.trans sleeps) (by simp)) (turn.wakes inv data (fun c _ drowsy => ?_)
    fun c q _ => goes c q)
  rcases drowsy with at' | at' | ⟨sleeps,_⟩
  · rw [turn.at] at at'
    rw [at'] at awake
    exact awake.elim
  · rw [turn.at] at at'
    rw [at'] at awake
    exact awake.elim
  · rw [runs] at sleeps
    simp at sleeps

variable [DecidableEq L]

theorem Turn.take (inv : SleepInv g s) (here : s.mode k = .run p) (turn : Turn s t p pc) {l : L}
    (free : s.owner l = none) (owner : t.owner = Function.update s.owner l (some k))
    (more : ∀ m, pcHolds g pc m ↔ m = l ∨ pcHolds g (s.pc p) m) : Owned t.owner (holds g t) := by
  rw [owner]
  refine inv.owned.acquire free (turn.others inv here) fun m => ?_
  rw [turn.mine here, holds_run here]
  exact more m

theorem Turn.drop (inv : SleepInv g s) (here : s.mode k = .run p) (turn : Turn s t p pc) {l : L}
    (held : pcHolds g (s.pc p) l) (owner : t.owner = Function.update s.owner l none)
    (less : ∀ m, pcHolds g pc m ↔ m ≠ l ∧ pcHolds g (s.pc p) m) : Owned t.owner (holds g t) := by
  rw [owner]
  refine inv.owned.release ((holds_run here l).mpr held) (turn.others inv here) fun m => ?_
  rw [turn.mine here, holds_run here]
  exact less m

end Turns

section Switches

/-- `kill` and the loop of `wakeup1` only end sleeps. -/
theorem wake_inv (inv : SleepInv g s) (q : Fin NPROC) (wakes : Bool) : SleepInv g (s.wake q wakes) := by
  unfold State.wake
  split
  · rename_i hit
    have sleeps : ∀ r, (s.setState q .runnable).state r = .sleeping → s.state r = .sleeping := by
      intro r sleeps
      by_cases own : r = q
      · rw [own]
        exact hit.1
      · simpa [own] using sleeps
    refine ⟨inv.owned, inv.seats, inv.parked, fun j r at' => ?_, fun r asleep => inv.asleep r (sleeps r asleep), inv.ok,
      fun c r holds drowsy => inv.wakes c r holds ?_⟩
    · by_cases own : r = q
      · have before := inv.running j r at'
        rw [own, hit.1] at before
        rw [own]
        exact before.imp_left fun no => absurd no (by simp)
      · simpa [own] using inv.running j r at'
    · exact drowsy.imp_right (Or.imp_right (And.imp_left (sleeps r)))
  · exact inv

variable [DecidableEq K]

/-- A step of the scheduler that leaves the processor without a process. -/
theorem scheduler_inv (inv : SleepInv g s) (idle : ∀ p, s.mode k ≠ .run p) {m : Mode} (still : ∀ p, m ≠ .run p)
    (mode : t.mode = Function.update s.mode k m) (pc : t.pc = s.pc) (state : t.state = s.state) (chan : t.chan = s.chan)
    (data : t.data = s.data) (owned : Owned t.owner (holds g t)) : SleepInv g t := by
  have runs : ∀ j p, t.mode j = .run p ↔ s.mode j = .run p := by
    intro j p
    rw [mode]
    by_cases own : j = k
    · simp [own, idle p, still p]
    · simp [own]
  refine ⟨owned, fun j i p first second => ?_, fun p none => ?_, fun j p at' => ?_, fun p sleeps => ?_, fun p => ?_,
    fun c q holds drowsy => ?_⟩
  · exact inv.seats j i p ((runs j p).mp first) ((runs i p).mp second)
  · rw [pc]
    exact inv.parked p fun j at' => none j ((runs j p).mpr at')
  · rw [state, pc]
    exact inv.running j p ((runs j p).mp at')
  · rw [state] at sleeps
    rw [pc, chan]
    exact inv.asleep p sleeps
  · rw [pc, chan, data]
    exact inv.ok p
  · rw [data] at holds
    rw [pc]
    exact inv.wakes c q holds (by simpa only [Drowsy, pc, state, chan] using drowsy)

theorem others_mode {m : Mode} (mode : t.mode = Function.update s.mode k m) (pc : t.pc = s.pc) (j : K) (l : L)
    (away : j ≠ k) : holds g t j l ↔ holds g s j l := by
  rw [holds, holds, mode, Function.update_of_ne away, pc]

theorem parked_holds (parked : Parked pc) (l : L) : pcHolds g pc l ↔ l = g.ptable := by
  cases pc <;> simp only [Parked] at parked <;> rfl

theorem leaving_holds (leaving : Leaving pc) (l : L) : pcHolds g pc l ↔ l = g.ptable := by
  cases pc <;> simp only [Leaving] at leaving <;> rfl

/-- The scheduler's `swtch` to a process. -/
theorem pick_inv (inv : SleepInv g s) {i : Nat} (loop : s.mode k = .loop i) (ready : s.state p = .runnable) :
    SleepInv g ((s.setState p .running).setMode k (.run p)) := by
  have alone : ∀ j, s.mode j ≠ .run p := by
    intro j at'
    have leaving : Leaving (s.pc p) := (inv.running j p at').resolve_left (by rw [ready]; simp)
    have theirs : holds g s j g.ptable := (holds_run at' _).mpr ((leaving_holds leaving _).mpr rfl)
    have mine : holds g s k g.ptable := (holds_loop loop _).mpr rfl
    rw [inv.owned.exclusive theirs mine, loop] at at'
    simp at at'
  have parked := inv.parked p alone
  have others : ∀ j q, j ≠ k → (((s.setState p .running).setMode k (.run p)).mode j = .run q ↔ s.mode j = .run q) :=
    fun j q away => by simp [away]
  have sleeps : ∀ q, Function.update s.state p Procstate.running q = .sleeping → s.state q = .sleeping := by
    intro q sleeps
    by_cases own : q = p
    · simp [own] at sleeps
    · simpa [own] using sleeps
  refine ⟨inv.owned.keep fun j l => ?_, fun j i q first second => ?_, fun q none => ?_, fun j q at' => ?_,
    fun q asleep => inv.asleep q (sleeps q asleep), inv.ok, fun c q holds drowsy => inv.wakes c q holds ?_⟩
  · by_cases own : j = k
    · rw [own, holds_loop loop, holds_run (p := p) (by simp)]
      exact parked_holds parked l
    · exact others_mode (s := s) (t := (s.setState p .running).setMode k (.run p)) rfl rfl j l own
  · by_cases own : j = k
    · by_cases too : i = k
      · rw [own, too]
      · rw [others i q too] at second
        simp only [own, setMode_mode, Function.update_self, Mode.run.injEq] at first
        exact absurd (first ▸ second) (alone i)
    · rw [others j q own] at first
      by_cases too : i = k
      · simp only [too, setMode_mode, Function.update_self, Mode.run.injEq] at second
        exact absurd (second ▸ first) (alone j)
      · rw [others i q too] at second
        exact inv.seats j i q first second
  · refine inv.parked q fun j at' => ?_
    by_cases own : j = k
    · rw [own, loop] at at'
      simp at at'
    · exact none j ((others j q own).mpr at')
  · by_cases same : q = p
    · simp [same]
    · have away : j ≠ k := by
        rintro rfl
        simp [Ne.symm same] at at'
      rw [others j q away] at at'
      simpa [same] using inv.running j q at'
  · exact drowsy.imp_right (Or.imp_right (And.imp_left (sleeps q)))

/-- `sched`: the process gives up its processor, with `ptable.lock`. -/
theorem sched_inv (inv : SleepInv g s) (here : s.mode k = .run p) (leaving : Leaving (s.pc p)) (parked : Parked pc)
    (asleep : ∀ c, s.pc p = .sched c → pc = .tidy c) (n : Nat) :
    SleepInv g ((s.setPc p pc).setMode k (.loop n)) := by
  let t : State K L C δ := (s.setPc p pc).setMode k (.loop n)
  change SleepInv g t
  have own : t.pc p = pc := by simp [t]
  have pcs : ∀ q, q ≠ p → t.pc q = s.pc q := fun q away => by simp [t, away]
  have modes : ∀ j, j ≠ k → t.mode j = s.mode j := fun j away => by simp [t, away]
  have gone : t.mode k = .loop n := by simp [t]
  have runs : ∀ j q, t.mode j = .run q → s.mode j = .run q ∧ q ≠ p := by
    intro j q at'
    have away : j ≠ k := by
      rintro rfl
      rw [gone] at at'
      simp at at'
    rw [modes j away] at at'
    refine ⟨at', ?_⟩
    rintro rfl
    exact away (inv.seats j k q at' here)
  refine ⟨inv.owned.keep fun j l => ?_, fun j i q first second => inv.seats j i q (runs j q first).1 (runs i q second).1,
    fun q none => ?_, fun j q at' => ?_, fun q sleeps => ?_, fun q => ?_, fun c q holds drowsy => ?_⟩
  · by_cases same : j = k
    · rw [same, holds_loop gone, holds_run here]
      exact (leaving_holds leaving l).symm
    · rw [holds, holds, modes j same]
      cases at' : s.mode j with
      | out => rfl
      | loop i => rfl
      | run q =>
        have away : q ≠ p := by
          rintro rfl
          exact same (inv.seats j k q at' here)
        simp only [pcs q away]
  · by_cases same : q = p
    · rw [same, own]
      exact parked
    · rw [pcs q same]
      refine inv.parked q fun j at' => ?_
      by_cases mine : j = k
      · rw [mine, here, Mode.run.injEq] at at'
        exact same at'.symm
      · exact none j (by rw [modes j mine]; exact at')
  · obtain ⟨before,away⟩ := runs j q at'
    rw [pcs q away]
    exact inv.running j q before
  · obtain ⟨c,place,chan⟩ := inv.asleep q sleeps
    by_cases same : q = p
    · subst same
      refine ⟨c, Or.inr ?_, chan⟩
      rcases place with at' | at'
      · rw [own]
        exact asleep c at'
      · rw [at'] at leaving
        exact leaving.elim
    · exact ⟨c, by rw [pcs q same]; exact place, chan⟩
  · by_cases same : q = p
    · rw [same, own]
      cases pc <;> simp only [Parked] at parked <;> trivial
    · rw [pcs q same]
      exact inv.ok q
  · have before : Drowsy s c q := by
      by_cases same : q = p
      · rw [Drowsy, same, own] at drowsy
        rcases drowsy with at' | at' | sleeps
        · rw [at'] at parked
          exact parked.elim
        · rw [at'] at parked
          exact parked.elim
        · rw [same]
          exact Or.inr (Or.inr sleeps)
      · rw [Drowsy, pcs q same] at drowsy
        exact drowsy
    obtain ⟨r,wakes⟩ := inv.wakes c q holds before
    have away : r ≠ p := by
      rintro rfl
      cases at' : s.pc r <;> rw [at'] at leaving wakes <;> simp only [Leaving] at leaving <;> exact wakes
    exact ⟨r, by rw [pcs r away]; exact wakes⟩

end Switches

section Writes

/-- A step that only moves on. -/
theorem move_inv (inv : SleepInv g s) (here : s.mode k = .run p) (same : ∀ m, pcHolds g pc m ↔ pcHolds g (s.pc p) m)
    (stays : ¬ Leaving (s.pc p)) (awake : Awake pc) (ok : PcOk g s.data (s.chan p) pc)
    (goes : ∀ c q, Wakes c q (s.pc p) → Wakes c q pc) : SleepInv g (s.setPc p pc) := by
  have turn : Turn s (s.setPc p pc) p pc := ⟨rfl, rfl, fun _ _ => rfl, fun _ _ => rfl⟩
  exact turn.plain inv here (turn.keep inv here rfl same) rfl rfl rfl stays awake ok goes

/-- The last lock operation on the way to sleep: the condition is still false. -/
theorem Turn.doze {c : C} (inv : SleepInv g s) (here : s.mode k = .run p) (turn : Turn s t p (.setChan c))
    (owned : Owned t.owner (holds g t)) (state : t.state = s.state) (data : t.data = s.data)
    (stays : ¬ Leaving (s.pc p)) (cold : g.cond c (s.data c) = false) (quiet : ∀ d q, ¬ Wakes d q (s.pc p)) :
    SleepInv g t := by
  have runs : t.state p = .running := by
    rw [state]
    exact running_of inv here stays
  refine turn.inv inv here owned (fun _ => Or.inr (by rw [data])) trivial (Or.inl runs)
    (fun sleeps => absurd (runs.symm.trans sleeps) (by simp)) (turn.wakes inv data (fun d holds drowsy => ?_)
      (fun d q _ wakes => absurd wakes (quiet d q)))
  rw [Drowsy, turn.at] at drowsy
  rcases drowsy with same | other | ⟨sleeps,_⟩
  · cases same
    rw [data, cold] at holds
    simp at holds
  · simp at other
  · exact absurd (runs.symm.trans sleeps) (by simp)

theorem setChan_inv [DecidableEq C] (inv : SleepInv g s) (here : s.mode k = .run p) {c : C} (place : s.pc p = .setChan c) :
    SleepInv g ({ s with chan := Function.update s.chan p (some c) }.setPc p (.setState c)) := by
  have turn : Turn s ({ s with chan := Function.update s.chan p (some c) }.setPc p (.setState c)) p (.setState c) :=
    ⟨rfl, rfl, fun _ _ => rfl, fun q away => by simp [away]⟩
  have runs := running_of inv here (by rw [place]; exact id)
  refine turn.inv inv here (turn.keep inv here rfl fun m => by rw [place]; rfl) (fun _ => Or.inr rfl)
    (by simp [PcOk]) (Or.inl runs) (fun sleeps => absurd (runs.symm.trans sleeps) (by simp)) (turn.wakes inv rfl
      (fun d _ drowsy => ?_) (fun d q _ wakes => ?_))
  · rw [Drowsy, turn.at] at drowsy
    rcases drowsy with other | same | ⟨sleeps,_⟩
    · simp at other
    · cases same
      exact Or.inl place
    · exact absurd (runs.symm.trans sleeps) (by simp)
  · rw [place] at wakes
    exact wakes.elim

theorem setState_inv (inv : SleepInv g s) (here : s.mode k = .run p) {c : C} (place : s.pc p = .setState c) :
    SleepInv g ((s.setState p .sleeping).setPc p (.sched c)) := by
  have turn : Turn s ((s.setState p .sleeping).setPc p (.sched c)) p (.sched c) :=
    ⟨rfl, rfl, fun q away => by simp [away], fun _ _ => rfl⟩
  have ok := inv.ok p
  rw [place] at ok
  refine turn.inv inv here (turn.keep inv here rfl fun m => by rw [place]; rfl) (fun _ => Or.inr rfl)
    ok (Or.inr trivial) (fun _ => ⟨c,Or.inl rfl,ok⟩) (turn.wakes inv rfl (fun d _ drowsy => ?_) (fun d q _ wakes => ?_))
  · rw [Drowsy, turn.at] at drowsy
    rcases drowsy with other | other | ⟨_,chan⟩
    · simp at other
    · simp at other
    · have same : c = d := by
        rw [← Option.some.injEq, ← ok]
        exact chan
      exact Or.inr (Or.inl (same ▸ place))
  · rw [place] at wakes
    exact wakes.elim

theorem yieldState_inv (inv : SleepInv g s) (here : s.mode k = .run p) {back : Option C}
    (place : s.pc p = .yieldState back) : SleepInv g ((s.setState p .runnable).setPc p (.yieldSched back)) := by
  have turn : Turn s ((s.setState p .runnable).setPc p (.yieldSched back)) p (.yieldSched back) :=
    ⟨rfl, rfl, fun q away => by simp [away], fun _ _ => rfl⟩
  refine turn.inv inv here (turn.keep inv here rfl fun m => by rw [place]; rfl) (fun _ => Or.inr rfl)
    trivial (Or.inr trivial) (fun sleeps => ?_) (turn.wakes inv rfl (fun d _ drowsy => ?_) (fun d q _ wakes => ?_))
  · simp at sleeps
  · simp [Drowsy] at drowsy
  · rw [place] at wakes
    exact wakes.elim

/-- One turn of the loop of `wakeup1`: the process it looked at does not sleep on the channel,
    and none is on the way there, as that takes `ptable.lock`. -/
theorem wakeLoop_inv [DecidableEq C] (inv : SleepInv g s) (here : s.mode k = .run p) {c : C} {i : Nat} (inside : i < NPROC)
    (place : s.pc p = .wakeLoop c i) :
    SleepInv g ((s.wake ⟨i, inside⟩ (decide (s.chan ⟨i, inside⟩ = some c))).setPc p (.wakeLoop c (i + 1))) := by
  have woken := wake_inv inv ⟨i, inside⟩ (decide (s.chan ⟨i, inside⟩ = some c))
  have up : ¬ ((s.wake ⟨i, inside⟩ (decide (s.chan ⟨i, inside⟩ = some c))).state ⟨i, inside⟩ = .sleeping ∧
      (s.wake ⟨i, inside⟩ (decide (s.chan ⟨i, inside⟩ = some c))).chan ⟨i, inside⟩ = some c) := by
    unfold State.wake
    split
    · simp
    · rename_i miss
      simpa using miss
  have mode : (s.wake ⟨i, inside⟩ (decide (s.chan ⟨i, inside⟩ = some c))).mode = s.mode := by
    unfold State.wake
    split <;> rfl
  have pcs : (s.wake ⟨i, inside⟩ (decide (s.chan ⟨i, inside⟩ = some c))).pc = s.pc := by
    unfold State.wake
    split <;> rfl
  generalize s.wake ⟨i, inside⟩ (decide (s.chan ⟨i, inside⟩ = some c)) = u at *
  rw [← mode] at here
  rw [← pcs] at place
  have turn : Turn u (u.setPc p (.wakeLoop c (i + 1))) p (.wakeLoop c (i + 1)) :=
    ⟨rfl, rfl, fun _ _ => rfl, fun _ _ => rfl⟩
  have runs := running_of woken here (by rw [place]; exact id)
  have mine : pcHolds g (u.pc p) g.ptable := by
    rw [place]
    exact Or.inr rfl
  have absent : ∀ q, Drowsy u c q → q.val ≠ i := by
    rintro q drowsy rfl
    rcases drowsy with at' | at' | sleeps
    · have same := same_holder woken here (q := q) (by rw [at']; exact id) mine (by rw [at']; rfl)
      rw [same, place] at at'
      simp at at'
    · have same := same_holder woken here (q := q) (by rw [at']; exact id) mine (by rw [at']; rfl)
      rw [same, place] at at'
      simp at at'
    · exact up sleeps
  refine turn.inv woken here (turn.keep woken here rfl fun m => by rw [place]; rfl) (fun _ => Or.inr rfl) trivial
    (Or.inl runs) (fun sleeps => absurd (runs.symm.trans sleeps) (by simp)) (turn.wakes woken rfl
      (fun d _ drowsy => ?_) (fun d q drowsy wakes => ?_))
  · rw [Drowsy, turn.at] at drowsy
    rcases drowsy with other | other | ⟨sleeps,_⟩
    · simp at other
    · simp at other
    · exact absurd (runs.symm.trans sleeps) (by simp)
  · rw [place] at wakes
    obtain ⟨same,bound⟩ := wakes
    have before : Drowsy u c q := by
      by_cases own : q = p
      · rw [Drowsy, own, turn.at] at drowsy
        rcases drowsy with other | other | sleeps
        · simp at other
        · simp at other
        · rw [own, same]
          exact Or.inr (Or.inr sleeps)
      · rw [Drowsy, turn.pcs own] at drowsy
        rw [same]
        exact drowsy
    have differ := absent q before
    exact ⟨same, by omega⟩

end Writes

section Advance
variable [DecidableEq L]

theorem acquire_some {l : L} (run : s.acquire k l = some t) :
    s.owner l = none ∧ t = { s with owner := Function.update s.owner l (some k) } := by
  simp only [State.acquire, Option.ite_none_right_eq_some, Option.some.injEq] at run
  exact ⟨run.1, run.2.symm⟩

/-- A step that is one `acquire`. -/
theorem take_inv (inv : SleepInv g s) (here : s.mode k = .run p) {l : L}
    (run : (s.acquire k l).map (fun u => u.setPc p pc) = some t)
    (more : ∀ m, pcHolds g pc m ↔ m = l ∨ pcHolds g (s.pc p) m) (stays : ¬ Leaving (s.pc p)) (awake : Awake pc)
    (ok : PcOk g s.data (s.chan p) pc) (goes : ∀ c q, Wakes c q (s.pc p) → Wakes c q pc) : SleepInv g t := by
  obtain ⟨u,taken,rfl⟩ := Option.map_eq_some_iff.mp run
  obtain ⟨free,rfl⟩ := acquire_some taken
  have turn : Turn s ({ s with owner := Function.update s.owner l (some k) }.setPc p pc) p pc :=
    ⟨rfl, rfl, fun _ _ => rfl, fun _ _ => rfl⟩
  exact turn.plain inv here (turn.take inv here free rfl more) rfl rfl rfl stays awake ok goes

/-- A step that is one `release`. -/
theorem drop_inv (inv : SleepInv g s) (here : s.mode k = .run p) {l : L} (held : pcHolds g (s.pc p) l)
    (less : ∀ m, pcHolds g pc m ↔ m ≠ l ∧ pcHolds g (s.pc p) m) (stays : ¬ Leaving (s.pc p)) (awake : Awake pc)
    (ok : PcOk g s.data (s.chan p) pc) (goes : ∀ c q, Wakes c q (s.pc p) → Wakes c q pc) :
    SleepInv g ((s.release l).setPc p pc) := by
  have turn : Turn s ((s.release l).setPc p pc) p pc := ⟨rfl, rfl, fun _ _ => rfl, fun _ _ => rfl⟩
  exact turn.plain inv here (turn.drop inv here held rfl less) rfl rfl rfl stays awake ok goes

theorem sleepRelease_inv (inv : SleepInv g s) (here : s.mode k = .run p) {c : C} (place : s.pc p = .sleepRelease c) :
    SleepInv g ((s.release (g.lock c)).setPc p (.setChan c)) := by
  have turn : Turn s ((s.release (g.lock c)).setPc p (.setChan c)) p (.setChan c) :=
    ⟨rfl, rfl, fun _ _ => rfl, fun _ _ => rfl⟩
  have ok := inv.ok p
  rw [place] at ok
  refine turn.doze inv here (turn.drop inv here (by rw [place]; exact Or.inl rfl) rfl fun m => ?_) rfl rfl
    (by rw [place]; exact id) ok.2 (fun d q no => by rw [place] at no; exact no)
  rw [place]
  constructor
  · intro is
    exact ⟨fun same => ok.1 (same.symm.trans is), Or.inr is⟩
  · rintro ⟨other,is | is⟩
    · exact absurd is other
    · exact is

/-- `p->chan = 0` after `sched` has returned. -/
theorem tidy_inv (inv : SleepInv g s) (here : s.mode k = .run p) {c : C} (place : s.pc p = .tidy c) :
    SleepInv g ({ s with chan := Function.update s.chan p none }.setPc p
      (if g.lock c = g.ptable then .held g.ptable else .leave c)) := by
  have runs := running_of inv here (by rw [place]; exact id)
  have step : ∀ pc : Pc L C, (∀ m, pcHolds g pc m ↔ m = g.ptable) → Awake pc → PcOk g s.data none pc →
      SleepInv g ({ s with chan := Function.update s.chan p none }.setPc p pc) := by
    intro pc has awake ok
    have turn : Turn s ({ s with chan := Function.update s.chan p none }.setPc p pc) p pc :=
      ⟨rfl, rfl, fun _ _ => rfl, fun q away => by simp [away]⟩
    refine turn.inv inv here (turn.keep inv here rfl fun m => by rw [place]; exact has m) (fun _ => Or.inr rfl)
      (by simpa using ok) (Or.inl runs) (fun sleeps => absurd (runs.symm.trans sleeps) (by simp)) (turn.wakes inv rfl
        (fun d _ drowsy => ?_) (fun d q _ wakes => ?_))
    · rw [Drowsy, turn.at] at drowsy
      rcases drowsy with other | other | ⟨sleeps,_⟩
      · rw [other] at awake
        exact awake.elim
      · rw [other] at awake
        exact awake.elim
      · exact absurd (runs.symm.trans sleeps) (by simp)
    · rw [place] at wakes
      exact wakes.elim
  split
  · exact step (.held g.ptable) (fun m => Iff.rfl) trivial trivial
  · rename_i other
    exact step (.leave c) (fun m => Iff.rfl) trivial other

variable [DecidableEq K]

theorem advance_inv [DecidableEq C] (inv : SleepInv g s) (here : s.mode k = .run p) (run : advance g s k p = some t) :
    SleepInv g t := by
  have ok := inv.ok p
  unfold advance at run
  cases place : s.pc p <;> rw [place] at ok <;> simp only [place] at run
  case out back =>
    cases back with
    | none => simp at run
    | some c =>
      exact take_inv inv here run (fun m => by rw [place]; simp [pcHolds]) (by rw [place]; exact id) trivial trivial
        (fun _ _ no => by rw [place] at no; exact no)
  case held l => simp at run
  case made c => simp at run
  case sleepAcquire c =>
    exact take_inv inv here run (fun m => by rw [place]; exact or_comm) (by rw [place]; exact id) trivial ok
      (fun _ _ no => by rw [place] at no; exact no)
  case sleepRelease c =>
    cases run
    exact sleepRelease_inv inv here place
  case setChan c =>
    cases run
    exact setChan_inv inv here place
  case setState c =>
    cases run
    exact setState_inv inv here place
  case sched c =>
    cases run
    refine sched_inv inv here (by rw [place]; trivial) (show Parked (.tidy c) from trivial) (fun d at' => ?_) _
    rw [place, Pc.sched.injEq] at at'
    rw [at']
  case tidy c =>
    cases run
    exact tidy_inv inv here place
  case leave c =>
    cases run
    exact drop_inv inv here (by rw [place]; rfl) (fun m => by rw [place]; simp [pcHolds]) (by rw [place]; exact id) trivial
      trivial (fun _ _ no => by rw [place] at no; exact no)
  case wakeAcquire c =>
    exact take_inv inv here run (fun m => by rw [place]; exact or_comm) (by rw [place]; exact id) trivial trivial
      (fun _ _ wakes => by rw [place] at wakes; exact ⟨wakes, Nat.zero_le _⟩)
  case wakeLoop c i =>
    split at run
    · rename_i inside
      cases run
      exact wakeLoop_inv inv here inside place
    · rename_i done
      cases run
      have past : ∀ d (q : Fin NPROC) (pc' : Pc L C), Wakes d q (s.pc p) → Wakes d q pc' := by
        intro d q _ wakes
        rw [place] at wakes
        exact absurd q.isLt (by have := wakes.2; omega)
      split
      · rename_i same
        exact move_inv inv here (fun m => by rw [place]; simp [pcHolds, same]) (by rw [place]; exact id) trivial trivial
          (fun d q => past d q _)
      · rename_i other
        exact move_inv inv here (fun m => by rw [place]; rfl) (by rw [place]; exact id) trivial other
          (fun d q => past d q _)
  case wakeRelease c =>
    cases run
    refine drop_inv inv here (by rw [place]; exact Or.inr rfl) (fun m => ?_) (by rw [place]; exact id) trivial
      trivial (fun _ _ no => by rw [place] at no; exact no)
    rw [place]
    constructor
    · intro is
      exact ⟨fun same => ok (is.symm.trans same), Or.inl is⟩
    · rintro ⟨other,is | is⟩
      · exact is
      · exact absurd is other
  case yieldAcquire back =>
    exact take_inv inv here run (fun m => by rw [place]; simp [pcHolds]) (by rw [place]; exact id) trivial trivial
      (fun _ _ no => by rw [place] at no; exact no)
  case yieldState back =>
    cases run
    exact yieldState_inv inv here place
  case yieldSched back =>
    cases run
    refine sched_inv inv here (by rw [place]; trivial) (show Parked (.yieldRelease back) from trivial) (fun d at' => ?_) _
    rw [place] at at'
    simp at at'
  case yieldRelease back =>
    cases run
    exact drop_inv inv here (by rw [place]; rfl) (fun m => by rw [place]; simp [pcHolds]) (by rw [place]; exact id) trivial
      trivial (fun _ _ no => by rw [place] at no; exact no)

end Advance

section Runs
variable [DecidableEq C]

/-- A write under the lock of a channel. -/
theorem work_inv (inv : SleepInv g s) (here : s.mode k = .run p) {c : C}
    (place : s.pc p = .held (g.lock c) ∨ s.pc p = .made c) (d : δ) : SleepInv g (work g s p c d) := by
  have mine : pcHolds g (s.pc p) (g.lock c) := by
    rcases place with at' | at' <;> rw [at'] <;> rfl
  have busy : ¬ Leaving (s.pc p) ∧ Awake (s.pc p) := by
    rcases place with at' | at' <;> rw [at'] <;> exact ⟨id,trivial⟩
  have runs := running_of inv here busy.1
  have step : ∀ pc : Pc L C, (∀ m, pcHolds g pc m ↔ pcHolds g (s.pc p) m) → Awake pc →
      PcOk g (Function.update s.data c d) (s.chan p) pc → (∀ e q, Wakes e q (s.pc p) → Wakes e q pc) →
      (g.cond c (s.data c) = false → g.cond c d = true → pc = .made c) →
      SleepInv g ({ s with data := Function.update s.data c d }.setPc p pc) := by
    intro pc has awake ok goes calls
    have turn : Turn s ({ s with data := Function.update s.data c d }.setPc p pc) p pc :=
      ⟨rfl, rfl, fun _ _ => rfl, fun _ _ => rfl⟩
    have old : ∀ e q, Drowsy ({ s with data := Function.update s.data c d }.setPc p pc) e q → Drowsy s e q := by
      intro e q drowsy
      by_cases own : q = p
      · rw [Drowsy, own, turn.at] at drowsy
        rcases drowsy with at' | at' | sleeps
        · rw [at'] at awake
          exact awake.elim
        · rw [at'] at awake
          exact awake.elim
        · exact own ▸ Or.inr (Or.inr sleeps)
      · rw [Drowsy, turn.pcs own] at drowsy
        exact drowsy
    refine turn.inv inv here (turn.keep inv here rfl has) (fun e => ?_) ok (Or.inl runs)
      (fun sleeps => absurd (runs.symm.trans sleeps) (by simp)) (fun e q holds drowsy => ?_)
    · by_cases same : e = c
      · exact Or.inl (same ▸ mine)
      · exact Or.inr (by simp [same])
    · by_cases new : e = c ∧ g.cond c (s.data c) = false
      · obtain ⟨rfl,cold⟩ := new
        have calling := calls cold (by simpa using holds)
        exact ⟨p, by rw [turn.at, calling]; rfl⟩
      · have before : g.cond e (s.data e) = true := by
          by_cases same : e = c
          · rw [same]
            simpa [same] using new
          · simpa [same] using holds
        obtain ⟨r,wakes⟩ := inv.wakes e q before (old e q drowsy)
        by_cases own : r = p
        · exact ⟨p, by rw [turn.at]; exact goes e q (own ▸ wakes)⟩
        · exact ⟨r, by rw [turn.pcs own]; exact wakes⟩
  unfold work
  dsimp only
  split
  · refine step (.made c) (fun m => ?_) trivial trivial (fun e q wakes => ?_) (fun _ _ => rfl)
    · rcases place with at' | at'
      · rw [at']
        rfl
      · rw [at']
    · rcases place with at' | at' <;> rw [at'] at wakes
      · exact wakes.elim
      · exact wakes
  · rename_i quiet
    have same := step (s.pc p) (fun _ => Iff.rfl) busy.2 (by rcases place with at' | at' <;> rw [at'] <;> trivial)
      (fun _ _ => id) (fun cold warm => absurd ⟨cold,warm⟩ quiet)
    simpa only [State.setPc, Function.update_eq_self] using same

variable [DecidableEq K] [DecidableEq L]

theorem choose_inv (inv : SleepInv g s) (here : s.mode k = .run p) {a : Action L C δ} (run : choose g s k p a = some t) :
    SleepInv g t := by
  cases a with
  | step => exact advance_inv inv here run
  | acquire l =>
    simp only [choose, Option.ite_none_right_eq_some] at run
    obtain ⟨place,run⟩ := run
    exact take_inv inv here run (fun m => by rw [place]; simp [pcHolds]) (by rw [place]; exact id) trivial trivial
      (fun _ _ no => by rw [place] at no; exact no)
  | release =>
    simp only [choose] at run
    split at run
    · rename_i l place
      cases run
      exact drop_inv inv here (by rw [place]; rfl) (fun m => by rw [place]; simp [pcHolds]) (by rw [place]; exact id)
        trivial trivial (fun _ _ no => by rw [place] at no; exact no)
    · simp at run
  | work c d =>
    simp only [choose, Option.ite_none_right_eq_some, Option.some.injEq] at run
    obtain ⟨place,rfl⟩ := run
    exact work_inv inv here place d
  | sleep c =>
    simp only [choose, Option.ite_none_right_eq_some, Option.some.injEq] at run
    obtain ⟨⟨place,cold⟩,rfl⟩ := run
    unfold enterSleep
    split
    · rename_i same
      have turn : Turn s (s.setPc p (.setChan c)) p (.setChan c) := ⟨rfl, rfl, fun _ _ => rfl, fun _ _ => rfl⟩
      exact turn.doze inv here (turn.keep inv here rfl fun m => by rw [place]; simp [pcHolds, same]) rfl rfl
        (by rw [place]; exact id) cold (fun d q no => by rw [place] at no; exact no)
    · rename_i other
      exact move_inv inv here (fun m => by rw [place]; rfl) (by rw [place]; exact id) trivial ⟨other,cold⟩
        (fun _ _ no => by rw [place] at no; exact no)
  | wakeup c =>
    simp only [choose, Option.ite_none_right_eq_some, Option.some.injEq] at run
    obtain ⟨place,rfl⟩ := run
    unfold enterWakeup
    split
    · rename_i same
      refine move_inv inv here (fun m => ?_) ?_ trivial trivial (fun e q wakes => ?_)
      · rcases place with at' | at' <;> rw [at'] <;> simp [pcHolds, same]
      · rcases place with at' | at' <;> rw [at'] <;> exact id
      · rcases place with at' | at' <;> rw [at'] at wakes
        · exact wakes.elim
        · exact ⟨wakes, Nat.zero_le _⟩
    · rename_i other
      refine move_inv inv here (fun m => ?_) ?_ trivial other (fun e q wakes => ?_)
      · rcases place with at' | at' <;> rw [at'] <;> rfl
      · rcases place with at' | at' <;> rw [at'] <;> exact id
      · rcases place with at' | at' <;> rw [at'] at wakes
        · exact wakes.elim
        · exact wakes
  | yield =>
    simp only [choose] at run
    split at run
    · rename_i back place
      cases run
      exact move_inv inv here (fun m => by rw [place]; rfl) (by rw [place]; exact id) trivial trivial
        (fun _ _ no => by rw [place] at no; exact no)
    · simp at run
  | kill q =>
    simp only [choose, Option.ite_none_right_eq_some, Option.some.injEq] at run
    obtain ⟨place,rfl⟩ := run
    exact wake_inv inv q true

omit [DecidableEq C] in
theorem schedule_inv (inv : SleepInv g s) {i : Nat} (here : s.mode k = .loop i) : SleepInv g (schedule g s k i) := by
  have idle : ∀ p, s.mode k ≠ .run p := fun p at' => by simp [here] at at'
  unfold schedule
  split
  · split
    · rename_i inside ready
      exact pick_inv inv here ready
    · refine scheduler_inv inv idle (m := .loop (i + 1)) (fun _ => by simp) rfl rfl rfl rfl rfl (inv.owned.keep fun j l => ?_)
      by_cases own : j = k
      · rw [own, holds_loop here, holds_loop (i := i + 1) (by simp)]
      · exact others_mode (s := s) (t := s.setMode k (.loop (i + 1))) rfl rfl j l own
  · refine scheduler_inv inv idle (m := .out) (fun _ => by simp) rfl rfl rfl rfl rfl
      (inv.owned.release ((holds_loop here _).mpr rfl) (others_mode rfl rfl) fun l => ?_)
    rw [holds_loop here]
    simp [holds]

theorem next_inv (inv : SleepInv g s) {a : K × Action L C δ} (run : next g s a = some t) : SleepInv g t := by
  obtain ⟨k,a⟩ := a
  simp only [next] at run
  cases here : s.mode k with
  | out =>
    cases a <;> simp only [here, reduceCtorEq] at run
    obtain ⟨u,taken,rfl⟩ := Option.map_eq_some_iff.mp run
    obtain ⟨free,rfl⟩ := acquire_some taken
    refine scheduler_inv inv (fun p at' => by simp [here] at at') (m := .loop 0) (fun _ => by simp) rfl rfl rfl rfl rfl
      (inv.owned.acquire free (others_mode rfl rfl) fun l => ?_)
    rw [holds_loop (i := 0) (by simp)]
    simp [holds, here]
  | loop i =>
    cases a <;> simp only [here, reduceCtorEq, Option.some.injEq] at run
    rw [← run]
    exact schedule_inv inv here
  | run p =>
    simp only [here] at run
    exact choose_inv inv here run

omit [DecidableEq K] [DecidableEq L] [DecidableEq C] in
theorem start_inv (start : Start s) : SleepInv g s := by
  obtain ⟨owners,modes,pcs,states,chans⟩ := start
  have sleeps : ∀ p, s.state p ≠ .sleeping := by
    intro p sleeps
    rcases states p with is | is <;> rw [is] at sleeps <;> simp at sleeps
  refine ⟨fun k l => ?_, fun k j p at' => ?_, fun p _ => ?_, fun k p at' => ?_, fun p asleep => absurd asleep (sleeps p),
    fun p => ?_, fun c q _ drowsy => ?_⟩
  · rw [owners, holds, modes]
    simp
  · rw [modes] at at'
    simp at at'
  · rw [pcs]
    trivial
  · rw [modes] at at'
    simp at at'
  · rw [pcs]
    trivial
  · rw [Drowsy, pcs] at drowsy
    rcases drowsy with at' | at' | ⟨asleep,_⟩
    · simp at at'
    · simp at at'
    · exact absurd asleep (sleeps q)

theorem reach_inv (reach : (sleepSystem g).Reach System.Free s) : SleepInv g s :=
  System.reach_invariant (sleepSystem g) (fun _ => start_inv) (fun _ _ _ before _ step => next_inv before step) reach

/-- The process has made the condition of the channel true and not yet finished its `wakeup`. -/
def Waking (c : C) : Pc L C → Prop
  | .made d | .wakeAcquire d => d = c
  | .wakeLoop d i => d = c ∧ i < NPROC
  | _ => False

omit [DecidableEq K] [DecidableEq L] [DecidableEq C] in
theorem waking_of_wakes {c : C} {q : Fin NPROC} (wakes : Wakes c q pc) : Waking c pc := by
  cases pc <;> simp only [Wakes] at wakes <;> simp only [Waking]
  case made d => exact wakes
  case wakeAcquire d => exact wakes
  case wakeLoop d i => exact ⟨wakes.1, Nat.lt_of_le_of_lt wakes.2 q.isLt⟩

omit [DecidableEq K] [DecidableEq L] [DecidableEq C] in
theorem no_sleeper (inv : SleepInv g s) {c : C} (finished : ∀ p, ¬ Waking c (s.pc p)) (q : Fin NPROC) :
    ¬ (s.state q = .sleeping ∧ s.chan q = some c ∧ g.cond c (s.data c) = true) := by
  rintro ⟨sleeps,chan,holds⟩
  obtain ⟨p,wakes⟩ := inv.wakes c q holds (Or.inr (Or.inr ⟨sleeps,chan⟩))
  exact finished p (waking_of_wakes wakes)

end Runs
end Xv6Sleep
