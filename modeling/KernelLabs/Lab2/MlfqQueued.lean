import Mathlib.Data.List.Nodup
import KernelLabs.Lab2.Mlfq

/-!
No process is lost by the scheduler once a promotion pass has run: from then on every
slot of the process table is in a queue or has just been taken out for a CPU that puts
it back. Before the first pass the queues are empty, although `userinit` has made the
first process runnable.
-/
namespace MlfqQueued
open Mlfq ArrayQueue Transition
open Xv6Proc (NPROC Procstate Chan Stage Pc)

/-- Slot `p` is at an index between 0 and `mlfq_queue_size[l]` of some level `l`. -/
def Queued (t : Table) (p : Fin NPROC) : Prop :=
  ∃ l : Int, 0 ≤ l ∧ l ≤ MAXPRIORITY ∧ some p ∈ (t.queue l).entries

structure Sound (t : Table) : Prop where
  range : ∀ p, 0 ≤ (t.proc p).priority ∧ (t.proc p).priority ≤ MAXPRIORITY
  sized : ∀ l, -1 ≤ (t.queue l).size

/-- The table after an operation that takes nobody out of the queues and wakes
    sleepers at most. -/
structure Keeps (t t' : Table) : Prop where
  sound : Sound t'
  queued : ∀ q, Queued t q → Queued t' q
  state : ∀ q, (t'.proc q).state = (t.proc q).state ∨
    (t.proc q).state = .sleeping ∧ (t'.proc q).state = .runnable

section Operations
variable {t u v : Table}

theorem keeps_refl (sound : Sound t) : Keeps t t := ⟨sound, fun _ h => h, fun _ => Or.inl rfl⟩

theorem keeps_trans (first : Keeps t u) (later : Keeps u v) : Keeps t v := by
  refine ⟨later.sound, fun q here => later.queued q (first.queued q here), fun q => ?_⟩
  rcases later.state q with same | ⟨asleep,awake⟩
  · rcases first.state q with before | ⟨asleep,awake⟩
    · exact Or.inl (same.trans before)
    · exact Or.inr ⟨asleep,same.trans awake⟩
  · rcases first.state q with before | ⟨_,wrong⟩
    · exact Or.inr ⟨before.symm.trans asleep,awake⟩
    · rw [wrong] at asleep
      simp at asleep

theorem keeps_foldl {f : Table → Fin NPROC → Table} (one : ∀ t p, Sound t → Keeps t (f t p))
    (l : List (Fin NPROC)) (sound : Sound t) : Keeps t (l.foldl f t) := by
  induction l generalizing t with
  | nil => exact keeps_refl sound
  | cons p rest ih =>
    have first := one t p sound
    exact keeps_trans first (ih first.sound)

/-- A slot is rewritten without leaving its priority range or its state. -/
theorem keeps_set (sound : Sound t) {i : Fin NPROC} {me : Proc}
    (range : 0 ≤ me.priority ∧ me.priority ≤ MAXPRIORITY)
    (state : me.state = (t.proc i).state ∨
      (t.proc i).state = .sleeping ∧ me.state = .runnable) : Keeps t (t.set i me) := by
  refine ⟨⟨fun q => ?_, sound.sized⟩, fun q here => here, fun q => ?_⟩
  · by_cases same : q = i
    · subst same
      simpa [Table.set] using range
    · simpa [Table.set, same] using sound.range q
  · by_cases same : q = i
    · subst same
      simpa [Table.set] using state
    · simp [Table.set, same]

theorem sized_setQueue (sound : Sound t) {l : Int} {q : Queue (Fin NPROC)} (sized : -1 ≤ q.size) :
    Sound (t.setQueue l q) := by
  refine ⟨sound.range, fun m => ?_⟩
  by_cases same : m = l
  · subst same
    simpa [Table.setQueue] using sized
  · simpa [Table.setQueue, same] using sound.sized m

theorem enqueue_queue (p : Fin NPROC) : (enqueue t p).queue =
    Function.update t.queue (t.proc p).priority ((t.queue (t.proc p).priority).push p) := rfl

theorem enqueue_entries (p : Fin NPROC) {l : Int} (sized : -1 ≤ (t.queue l).size) :
    ((enqueue t p).queue l).entries = (t.queue l).entries ++ if l = (t.proc p).priority then [some p] else [] := by
  rw [enqueue_queue]
  by_cases here : l = (t.proc p).priority
  · rw [← here, Function.update_self, if_pos rfl, Queue.entries_push sized]
  · rw [Function.update_of_ne here, if_neg here, List.append_nil]

theorem sound_enqueue (sound : Sound t) (p : Fin NPROC) : Sound (enqueue t p) := by
  refine ⟨sound.range, fun m => ?_⟩
  rw [enqueue_queue]
  by_cases same : m = (t.proc p).priority
  · have sized := sound.sized m
    rw [← same, Function.update_self, Queue.size_push]
    omega
  · rw [Function.update_of_ne same]
    exact sound.sized m

theorem keeps_enqueue (sound : Sound t) (p : Fin NPROC) :
    Keeps t (enqueue t p) ∧ Queued (enqueue t p) p := by
  refine ⟨⟨sound_enqueue sound p, fun q queued => ?_, fun _ => Or.inl rfl⟩, ?_⟩
  · obtain ⟨m,low,high,member⟩ := queued
    refine ⟨m, low, high, ?_⟩
    rw [enqueue_entries p (sound.sized m)]
    exact List.mem_append_left _ member
  · obtain ⟨low,high⟩ := sound.range p
    refine ⟨(t.proc p).priority, low, high, ?_⟩
    rw [enqueue_entries p (sound.sized _), if_pos rfl]
    exact List.mem_append_right _ (List.mem_singleton.mpr rfl)

theorem keeps_setpriority (sound : Sound t) (pid priority : Int) :
    Keeps t (setpriority t pid priority) := by
  unfold setpriority
  split
  · exact keeps_refl sound
  · rename_i valid
    split
    · exact keeps_refl sound
    · apply keeps_set sound
      · change 0 ≤ priority ∧ priority ≤ MAXPRIORITY
        omega
      · exact Or.inl rfl

theorem keeps_resetBudget (sound : Sound t) (p : Fin NPROC) : Keeps t (resetBudget t p) :=
  keeps_set sound (sound.range p) (Or.inl rfl)

theorem findEntry_some {q : Queue (Fin NPROC)} {p : Fin NPROC} {n k : Nat}
    (found : findEntry q p n = some k) : k < n ∧ q.cell k = some p := by
  have hit := List.find?_some found
  have low := List.mem_of_find?_eq_some found
  exact ⟨List.mem_range.mp low, by simpa using hit⟩

/-- Taking an entry of `p` out of a level touches no entry of another slot. -/
theorem queued_removeAt {l : Int} {k : Nat} {p q : Fin NPROC} (inside : k < (t.queue l).count)
    (cell : (t.queue l).cell k = some p) (other : q ≠ p) (queued : Queued t q) :
    Queued (t.setQueue l ((t.queue l).removeAt k)) q := by
  obtain ⟨m,low,high,member⟩ := queued
  refine ⟨m, low, high, ?_⟩
  by_cases same : m = l
  · subst same
    have entries := Queue.entries_removeAt inside
    simp only [Table.setQueue, Function.update_self]
    rw [entries, List.mem_eraseIdx_iff_getElem?]
    obtain ⟨j,below,its⟩ := Queue.mem_entries.mp member
    refine ⟨j, fun at_k => ?_, by rw [Queue.getElem?_entries, if_pos below, its]⟩
    rw [at_k, cell, Option.some.injEq] at its
    exact other its.symm
  · simpa [Table.setQueue, same] using member

theorem sized_removeAt (sound : Sound t) {l : Int} {k : Nat} (inside : k < (t.queue l).count) :
    Sound (t.setQueue l ((t.queue l).removeAt k)) := by
  apply sized_setQueue sound
  rw [Queue.size_removeAt]
  simp only [Queue.count] at inside
  omega

theorem dequeue_spec (sound : Sound t) (p : Fin NPROC) :
    Sound (dequeue t p) ∧ (∀ q, q ≠ p → Queued t q → Queued (dequeue t p) q) ∧
    (dequeue t p).proc = t.proc := by
  unfold dequeue
  dsimp only
  split
  · exact ⟨sound, fun _ _ h => h, rfl⟩
  · rename_i k found
    obtain ⟨inside,cell⟩ := findEntry_some found
    exact ⟨sized_removeAt sound inside, fun q other => queued_removeAt inside cell other, rfl⟩

theorem keeps_promoteOne (sound : Sound t) (p : Fin NPROC) :
    Keeps t (promoteOne t p) ∧
    ((t.proc p).state ≠ .zombie → (t.proc p).priority < MAXPRIORITY → Queued (promoteOne t p) p) := by
  unfold promoteOne
  split
  · obtain ⟨sound',others,proc⟩ := dequeue_spec sound p
    have raised := keeps_setpriority sound' ((dequeue t p).proc p).pid
      (((dequeue t p).proc p).priority + 1)
    have reset := keeps_resetBudget raised.sound p
    obtain ⟨back,mine⟩ := keeps_enqueue reset.sound p
    have whole := keeps_trans (keeps_trans raised reset) back
    refine ⟨⟨whole.sound, fun q queued => ?_, fun q => ?_⟩, fun _ _ => mine⟩
    · by_cases same : q = p
      · rw [same]
        exact mine
      · exact whole.queued q (others q same queued)
    · rw [← proc]
      exact whole.state q
  · rename_i skipped
    exact ⟨keeps_refl sound, fun alive low => absurd ⟨alive,low⟩ skipped⟩

theorem keeps_promote (sound : Sound t) : Keeps t (promote t) :=
  keeps_foldl (fun _ p sound => (keeps_promoteOne sound p).1) _ sound

theorem keeps_wakeOne (chan : Option Chan) (sound : Sound t) (p : Fin NPROC) :
    Keeps t (wakeOne chan t p) := by
  unfold wakeOne
  split
  · rename_i asleep
    have woken : Keeps t (t.set p { t.proc p with state := .runnable }) :=
      keeps_set sound (sound.range p) (Or.inr ⟨asleep.1,rfl⟩)
    dsimp only
    split
    · exact woken
    · exact keeps_trans woken (keeps_enqueue woken.sound p).1
  · exact keeps_refl sound

theorem keeps_wakeup1 (sound : Sound t) (chan : Option Chan) : Keeps t (wakeup1 t chan) :=
  keeps_foldl (fun _ p sound => keeps_wakeOne chan sound p) _ sound

theorem keeps_kill (sound : Sound t) (pid : Int) : Keeps t (kill t pid) := by
  unfold kill
  split
  · exact keeps_refl sound
  · rename_i i _
    apply keeps_set sound
    · dsimp only
      split <;> exact sound.range i
    · dsimp only
      split
      · rename_i asleep
        exact Or.inr ⟨asleep,rfl⟩
      · exact Or.inl rfl

theorem keeps_requeue (sound : Sound t) (p : Fin NPROC) (ran : Int) :
    Keeps t (requeue t p ran) ∧ Queued (requeue t p ran) p := by
  have charged : Keeps t (t.set p { t.proc p with budget := int ((t.proc p).budget - ran) }) :=
    keeps_set sound (sound.range p) (Or.inl rfl)
  unfold requeue
  dsimp only
  split
  · have lowered := keeps_setpriority charged.sound
      ((t.set p { t.proc p with budget := int ((t.proc p).budget - ran) }).proc p).pid
      (((t.set p { t.proc p with budget := int ((t.proc p).budget - ran) }).proc p).priority - 1)
    obtain ⟨back,mine⟩ := keeps_enqueue lowered.sound p
    exact ⟨keeps_trans (keeps_trans charged lowered) back, mine⟩
  · obtain ⟨back,mine⟩ := keeps_enqueue charged.sound p
    exact ⟨keeps_trans charged back, mine⟩

theorem keeps_abandon (initproc : Option (Fin NPROC)) (p : Fin NPROC) (sound : Sound t)
    (i : Fin NPROC) : Keeps t (abandon initproc p t i) := by
  unfold abandon
  split
  · have moved : Keeps t (t.set i { t.proc i with parent := initproc }) :=
      keeps_set sound (sound.range i) (Or.inl rfl)
    dsimp only
    split
    · exact keeps_trans moved (keeps_wakeup1 moved.sound _)
    · exact moved
  · exact keeps_refl sound

/-- `setpriority` on the pid of a slot changes that slot or an earlier one. -/
theorem setpriority_later {done later : List (Fin NPROC)} {p q : Fin NPROC} (priority : Int)
    (whole : List.finRange NPROC = done ++ p :: later) (member : q ∈ later) :
    (setpriority t (t.proc p).pid priority).proc q = t.proc q := by
  have distinct : (done ++ p :: later).Nodup := whole ▸ List.nodup_finRange NPROC
  obtain ⟨_,tail,apart⟩ := List.nodup_append.mp distinct
  unfold setpriority
  split
  · rfl
  · split
    · rfl
    · rename_i i found
      have other : q ≠ i := by
        rw [whole, List.find?_append] at found
        cases early : done.find? fun i => (t.proc i).pid == (t.proc p).pid with
        | some j =>
          rw [early, Option.some_or, Option.some.injEq] at found
          intro same
          have inDone := List.mem_of_find?_eq_some early
          exact apart j inDone q (List.mem_cons_of_mem p member) (found.trans same.symm)
        | none =>
          rw [early, Option.none_or] at found
          simp only [List.find?_cons, beq_self_eq_true, Option.some.injEq] at found
          intro same
          rw [same, ← found] at member
          exact (List.nodup_cons.mp tail).1 member
      simp [Table.set, other]

theorem promoteOne_later {done later : List (Fin NPROC)} {p q : Fin NPROC} (sound : Sound t)
    (whole : List.finRange NPROC = done ++ p :: later) (member : q ∈ later) :
    (promoteOne t p).proc q = t.proc q := by
  have distinct : (done ++ p :: later).Nodup := whole ▸ List.nodup_finRange NPROC
  have other : q ≠ p := by
    intro same
    exact (List.nodup_cons.mp (List.nodup_append.mp distinct).2.1).1 (same ▸ member)
  have proc := (dequeue_spec sound p).2.2
  unfold promoteOne
  split
  · have raised := setpriority_later (t := dequeue t p) (((dequeue t p).proc p).priority + 1) whole
      member
    simp only [enqueue, resetBudget, Table.set, Table.setQueue, Function.update_of_ne other]
    rw [raised, proc]
  · rfl

theorem promote_rest (done : List (Fin NPROC)) {later : List (Fin NPROC)} (whole : List.finRange NPROC = done ++ later)
    (sound : Sound t)
    (fresh : ∀ q ∈ later, (t.proc q).priority = 0 ∧ (t.proc q).state ≠ .zombie) (q : Fin NPROC)
    (here : q ∈ later ∨ Queued t q) : Queued (later.foldl promoteOne t) q := by
  induction later generalizing done t with
  | nil =>
    rcases here with never | queued
    · simp at never
    · exact queued
  | cons p rest ih =>
    obtain ⟨keeps,mine⟩ := keeps_promoteOne sound p
    have own := fresh p List.mem_cons_self
    apply ih (done ++ [p])
    · rw [whole]
      simp
    · exact keeps.sound
    · intro r member
      rw [promoteOne_later sound whole member]
      exact fresh r (List.mem_cons_of_mem p member)
    · rcases here with member | queued
      · rcases List.mem_cons.mp member with same | later
        · right
          rw [same]
          exact mine own.2 (by rw [own.1]; decide)
        · exact Or.inl later
      · exact Or.inr (keeps.queued q queued)

/-- A pass over a table of slots that have never run puts every slot into a queue. -/
theorem promote_fresh (sound : Sound t)
    (fresh : ∀ q, (t.proc q).priority = 0 ∧ (t.proc q).state ≠ .zombie) (q : Fin NPROC) :
    Queued (promote t) q :=
  promote_rest [] rfl sound (fun q _ => fresh q) q (Or.inl (List.mem_finRange q))

theorem wakeup1_awake (awake : ∀ q, (t.proc q).state ≠ .sleeping) (chan : Option Chan) :
    wakeup1 t chan = t := by
  have one : ∀ p, wakeOne chan t p = t := by
    intro p
    unfold wakeOne
    rw [if_neg (fun asleep => awake p asleep.1)]
  have fold : ∀ l : List (Fin NPROC), l.foldl (wakeOne chan) t = t := by
    intro l
    induction l with
    | nil => rfl
    | cons p rest ih => rw [List.foldl_cons, one, ih]
  exact fold _

theorem seek_some {i k j : Nat} (found : seek t i k = some j) :
    j < (t.queue i).count ∧ k ≤ j ∧ stops t i j = true := by
  have hit := List.find?_some found
  have low := List.mem_of_find?_eq_some found
  simp only [Bool.and_eq_true, decide_eq_true_eq] at hit
  exact ⟨List.mem_range.mp low, hit⟩

theorem search_some {i k i' k' : Nat} {check : Bool} (found : search t i k check = some (i', k')) :
    i' ≤ i ∧ k' < (t.queue i').count ∧ stops t i' k' = true := by
  induction i generalizing k check with
  | zero =>
    unfold search at found
    split at found
    · rename_i j first
      simp only [Option.some.injEq, Prod.mk.injEq] at found
      obtain ⟨rfl,rfl⟩ := found
      exact ⟨Nat.le_refl _, (seek_some first).1, (seek_some first).2.2⟩
    · split at found
      · rename_i j second
        simp only [Option.some.injEq, Prod.mk.injEq] at found
        obtain ⟨rfl,rfl⟩ := found
        split at second
        · exact ⟨Nat.le_refl _, (seek_some second).1, (seek_some second).2.2⟩
        · simp at second
      · simp at found
  | succ i ih =>
    unfold search at found
    split at found
    · rename_i j first
      simp only [Option.some.injEq, Prod.mk.injEq] at found
      obtain ⟨rfl,rfl⟩ := found
      exact ⟨Nat.le_refl _, (seek_some first).1, (seek_some first).2.2⟩
    · split at found
      · rename_i j second
        simp only [Option.some.injEq, Prod.mk.injEq] at found
        obtain ⟨rfl,rfl⟩ := found
        split at second
        · exact ⟨Nat.le_refl _, (seek_some second).1, (seek_some second).2.2⟩
        · simp at second
      · obtain ⟨low,rest⟩ := ih found
        exact ⟨Nat.le_succ_of_le low, rest⟩

theorem search_cell {i k i' k' : Nat} {check : Bool} {p : Fin NPROC}
    (found : search t i k check = some (i', k')) (cell : (t.queue i').cell k' = some p) :
    k' < (t.queue i').count ∧ (t.proc p).state = .runnable := by
  obtain ⟨_,inside,stop⟩ := search_some found
  unfold stops at stop
  rw [cell] at stop
  exact ⟨inside, by simpa using stop⟩

end Operations

/-- The CPU is inside the locked part of `scheduler`. -/
def Holds : Cpu → Prop
  | .scan _ _ _ => True
  | .back _ _ _ _ => True
  | _ => False

/-- The CPU has not finished `userinit`. -/
def Boots : Cpu → Prop
  | .boot => True
  | .setup _ => True
  | _ => False

def runs : Cpu → Option (Fin NPROC)
  | .ran _ _ _ p => some p
  | _ => none

/-- The process whose entry the CPU has taken and not yet put back. -/
def has : Cpu → Option (Fin NPROC)
  | .ran _ _ _ p => some p
  | .back _ _ _ p => some p
  | _ => none

section States
variable {C : Type}

structure Core (s : State C) : Prop where
  sound : Sound s.toTable
  running : ∀ c p, runs (s.cpu c) = some p → (s.proc p).state = .running
  single : ∀ c d p, runs (s.cpu c) = some p → runs (s.cpu d) = some p → c = d
  held : ∀ c, Holds (s.cpu c) → s.lock = some c
  forked : ∀ p stage np, s.pc p = .forking stage np → (s.proc np).state = .embryo
  forkers : ∀ p q stage stage' np, s.pc p = .forking stage np → s.pc q = .forking stage' np → p = q
  setup : ∀ c p, s.cpu c = .setup p → (s.proc p).state = .embryo ∧
    ∀ q stage, s.pc q ≠ .forking stage p
  booting : ∀ c d, Boots (s.cpu c) → Boots (s.cpu d) → c = d

/-- Steps that neither begin nor end a `fork` or `userinit`. -/
theorem core_frame {s t : State C} (core : Core s) (sound : Sound t.toTable)
    (running : ∀ c p, runs (t.cpu c) = some p → (t.proc p).state = .running)
    (single : ∀ c d p, runs (t.cpu c) = some p → runs (t.cpu d) = some p → c = d)
    (held : ∀ c, Holds (t.cpu c) → t.lock = some c)
    (forking : ∀ p stage np, t.pc p = .forking stage np → s.pc p = .forking stage np)
    (embryo : ∀ q, (s.proc q).state = .embryo → (t.proc q).state = .embryo)
    (setup : ∀ c p, t.cpu c = .setup p → s.cpu c = .setup p)
    (booting : ∀ c, Boots (t.cpu c) → Boots (s.cpu c)) : Core t where
  sound := sound
  running := running
  single := single
  held := held
  forked := by
    intro p stage np here
    exact embryo np (core.forked p stage np (forking p stage np here))
  forkers := by
    intro p q stage stage' np first second
    exact core.forkers p q stage stage' np (forking p stage np first) (forking q stage' np second)
  setup := by
    intro c p here
    obtain ⟨state,apart⟩ := core.setup c p (setup c p here)
    exact ⟨embryo p state, fun q stage there => apart q stage (forking q stage p there)⟩
  booting := by
    intro c d first second
    exact core.booting c d (booting c first) (booting d second)

theorem Keeps.embryo {t u : Table} (keeps : Keeps t u) {q : Fin NPROC}
    (before : (t.proc q).state = .embryo) : (u.proc q).state = .embryo := by
  rcases keeps.state q with same | ⟨asleep,_⟩
  · exact same.trans before
  · simp [before] at asleep

theorem Keeps.running {t u : Table} (keeps : Keeps t u) {q : Fin NPROC}
    (before : (t.proc q).state = .running) : (u.proc q).state = .running := by
  rcases keeps.state q with same | ⟨asleep,_⟩
  · exact same.trans before
  · simp [before] at asleep

/-- The table changes under no process that runs, and no CPU moves. -/
theorem core_table {s t : State C} (core : Core s) (keeps : Keeps s.toTable t.toTable)
    (cpu : t.cpu = s.cpu) (lock : t.lock = s.lock) (pc : t.pc = s.pc) : Core t := by
  refine core_frame core keeps.sound ?_ ?_ ?_ ?_ (fun q => keeps.embryo) ?_ ?_
  · intro c p here
    rw [cpu] at here
    exact keeps.running (core.running c p here)
  · rw [cpu]
    exact core.single
  · rw [cpu, lock]
    exact core.held
  · rw [pc]
    exact fun _ _ _ h => h
  · rw [cpu]
    exact fun _ _ h => h
  · rw [cpu]
    exact fun _ h => h

variable [DecidableEq C]

/-- A CPU inside the scheduler moves, and the table changes under no running process. -/
theorem core_cpu {s t : State C} (core : Core s) {c : C} {new : Cpu}
    (keeps : Keeps s.toTable t.toTable) (cpu : t.cpu = Function.update s.cpu c new)
    (pc : t.pc = s.pc) (idle : runs new = none) (boots : ¬ Boots new)
    (lock : (s.lock = none ∨ s.lock = some c) ∧ (Holds new → t.lock = some c)) : Core t := by
  have there : ∀ d, d ≠ c → t.cpu d = s.cpu d := by
    intro d other
    simp [cpu, other]
  have here : t.cpu c = new := by simp [cpu]
  have onOther : ∀ d p, runs (t.cpu d) = some p → runs (s.cpu d) = some p := by
    intro d p there'
    by_cases same : d = c
    · rw [same, here, idle] at there'
      simp at there'
    · rwa [there d same] at there'
  refine core_frame core keeps.sound ?_ ?_ ?_ ?_ (fun q => keeps.embryo) ?_ ?_
  · intro d p on
    exact keeps.running (core.running d p (onOther d p on))
  · intro d e p onD onE
    exact core.single d e p (onOther d p onD) (onOther e p onE)
  · intro d holding
    by_cases same : d = c
    · rw [same, here] at holding
      rw [same]
      exact lock.2 holding
    · rw [there d same] at holding
      have mine := core.held d holding
      rcases lock.1 with free | taken
      · rw [free] at mine
        simp at mine
      · rw [taken, Option.some.injEq] at mine
        exact absurd mine.symm same
  · rw [pc]
    exact fun _ _ _ h => h
  · intro d p on
    by_cases same : d = c
    · rw [same, here] at on
      rw [on] at boots
      exact absurd trivial boots
    · rwa [there d same] at on
  · intro d on
    by_cases same : d = c
    · rw [same, here] at on
      exact absurd on boots
    · rwa [there d same] at on

/-- A running process stops: its state changes and its CPU goes back to the scheduler. -/
theorem core_sched {s t : State C} (core : Core s) {c : C} {p : Fin NPROC} {new : Cpu}
    (on : runs (s.cpu c) = some p) (free : s.lock = none ∨ s.lock = some c)
    (sound : Sound t.toTable)
    (others : ∀ q, q ≠ p → (t.proc q).state = (s.proc q).state ∨
      (s.proc q).state = .sleeping ∧ (t.proc q).state = .runnable)
    (cpu : t.cpu = Function.update s.cpu c new) (idle : runs new = none) (boots : ¬ Boots new)
    (lock : t.lock = some c)
    (forking : ∀ q stage np, t.pc q = .forking stage np → s.pc q = .forking stage np) : Core t := by
  have there : ∀ d, d ≠ c → t.cpu d = s.cpu d := by
    intro d other
    simp [cpu, other]
  have here : t.cpu c = new := by simp [cpu]
  have onOther : ∀ d q, runs (t.cpu d) = some q → d ≠ c ∧ runs (s.cpu d) = some q := by
    intro d q there'
    by_cases same : d = c
    · rw [same, here, idle] at there'
      simp at there'
    · rw [there d same] at there'
      exact ⟨same,there'⟩
  refine core_frame core sound ?_ ?_ ?_ forking ?_ ?_ ?_
  · intro d q onD
    obtain ⟨apart,before⟩ := onOther d q onD
    have running := core.running d q before
    have other : q ≠ p := fun same => apart (core.single d c p (same ▸ before) on)
    rcases others q other with same | ⟨asleep,_⟩
    · exact same.trans running
    · simp [running] at asleep
  · intro d e q onD onE
    exact core.single d e q (onOther d q onD).2 (onOther e q onE).2
  · intro d holding
    by_cases same : d = c
    · rw [same]
      exact lock
    · rw [there d same] at holding
      have mine := core.held d holding
      rcases free with none | taken
      · rw [none] at mine
        simp at mine
      · rw [taken, Option.some.injEq] at mine
        exact absurd mine.symm same
  · intro q embryo
    have other : q ≠ p := by
      intro same
      rw [same, core.running c p on] at embryo
      simp at embryo
    rcases others q other with same | ⟨asleep,_⟩
    · exact same.trans embryo
    · simp [embryo] at asleep
  · intro d q onD
    by_cases same : d = c
    · rw [same, here] at onD
      rw [onD] at boots
      exact absurd trivial boots
    · rwa [there d same] at onD
  · intro d onD
    by_cases same : d = c
    · rw [same, here] at onD
      exact absurd onD boots
    · rwa [there d same] at onD

omit [DecidableEq C] in
/-- A process leaves `wait`, perhaps with a zombie slot made unused. -/
theorem core_leave {s t : State C} (core : Core s) {c : C} {p : Fin NPROC}
    (on : runs (s.cpu c) = some p) (free : s.lock = none ∨ s.lock = some c)
    (sound : Sound t.toTable)
    (states : ∀ q, (t.proc q).state = (s.proc q).state ∨ (s.proc q).state = .zombie)
    (cpu : t.cpu = s.cpu)
    (forking : ∀ q stage np, t.pc q = .forking stage np → s.pc q = .forking stage np) : Core t := by
  refine core_frame core sound ?_ ?_ ?_ forking ?_ ?_ ?_
  · intro d q here
    rw [cpu] at here
    have running := core.running d q here
    rcases states q with same | zombie
    · exact same.trans running
    · simp [running] at zombie
  · rw [cpu]
    exact core.single
  · intro d holding
    rw [cpu] at holding
    have mine := core.held d holding
    rcases free with none | taken
    · rw [none] at mine
      simp at mine
    · rw [taken, Option.some.injEq] at mine
      rw [← mine] at holding
      cases place : s.cpu c <;> simp [place, runs, Holds] at on holding
  · intro q embryo
    rcases states q with same | zombie
    · exact same.trans embryo
    · simp [embryo] at zombie
  · rw [cpu]
    exact fun _ _ h => h
  · rw [cpu]
    exact fun _ h => h

/-- A runnable process is taken out of its queue and runs. -/
theorem core_dispatch {s t : State C} (core : Core s) {c : C} {p : Fin NPROC} {new : Cpu}
    (mine : s.lock = some c) (runnable : (s.proc p).state = .runnable) (sound : Sound t.toTable)
    (now : (t.proc p).state = .running)
    (others : ∀ q, q ≠ p → (t.proc q).state = (s.proc q).state)
    (cpu : t.cpu = Function.update s.cpu c new) (on : runs new = some p)
    (forking : ∀ q stage np, t.pc q = .forking stage np → s.pc q = .forking stage np) : Core t := by
  have there : ∀ d, d ≠ c → t.cpu d = s.cpu d := by
    intro d other
    simp [cpu, other]
  have here : t.cpu c = new := by simp [cpu]
  have shape : ¬ Holds new ∧ ¬ Boots new := by
    cases new <;> simp [runs, Holds, Boots] at on ⊢
  have fresh : ∀ d, runs (s.cpu d) ≠ some p := by
    intro d onD
    have := core.running d p onD
    simp [runnable] at this
  refine core_frame core sound ?_ ?_ ?_ forking ?_ ?_ ?_
  · intro d q onD
    by_cases same : d = c
    · rw [same, here, on, Option.some.injEq] at onD
      rw [← onD]
      exact now
    · rw [there d same] at onD
      have other : q ≠ p := fun eq => fresh d (eq ▸ onD)
      rw [others q other]
      exact core.running d q onD
  · intro d e q onD onE
    by_cases sameD : d = c
    · by_cases sameE : e = c
      · exact sameD.trans sameE.symm
      · rw [sameD, here, on, Option.some.injEq] at onD
        rw [there e sameE, ← onD] at onE
        exact absurd onE (fresh e)
    · by_cases sameE : e = c
      · rw [sameE, here, on, Option.some.injEq] at onE
        rw [there d sameD, ← onE] at onD
        exact absurd onD (fresh d)
      · rw [there d sameD] at onD
        rw [there e sameE] at onE
        exact core.single d e q onD onE
  · intro d holding
    by_cases same : d = c
    · rw [same, here] at holding
      exact absurd holding shape.1
    · rw [there d same] at holding
      have its := core.held d holding
      rw [mine, Option.some.injEq] at its
      exact absurd its.symm same
  · intro q embryo
    have other : q ≠ p := by
      intro same
      simp [same, runnable] at embryo
    rw [others q other]
    exact embryo
  · intro d q onD
    by_cases same : d = c
    · rw [same, here] at onD
      simp [onD, runs] at on
    · rwa [there d same] at onD
  · intro d onD
    by_cases same : d = c
    · rw [same, here] at onD
      exact absurd onD shape.2
    · rwa [there d same] at onD

omit [DecidableEq C] in
/-- The steps of `fork` by process `p` on the slot `np` of its child. -/
theorem core_fork {s t : State C} (core : Core s) {p np : Fin NPROC} {new : Pc}
    (sound : Sound t.toTable) (cpu : t.cpu = s.cpu) (lock : t.lock = s.lock)
    (pcs : t.pc = Function.update s.pc p new)
    (others : ∀ q, q ≠ np → (t.proc q).state = (s.proc q).state)
    (before : (∃ stage, s.pc p = .forking stage np) ∨
      ((∀ stage k, s.pc p ≠ .forking stage k) ∧ (s.proc np).state = .unused))
    (after : (∀ stage k, new ≠ .forking stage k) ∨
      ((∃ stage, new = .forking stage np) ∧ (t.proc np).state = .embryo)) : Core t := by
  have myPc : t.pc p = new := by simp [pcs]
  have otherPc : ∀ q, q ≠ p → t.pc q = s.pc q := by
    intro q other
    simp [pcs, other]
  have elsewhere : ∀ q, q ≠ p → ∀ stage, s.pc q ≠ .forking stage np := by
    intro q other stage forking
    rcases before with ⟨stage',mine⟩ | ⟨_,unused⟩
    · exact other (core.forkers q p stage stage' np forking mine)
    · have := core.forked q stage np forking
      simp [unused] at this
  have setupApart : ∀ c k, s.cpu c = .setup k → k ≠ np := by
    intro c k here same
    rcases before with ⟨stage,mine⟩ | ⟨_,unused⟩
    · exact (core.setup c k here).2 p stage (same ▸ mine)
    · have := (core.setup c k here).1
      simp [same, unused] at this
  have quiet : (s.proc np).state ≠ .running := by
    rcases before with ⟨stage,mine⟩ | ⟨_,unused⟩
    · simp [core.forked p stage np mine]
    · simp [unused]
  have onlyNp : ∀ stage k, new = .forking stage k → k = np ∧ (t.proc np).state = .embryo := by
    intro stage k here
    rcases after with none | ⟨⟨stage',mine⟩,embryo⟩
    · exact absurd here (none stage k)
    · rw [mine, Pc.forking.injEq] at here
      exact ⟨here.2.symm,embryo⟩
  constructor
  · exact sound
  · intro c q on
    rw [cpu] at on
    have running := core.running c q on
    have other : q ≠ np := fun same => quiet (same ▸ running)
    rw [others q other]
    exact running
  · rw [cpu]
    exact core.single
  · rw [cpu, lock]
    exact core.held
  · intro q stage k here
    by_cases same : q = p
    · rw [same, myPc] at here
      obtain ⟨slot,embryo⟩ := onlyNp stage k here
      rw [slot]
      exact embryo
    · rw [otherPc q same] at here
      have other : k ≠ np := fun slot => elsewhere q same stage (slot ▸ here)
      rw [others k other]
      exact core.forked q stage k here
  · intro q r stage stage' k first second
    by_cases sameQ : q = p
    · by_cases sameR : r = p
      · exact sameQ.trans sameR.symm
      · rw [sameQ, myPc] at first
        rw [otherPc r sameR, (onlyNp stage k first).1] at second
        exact absurd second (elsewhere r sameR stage')
    · by_cases sameR : r = p
      · rw [sameR, myPc] at second
        rw [otherPc q sameQ, (onlyNp stage' k second).1] at first
        exact absurd first (elsewhere q sameQ stage)
      · rw [otherPc q sameQ] at first
        rw [otherPc r sameR] at second
        exact core.forkers q r stage stage' k first second
  · intro c k here
    rw [cpu] at here
    have other := setupApart c k here
    obtain ⟨embryo,apart⟩ := core.setup c k here
    refine ⟨(others k other).trans embryo, fun q stage forking => ?_⟩
    by_cases same : q = p
    · rw [same, myPc] at forking
      exact other (onlyNp stage k forking).1
    · rw [otherPc q same] at forking
      exact apart q stage forking
  · rw [cpu]
    exact core.booting

/-- The two sections of `userinit`. -/
theorem core_boot {s t : State C} (core : Core s) {c : C} {p : Fin NPROC} {new : Cpu}
    (boots : Boots (s.cpu c)) (free : s.lock = none) (sound : Sound t.toTable)
    (cpu : t.cpu = Function.update s.cpu c new) (pc : t.pc = s.pc)
    (others : ∀ q, q ≠ p → (t.proc q).state = (s.proc q).state)
    (apart : ∀ q stage, s.pc q ≠ .forking stage p) (quiet : (s.proc p).state ≠ .running)
    (idle : runs new = none) (waiting : ¬ Holds new)
    (setup : ∀ k, new = .setup k → k = p ∧ (t.proc p).state = .embryo) : Core t := by
  have there : ∀ d, d ≠ c → t.cpu d = s.cpu d := by
    intro d other
    simp [cpu, other]
  have here : t.cpu c = new := by simp [cpu]
  have onOther : ∀ d q, runs (t.cpu d) = some q → runs (s.cpu d) = some q := by
    intro d q on
    by_cases same : d = c
    · rw [same, here, idle] at on
      simp at on
    · rwa [there d same] at on
  have nobody : ∀ d, ¬ Holds (s.cpu d) := by
    intro d holding
    have := core.held d holding
    simp [free] at this
  have booting : ∀ d, Boots (t.cpu d) → d = c := by
    intro d on
    by_cases same : d = c
    · exact same
    · rw [there d same] at on
      exact core.booting d c on boots
  constructor
  · exact sound
  · intro d q on
    have running := core.running d q (onOther d q on)
    have other : q ≠ p := fun same => quiet (same ▸ running)
    rw [others q other]
    exact running
  · intro d e q onD onE
    exact core.single d e q (onOther d q onD) (onOther e q onE)
  · intro d holding
    by_cases same : d = c
    · rw [same, here] at holding
      exact absurd holding waiting
    · rw [there d same] at holding
      exact absurd holding (nobody d)
  · intro q stage np forking
    rw [pc] at forking
    have other : np ≠ p := fun same => apart q stage (same ▸ forking)
    rw [others np other]
    exact core.forked q stage np forking
  · rw [pc]
    exact core.forkers
  · intro d k on
    have same := booting d (by rw [on]; trivial)
    rw [same, here] at on
    obtain ⟨slot,embryo⟩ := setup k on
    rw [slot, pc]
    exact ⟨embryo,apart⟩
  · intro d e onD onE
    exact (booting d onD).trans (booting e onE).symm

end States
end MlfqQueued
