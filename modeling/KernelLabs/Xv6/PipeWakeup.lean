import KernelLabs.Xv6.Pipe

/-!
Wakeups of a pipe. Every way out of the loops of `pipewrite` and `piperead` wakes the other
side, but one: a process that is killed while it waits for room, or before, returns without
`wakeup(&p->nread)` although it may have filled the buffer since it took the lock.
-/
namespace PipeWakeup
open Xv6Pipe RingBuffer Transition
variable {P : Type} [DecidableEq P]

def Writes : Pc → Prop
  | .writing _ => True
  | .dozing _ => True
  | .full _ => True
  | _ => False

def Reads : Pc → Prop
  | .reading _ => True
  | .nodding _ => True
  | .empty _ => True
  | .copying _ _ => True
  | _ => False

/-- An end is closed only when no process is in a call on it. -/
def Referenced (s : State P) : Action P → Prop
  | .close true => ∀ p, ¬ Writes (s.pc p)
  | .close false => ∀ p, ¬ Reads (s.pc p)
  | _ => True

/-- No reader sleeps when a killed process gives up writing to a full pipe. -/
def NoSleeperLeft (s : State P) : Action P → Prop
  | .advance p => ∀ b rest, s.pc p = .writing (b :: rest) → isFull s.ring = true →
      s.killed p = true → ∀ q, s.asleep q ≠ some .nread
  | _ => True

/-- While the lock is free, no process sleeps on a condition that has come true. -/
def NoLostWakeup (s : State P) : Prop :=
  s.lock = none → ∀ q,
    ¬ (s.asleep q = some .nread ∧ (s.ring.nread ≠ s.ring.nwrite ∨ s.writeopen = false)) ∧
    ¬ (s.asleep q = some .nwrite ∧
      (s.ring.nwrite ≠ s.ring.nread + BitVec.ofNat 32 PIPESIZE ∨ s.readopen = false))

/-- Readers sleep at an empty pipe with an open write end. -/
def Dry (s : State P) : Prop :=
  ∀ q, s.asleep q = some .nread → isEmpty s.ring = true ∧ s.writeopen = true

/-- Writers sleep at a full pipe with an open read end. -/
def Stuck (s : State P) : Prop :=
  ∀ q, s.asleep q = some .nwrite → isFull s.ring = true ∧ s.readopen = true

def Silent (s : State P) (chan : Chan) : Prop := ∀ q, s.asleep q ≠ some chan

/-- What holds of the sleepers, by where the process that has the lock is. -/
def Phase (s : State P) : Prop :=
  match s.lock with
  | none => Dry s ∧ Stuck s
  | some p =>
    match s.pc p with
    | .writing _ => Stuck s
    | .dozing _ => Stuck s ∧ isFull s.ring = true ∧ s.readopen = true
    | .reading _ => Dry s ∧ Stuck s
    | .nodding _ => Dry s ∧ Stuck s ∧ isEmpty s.ring = true ∧ s.writeopen = true
    | .copying _ _ => Silent s .nread
    | _ => False

structure Inv (s : State P) : Prop where
  deaf : s.readopen = false → ∀ q, ¬ Reads (s.pc q)
  readers : ∀ q, s.asleep q = some .nread → ∃ n, s.pc q = .empty n
  phase : Phase s

section Phases

omit [DecidableEq P] in
theorem phase_free {s : State P} (free : s.lock = none) : Phase s ↔ Dry s ∧ Stuck s := by
  simp [Phase, free]

omit [DecidableEq P] in
theorem phase_writing {s : State P} {p : P} {rest : List Byte} (held : s.lock = some p)
    (place : s.pc p = .writing rest) : Phase s ↔ Stuck s := by
  simp [Phase, held, place]

omit [DecidableEq P] in
theorem phase_reading {s : State P} {p : P} {n : Nat} (held : s.lock = some p)
    (place : s.pc p = .reading n) : Phase s ↔ Dry s ∧ Stuck s := by
  simp [Phase, held, place]

omit [DecidableEq P] in
theorem phase_copying {s : State P} {p : P} {n : Nat} {got : List Byte} (held : s.lock = some p)
    (place : s.pc p = .copying n got) : Phase s ↔ Silent s .nread := by
  simp [Phase, held, place]

omit [DecidableEq P] in
theorem wakeup_asleep {s : State P} {chan other : Chan} {q : P}
    (still : (wakeup s chan).asleep q = some other) : s.asleep q = some other ∧ other ≠ chan := by
  simp only [wakeup] at still
  split at still
  · simp at still
  · rename_i different
    refine ⟨still, fun same => ?_⟩
    rw [same] at still
    exact different still

omit [DecidableEq P] in
theorem wakeup_silent (s : State P) (chan : Chan) : Silent (wakeup s chan) chan := by
  intro q still
  exact (wakeup_asleep still).2 rfl

theorem kill_asleep {s : State P} {p q : P} {chan : Chan}
    (still : Function.update s.asleep p none q = some chan) : s.asleep q = some chan := by
  by_cases same : q = p
  · rw [same, Function.update_self] at still
    simp at still
  · rwa [Function.update_of_ne same] at still

omit [DecidableEq P] in
/-- A step that only wakes processes. -/
theorem phase_fewer {s t : State P} (phase : Phase s) (ring : t.ring = s.ring)
    (readopen : t.readopen = s.readopen) (writeopen : t.writeopen = s.writeopen)
    (lock : t.lock = s.lock) (pc : t.pc = s.pc)
    (asleep : ∀ q chan, t.asleep q = some chan → s.asleep q = some chan) : Phase t := by
  have dry : Dry s → Dry t := by
    intro before q sleeps
    rw [ring, writeopen]
    exact before q (asleep q _ sleeps)
  have stuck : Stuck s → Stuck t := by
    intro before q sleeps
    rw [ring, readopen]
    exact before q (asleep q _ sleeps)
  unfold Phase at phase ⊢
  rw [lock, pc]
  split at phase
  · exact ⟨dry phase.1, stuck phase.2⟩
  · split at phase
    · exact stuck phase
    · exact ⟨stuck phase.1, by rw [ring, readopen]; exact phase.2⟩
    · exact ⟨dry phase.1, stuck phase.2⟩
    · exact ⟨dry phase.1, stuck phase.2.1, by rw [ring, writeopen]; exact phase.2.2⟩
    · exact fun q sleeps => phase q (asleep q _ sleeps)
    · exact phase

end Phases

section Steps
variable {s t : State P} {p : P}

omit [DecidableEq P] in
theorem open_of_reads (inv : Inv s) (reads : Reads (s.pc p)) : s.readopen = true := by
  by_contra closed
  exact inv.deaf (by simpa using closed) p reads

omit [DecidableEq P] in
theorem awake_of_place (inv : Inv s) {pc : Pc} (place : s.pc p = pc) (other : ∀ n, pc ≠ .empty n) :
    s.asleep p ≠ some .nread := by
  intro sleeps
  obtain ⟨n,there⟩ := inv.readers p sleeps
  exact other n (place.symm.trans there)

/-- Process `p` moves on; readers are woken at most. -/
theorem inv_move (inv : Inv s) {new : Pc} (pc : t.pc = Function.update s.pc p new)
    (readopen : t.readopen = s.readopen)
    (asleep : ∀ q, t.asleep q = some .nread → s.asleep q = some .nread)
    (awake : s.asleep p ≠ some .nread) (reads : Reads new → s.readopen = true) (phase : Phase t) :
    Inv t := by
  refine ⟨fun closed q => ?_, fun q sleeps => ?_, phase⟩
  · rw [readopen] at closed
    by_cases same : q = p
    · rw [pc, same, Function.update_self]
      intro wrong
      rw [reads wrong] at closed
      simp at closed
    · rw [pc, Function.update_of_ne same]
      exact inv.deaf closed q
  · have before := asleep q sleeps
    have other : q ≠ p := by
      intro same
      exact awake (same ▸ before)
    rw [pc, Function.update_of_ne other]
    exact inv.readers q before

theorem inv_enter_writing (inv : Inv s) {rest : List Byte} (free : s.lock = none)
    (awake : s.asleep p ≠ some .nread) : Inv (enter s p (.writing rest)) := by
  refine inv_move inv rfl rfl (fun _ sleeps => sleeps) awake (fun wrong => wrong.elim) ?_
  have before := (phase_free free).mp inv.phase
  have here : (enter s p (.writing rest)).pc p = .writing rest := by simp [enter, State.setPc]
  exact (phase_writing rfl here).mpr before.2

theorem inv_enter_reading (inv : Inv s) {n : Nat} (free : s.lock = none)
    (awake : s.asleep p ≠ some .nread) (opened : s.readopen = true) :
    Inv (enter s p (.reading n)) := by
  refine inv_move inv rfl rfl (fun _ sleeps => sleeps) awake (fun _ => opened) ?_
  have here : (enter s p (.reading n)).pc p = .reading n := by simp [enter, State.setPc]
  exact (phase_reading rfl here).mpr ((phase_free free).mp inv.phase)

/-- The process that has the lock returns and gives it back. -/
theorem inv_leave {u : State P} (inv : Inv s) (pc : u.pc = s.pc) (readopen : u.readopen = s.readopen)
    (asleep : ∀ q, u.asleep q = some .nread → s.asleep q = some .nread)
    (awake : s.asleep p ≠ some .nread) (dry : Dry u) (stuck : Stuck u) : Inv (leave u p) := by
  have moved : (leave u p).pc = Function.update s.pc p .idle := by
    rw [← pc]
    rfl
  refine inv_move inv moved readopen asleep awake (fun wrong => wrong.elim) ?_
  exact (phase_free rfl).mpr ⟨dry,stuck⟩

omit [DecidableEq P] in
theorem dry_of_silent (silent : Silent s .nread) : Dry s := fun q sleeps => absurd sleeps (silent q)

omit [DecidableEq P] in
theorem stuck_of_silent (silent : Silent s .nwrite) : Stuck s := fun q sleeps => absurd sleeps (silent q)

omit [DecidableEq P] in
theorem stuck_wakeup (stuck : Stuck s) (chan : Chan) : Stuck (wakeup s chan) :=
  fun q sleeps => stuck q (wakeup_asleep sleeps).1

omit [DecidableEq P] in
theorem dry_wakeup (dry : Dry s) (chan : Chan) : Dry (wakeup s chan) :=
  fun q sleeps => dry q (wakeup_asleep sleeps).1

theorem inv_store (inv : Inv s) {b : Byte} {rest : List Byte} (held : s.lock = some p)
    (place : s.pc p = .writing (b :: rest)) (room : isFull s.ring = false) :
    Inv { s.setPc p (.writing rest) with ring := push PIPESIZE s.ring b } := by
  have stuck := (phase_writing held place).mp inv.phase
  refine inv_move inv rfl rfl (fun _ sleeps => sleeps) (awake_of_place inv place (by simp))
    (fun wrong => wrong.elim) ?_
  have lock : ({ s.setPc p (.writing rest) with ring := push PIPESIZE s.ring b } : State P).lock =
      some p := held
  have here : ({ s.setPc p (.writing rest) with ring := push PIPESIZE s.ring b } : State P).pc p =
      .writing rest := by simp [State.setPc]
  refine (phase_writing lock here).mpr fun q sleeps => ?_
  have full := (stuck q sleeps).1
  rw [room] at full
  simp at full

theorem inv_doze (inv : Inv s) {rest : List Byte} (held : s.lock = some p)
    (place : s.pc p = .dozing rest) : Inv (sleep (wakeup s .nread) p .nwrite (.full rest)) := by
  have phase := inv.phase
  simp only [Phase, held, place] at phase
  refine inv_move inv rfl rfl (fun q sleeps => ?_) (awake_of_place inv place (by simp))
    (fun wrong => wrong.elim) ?_
  · by_cases same : q = p
    · simp [sleep, same] at sleeps
    · simp only [sleep, Function.update_of_ne same] at sleeps
      exact (wakeup_asleep sleeps).1
  · refine (phase_free rfl).mpr ⟨fun q sleeps => ?_, fun q sleeps => ?_⟩
    · by_cases same : q = p
      · simp [sleep, same] at sleeps
      · simp only [sleep, Function.update_of_ne same] at sleeps
        exact absurd sleeps (wakeup_silent s .nread q)
    · by_cases same : q = p
      · exact phase.2
      · simp only [sleep, Function.update_of_ne same] at sleeps
        exact phase.1 q (wakeup_asleep sleeps).1

theorem inv_nod (inv : Inv s) {n : Nat} (held : s.lock = some p) (place : s.pc p = .nodding n) :
    Inv (sleep s p .nread (.empty n)) := by
  have phase := inv.phase
  simp only [Phase, held, place] at phase
  have opened := open_of_reads (p := p) inv (by rw [place]; trivial)
  refine ⟨fun closed => ?_, fun q sleeps => ?_, ?_⟩
  · rw [show (sleep s p .nread (.empty n)).readopen = s.readopen from rfl, opened] at closed
    simp at closed
  · by_cases same : q = p
    · exact ⟨n, by simp [sleep, State.setPc, same]⟩
    · simp only [sleep, Function.update_of_ne same] at sleeps
      simp only [sleep, State.setPc, Function.update_of_ne same]
      exact inv.readers q sleeps
  · refine (phase_free rfl).mpr ⟨fun q sleeps => ?_, fun q sleeps => ?_⟩
    · by_cases same : q = p
      · exact phase.2.2
      · simp only [sleep, Function.update_of_ne same] at sleeps
        exact phase.1 q sleeps
    · by_cases same : q = p
      · simp [sleep, same] at sleeps
      · simp only [sleep, Function.update_of_ne same] at sleeps
        exact phase.2.1 q sleeps

omit [DecidableEq P] in
theorem inv_close_write (inv : Inv s) (free : s.lock = none) :
    Inv (wakeup { s with writeopen := false } .nread) := by
  have before := (phase_free free).mp inv.phase
  have still : (wakeup { s with writeopen := false } .nread).lock = none := free
  refine ⟨inv.deaf, fun q sleeps => inv.readers q (wakeup_asleep sleeps).1, (phase_free still).mpr ?_⟩
  refine ⟨dry_of_silent (wakeup_silent _ _), ?_⟩
  exact fun q sleeps => before.2 q (wakeup_asleep sleeps).1

omit [DecidableEq P] in
theorem inv_close_read (inv : Inv s) (free : s.lock = none) (unused : ∀ q, ¬ Reads (s.pc q)) :
    Inv (wakeup { s with readopen := false } .nwrite) := by
  have before := (phase_free free).mp inv.phase
  have still : (wakeup { s with readopen := false } .nwrite).lock = none := free
  refine ⟨fun _ => unused, fun q sleeps => inv.readers q (wakeup_asleep sleeps).1,
    (phase_free still).mpr ?_⟩
  refine ⟨?_, stuck_of_silent (wakeup_silent _ _)⟩
  exact fun q sleeps => before.1 q (wakeup_asleep sleeps).1

theorem step_inv {a : Action P} {new : List Event} (inv : Inv s) (referenced : Referenced s a)
    (careful : NoSleeperLeft s a) (moves : Moves s a new t) : Inv t := by
  cases moves with
  | write free idle opened =>
    exact inv_enter_writing inv free (awake_of_place inv idle (by simp))
  | read free idle opened =>
    exact inv_enter_reading inv free (awake_of_place inv idle (by simp)) opened
  | written held place =>
    have stuck := (phase_writing held place).mp inv.phase
    exact inv_leave inv rfl rfl (fun _ sleeps => (wakeup_asleep sleeps).1)
      (awake_of_place inv place (by simp)) (dry_of_silent (wakeup_silent s .nread))
      (stuck_wakeup stuck .nread)
  | @refused p b rest held place full why =>
    have stuck := (phase_writing held place).mp inv.phase
    have silent : Silent s .nread := by
      rcases why with closed | killed
      · intro q sleeps
        obtain ⟨n,there⟩ := inv.readers q sleeps
        exact inv.deaf closed q (by rw [there]; trivial)
      · exact careful b rest place full killed
    exact inv_leave inv rfl rfl (fun _ sleeps => sleeps) (awake_of_place inv place (by simp))
      (dry_of_silent silent) stuck
  | @waits p b rest held place full opened =>
    have stuck := (phase_writing held place).mp inv.phase
    refine inv_move inv rfl rfl (fun _ sleeps => sleeps) (awake_of_place inv place (by simp))
      (fun wrong => wrong.elim) ?_
    have here : (s.setPc p (.dozing (b :: rest))).pc p = .dozing (b :: rest) := by simp [State.setPc]
    have lock : (s.setPc p (.dozing (b :: rest))).lock = some p := held
    simp only [Phase, lock, here]
    exact ⟨stuck,full,opened⟩
  | store held place room => exact inv_store inv held place room
  | doze held place => exact inv_doze inv held place
  | killed held place =>
    obtain ⟨dry,stuck⟩ := (phase_reading held place).mp inv.phase
    exact inv_leave inv rfl rfl (fun _ sleeps => sleeps) (awake_of_place inv place (by simp)) dry stuck
  | @starves p n held place empty opened =>
    obtain ⟨dry,stuck⟩ := (phase_reading held place).mp inv.phase
    refine inv_move inv rfl rfl (fun _ sleeps => sleeps) (awake_of_place inv place (by simp))
      (fun _ => open_of_reads (p := p) inv (by rw [place]; trivial)) ?_
    have here : (s.setPc p (.nodding n)).pc p = .nodding n := by simp [State.setPc]
    have lock : (s.setPc p (.nodding n)).lock = some p := held
    simp only [Phase, lock, here]
    exact ⟨dry,stuck,empty,opened⟩
  | @copies p n held place ready =>
    obtain ⟨dry,_⟩ := (phase_reading held place).mp inv.phase
    refine inv_move inv rfl rfl (fun _ sleeps => sleeps) (awake_of_place inv place (by simp))
      (fun _ => open_of_reads (p := p) inv (by rw [place]; trivial)) ?_
    have here : (s.setPc p (.copying n [])).pc p = .copying n [] := by simp [State.setPc]
    have lock : (s.setPc p (.copying n [])).lock = some p := held
    refine (phase_copying lock here).mpr fun q sleeps => ?_
    obtain ⟨empty,opened⟩ := dry q sleeps
    rcases ready with some_byte | closed
    · rw [some_byte] at empty
      simp at empty
    · rw [closed] at opened
      simp at opened
  | nod held place => exact inv_nod inv held place
  | copied held place =>
    have silent := (phase_copying held place).mp inv.phase
    exact inv_leave inv rfl rfl (fun _ sleeps => (wakeup_asleep sleeps).1)
      (awake_of_place inv place (by simp)) (dry_wakeup (dry_of_silent silent) .nwrite)
      (stuck_of_silent (wakeup_silent s .nwrite))
  | @take p n got held place ready =>
    have silent := (phase_copying held place).mp inv.phase
    refine inv_move inv rfl rfl (fun _ sleeps => sleeps) (awake_of_place inv place (by simp))
      (fun _ => open_of_reads (p := p) inv (by rw [place]; trivial)) ?_
    simp only [Phase, State.setPc, held, Function.update_self]
    exact silent
  | rewrite free awake place =>
    exact inv_enter_writing inv free (awake_of_place inv place (by simp))
  | @reread p n free awake place =>
    refine inv_enter_reading inv free (by simp [awake]) ?_
    exact open_of_reads (p := p) inv (by rw [place]; trivial)
  | kill =>
    refine ⟨inv.deaf, fun q sleeps => inv.readers q (kill_asleep sleeps), ?_⟩
    exact phase_fewer inv.phase rfl rfl rfl rfl rfl fun q chan sleeps => kill_asleep sleeps
  | closeWrite free => exact inv_close_write inv free
  | closeRead free => exact inv_close_read inv free referenced

omit [DecidableEq P] in
theorem inv_start (start : Start s) : Inv s := by
  obtain ⟨_,opened,_,free,idle,awake⟩ := start
  refine ⟨fun closed => ?_, fun q sleeps => ?_, (phase_free free).mpr ⟨?_, ?_⟩⟩
  · rw [opened] at closed
    simp at closed
  · simp [awake q] at sleeps
  · intro q sleeps
    simp [awake q] at sleeps
  · intro q sleeps
    simp [awake q] at sleeps

omit [DecidableEq P] in
theorem none_lost_of_inv (inv : Inv s) : NoLostWakeup s := by
  intro free q
  obtain ⟨dry,stuck⟩ := (phase_free free).mp inv.phase
  constructor
  · rintro ⟨sleeps,ready⟩
    obtain ⟨empty,opened⟩ := dry q sleeps
    rw [isEmpty, decide_eq_true_eq] at empty
    rcases ready with more | closed
    · exact more empty
    · rw [opened] at closed
      simp at closed
  · rintro ⟨sleeps,ready⟩
    obtain ⟨full,opened⟩ := stuck q sleeps
    rw [isFull, decide_eq_true_eq] at full
    rcases ready with room | closed
    · exact room full
    · rw [opened] at closed
      simp at closed

/-- In every run in which no killed process gives up writing beside a sleeping reader, no
    wakeup is lost. -/
theorem no_wakeup_lost
    (reach : (system P).Reach (fun s a => Referenced s a ∧ NoSleeperLeft s a) s) :
    NoLostWakeup s := by
  have inv : Inv s := System.reach_invariant (system P) (fun _ => inv_start)
    (fun _ _ _ inv allowed run => step_inv inv allowed.1 allowed.2 (step_moves run)) reach
  exact none_lost_of_inv inv

end Steps

inductive Party where
  | reader
  | writer
deriving DecidableEq

def fresh : State Party where
  ring := ⟨fun _ => 0, 0, 0⟩
  readopen := true
  writeopen := true
  lock := none
  pc := fun _ => .idle
  asleep := fun _ => none
  killed := fun _ => false

theorem fresh_start : Start fresh := ⟨rfl, rfl, rfl, rfl, fun _ => rfl, fun _ => rfl⟩

/-- A test that admits the calls of processes that are not killed. -/
def alive (s : State Party) : Action Party → Bool
  | .advance p => !s.killed p
  | .close _ => false
  | _ => true

theorem alive_careful (s : State Party) (a : Action Party) (passed : alive s a = true) :
    Referenced s a ∧ NoSleeperLeft s a := by
  cases a with
  | advance p =>
    refine ⟨trivial, fun b rest _ _ killed => ?_⟩
    simp [alive, killed] at passed
  | close writable => simp [alive] at passed
  | _ => exact ⟨trivial,trivial⟩

/-- The reader waits for bytes, and the writer writes three. -/
def served : State Party :=
  (System.exec (System.guarded alive step) fresh ([.read .reader 5, .advance .reader,
    .advance .reader, .write .writer [7, 8, 9]] ++ List.replicate 4 (.advance .writer))).get (by decide +kernel)

theorem served_reach :
    (system Party).Reach (fun s a => Referenced s a ∧ NoSleeperLeft s a) served := by
  have run : System.exec (System.guarded alive step) fresh ([.read .reader 5, .advance .reader,
      .advance .reader, .write .writer [7, 8, 9]] ++ List.replicate 4 (.advance .writer)) = some served := by
    simp only [served, Option.some_get]
  exact System.guarded_reach alive alive_careful _ (.start fresh_start) run

theorem no_wakeup_lost_served :
    (system Party).Reach (fun s a => Referenced s a ∧ NoSleeperLeft s a) served ∧
    served.lock = none ∧ served.pc .reader = .empty 5 ∧ NoLostWakeup served :=
  ⟨served_reach, by decide, by decide, no_wakeup_lost served_reach⟩

/-- The reader waits for bytes; the writer is killed while it writes 513 of them. -/
def forsakenLabels : List (Action Party) :=
  [.read .reader 5, .advance .reader, .advance .reader, .write .writer (List.replicate 513 7), .kill .writer] ++
    List.replicate 513 (.advance .writer)

def forsaken : State Party := (System.exec step fresh forsakenLabels).get (by decide +kernel)

theorem forsaken_reach : (system Party).Reach Referenced forsaken := by
  have run : System.exec step fresh forsakenLabels = some forsaken := by
    simp only [forsaken, Option.some_get]
  refine System.exec_reach forsakenLabels (fun a member s => ?_) (.start fresh_start) run
  simp only [forsakenLabels, List.mem_append, List.mem_cons, List.not_mem_nil, or_false,
    List.mem_replicate] at member
  rcases member with (rfl | rfl | rfl | rfl | rfl) | ⟨_,rfl⟩ <;> trivial

/-- The buffer is full, and the reader sleeps on. -/
theorem killed_writer_leaves_reader_asleep : (system Party).Reach Referenced forsaken ∧
    ¬ NoLostWakeup forsaken := by
  refine ⟨forsaken_reach, fun none_lost => ?_⟩
  have facts : forsaken.lock = none ∧ forsaken.asleep .reader = some .nread ∧
      forsaken.ring.nread ≠ forsaken.ring.nwrite := by decide +kernel
  exact (none_lost facts.1 .reader).1 ⟨facts.2.1, Or.inl facts.2.2⟩

end PipeWakeup
