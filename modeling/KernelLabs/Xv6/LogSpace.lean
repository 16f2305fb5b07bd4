import Mathlib.Algebra.BigOperators.Group.Finset.Piecewise
import Mathlib.Algebra.Order.BigOperators.Group.Finset
import Mathlib.Data.Fintype.Basic
import KernelLabs.Lib.Counting
import KernelLabs.Lib.Transition
import KernelLabs.Xv6.Log

/-!
Log space reservation on a disk laid out by `mkfs`, whose superblock has
`nlog = LOGSIZE`. Any number of processes run file system operations; every
operation logs at most `MAXOPBLOCKS` distinct blocks.
-/
namespace Xv6LogSpace
open Xv6Log Transition Counting

/-- Where a process is; `logged` holds the distinct blocks of its operation, and
    `entering` the block of a `log_write` that has passed its tests. -/
inductive Op where
  | outside
  | inside (logged : Finset Nat) (entering : Option Nat)
  | committing
  | cleared
  deriving DecidableEq

structure State (P : Type) where
  log : Log
  op : P → Op

inductive Action (P : Type) where
  | beginOp (p : P)
  | logWrite (p : P) (b : Nat)
  | record (p : P)
  | endOp (p : P)
  | clear (p : P)
  | finish (p : P)

section Model
variable {P : Type} [DecidableEq P]

/-- `log_write(b)` keeps the operation within `MAXOPBLOCKS` distinct blocks. -/
def Within (logged : Finset Nat) (b : Nat) : Prop := (insert b logged).card ≤ MAXOPBLOCKS

instance (logged : Finset Nat) (b : Nat) : Decidable (Within logged b) :=
  inferInstanceAs (Decidable (_ ≤ _))

def State.set (s : State P) (log : Log) (p : P) (op : Op) : State P :=
  ⟨log, Function.update s.op p op⟩

/-- A panic stops the machine, so a step that panics has no successor. -/
def next (s : State P) : Action P → Option (State P)
  | .beginOp p =>
    match s.op p with
    | .outside => (Xv6Log.beginOp s.log).map fun log => s.set log p (.inside ∅ none)
    | _ => none
  | .logWrite p b =>
    match s.op p with
    | .inside logged none =>
      if Within logged b then
        match logWriteTest s.log with
        | .ok _ => some (s.set s.log p (.inside logged (some b)))
        | .error _ => none
      else none
    | _ => none
  | .record p =>
    match s.op p with
    | .inside logged (some b) =>
      some (s.set (Xv6Log.record s.log b) p (.inside (insert b logged) none))
    | _ => none
  | .endOp p =>
    match s.op p with
    | .inside _ none =>
      match Xv6Log.endOp s.log with
      | .ok (log, true) => some (s.set log p .committing)
      | .ok (log, false) => some (s.set log p .outside)
      | .error _ => none
    | _ => none
  | .clear p =>
    match s.op p with
    | .committing => some (s.set { s.log with lh := [] } p .cleared)
    | _ => none
  | .finish p =>
    match s.op p with
    | .cleared => some (s.set { s.log with committing := false } p .outside)
    | _ => none

/-- After `initlog` on a disk made by `mkfs`. -/
def Start (s : State P) : Prop :=
  s.log.size = LOGSIZE ∧ s.log.outstanding = 0 ∧ s.log.committing = false ∧ s.log.lh = [] ∧
    ∀ p, s.op p = .outside

def system (P : Type) [DecidableEq P] : System (State P) (Action P) := ⟨Start, next⟩

/-- A `log_write` of an operation within its bound panics here. -/
def TooBig (s : State P) : Prop :=
  ∃ p logged b, s.op p = .inside logged none ∧ Within logged b ∧
    logWriteTest s.log = .error .tooBigATransaction

end Model

/-- Distinct blocks an operation may still add. -/
def Op.room : Op → Nat
  | .inside logged _ => MAXOPBLOCKS - logged.card
  | _ => 0

def Op.active : Op → Bool
  | .inside _ _ => true
  | _ => false

section Invariant
variable {P : Type} [Fintype P]

def room (s : State P) : Nat := ∑ p, (s.op p).room

def active (s : State P) : Finset P := Finset.univ.filter fun p => (s.op p).active = true

/-- `begin_op` admits an operation only when the recorded blocks, the blocks the
    running operations may still add and a whole new operation fit below the
    limit that `log_write` tests. -/
def Reserved (s : State P) : Action P → Prop
  | .beginOp _ => s.log.lh.length + room s + MAXOPBLOCKS + 2 ≤ s.log.size
  | _ => True

structure Inv (s : State P) : Prop where
  size : s.log.size = LOGSIZE
  outstanding : s.log.outstanding = (active s).card
  fits : s.log.lh.length + room s + 2 ≤ s.log.size
  recorded : ∀ p logged e, s.op p = .inside logged e → ∀ b ∈ logged, b ∈ s.log.lh
  within : ∀ p logged b, s.op p = .inside logged (some b) → Within logged b
  quiet : ∀ p, s.op p = .committing ∨ s.op p = .cleared →
    s.log.committing = true ∧ s.log.outstanding = 0 ∧
      ∀ q, s.op q = .committing ∨ s.op q = .cleared → q = p

theorem inv_start {s : State P} (start : Start s) : Inv s := by
  obtain ⟨size,none,_,empty,outside⟩ := start
  constructor
  · exact size
  · simp [none, active, outside, Op.active]
  · simp [size, empty, room, outside, Op.room, LOGSIZE, MAXOPBLOCKS]
  · intro p logged e here
    simp [outside p] at here
  · intro p logged b here
    simp [outside p] at here
  · intro p here
    simp [outside p] at here

theorem not_active_of_quiet {s : State P} (inv : Inv s) (idle : s.log.outstanding = 0) (p : P) :
    (s.op p).active = false := by
  rw [inv.outstanding, Finset.card_eq_zero, active, Finset.filter_eq_empty_iff] at idle
  have := idle (Finset.mem_univ p)
  simpa using this

section Steps
variable [DecidableEq P]

theorem room_change (s : State P) (log : Log) (p : P) (op : Op) :
    room (s.set log p op) + (s.op p).room = room s + op.room := by
  have change := sum_change Finset.univ (fun q => (s.op q).room)
    (fun q => ((s.set log p op).op q).room) (Finset.mem_univ p) (by
      intro q _ other
      simp [State.set, other])
  simpa [room, State.set] using change

theorem active_change (s : State P) (log : Log) (p : P) (op : Op) :
    (active (s.set log p op)).card + (if (s.op p).active = true then 1 else 0) =
      (active s).card + if op.active = true then 1 else 0 := by
  have change := card_filter_change Finset.univ (fun q => (s.op q).active = true)
    (fun q => ((s.set log p op).op q).active = true) (Finset.mem_univ p) (by
      intro q _ other
      simp [State.set, other])
  simpa [active, State.set] using change

omit [Fintype P] in
theorem set_op (s : State P) (log : Log) (p q : P) (op : Op) :
    (q = p ∧ (s.set log p op).op q = op) ∨ (q ≠ p ∧ (s.set log p op).op q = s.op q) := by
  by_cases same : q = p
  · left
    subst same
    simp [State.set]
  · right
    simp [State.set, same]

theorem inv_begin {s : State P} (inv : Inv s) {p : P} {log : Log} (outside : s.op p = .outside)
    (admitted : Xv6Log.beginOp s.log = some log)
    (reserved : s.log.lh.length + room s + MAXOPBLOCKS + 2 ≤ s.log.size) :
    Inv (s.set log p (.inside ∅ none)) := by
  unfold Xv6Log.beginOp at admitted
  split at admitted
  · simp at admitted
  · rename_i free
    split at admitted
    · simp at admitted
    · simp only [Option.some.injEq] at admitted
      subst admitted
      have rooms := room_change s { s.log with outstanding := s.log.outstanding + 1 } p (.inside ∅ none)
      have active := active_change s { s.log with outstanding := s.log.outstanding + 1 } p
        (.inside ∅ none)
      simp only [outside, Op.room, Finset.card_empty] at rooms
      simp only [outside, Op.active, ↓reduceIte, Bool.false_eq_true] at active
      constructor
      · exact inv.size
      · have := inv.outstanding
        change s.log.outstanding + 1 = _
        omega
      · change s.log.lh.length + _ + 2 ≤ s.log.size
        omega
      · intro q logged e here b member
        rcases set_op s _ p q (.inside ∅ none) with ⟨_,now⟩ | ⟨_,kept⟩
        · rw [now] at here
          simp only [Op.inside.injEq] at here
          rw [← here.1] at member
          simp at member
        · rw [kept] at here
          exact inv.recorded q logged e here b member
      · intro q logged b here
        rcases set_op s _ p q (.inside ∅ none) with ⟨_,now⟩ | ⟨_,kept⟩
        · rw [now] at here
          simp at here
        · rw [kept] at here
          exact inv.within q logged b here
      · intro q here
        rcases set_op s _ p q (.inside ∅ none) with ⟨_,now⟩ | ⟨_,kept⟩
        · rw [now] at here
          simp at here
        · rw [kept] at here
          exact absurd (inv.quiet q here).1 free

theorem inv_enter {s : State P} (inv : Inv s) {p : P} {logged : Finset Nat} {b : Nat}
    (here : s.op p = .inside logged none) (within : Within logged b) :
    Inv (s.set s.log p (.inside logged (some b))) := by
  have rooms := room_change s s.log p (.inside logged (some b))
  have active := active_change s s.log p (.inside logged (some b))
  simp only [here, Op.room] at rooms
  simp only [here, Op.active, ↓reduceIte] at active
  constructor
  · exact inv.size
  · have := inv.outstanding
    change s.log.outstanding = _
    omega
  · have := inv.fits
    change s.log.lh.length + _ + 2 ≤ s.log.size
    omega
  · intro q logged' e there c member
    rcases set_op s s.log p q (.inside logged (some b)) with ⟨_,now⟩ | ⟨_,kept⟩
    · rw [now] at there
      simp only [Op.inside.injEq] at there
      rw [← there.1] at member
      exact inv.recorded p logged none here c member
    · rw [kept] at there
      exact inv.recorded q logged' e there c member
  · intro q logged' c there
    rcases set_op s s.log p q (.inside logged (some b)) with ⟨_,now⟩ | ⟨_,kept⟩
    · rw [now] at there
      simp only [Op.inside.injEq, Option.some.injEq] at there
      rw [← there.1, ← there.2]
      exact within
    · rw [kept] at there
      exact inv.within q logged' c there
  · intro q there
    rcases set_op s s.log p q (.inside logged (some b)) with ⟨_,now⟩ | ⟨_,kept⟩
    · simp [now] at there
    · rw [kept] at there
      have idle := not_active_of_quiet inv (inv.quiet q there).2.1 p
      simp [here, Op.active] at idle

/-- A new block takes one unit of room from its operation, so the sum does not grow. -/
theorem inv_record {s : State P} (inv : Inv s) {p : P} {logged : Finset Nat} {b : Nat}
    (here : s.op p = .inside logged (some b)) :
    Inv (s.set (Xv6Log.record s.log b) p (.inside (insert b logged) none)) := by
  obtain ⟨outstanding,committing,size,_⟩ := record_outstanding s.log b
  have rooms := room_change s (Xv6Log.record s.log b) p (.inside (insert b logged) none)
  have active := active_change s (Xv6Log.record s.log b) p (.inside (insert b logged) none)
  simp only [here, Op.room] at rooms
  simp only [here, Op.active, ↓reduceIte] at active
  constructor
  · exact size.trans inv.size
  · have := inv.outstanding
    change (Xv6Log.record s.log b).outstanding = _
    omega
  · have fits := inv.fits
    have length := record_length s.log b
    have bound : (insert b logged).card ≤ MAXOPBLOCKS := inv.within p logged b here
    change (Xv6Log.record s.log b).lh.length + _ + 2 ≤ (Xv6Log.record s.log b).size
    by_cases member : b ∈ s.log.lh
    · rw [if_pos member] at length
      have grows : logged.card ≤ (insert b logged).card := Finset.card_le_card (Finset.subset_insert b logged)
      omega
    · rw [if_neg member] at length
      have fresh : b ∉ logged := fun mem => member (inv.recorded p logged _ here b mem)
      rw [Finset.card_insert_of_notMem fresh] at rooms bound
      omega
  · intro q logged' e there c member
    rcases set_op s (Xv6Log.record s.log b) p q (.inside (insert b logged) none) with ⟨_,now⟩ | ⟨_,kept⟩
    · rw [now] at there
      simp only [Op.inside.injEq] at there
      rw [← there.1, Finset.mem_insert] at member
      rcases member with same | old
      · exact same ▸ record_mem s.log b
      · exact record_keeps s.log b (inv.recorded p logged _ here c old)
    · rw [kept] at there
      exact record_keeps s.log b (inv.recorded q logged' e there c member)
  · intro q logged' c there
    rcases set_op s (Xv6Log.record s.log b) p q (.inside (insert b logged) none) with ⟨_,now⟩ | ⟨_,kept⟩
    · simp [now] at there
    · rw [kept] at there
      exact inv.within q logged' c there
  · intro q there
    rcases set_op s (Xv6Log.record s.log b) p q (.inside (insert b logged) none) with ⟨_,now⟩ | ⟨_,kept⟩
    · simp [now] at there
    · rw [kept] at there
      have idle := not_active_of_quiet inv (inv.quiet q there).2.1 p
      simp [here, Op.active] at idle

theorem inv_end {s : State P} (inv : Inv s) {p : P} {logged : Finset Nat} {log : Log} {last : Bool}
    (here : s.op p = .inside logged none) (run : Xv6Log.endOp s.log = .ok (log, last)) :
    Inv (s.set log p (if last then .committing else .outside)) := by
  have shape : log.lh = s.log.lh ∧ log.size = s.log.size ∧ s.log.committing = false ∧
      log.outstanding = s.log.outstanding - 1 ∧
      (last = true → log.committing = true ∧ log.outstanding = 0) := by
    simp only [Xv6Log.endOp] at run
    split at run
    · simp at run
    · rename_i free
      have free : s.log.committing = false := by simpa using free
      split at run
      · rename_i zero
        simp only [Except.ok.injEq, Prod.mk.injEq] at run
        rw [← run.1]
        exact ⟨rfl,rfl,free,rfl,fun _ => ⟨rfl,zero⟩⟩
      · simp only [Except.ok.injEq, Prod.mk.injEq] at run
        rw [← run.1, ← run.2]
        exact ⟨rfl,rfl,free,rfl,fun wrong => by simp at wrong⟩
  obtain ⟨lh,size,free,outstanding,final⟩ := shape
  have away : ∀ q, ¬ (s.op q = .committing ∨ s.op q = .cleared) := by
    intro q there
    have busy := (inv.quiet q there).1
    simp [free] at busy
  have after : ∀ q, (q = p ∧ (s.set log p (if last then .committing else .outside)).op q =
      if last then .committing else .outside) ∨
      (q ≠ p ∧ (s.set log p (if last then .committing else .outside)).op q = s.op q) :=
    fun q => set_op s log p q _
  have rooms := room_change s log p (if last then .committing else .outside)
  have counts := active_change s log p (if last then .committing else .outside)
  have noRoom : (if last then Op.committing else Op.outside).room = 0 := by split <;> rfl
  have notActive : (if last then Op.committing else Op.outside).active = false := by split <;> rfl
  rw [noRoom] at rooms
  have wasActive : (s.op p).active = true := by rw [here]; rfl
  simp only [wasActive, notActive, ↓reduceIte, Bool.false_eq_true] at counts
  constructor
  · exact size.trans inv.size
  · have := inv.outstanding
    change log.outstanding = _
    omega
  · have := inv.fits
    change log.lh.length + _ + 2 ≤ log.size
    rw [lh, size]
    omega
  · intro q logged' e there b member
    change b ∈ log.lh
    rw [lh]
    rcases after q with ⟨_,now⟩ | ⟨_,kept⟩
    · rw [now] at there
      split at there <;> simp at there
    · rw [kept] at there
      exact inv.recorded q logged' e there b member
  · intro q logged' b there
    rcases after q with ⟨_,now⟩ | ⟨_,kept⟩
    · rw [now] at there
      split at there <;> simp at there
    · rw [kept] at there
      exact inv.within q logged' b there
  · intro q there
    rcases after q with ⟨same,now⟩ | ⟨_,kept⟩
    · have closing : last = true := by
        by_contra wrong
        rw [now, if_neg wrong] at there
        simp at there
      refine ⟨(final closing).1, (final closing).2, ?_⟩
      intro r other
      rcases after r with ⟨again,_⟩ | ⟨_,kept⟩
      · exact again.trans same.symm
      · rw [kept] at other
        exact absurd other (away r)
    · rw [kept] at there
      exact absurd there (away q)

/-- Both sections of the committing process: nobody else is in an operation. -/
theorem inv_commit {s : State P} (inv : Inv s) {p : P} {log : Log} {op : Op}
    (here : s.op p = .committing ∨ s.op p = .cleared) (size : log.size = s.log.size)
    (outstanding : log.outstanding = s.log.outstanding) (shorter : log.lh.length ≤ s.log.lh.length)
    (after : op = .outside ∨ op = .cleared ∧ log.committing = s.log.committing) :
    Inv (s.set log p op) := by
  obtain ⟨busy,idle,alone⟩ := inv.quiet p here
  have nobody := not_active_of_quiet inv idle
  have noRoom : op.room = 0 := by
    rcases after with out | ⟨cleared,_⟩
    · rw [out]; rfl
    · rw [cleared]; rfl
  have notActive : op.active = false := by
    rcases after with out | ⟨cleared,_⟩
    · rw [out]; rfl
    · rw [cleared]; rfl
  have rooms := room_change s log p op
  have counts := active_change s log p op
  simp only [nobody p, notActive, ↓reduceIte, Bool.false_eq_true] at counts
  have outsider : ∀ q logged e, (s.set log p op).op q ≠ .inside logged e := by
    intro q logged e there
    rcases set_op s log p q op with ⟨_,now⟩ | ⟨_,kept⟩
    · rw [now] at there
      simp [there, Op.active] at notActive
    · rw [kept] at there
      have := nobody q
      simp [there, Op.active] at this
  constructor
  · exact size.trans inv.size
  · have := inv.outstanding
    change log.outstanding = _
    omega
  · have := inv.fits
    change log.lh.length + _ + 2 ≤ log.size
    omega
  · intro q logged e there
    exact absurd there (outsider q logged e)
  · intro q logged b there
    exact absurd there (outsider q logged _)
  · intro q there
    rcases set_op s log p q op with ⟨same,now⟩ | ⟨other,kept⟩
    · rcases after with out | ⟨_,committing⟩
      · rw [now, out] at there
        simp at there
      · refine ⟨committing.trans busy, outstanding.trans idle, ?_⟩
        intro r again
        rcases set_op s log p r op with ⟨here',_⟩ | ⟨_,kept⟩
        · exact here'.trans same.symm
        · rw [kept] at again
          exact (alone r again).trans same.symm
    · rw [kept] at there
      exact absurd (alone q there) other

theorem next_inv {s t : State P} {a : Action P} (inv : Inv s) (reserved : Reserved s a)
    (run : next s a = some t) : Inv t := by
  cases a with
  | beginOp p =>
    simp only [next] at run
    split at run
    · rename_i outside
      simp only [Option.map_eq_some_iff] at run
      obtain ⟨log,admitted,done⟩ := run
      exact done ▸ inv_begin inv outside admitted reserved
    · simp at run
  | logWrite p b =>
    simp only [next] at run
    split at run
    · rename_i logged here
      split at run
      · rename_i within
        split at run
        · simp only [Option.some.injEq] at run
          exact run ▸ inv_enter inv here within
        · simp at run
      · simp at run
    · simp at run
  | record p =>
    simp only [next] at run
    split at run
    · rename_i logged b here
      simp only [Option.some.injEq] at run
      exact run ▸ inv_record inv here
    · simp at run
  | endOp p =>
    simp only [next] at run
    split at run
    · rename_i logged here
      split at run
      · rename_i log done
        simp only [Option.some.injEq] at run
        exact run ▸ inv_end inv here done
      · rename_i log done
        simp only [Option.some.injEq] at run
        exact run ▸ inv_end inv here done
      · simp at run
    · simp at run
  | clear p =>
    simp only [next] at run
    split at run
    · rename_i here
      simp only [Option.some.injEq] at run
      exact run ▸ inv_commit inv (Or.inl here) rfl rfl (Nat.zero_le _) (Or.inr ⟨rfl,rfl⟩)
    · simp at run
  | finish p =>
    simp only [next] at run
    split at run
    · rename_i here
      simp only [Option.some.injEq] at run
      exact run ▸ inv_commit inv (Or.inr here) rfl rfl (Nat.le_refl _) (Or.inl rfl)
    · simp at run

/-- In every run whose admitted operations all fit below the limit of `log_write`,
    no `log_write` of an operation within its bound finds the transaction too big. -/
theorem reserved_log_write_fits {s : State P} (reach : (system P).Reach Reserved s) :
    ¬ TooBig s := by
  have inv : Inv s := System.reach_invariant (system P) (fun _ => inv_start)
    (fun _ _ _ before ok step => next_inv before ok step) reach
  intro tooBig
  obtain ⟨p,logged,b,_,_,panic⟩ := tooBig
  have fits := inv.fits
  have size := inv.size
  unfold logWriteTest at panic
  split at panic
  · omega
  · split at panic <;> simp at panic

end Steps
end Invariant

inductive Caller where
  | first
  | second
  | third
deriving DecidableEq

instance : Fintype Caller where
  elems := {.first, .second, .third}
  complete := by
    intro p
    cases p <;> simp

def freshLog : State Caller where
  log := ⟨2, LOGSIZE, 0, false, []⟩
  op := fun _ => .outside

theorem freshLog_start : Start freshLog := ⟨rfl,rfl,rfl,rfl,fun _ => rfl⟩

theorem reserved_log_write_fits_first : ∃ s : State Caller, (system Caller).Reach Reserved s ∧
    s.log.outstanding = 1 ∧ ¬ TooBig s := by
  have start : (system Caller).Reach Reserved freshLog := .start freshLog_start
  have reach := start.step (.beginOp .first) (by change _ ≤ _; decide) rfl
  exact ⟨_, reach, rfl, reserved_log_write_fits reach⟩

/-- Operation `p` logs the blocks `base`, ..., `base + n - 1`. -/
def writes (p : Caller) (base n : Nat) : List (Action Caller) :=
  (List.range n).flatMap fun i => [.logWrite p (base + i), .record p]

/-- Three operations are admitted at once and use their full bounds. -/
def threeFull : List (Action Caller) :=
  [.beginOp .first, .beginOp .second, .beginOp .third] ++ writes .first 100 10 ++
    writes .second 200 10 ++ writes .third 300 9

theorem three_operations_overflow : ∃ s : State Caller, (system Caller).Reach System.Free s ∧
    TooBig s := by
  have reach : (system Caller).Reach System.Free
      ((System.exec next freshLog threeFull).get (by decide)) :=
    System.exec_reach threeFull (fun _ _ _ => trivial) (.start freshLog_start) (Option.some_get _).symm
  exact ⟨_, reach, .third, _, 309, rfl, by decide, by decide⟩

end Xv6LogSpace
