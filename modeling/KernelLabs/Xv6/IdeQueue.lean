import Mathlib.Tactic.IntervalCases
import KernelLabs.Lib.FifoStore
import KernelLabs.Lib.LinkedList
import KernelLabs.Xv6.Ide

/-!
The driver serves the requests of the processes as a store that has one queue: the buffers
linked from `idequeue` are the requests that are not finished, the disk works on the first,
and what `iderw` leaves in a buffer was settled by the order of arrival.
-/
namespace IdeQueue
open Xv6Ide FifoStore LinkedList Transition

abbrev Place := Bool × BitVec 32

section Machine
variable {P B D : Type} [DecidableEq P] [DecidableEq B] [DecidableEq D] [Fintype B]

def place (dev blockno : BitVec 32) : Place := (dev.getLsbD 0, blockno)

def request (s : State P B D) (b : B) : Request Place D :=
  ⟨place (s.buf b).dev (s.buf b).blockno, (s.buf b).put⟩

/-- The store does what the driver tells; a read or a write ends with `B_VALID` set and `B_DIRTY` clear. -/
def follow (v : Store B Place D) : Xv6Ide.Event B D → Option (Store B Place D)
  | .arrived b dev blockno put => v.next (.asked b ⟨place dev blockno, put⟩)
  | .started b => v.next (.started b)
  | .completed b => v.next (.served b)
  | .returned b valid dirty data => if valid ∧ ¬dirty then v.next (.taken b data) else none

end Machine

theorem sector_registers (dev blockno : BitVec 32) :
    (registers dev blockno).sector = (dev.getLsbD 0, blockno.setWidth 28) := by
  have one : blockno * BitVec.ofNat 32 (BSIZE / SECTOR_SIZE) = blockno := BitVec.mul_one _
  unfold registers Registers.sector
  dsimp only
  rw [one]
  congr 1
  · simp
  · apply BitVec.eq_of_getLsbD_eq
    intro i small
    simp only [BitVec.getLsbD_append, BitVec.getLsbD_extractLsb', BitVec.getLsbD_setWidth, BitVec.getLsbD_and,
      BitVec.getLsbD_or, BitVec.getLsbD_sshiftRight, BitVec.getLsbD_shiftLeft]
    interval_cases i <;> simp

section Relation
variable {P B D : Type}

def inside (s : State P B D) (p : P) (b : B) : Prop := (s.calls p).map Prod.fst = some b

def ids (v : Store B Place D) : List B := v.queue.map Prod.fst

/-- The disk has `now` in the blocks of the file system. -/
def Holds (disk : Bool × BitVec 28 → D) (now : Place → D) : Prop :=
  ∀ unit blockno, blockno.toNat < FSSIZE → disk (unit, blockno.setWidth 28) = now (unit, blockno)

/-- What the disk is doing for the queue, with `now` in its blocks. Then it will have `last`. -/
inductive Drives (s : State P B D) (queue : List (B × D)) (last : Place → D) : Device D → (Place → D) → Prop where
  | idle (empty : queue = []) : Drives s queue last .idle last
  | working {now : Place → D} {b : B} {d : D} {rest : List (B × D)} (first : queue = (b, d) :: rest)
      (small : (s.buf b).blockno.toNat < FSSIZE) (answers : Answers (request s) now queue last) :
      Drives s queue last (.working ⟨registers (s.buf b).dev (s.buf b).blockno, (s.buf b).put⟩) now
  | ready {now : Place → D} {b : B} {d : D} {rest : List (B × D)} (first : queue = (b, d) :: rest)
      (own : (s.buf b).dirty = true → d = (s.buf b).data) (answers : Answers (request s) now rest last) :
      Drives s queue last (.ready (some d)) now

structure Related (s : State P B D) (v : Store B Place D) : Prop where
  chain : Chain s.qnext s.idequeue (ids v)
  lock : ∀ p b, inside s p b → (s.buf b).lock = some p
  waits : ∀ p b, inside s p b →
    (b ∈ ids v ∧ v.answer b = none ∧ (s.buf b).finished = false) ∨
    (b ∉ ids v ∧ v.answer b = some (s.buf b).data ∧ (s.buf b).finished = true)
  called : ∀ b, b ∈ ids v ∨ v.answer b ≠ none → ∃ p, inside s p b
  busy : v.busy = true ↔ v.queue ≠ []
  drives : ∃ now, Holds s.disk now ∧ Drives s v.queue v.contents s.device now

/-- The processes in `iderw` and their buffers are as before, but for the links. -/
structure Keeps (s s' : State P B D) (b : B) : Prop where
  data : (s'.buf b).data = (s.buf b).data
  valid : (s'.buf b).valid = (s.buf b).valid
  dirty : (s'.buf b).dirty = (s.buf b).dirty
  dev : (s'.buf b).dev = (s.buf b).dev
  blockno : (s'.buf b).blockno = (s.buf b).blockno
  lock : (s'.buf b).lock = (s.buf b).lock

variable {s s' : State P B D} {v : Store B Place D} {p : P} {b : B}

theorem Keeps.of_eq (same : s'.buf b = s.buf b) : Keeps s s' b := by
  constructor <;> rw [same]

theorem Keeps.finished (keeps : Keeps s s' b) : (s'.buf b).finished = (s.buf b).finished := by
  unfold Buf.finished
  rw [keeps.valid, keeps.dirty]

theorem Keeps.put (keeps : Keeps s s' b) : (s'.buf b).put = (s.buf b).put := by
  unfold Buf.put
  rw [keeps.data, keeps.dirty]

theorem Keeps.request (keeps : Keeps s s' b) : request s' b = request s b := by
  unfold IdeQueue.request
  rw [keeps.dev, keeps.blockno, keeps.put]

theorem Drives.keeps {queue : List (B × D)} {last now : Place → D} {device : Device D} (drives : Drives s queue last device now)
    (keeps : ∀ b ∈ queue.map Prod.fst, Keeps s s' b) : Drives s' queue last device now := by
  have same : ∀ b ∈ queue.map Prod.fst, IdeQueue.request s' b = IdeQueue.request s b := fun b mem => (keeps b mem).request
  cases drives with
  | idle empty => exact .idle empty
  | working first small answers =>
    have head := keeps _ (by rw [first]; exact List.mem_cons_self)
    rw [← head.dev, ← head.blockno, ← head.put]
    exact .working first (by rwa [head.blockno]) (answers_congr answers same)
  | ready first own answers =>
    have head := keeps _ (by rw [first]; exact List.mem_cons_self)
    refine .ready first (fun dirty => ?_) (answers_congr answers fun c mem => same c ?_)
    · rw [head.dirty] at dirty
      rw [head.data]
      exact own dirty
    · rw [first]
      exact List.mem_cons_of_mem _ mem

/-- A request comes while the disk works. -/
theorem Drives.ask {queue : List (B × D)} {last now : Place → D} {device : Device D} (drives : Drives s queue last device now)
    (some : queue ≠ []) (b : B) :
    Drives s (queue ++ [(b, serve last (IdeQueue.request s b) (IdeQueue.request s b).place)]) (serve last (IdeQueue.request s b))
      device now := by
  cases drives with
  | idle empty => exact absurd empty some
  | working first small answers => exact .working (by rw [first, List.cons_append]) small (answers_append answers b)
  | ready first own answers => exact .ready (by rw [first, List.cons_append]) own (answers_append answers b)

theorem Related.keeps (related : Related s v) (chain : Chain s'.qnext s'.idequeue (ids v))
    (calls : ∀ p b, inside s' p b ↔ inside s p b) (keeps : ∀ p b, inside s p b → Keeps s s' b)
    (device : s'.device = s.device) (disk : s'.disk = s.disk) : Related s' v := by
  refine ⟨chain, fun p b call => ?_, fun p b call => ?_, fun b place => ?_, related.busy, ?_⟩
  · have before := (calls p b).mp call
    rw [(keeps p b before).lock]
    exact related.lock p b before
  · have before := (calls p b).mp call
    rw [(keeps p b before).finished, (keeps p b before).data]
    exact related.waits p b before
  · obtain ⟨p,call⟩ := related.called b place
    exact ⟨p, (calls p b).mpr call⟩
  · obtain ⟨now,holds,drives⟩ := related.drives
    rw [device, disk]
    refine ⟨now, holds, drives.keeps fun b mem => ?_⟩
    obtain ⟨p,call⟩ := related.called b (Or.inl mem)
    exact keeps p b call

/-- A process goes to sleep or is woken. -/
theorem related_asleep (related : Related s v) {calls : P → Option (B × Bool)}
    (same : ∀ p, (calls p).map Prod.fst = (s.calls p).map Prod.fst) : Related { s with calls := calls } v :=
  related.keeps related.chain (fun p b => by unfold inside; rw [same p]) (fun p b _ => Keeps.of_eq rfl) rfl rfl

variable [DecidableEq B]

theorem modify_self (s : State P B D) (b : B) (f : Buf P B D → Buf P B D) : (s.modify b f).buf b = f (s.buf b) :=
  Function.update_self _ _ _

theorem modify_of_ne (s : State P B D) {b c : B} (other : c ≠ b) (f : Buf P B D → Buf P B D) :
    (s.modify b f).buf c = s.buf c := Function.update_of_ne other _ _

theorem qnext_set (s : State P B D) {b : B} {f : Buf P B D → Buf P B D} {next : Option B} (set : (f (s.buf b)).qnext = next) :
    (s.modify b f).qnext = Function.update s.qnext b next := by
  funext c
  unfold State.qnext
  by_cases at_b : c = b
  · rw [at_b, modify_self, Function.update_self, set]
  · rw [modify_of_ne s at_b, Function.update_of_ne at_b]

/-- A buffer that no process has in `iderw` may change. -/
theorem related_off (related : Related s v) (off : ∀ p, ¬ inside s p b) (f : Buf P B D → Buf P B D)
    (same : (f (s.buf b)).qnext = (s.buf b).qnext) : Related (s.modify b f) v := by
  refine related.keeps ?_ (fun p c => Iff.rfl) (fun p c call => ?_) rfl rfl
  · rw [qnext_set s (same.trans rfl : _ = s.qnext b), Function.update_eq_self]
    exact related.chain
  · have other : c ≠ b := fun at_b => off p (at_b ▸ call)
    exact Keeps.of_eq (modify_of_ne s other f)

/-- `iderw` puts `b` at the end of the queue. -/
structure Appended (s s' : State P B D) (b : B) (nodes : List B) : Prop where
  chain : Chain s'.qnext s'.idequeue (nodes ++ [b])
  keeps : ∀ c, Keeps s s' c
  first : s'.idequeue = some b ↔ nodes = []
  calls : s'.calls = s.calls
  device : s'.device = s.device
  disk : s'.disk = s.disk

theorem keeps_qnext (s : State P B D) (b c : B) (next : Option B) :
    Keeps s (s.modify b fun buf => { buf with qnext := next }) c := by
  by_cases at_b : c = b
  · rw [at_b]
    constructor <;> rw [modify_self]
  · exact Keeps.of_eq (modify_of_ne s at_b _)

omit [DecidableEq B] in
theorem Keeps.trans {t : State P B D} (first : Keeps s s' b) (second : Keeps s' t b) : Keeps s t b :=
  ⟨second.data.trans first.data, second.valid.trans first.valid, second.dirty.trans first.dirty,
    second.dev.trans first.dev, second.blockno.trans first.blockno, second.lock.trans first.lock⟩

omit [DecidableEq B] in
theorem lastOf_chain {link : B → Option B} {fuel : Nat} {head : B} {nodes : List B} (chain : Chain link (some head) nodes)
    (enough : nodes.length ≤ fuel + 1) : ∃ front, nodes = front ++ [lastOf link fuel head] := by
  induction fuel generalizing head nodes with
  | zero =>
    cases nodes with
    | nil => cases (chain : some head = none)
    | cons q rest =>
      have same := Option.some.inj chain.1
      have none : rest = [] := List.length_eq_zero_iff.mp (by simpa using enough)
      exact ⟨[], by rw [none, ← same]; rfl⟩
  | succ fuel ih =>
    cases nodes with
    | nil => cases (chain : some head = none)
    | cons q rest =>
      have same := Option.some.inj chain.1
      have later := chain.2
      rw [← same] at later ⊢
      unfold lastOf
      cases next : link head with
      | none =>
        rw [next] at later
        cases rest with
        | nil => exact ⟨[],rfl⟩
        | cons r rest => cases later.1
      | some c =>
        rw [next] at later
        obtain ⟨front,split⟩ := ih later (by simpa using enough)
        exact ⟨head :: front, by rw [split]; rfl⟩

theorem append_appended [Fintype B] {nodes : List B} (chain : Chain s.qnext s.idequeue nodes) (off : b ∉ nodes) :
    Appended s (append (s.modify b fun buf => { buf with qnext := none }) b) b nodes := by
  have cut : (s.modify b fun buf => { buf with qnext := none }).qnext = Function.update s.qnext b none := qnext_set s rfl
  have keeps := fun c => keeps_qnext s b c none
  generalize detached : (s.modify b fun buf => { buf with qnext := none }) = t at cut keeps ⊢
  have queue : t.idequeue = s.idequeue := by rw [← detached]; rfl
  have calls : t.calls = s.calls := by rw [← detached]; rfl
  have device : t.device = s.device := by rw [← detached]; rfl
  have disk : t.disk = s.disk := by rw [← detached]; rfl
  have walk := @chain_update_off _ _ _ _ none _ _ chain off
  rw [← cut, ← queue] at walk
  unfold append
  cases nodes with
  | nil =>
    have empty : t.idequeue = none := walk
    rw [empty]
    refine ⟨⟨rfl, ?_⟩, fun c => (keeps c).trans (Keeps.of_eq rfl), iff_of_true rfl rfl, calls, device, disk⟩
    change t.qnext b = none
    rw [cut, Function.update_self]
  | cons head rest =>
    have first : t.idequeue = some head := walk.1
    rw [first] at walk ⊢
    have size : (head :: rest).length ≤ Fintype.card B + 1 :=
      Nat.le_succ_of_le (chain_nodup walk).length_le_card
    obtain ⟨front,split⟩ := lastOf_chain walk size
    dsimp only
    generalize lastOf t.qnext (Fintype.card B) head = last at split ⊢
    rw [split] at chain off
    refine ⟨?_, fun c => (keeps c).trans (keeps_qnext t last c _), ?_, calls, device, disk⟩
    · rw [qnext_set t rfl, cut, split]
      change Chain _ t.idequeue _
      rw [queue]
      exact chain_append chain off
    · refine iff_of_false (fun same => ?_) (List.cons_ne_nil _ _)
      have here : some head = some b := first.symm.trans same
      have mem : head ∈ front ++ [last] := split ▸ List.mem_cons_self
      exact off (Option.some.inj here ▸ mem)

end Relation

section Steps
variable {P B D : Type} [DecidableEq P] [DecidableEq B] [DecidableEq D] [Fintype B]
variable {s s' : State P B D} {v : Store B Place D} {p : P} {b : B} {events : List (Xv6Ide.Event B D)}

/-- The store does the events of a step. -/
def Followed (s' : State P B D) (v : Store B Place D) (events : List (Xv6Ide.Event B D)) : Prop :=
  ∃ u, System.exec follow v events = some u ∧ Related s' u

omit [DecidableEq B] [DecidableEq D] [Fintype B] in
theorem waitLoop_sleeps (waiting : (s.buf b).finished = false) :
    waitLoop s p b = ({ s with calls := Function.update s.calls p (some (b, true)) }, []) := by
  unfold waitLoop
  rw [if_neg (by simp [waiting])]

omit [Fintype B] in
theorem waitLoop_follows (related : Related s v) (call : inside s p b) :
    Followed (waitLoop s p b).1 v (waitLoop s p b).2 := by
  rcases related.waits p b call with ⟨_,_,waiting⟩ | ⟨off,answer,finished⟩
  · rw [waitLoop_sleeps waiting]
    refine ⟨v, rfl, related_asleep related fun q => ?_⟩
    by_cases same : q = p
    · rw [same, Function.update_self]
      exact call.symm
    · rw [Function.update_of_ne same]
  · have flags : (s.buf b).valid = true ∧ (s.buf b).dirty = false := by simpa [Buf.finished] using finished
    unfold waitLoop
    rw [if_pos finished]
    refine ⟨{ v with answer := Function.update v.answer b none }, ?_, ?_⟩
    · simp [System.exec, follow, Store.next, flags, answer]
    have others : ∀ q c, inside { s with calls := Function.update s.calls p none } q c → inside s q c ∧ c ≠ b := by
      intro q c call'
      unfold inside at call'
      dsimp only at call'
      by_cases same : q = p
      · rw [same, Function.update_self] at call'
        cases call'
      · rw [Function.update_of_ne same] at call'
        refine ⟨call', fun at_b => same ?_⟩
        have lock := related.lock q c call'
        rw [at_b, related.lock p b call] at lock
        exact (Option.some.inj lock).symm
    obtain ⟨now,holds,drives⟩ := related.drives
    refine ⟨related.chain, fun q c call' => related.lock q c (others q c call').1, fun q c call' => ?_, fun c place => ?_,
      related.busy, now, holds, drives.keeps fun c _ => Keeps.of_eq rfl⟩
    · obtain ⟨before,other⟩ := others q c call'
      dsimp only
      rw [Function.update_of_ne other]
      exact related.waits q c before
    · have other : c ≠ b := by
        intro at_b
        rw [at_b] at place
        rcases place with queued | answered
        · exact off queued
        · exact answered (Function.update_self _ _ _)
      dsimp only at place
      rw [Function.update_of_ne other] at place
      obtain ⟨q,call'⟩ := related.called c place
      have apart : q ≠ p := fun same => other (Option.some.inj (call'.symm.trans (same ▸ call)))
      refine ⟨q, ?_⟩
      unfold inside
      dsimp only
      rw [Function.update_of_ne apart]
      exact call'

omit [DecidableEq D] [Fintype B] in
/-- `b` is queued for `p`, and the disk works now. -/
theorem related_ask (related : Related s v) (fresh : ∀ q, ¬ inside s q b) (idle : s.calls p = none)
    (lock : (s.buf b).lock = some p) (waiting : (s.buf b).finished = false) {t : State P B D}
    (appended : Appended s t b (ids v)) {device : Device D} {now : Place → D} (holds : Holds s.disk now)
    (drives : Drives s (v.queue ++ [(b, serve v.contents (request s b) (request s b).place)]) (serve v.contents (request s b))
      device now) :
    Related { t with calls := Function.update t.calls p (some (b, true)), device := device }
      { v with contents := serve v.contents (request s b), busy := true,
               queue := v.queue ++ [(b, serve v.contents (request s b) (request s b).place)] } := by
  have off : b ∉ ids v ∧ v.answer b = none := by
    constructor
    · intro mem
      obtain ⟨q,call⟩ := related.called b (Or.inl mem)
      exact fresh q call
    · by_contra answered
      obtain ⟨q,call⟩ := related.called b (Or.inr answered)
      exact fresh q call
  have names : (v.queue ++ [(b, serve v.contents (request s b) (request s b).place)]).map Prod.fst = ids v ++ [b] := by
    rw [List.map_append]
    rfl
  have calls : ∀ q c, (Function.update t.calls p (some (b, true)) q).map Prod.fst = some c ↔ inside s q c ∨ (q = p ∧ c = b) := by
    intro q c
    rw [appended.calls]
    by_cases same : q = p
    · have none : ¬ inside s p c := by simp [inside, idle]
      simp [same, none, eq_comm]
    · simp [same, inside]
  refine ⟨?_, fun q c call => ?_, fun q c call => ?_, fun c place => ?_, ?_, now, ?_, ?_⟩
  · unfold ids
    rw [names]
    exact appended.chain
  · dsimp only
    rw [(appended.keeps c).lock]
    rcases (calls q c).mp call with before | ⟨rfl,rfl⟩
    · exact related.lock q c before
    · exact lock
  · unfold ids
    dsimp only
    rw [names, (appended.keeps c).finished, (appended.keeps c).data]
    rcases (calls q c).mp call with before | ⟨_,rfl⟩
    · have other : c ≠ b := fun same => fresh q (same ▸ before)
      simpa [other] using related.waits q c before
    · exact Or.inl ⟨by simp, off.2, waiting⟩
  · unfold ids at place
    dsimp only at place
    rw [names] at place
    by_cases same : c = b
    · exact ⟨p, (calls p c).mpr (Or.inr ⟨rfl,same⟩)⟩
    · have before : c ∈ ids v ∨ v.answer c ≠ none := by simpa [same] using place
      obtain ⟨q,call⟩ := related.called c before
      exact ⟨q, (calls q c).mpr (Or.inl call)⟩
  · simp
  · rw [appended.disk]
    exact holds
  · exact drives.keeps fun c _ => (appended.keeps c).trans (Keeps.of_eq rfl)

theorem iderw_follows (related : Related s v) (idle : s.calls p = none) (run : iderw s p b = some (s', events)) :
    Followed s' v events := by
  unfold iderw at run
  dsimp only at run
  split at run
  · cases run
  rename_i allowed
  obtain ⟨lock,waiting⟩ : (s.buf b).lock = some p ∧ (s.buf b).finished = false := by
    constructor
    · by_contra other
      exact allowed (Or.inl other)
    · by_contra finished
      exact allowed (Or.inr (Or.inl (by simpa using finished)))
  have fresh : ∀ q, ¬ inside s q b := by
    intro q call
    have same := related.lock q b call
    rw [lock] at same
    rw [inside, ← Option.some.inj same, idle] at call
    cases call
  have off : b ∉ ids v := fun mem => by
    obtain ⟨q,call⟩ := related.called b (Or.inl mem)
    exact fresh q call
  have free : v.answer b = none := by
    by_contra answered
    obtain ⟨q,call⟩ := related.called b (Or.inr answered)
    exact fresh q call
  have asked : follow v (.arrived b (s.buf b).dev (s.buf b).blockno (s.buf b).put) =
      some { v with contents := serve v.contents (request s b),
                    queue := v.queue ++ [(b, serve v.contents (request s b) (request s b).place)] } := if_pos ⟨off,free⟩
  have appended := append_appended related.chain off
  generalize append (s.modify b fun buf => { buf with qnext := none }) b = t at run appended
  have waiting' : (t.buf b).finished = false := by rw [(appended.keeps b).finished, waiting]
  have sleeps : ∀ device, waitLoop { t with device := device } p b =
      ({ t with device := device, calls := Function.update t.calls p (some (b, true)) }, []) :=
    fun device => waitLoop_sleeps waiting'
  obtain ⟨now,holds,drives⟩ := related.drives
  by_cases first : t.idequeue = some b
  · rw [if_pos first] at run
    have empty : v.queue = [] := List.map_eq_nil_iff.mp (appended.first.mp first)
    simp only [idestart, Option.bind_eq_bind, Option.bind_eq_some_iff] at run
    obtain ⟨⟨u,started⟩,start,run⟩ := run
    simp only [Option.ite_none_left_eq_some, Option.some.injEq, Prod.mk.injEq, not_le] at start
    obtain ⟨small,rfl,rfl⟩ := start
    rw [sleeps] at run
    cases run
    generalize s.device = device at drives
    cases drives with
    | working head => cases empty.symm.trans head
    | ready head => cases empty.symm.trans head
    | idle =>
      refine ⟨_, ?_, related_ask related fresh idle lock waiting appended holds ?_⟩
      · have quiet : v.busy = false := by simpa [empty] using related.busy
        simp only [List.cons_append, List.nil_append, System.exec, asked, Option.bind_some]
        simp [follow, Store.next, quiet, empty]
      · have keeps := appended.keeps b
        rw [keeps.blockno] at small
        rw [keeps.dev, keeps.blockno, keeps.put, empty]
        exact .working rfl small ⟨rfl,rfl⟩
  · rw [if_neg first, sleeps t.device] at run
    cases run
    have some : v.queue ≠ [] := fun empty => first (appended.first.mpr (by rw [ids, empty]; rfl))
    have after := related_ask related fresh idle lock waiting appended holds (drives.ask some b)
    rw [← appended.device] at after
    refine ⟨_, ?_, after⟩
    simp only [System.exec, asked, Option.bind_some, related.busy.mpr some]

/-- `b` is finished and off the queue, with `d` in it. -/
structure Completed (s t : State P B D) (b : B) (d : D) : Prop where
  here : t.buf b = { s.buf b with valid := true, dirty := false, data := d }
  others : ∀ c, c ≠ b → t.buf c = s.buf c
  queue : t.idequeue = (s.buf b).qnext
  calls : ∀ q c, inside t q c ↔ inside s q c
  disk : t.disk = s.disk

omit [DecidableEq P] [DecidableEq D] [Fintype B] in
/-- The first request is served. -/
theorem related_serve (related : Related s v) {d : D} {rest : List (B × D)} (first : v.queue = (b, d) :: rest)
    {t : State P B D} (done : Completed s t b d) {device : Device D} {busy : Bool} (more : busy = true ↔ rest ≠ [])
    {now : Place → D} (holds : Holds s.disk now) (drives : Drives t rest v.contents device now) :
    Related { t with device := device } { v with queue := rest, busy := busy, answer := Function.update v.answer b (some d) } := by
  have chain := related.chain
  have names : ids v = b :: rest.map Prod.fst := by rw [ids, first]; rfl
  rw [names] at chain
  have off := (List.nodup_cons.mp (chain_nodup chain)).1
  obtain ⟨here,others,queue,calls,disk⟩ := done
  have links : t.qnext = s.qnext := by
    funext c
    by_cases same : c = b
    · rw [same, State.qnext, here]
      rfl
    · rw [State.qnext, others c same]
      rfl
  refine ⟨?_, fun q c call => ?_, fun q c call => ?_, fun c place => ?_, more, now, ?_, drives.keeps fun c _ => Keeps.of_eq rfl⟩
  · change Chain t.qnext t.idequeue _
    rw [links, queue]
    exact chain.2
  · have lock := related.lock q c ((calls q c).mp call)
    dsimp only
    by_cases same : c = b
    · rw [same] at lock ⊢
      rw [here]
      exact lock
    · rw [others c same]
      exact lock
  · dsimp only [ids]
    by_cases same : c = b
    · rw [same, here, Function.update_self]
      exact Or.inr ⟨off, rfl, rfl⟩
    · rw [others c same, Function.update_of_ne same]
      have before := related.waits q c ((calls q c).mp call)
      rw [names] at before
      simpa [same] using before
  · by_cases same : c = b
    · obtain ⟨q,call⟩ := related.called b (Or.inl (by rw [names]; exact List.mem_cons_self))
      exact ⟨q, (calls q c).mpr (same ▸ call)⟩
    · have before : c ∈ ids v ∨ v.answer c ≠ none := by
        rw [names]
        dsimp only [ids] at place
        rw [Function.update_of_ne same] at place
        simpa [same] using place
      obtain ⟨q,call⟩ := related.called c before
      exact ⟨q, (calls q c).mpr call⟩
  · change Holds t.disk now
    rw [disk]
    exact holds

omit [DecidableEq P] [DecidableEq D] [Fintype B] in
theorem complete_completed (s : State P B D) (b : B) {d : D} (own : (s.buf b).dirty = true → d = (s.buf b).data) :
    Completed s (complete s b (some d)) b d ∧ (complete s b (some d)).device = s.device := by
  have calls : ∀ q c, ((wakeup s b).calls q).map Prod.fst = some c ↔ inside s q c := by
    intro q c
    unfold wakeup
    dsimp only
    rw [Option.map_map]
    exact Iff.rfl
  unfold complete wakeup
  dsimp only
  by_cases dirty : (s.buf b).dirty = true
  · rw [if_pos dirty]
    refine ⟨⟨?_, fun c other => ?_, rfl, calls, rfl⟩, rfl⟩
    · dsimp only
      rw [modify_self, own dirty]
    · dsimp only
      rw [modify_of_ne _ other]
  · rw [if_neg dirty]
    refine ⟨⟨?_, fun c other => ?_, rfl, calls, rfl⟩, rfl⟩
    · dsimp only
      rw [modify_self, modify_self]
    · dsimp only
      rw [modify_of_ne _ other, modify_of_ne _ other]

omit [DecidableEq P] [Fintype B] in
theorem ideintr_follows (related : Related s v) {d : D} (device : s.device = .ready (some d))
    (run : ideintr s (some d) = some (s', events)) : Followed s' v events := by
  obtain ⟨now,holds,drives⟩ := related.drives
  rw [device] at drives
  cases drives with
  | @ready _ b d rest first own answers =>
    have chain := related.chain
    have names : ids v = b :: rest.map Prod.fst := by rw [ids, first]; rfl
    rw [names] at chain
    have head : s.idequeue = some b := chain.1
    have off := (List.nodup_cons.mp (chain_nodup chain)).1
    have served : follow v (.completed b) =
        some { v with queue := rest, busy := false, answer := Function.update v.answer b (some d) } := by
      have busy : v.busy = true := related.busy.mpr (by simp [first])
      simp [follow, Store.next, first, busy]
    unfold ideintr at run
    dsimp only at run
    split at run
    · rename_i none
      cases head.symm.trans none
    rename_i c same
    obtain rfl := Option.some.inj (head.symm.trans same)
    obtain ⟨done,quiet⟩ := complete_completed { s with device := .idle } b own
    generalize complete { s with device := .idle } b (some d) = t at run done quiet
    have done : Completed s t b d := ⟨done.here, done.others, done.queue, done.calls, done.disk⟩
    have queue : t.idequeue = (s.buf b).qnext := done.queue
    have keeps : ∀ c, c ≠ b → Keeps s t c := fun c other => Keeps.of_eq (done.others c other)
    have agree : ∀ c ∈ rest.map Prod.fst, request t c = request s c :=
      fun c mem => (keeps c fun same => off (same ▸ mem)).request
    have answers' := answers_congr answers agree
    cases rest with
    | nil =>
      have empty : t.idequeue = none := queue.trans chain.2
      rw [empty] at run
      cases run
      have same : now = v.contents := answers
      have after := @related_serve _ _ _ _ _ _ _ related _ _ first _ done s'.device false (by simp) _ holds ?_
      · refine ⟨_, ?_, after⟩
        simp only [System.exec, served, Option.bind_some]
      · rw [quiet, same]
        exact .idle rfl
    | cons entry more =>
      have next : t.idequeue = some entry.1 := queue.trans chain.2.1
      rw [next] at run
      simp only [idestart, Option.bind_eq_bind, Option.bind_eq_some_iff, Option.ite_none_left_eq_some, Option.some.injEq,
        not_le] at run
      obtain ⟨started,⟨small,rfl⟩,run⟩ := run
      cases run
      refine ⟨_, ?_, @related_serve _ _ _ _ _ _ _ related _ _ first _ done _ true (by simp) _ holds (.working rfl small answers')⟩
      simp only [System.exec, served, Option.bind_some]
      simp [follow, Store.next]

omit [DecidableEq P] [DecidableEq D] [Fintype B] in
theorem holds_put {disk : Bool × BitVec 28 → D} {now : Place → D} (holds : Holds disk now) {dev blockno : BitVec 32}
    (small : blockno.toNat < FSSIZE) (d : D) :
    Holds (Function.update disk (registers dev blockno).sector d) (Function.update now (place dev blockno) d) := by
  intro unit block bound
  rw [sector_registers]
  unfold FSSIZE at small bound
  by_cases same : (unit, block) = place dev blockno
  · have at_sector : (unit, block.setWidth 28) = (dev.getLsbD 0, blockno.setWidth 28) := by
      cases same
      rfl
    rw [same, at_sector, Function.update_self, Function.update_self]
  · have other : (unit, block.setWidth 28) ≠ (dev.getLsbD 0, blockno.setWidth 28) := by
      intro at_sector
      obtain ⟨units,sectors⟩ := Prod.mk.inj at_sector
      refine same (Prod.ext units ?_)
      change block = blockno
      bv_omega
    rw [Function.update_of_ne same, Function.update_of_ne other]
    exact holds unit block bound

omit [DecidableEq P] [DecidableEq B] [DecidableEq D] [Fintype B] in
/-- The disk ends its command. -/
theorem finish_follows (related : Related s v) {c : Command D} (device : s.device = .working c) :
    Related (finish s c false) v := by
  obtain ⟨now,holds,drives⟩ := related.drives
  rw [device] at drives
  cases drives with
  | @working _ b d rest first small answers =>
    rw [first] at answers
    obtain ⟨answer,answers⟩ := answers
    have read := holds ((s.buf b).dev.getLsbD 0) (s.buf b).blockno small
    rw [← sector_registers] at read
    unfold finish
    rw [if_neg (by decide)]
    by_cases dirty : (s.buf b).dirty = true
    · have put : (s.buf b).put = some (s.buf b).data := if_pos dirty
      have stored : serve now (request s b) = Function.update now (place (s.buf b).dev (s.buf b).blockno) (s.buf b).data := by
        unfold serve request
        rw [put]
      have own : d = (s.buf b).data := answer.trans (serve_put put now)
      rw [stored] at answers
      dsimp only
      rw [put, ← own]
      refine ⟨related.chain, related.lock, related.waits, related.called, related.busy, _, holds_put holds small d, ?_⟩
      have after : Drives s v.queue v.contents (.ready (some d)) _ := .ready first (fun _ => own) answers
      rw [← own] at after
      exact after.keeps fun c _ => Keeps.of_eq rfl
    · have put : (s.buf b).put = none := if_neg dirty
      have same : serve now (request s b) = now := by
        unfold serve request
        rw [put]
      rw [same] at answer answers
      dsimp only
      rw [put, read]
      refine ⟨related.chain, related.lock, related.waits, related.called, related.busy, now, holds, ?_⟩
      have after : Drives s v.queue v.contents (.ready (some d)) now := .ready first (fun set => absurd set dirty) answers
      rw [answer] at after
      exact after.keeps fun c _ => Keeps.of_eq rfl

/-- The command of the disk does not end with an error. -/
def NoError (_ : State P B D) (a : Action P B D) : Prop := a ≠ .finish true

theorem act_follows (related : Related s v) {a : Action P B D} (allowed : NoError s a) (run : act s a = some (s', events)) :
    Followed s' v events := by
  have fresh : ∀ {q c}, (s.buf c).lock = q → q.bind s.calls = none → ∀ r, ¬ inside s r c := by
    intro q c lock idle r call
    rw [related.lock r c call] at lock
    rw [← lock, Option.bind_some] at idle
    rw [inside, idle] at call
    cases call
  cases a with
  | acquiresleep p b =>
    simp only [act, Option.ite_none_right_eq_some, Option.some.injEq, Prod.mk.injEq] at run
    obtain ⟨⟨idle,free⟩,rfl,rfl⟩ := run
    exact ⟨v, rfl, related_off related (fresh free rfl) _ rfl⟩
  | releasesleep p b =>
    simp only [act, Option.ite_none_right_eq_some, Option.some.injEq, Prod.mk.injEq] at run
    obtain ⟨⟨idle,held⟩,rfl,rfl⟩ := run
    exact ⟨v, rfl, related_off related (fresh held idle) _ rfl⟩
  | change holder b valid dirty dev blockno data =>
    simp only [act, Option.ite_none_right_eq_some, Option.some.injEq, Prod.mk.injEq] at run
    obtain ⟨⟨held,idle⟩,rfl,rfl⟩ := run
    exact ⟨v, rfl, related_off related (fresh held idle) _ rfl⟩
  | iderw p b =>
    simp only [act, Option.ite_none_right_eq_some] at run
    exact iderw_follows related run.1 run.2
  | resume p =>
    simp only [act] at run
    split at run
    · rename_i b call
      have after := waitLoop_follows related (p := p) (b := b) (by rw [inside, call]; rfl)
      rw [Option.some.inj run] at after
      exact after
    · cases run
  | wake p =>
    cases run
    refine ⟨v, rfl, related_asleep related fun q => ?_⟩
    by_cases same : q = p
    · rw [same, Function.update_self, Option.map_map]
      rfl
    · rw [Function.update_of_ne same]
  | finish failed =>
    simp only [act] at run
    split at run
    · rename_i c device
      cases failed with
      | true => exact absurd rfl allowed
      | false =>
        cases run
        exact ⟨v, rfl, finish_follows related device⟩
    · cases run
  | ideintr =>
    simp only [act] at run
    split at run
    · rename_i result device
      cases result with
      | none =>
        obtain ⟨now,_,drives⟩ := related.drives
        rw [device] at drives
        cases drives
      | some d => exact ideintr_follows related device run
    · cases run

theorem step_follows (related : Related s v) {a : Action P B D} (allowed : NoError s a) (run : step s a = some s') :
    Followed s' v (emit s a) := by
  obtain ⟨⟨u,told⟩,acted,same⟩ := Option.map_eq_some_iff.mp run
  have followed := act_follows related allowed acted
  unfold emit
  rw [acted]
  exact same ▸ followed

def contents (disk : Bool × BitVec 28 → D) : Place → D := fun place => disk (place.1, place.2.setWidth 28)

omit [DecidableEq P] [DecidableEq B] [DecidableEq D] [Fintype B] in
theorem start_related (start : Start s) : Related s (opened (contents s.disk)) := by
  obtain ⟨empty,idle,none⟩ := start
  have off : ∀ q c, ¬ inside s q c := by
    intro q c call
    rw [inside, none q] at call
    cases call
  refine ⟨empty, fun q c call => absurd call (off q c), fun q c call => absurd call (off q c), fun c place => ?_, by simp [opened],
    contents s.disk, fun _ _ _ => rfl, ?_⟩
  · rcases place with mem | answered
    · cases mem
    · exact absurd rfl answered
  · rw [idle]
    exact .idle rfl

/-- While no command ends with an error: the queue has the requests that are not finished, the disk
    works on the first of them, and the store does all that the driver tells. -/
theorem ide_requests {origin : State P B D} (run : (system P B D).Emits NoError emit origin events s) :
    ∃ v : Store B Place D, System.exec follow (opened (contents origin.disk)) events = some v ∧
      Chain s.qnext s.idequeue (ids v) ∧ (ids v).Nodup ∧
      (∀ b, b ∈ ids v ↔ ∃ p, inside s p b ∧ (s.buf b).finished = false) ∧
      (s.device = .idle ↔ s.idequeue = none) ∧
      ∀ c, s.device = .working c → ∃ b, s.idequeue = some b ∧
        c = ⟨registers (s.buf b).dev (s.buf b).blockno, (s.buf b).put⟩ := by
  obtain ⟨v,done,related⟩ := System.emits_simulation follow (opened (contents origin.disk)) Related start_related
    (fun _ _ _ _ related allowed step => step_follows related allowed step) run
  have chain := related.chain
  refine ⟨v, done, chain, chain_nodup chain, fun b => ⟨fun mem => ?_, ?_⟩, ?_⟩
  · obtain ⟨p,call⟩ := related.called b (Or.inl mem)
    rcases related.waits p b call with ⟨_,_,waiting⟩ | ⟨off,_⟩
    · exact ⟨p,call,waiting⟩
    · exact absurd mem off
  · rintro ⟨p,call,waiting⟩
    rcases related.waits p b call with ⟨mem,_⟩ | ⟨_,_,finished⟩
    · exact mem
    · rw [waiting] at finished
      cases finished
  · obtain ⟨now,_,drives⟩ := related.drives
    unfold ids at chain
    generalize s.device = device at drives ⊢
    cases drives with
    | idle empty =>
      rw [empty] at chain
      exact ⟨iff_of_true rfl chain, fun c same => by cases same⟩
    | working first =>
      rw [first] at chain
      exact ⟨iff_of_false (fun same => by cases same) (by rw [chain.1]; exact Option.some_ne_none _), fun c same => by
        cases same
        exact ⟨_, chain.1, rfl⟩⟩
    | ready first =>
      rw [first] at chain
      exact ⟨iff_of_false (fun same => by cases same) (by rw [chain.1]; exact Option.some_ne_none _), fun c same => by
        cases same⟩

end Steps

/-- Two buffers of one block, to be written and to be read. -/
def resting : State Bool Bool Nat where
  buf b := ⟨false, b, 1, 7, none, none, if b then 5 else 0⟩
  idequeue := none
  havedisk1 := true
  device := .idle
  disk _ := 3
  calls _ := none

def writeThenRead : List (Action Bool Bool Nat) :=
  [.acquiresleep true true, .acquiresleep false false, .iderw true true, .iderw false false, .finish false, .ideintr,
   .finish false, .resume true, .ideintr, .resume false]

theorem ide_requests_writeThenRead : ∃ s, System.exec step resting writeThenRead = some s ∧ (s.buf false).data = 5 ∧
    ∃ v : Store Bool Place Nat,
      System.exec follow (opened (contents resting.disk)) (System.trace step emit resting writeThenRead) = some v ∧
      Chain s.qnext s.idequeue (ids v) ∧ (ids v).Nodup ∧
      (∀ b, b ∈ ids v ↔ ∃ p, inside s p b ∧ (s.buf b).finished = false) ∧
      (s.device = .idle ↔ s.idequeue = none) ∧
      ∀ c, s.device = .working c → ∃ b, s.idequeue = some b ∧
        c = ⟨registers (s.buf b).dev (s.buf b).blockno, (s.buf b).put⟩ := by
  cases run : System.exec step resting writeThenRead with
  | none => exact absurd (congrArg Option.isSome run) (by decide)
  | some s =>
    have emits := @System.exec_emits _ _ (system Bool Bool Nat) _ NoError emit _ _ _ _ writeThenRead
      (fun a mem _ => by rintro rfl; simp [writeThenRead] at mem) (.start ⟨rfl, rfl, fun _ => rfl⟩) run
    refine ⟨s, rfl, ?_, ide_requests emits⟩
    have data : (System.exec step resting writeThenRead).map (fun s => (s.buf false).data) = some 5 := by decide
    rw [run] at data
    exact Option.some.inj data

/-- A buffer to be read. -/
def unread : State Unit Unit Nat where
  buf _ := ⟨false, false, 1, 7, none, none, 0⟩
  idequeue := none
  havedisk1 := true
  device := .idle
  disk _ := 3
  calls _ := none

def failingRead : List (Action Unit Unit Nat) :=
  [.acquiresleep () (), .iderw () (), .finish true, .ideintr, .resume ()]

/-- The disk reports an error, and `iderw` returns a buffer that is valid without the block. -/
theorem iderw_error :
    (System.exec step unread failingRead).map (fun s => ((s.buf ()).valid, (s.buf ()).dirty, (s.buf ()).data, s.disk (true, 7))) =
      some (true, false, 0, 3) ∧
    ¬ ∀ (events : List (Xv6Ide.Event Unit Nat)) (s : State Unit Unit Nat),
      (system Unit Unit Nat).Emits System.Free emit unread events s →
      ∃ v : Store Unit Place Nat, System.exec follow (opened (contents unread.disk)) events = some v := by
  refine ⟨by decide, fun all => ?_⟩
  cases run : System.exec step unread failingRead with
  | none => exact absurd (congrArg Option.isSome run) (by decide)
  | some s =>
    obtain ⟨v,done⟩ := all _ s (@System.exec_emits _ _ (system Unit Unit Nat) _ _ emit _ _ _ _ failingRead (fun _ _ _ => trivial)
      (.start ⟨rfl, rfl, fun _ => rfl⟩) run)
    have refused : System.exec follow (opened (contents unread.disk)) (System.trace step emit unread failingRead) = none := by
      rw [← Option.isNone_iff_eq_none]
      decide
    cases refused.symm.trans done

end IdeQueue
