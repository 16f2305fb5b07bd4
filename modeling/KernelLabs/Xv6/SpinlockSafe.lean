import KernelLabs.Lib.LockOwners
import KernelLabs.Xv6.Spinlock

/-!
Spinlocks refine a record of owners: no lock is taken while another processor has it, a processor
takes interrupts only while it has no lock, and `holding` is right although it reads the lock without
having it.
-/
namespace Xv6Spinlock
open Transition LockOwners

section Specification
variable {K L : Type} [DecidableEq K] [DecidableEq L]

inductive Event (K L : Type)
  | acquired (k : K) (l : L)
  | released (k : K) (l : L)
  | refused (k : K) (l : L) (asker : Asker)
  | asked (k : K) (l : L) (r : Bool)
  | trap (k : K)
  | iret (k : K)
  | sti (k : K)

/-- What a processor has. `enabled` tells whether the code it runs is open to interrupts when it
    holds no lock, `nest` counts the handlers it is in. -/
structure View (L : Type) where
  held : List L
  enabled : Bool
  nest : Nat
  panicked : Bool

structure Owners (K L : Type) where
  owner : L → Option K
  view : K → View L

def Owners.set (x : Owners K L) (k : K) (v : View L) : Owners K L := { x with view := Function.update x.view k v }

def Owners.next (x : Owners K L) : Event K L → Option (Owners K L)
  | .acquired k l =>
    if x.owner l = none then
      some ⟨Function.update x.owner l (some k), Function.update x.view k { x.view k with held := l :: (x.view k).held }⟩
    else none
  | .released k l =>
    if x.owner l = some k then
      some ⟨Function.update x.owner l none, Function.update x.view k { x.view k with held := (x.view k).held.erase l }⟩
    else none
  | .refused k l asker =>
    if asker = .acquire ∧ x.owner l = some k ∨ asker = .release ∧ x.owner l ≠ some k then
      some (x.set k { x.view k with panicked := true })
    else none
  | .asked k l r => if r = decide (x.owner l = some k) then some x else none
  | .trap k =>
    if (x.view k).held = [] ∧ (x.view k).enabled = true then
      some (x.set k { x.view k with enabled := false, nest := (x.view k).nest + 1 })
    else none
  | .iret k =>
    if (x.view k).held = [] ∧ 0 < (x.view k).nest then
      some (x.set k { x.view k with enabled := true, nest := (x.view k).nest - 1 })
    else none
  | .sti k => if (x.view k).held = [] then some (x.set k { x.view k with enabled := true }) else none

def Owners.first (K L : Type) : Owners K L := ⟨fun _ => none, fun _ => ⟨[], false, 0, false⟩⟩

/-- A call of `acquire` ends, one of `release` begins, or the kernel panics. -/
def emit (s : State K L) : Action K L → List (Event K L)
  | .step k =>
    match (s.cpu k).pc with
    | .setCpu l => [.acquired k l]
    | .popHolding l true .release => [.released k l]
    | .popHolding l false .release => [.refused k l .release]
    | .popHolding l true .acquire => [.refused k l .acquire]
    | .popHolding l r .other => [.asked k l r]
    | _ => []
  | .interrupt k => [.trap k]
  | .iret k => [.iret k]
  | .sti k => [.sti k]
  | .call _ _ => []

end Specification

section Relation
variable {K L : Type} [DecidableEq K] [DecidableEq L]

/-- The `pushcli` that this place has made beyond one for each lock held. -/
def After.extra : After L → Nat
  | .holding _ .acquire => 1
  | _ => 0

def Pc.extra : Pc L → Nat
  | .run | .panic => 0
  | .push next | .cli _ next => next.extra
  | .readLocked _ asker | .readCpu _ asker | .popHolding _ _ asker => if asker = .acquire then 2 else 1
  | _ => 1

/-- What is known at a place. -/
def Known (held : List L) (flag : Bool) : Pc L → Prop
  | .cli eflags _ => eflags = flag
  | .popHolding l r _ => r = decide (l ∈ held)
  | .spin l | .setCpu l | .clearCpu l | .unlock l => l ∉ held
  | .panic => False
  | _ => True

structure CpuOk (v : View L) (c : Cpu L) : Prop where
  distinct : v.held.Nodup
  depth : c.ncli = (v.held.length + c.pc.extra : Nat)
  flag : c.flag = (v.enabled && decide (c.ncli = 0))
  saved : 0 < c.ncli → c.intena = v.enabled
  known : Known v.held c.flag c.pc
  nested : c.frames.length = v.nest
  frames : ∀ pc ∈ c.frames, pc.extra = 0 ∧ Known ([] : List L) true pc

def Allowed (v : View L) (c : Cpu L) : Prop := if v.panicked then c.pc = .panic else CpuOk v c

/-- A lock that is taken although `acquire` has not ended, or `release` has begun. -/
def pending (pc : Pc L) (l : L) : Prop := pc = .setCpu l ∨ pc = .clearCpu l ∨ pc = .unlock l

structure Locks (s : State K L) (x : Owners K L) : Prop where
  held : Owned x.owner fun k l => l ∈ (x.view k).held
  claims : ∃ claim, (Owned claim fun k l => l ∈ (x.view k).held ∨ pending (s.cpu k).pc l) ∧
    ∀ l, (s.lock l).locked = (claim l).isSome
  cpu : ∀ l k, (s.lock l).cpu = some k ↔ l ∈ (x.view k).held ∨ (s.cpu k).pc = .clearCpu l

structure Related (s : State K L) (x : Owners K L) : Prop where
  locks : Locks s x
  each : ∀ k, Allowed (x.view k) (s.cpu k)

end Relation

section Processors
variable {K L : Type} [DecidableEq K] [DecidableEq L] {v : View L} {c : Cpu L}

/-- A processor goes on to a place that needs as many `pushcli`. -/
theorem CpuOk.go (ok : CpuOk v c) {pc : Pc L} {held : List L} (distinct : held.Nodup)
    (same : held.length + pc.extra = v.held.length + c.pc.extra) (known : Known held c.flag pc) :
    CpuOk { v with held := held } (c.go pc) := by
  obtain ⟨_,depth,flag,saved,_,nested,frames⟩ := ok
  refine ⟨distinct, ?_, flag, saved, known, nested, frames⟩
  change c.ncli = (held.length + pc.extra : Nat)
  rw [depth, same]

omit [DecidableEq L] in
theorem after_extra (after : After L) : after.pc.extra = after.extra + 1 := by
  cases after with
  | holding l asker => cases asker <;> rfl
  | _ => rfl

theorem CpuOk.cli (ok : CpuOk v c) {eflags : Bool} {after : After L} (here : c.pc = .cli eflags after) :
    CpuOk v ((c.cli eflags).go after.pc) := by
  obtain ⟨distinct,depth,flag,saved,known,nested,frames⟩ := ok
  rw [here] at known depth
  change eflags = c.flag at known
  change c.ncli = (v.held.length + after.extra : Nat) at depth
  have deeper : c.ncli + 1 ≠ 0 := by omega
  refine ⟨distinct, ?_, ?_, fun _ => ?_, ?_, nested, frames⟩
  · change c.ncli + 1 = (v.held.length + after.pc.extra : Nat)
    rw [after_extra]
    omega
  · change false = (v.enabled && decide (c.ncli + 1 = 0))
    rw [decide_eq_false deeper, Bool.and_false]
  · change (if c.ncli = 0 then eflags else c.intena) = v.enabled
    split
    · rename_i none
      rw [known, flag, decide_eq_true none, Bool.and_true]
    · exact saved (by omega)
  · cases after <;> trivial

/-- Interrupts are off behind a `pushcli`. -/
theorem CpuOk.off (ok : CpuOk v c) (more : 0 < v.held.length + c.pc.extra) : c.flag = false ∧ 0 < c.ncli := by
  have deep : 0 < c.ncli := by
    rw [ok.depth]
    omega
  refine ⟨?_, deep⟩
  rw [ok.flag, decide_eq_false (by omega), Bool.and_false]

theorem CpuOk.popcli_pc (ok : CpuOk v c) (more : 0 < v.held.length + c.pc.extra) (pc : Pc L) : (c.popcli pc).pc = pc := by
  obtain ⟨off,deep⟩ := ok.off more
  unfold Cpu.popcli
  rw [off, if_neg (by simp)]
  dsimp only
  rw [if_neg (by omega)]
  split <;> rfl

theorem CpuOk.popcli (ok : CpuOk v c) {pc : Pc L} {held : List L} (distinct : held.Nodup)
    (less : v.held.length + c.pc.extra = held.length + pc.extra + 1) (known : ∀ flag, Known held flag pc) :
    CpuOk { v with held := held } (c.popcli pc) := by
  obtain ⟨off,deep⟩ := ok.off (by omega)
  obtain ⟨_,depth,_,saved,_,nested,frames⟩ := ok
  have kept := saved deep
  rw [less] at depth
  unfold Cpu.popcli
  rw [off, if_neg (by simp)]
  dsimp only
  rw [if_neg (by omega)]
  split
  · rename_i last
    refine ⟨distinct, ?_, ?_, fun _ => kept, known true, nested, frames⟩
    · change c.ncli - 1 = (held.length + pc.extra : Nat)
      omega
    · change true = (v.enabled && decide (c.ncli - 1 = 0))
      rw [← kept, last.2, decide_eq_true last.1]
      rfl
  · rename_i more
    refine ⟨distinct, ?_, ?_, fun _ => kept, known _, nested, frames⟩
    · change c.ncli - 1 = (held.length + pc.extra : Nat)
      omega
    · change false = (v.enabled && decide (c.ncli - 1 = 0))
      rw [← kept]
      cases on : c.intena with
      | false => rfl
      | true =>
        rw [decide_eq_false fun zero => more ⟨zero,on⟩]
        rfl

theorem CpuOk.interrupt (ok : CpuOk v c) (enabling : c.flag = true) : v.held = [] ∧ v.enabled = true ∧
    CpuOk { v with enabled := false, nest := v.nest + 1 } { c with flag := false, pc := .run, frames := c.pc :: c.frames } := by
  obtain ⟨distinct,depth,flag,saved,known,nested,frames⟩ := ok
  rw [enabling] at flag known
  obtain ⟨enabled,zero⟩ := Bool.and_eq_true_iff.mp flag.symm
  have zero := of_decide_eq_true zero
  have none : v.held = [] := List.length_eq_zero_iff.mp (by omega)
  refine ⟨none, enabled, distinct, ?_, ?_, fun more => absurd (show 0 < c.ncli from more) (by omega), trivial, ?_, ?_⟩
  · change c.ncli = (v.held.length + 0 : Nat)
    omega
  · rfl
  · rw [List.length_cons, nested]
  · intro pc member
    rcases List.mem_cons.mp member with rfl | later
    · rw [none] at known
      exact ⟨by omega,known⟩
    · exact frames pc later

theorem CpuOk.iret (ok : CpuOk v c) {pc : Pc L} {frames : List (Pc L)}
    (outer : c.frames = pc :: frames) (done : c.ncli = 0) : v.held = [] ∧ 0 < v.nest ∧
    CpuOk { v with enabled := true, nest := v.nest - 1 } { c with flag := true, pc := pc, frames := frames } := by
  obtain ⟨distinct,depth,flag,saved,known,nested,each⟩ := ok
  have none : v.held = [] := List.length_eq_zero_iff.mp (by omega)
  rw [outer] at nested each
  obtain ⟨shallow,place⟩ := each pc List.mem_cons_self
  rw [List.length_cons] at nested
  refine ⟨none, by omega, distinct, ?_, ?_, fun more => absurd (show 0 < c.ncli from more) (by omega), ?_, ?_, fun q member => ?_⟩
  · change c.ncli = (v.held.length + pc.extra : Nat)
    rw [done, none, shallow]
    rfl
  · change true = (true && decide (c.ncli = 0))
    rw [decide_eq_true done]
    rfl
  · rw [none]
    exact place
  · change frames.length = v.nest - 1
    omega
  · exact each q (List.mem_cons_of_mem pc member)

theorem CpuOk.sti (ok : CpuOk v c) (here : c.pc = .run) (done : c.ncli = 0) : v.held = [] ∧
    CpuOk { v with enabled := true } { c with flag := true } := by
  obtain ⟨distinct,depth,flag,saved,known,nested,frames⟩ := ok
  have none : v.held = [] := List.length_eq_zero_iff.mp (by omega)
  refine ⟨none, distinct, depth, ?_, fun more => absurd (show 0 < c.ncli from more) (by omega), ?_, nested, frames⟩
  · change true = (true && decide (c.ncli = 0))
    rw [decide_eq_true done]
    rfl
  · rw [here]
    trivial

end Processors

section Moves
variable {K L : Type} [DecidableEq K] [DecidableEq L] {s : State K L} {x : Owners K L} {k : K} {l : L}
  {v : View L} {c : Cpu L} {lock : Lock K}

omit [DecidableEq L] in
theorem cpu_self (s : State K L) (k : K) (c : Cpu L) : (s.set k c).cpu k = c := Function.update_self ..

omit [DecidableEq L] in
theorem cpu_ne (s : State K L) (c : Cpu L) {j : K} (other : j ≠ k) : (s.set k c).cpu j = s.cpu j :=
  Function.update_of_ne other ..

omit [DecidableEq L] in
theorem view_self (x : Owners K L) (k : K) (v : View L) : (x.set k v).view k = v := Function.update_self ..

omit [DecidableEq L] in
theorem view_ne (x : Owners K L) (v : View L) {j : K} (other : j ≠ k) : (x.set k v).view j = x.view j :=
  Function.update_of_ne other ..

omit [DecidableEq K] in
theorem Related.ok (related : Related s x) (going : (s.cpu k).pc ≠ .panic) :
    (x.view k).panicked = false ∧ CpuOk (x.view k) (s.cpu k) := by
  have here := related.each k
  unfold Allowed at here
  split at here
  · exact absurd here going
  · rename_i quiet
    exact ⟨by simpa using quiet, here⟩

theorem allowed_of_ok (quiet : v.panicked = false) (ok : CpuOk v c) : Allowed v c := by
  unfold Allowed
  rw [quiet]
  exact ok

theorem each_set (each : ∀ j, Allowed (x.view j) (s.cpu j)) (here : Allowed v c) (j : K) :
    Allowed ((x.set k v).view j) ((s.set k c).cpu j) := by
  by_cases same : j = k
  · rw [same, view_self, cpu_self]
    exact here
  · rw [view_ne x v same, cpu_ne s c same]
    exact each j

/-- A step that changes no lock. -/
theorem Related.move (related : Related s x) (plain : ∀ l, ¬ pending (s.cpu k).pc l) (plain' : ∀ l, ¬ pending c.pc l)
    (same : v.held = (x.view k).held) (here : Allowed v c) : Related (s.set k c) (x.set k v) := by
  obtain ⟨⟨held,⟨claim,claims,locked⟩,cpu⟩,each⟩ := related
  have holds : ∀ j l, l ∈ ((x.set k v).view j).held ↔ l ∈ (x.view j).held := by
    intro j l
    by_cases own : j = k
    · rw [own, view_self, same]
    · rw [view_ne x v own]
  have waits : ∀ j l, pending ((s.set k c).cpu j).pc l ↔ pending (s.cpu j).pc l := by
    intro j l
    by_cases own : j = k
    · rw [own, cpu_self]
      exact iff_of_false (plain' l) (plain l)
    · rw [cpu_ne s c own]
  have clears : ∀ j l, ((s.set k c).cpu j).pc = .clearCpu l ↔ (s.cpu j).pc = .clearCpu l := by
    intro j l
    by_cases own : j = k
    · rw [own, cpu_self]
      exact iff_of_false (fun at_ => plain' l (Or.inr (Or.inl at_))) fun at_ => plain l (Or.inr (Or.inl at_))
    · rw [cpu_ne s c own]
  refine ⟨⟨held.keep holds, ⟨claim, claims.keep fun j l => or_congr (holds j l) (waits j l), locked⟩, fun l j => ?_⟩,
    each_set each here⟩
  rw [holds, clears]
  exact cpu l j

theorem Related.go (related : Related s x) (going : (s.cpu k).pc ≠ .panic) (plain : ∀ l, ¬ pending (s.cpu k).pc l)
    (plain' : ∀ l, ¬ pending c.pc l) (here : CpuOk (x.view k) c) : Related (s.set k c) x := by
  have whole := related.move plain plain' rfl (allowed_of_ok (related.ok going).1 here)
  rwa [Owners.set, Function.update_eq_self] at whole

omit [DecidableEq K] in
theorem lock_self (s : State K L) (l : L) (lock : Lock K) : (s.setLock l lock).lock l = lock := Function.update_self ..

omit [DecidableEq K] in
theorem lock_ne (s : State K L) (lock : Lock K) {m : L} (other : m ≠ l) : (s.setLock l lock).lock m = s.lock m :=
  Function.update_of_ne other ..

/-- What a processor claims. -/
def Claims (v : View L) (c : Cpu L) (l : L) : Prop := l ∈ v.held ∨ pending c.pc l

omit [DecidableEq K] in
/-- No other processor claims a lock that this one claims, or that is free. -/
theorem Related.alone (related : Related s x) (mine : Claims (x.view k) (s.cpu k) l ∨ (s.lock l).locked = false)
    {j : K} (other : j ≠ k) : ¬ Claims (x.view j) (s.cpu j) l := by
  obtain ⟨⟨_,⟨claim,claims,locked⟩,_⟩,_⟩ := related
  intro theirs
  rcases mine with own | free
  · exact other (claims.exclusive theirs own)
  · have taken := locked l
    rw [free, (claims j l).mpr theirs] at taken
    cases taken

/-- A step of the processor at the lock `l`, which no other processor claims. -/
theorem Related.at_lock {y : Owners K L} (related : Related s x)
    (mine : Claims (x.view k) (s.cpu k) l ∨ (s.lock l).locked = false)
    (others : ∀ j, j ≠ k → y.view j = x.view j)
    (elsewhere : ∀ m, m ≠ l → (m ∈ (y.view k).held ↔ m ∈ (x.view k).held) ∧ ¬ pending (s.cpu k).pc m ∧ ¬ pending c.pc m)
    (held : Owned y.owner fun j m => m ∈ (y.view j).held)
    (locked : lock.locked = true ↔ Claims (y.view k) c l)
    (cpu : ∀ j, lock.cpu = some j ↔ j = k ∧ (l ∈ (y.view k).held ∨ c.pc = .clearCpu l))
    (here : Allowed (y.view k) c) : Related ((s.setLock l lock).set k c) y := by
  have alone {j : K} (other : j ≠ k) : ¬ Claims (y.view j) (s.cpu j) l := by
    rw [others j other]
    exact related.alone mine other
  obtain ⟨⟨_,⟨claim,claims,taken⟩,record⟩,each⟩ := related
  refine ⟨⟨held, ⟨Function.update claim l (if lock.locked then some k else none), fun j m => ?_, fun m => ?_⟩,
    fun m j => ?_⟩, fun j => ?_⟩
  · change _ ↔ Claims (y.view j) (((s.setLock l lock).set k c).cpu j) m
    by_cases at_ : m = l
    · rw [at_, Function.update_self]
      by_cases own : j = k
      · rw [own, cpu_self, ← locked]
        split <;> simp [*]
      · rw [cpu_ne _ c own]
        refine iff_of_false (fun same => ?_) (alone own)
        split at same
        · exact own (Option.some.inj same).symm
        · cases same
    · rw [Function.update_of_ne at_, claims j m]
      by_cases own : j = k
      · obtain ⟨stays,before,after⟩ := elsewhere m at_
        rw [own, cpu_self, Claims, stays]
        exact or_congr Iff.rfl (iff_of_false before after)
      · rw [cpu_ne _ c own, Claims, others j own]
        exact Iff.rfl
  · change ((s.setLock l lock).lock m).locked = _
    by_cases at_ : m = l
    · rw [at_, lock_self, Function.update_self]
      cases lock.locked <;> rfl
    · rw [lock_ne s lock at_, Function.update_of_ne at_, taken m]
  · change ((s.setLock l lock).lock m).cpu = _ ↔ _
    by_cases at_ : m = l
    · rw [at_, lock_self, cpu]
      by_cases own : j = k
      · rw [own, cpu_self]
        exact and_iff_right rfl
      · rw [cpu_ne _ c own]
        exact iff_of_false (fun both => own both.1) fun has =>
          alone own (has.imp_right fun clearing => Or.inr (Or.inl clearing))
    · rw [lock_ne s lock at_, record m j]
      by_cases own : j = k
      · obtain ⟨stays,before,after⟩ := elsewhere m at_
        rw [own, cpu_self, stays]
        exact or_congr Iff.rfl (iff_of_false (fun at_ => before (Or.inr (Or.inl at_))) fun at_ => after (Or.inr (Or.inl at_)))
      · rw [cpu_ne _ c own, others j own]
        exact Iff.rfl
  · by_cases own : j = k
    · rw [own, cpu_self]
      exact here
    · rw [cpu_ne _ c own, others j own]
      exact each j

omit [DecidableEq K] in
theorem Related.locked (related : Related s x) (own : Claims (x.view k) (s.cpu k) l) : (s.lock l).locked = true := by
  obtain ⟨⟨_,⟨claim,claims,locked⟩,_⟩,_⟩ := related
  rw [locked l, (claims k l).mpr own]
  rfl

omit [DecidableEq K] in
/-- Only a processor with the lock is recorded in it. -/
theorem Related.recorded (related : Related s x) (k : K)
    (mine : Claims (x.view k) (s.cpu k) l ∨ (s.lock l).locked = false) (j : K) : (s.lock l).cpu = some j ↔ j = k ∧ (l ∈ (x.view k).held ∨ (s.cpu k).pc = .clearCpu l) := by
  rw [related.locks.cpu l j]
  by_cases own : j = k
  · rw [own]
    exact (and_iff_right rfl).symm
  · exact iff_of_false (fun has => related.alone mine own (has.imp_right fun clearing => Or.inr (Or.inl clearing)))
      fun both => own both.1

/-- The lock is free: `xchg` takes it. -/
theorem Related.take (related : Related s x) (here : (s.cpu k).pc = .spin l) (free : (s.lock l).locked = false) :
    Related ((s.setLock l { s.lock l with locked := true }).set k ((s.cpu k).go (.setCpu l))) x := by
  obtain ⟨quiet,ok⟩ := related.ok (k := k) (by rw [here]; exact nofun)
  have away := ok.known
  have record := related.recorded k (Or.inr free)
  rw [here] at away record
  refine related.at_lock (Or.inr free) (fun _ _ => rfl) (fun m other => ⟨Iff.rfl, ?_, ?_⟩) related.locks.held ?_ (fun j => ?_)
    (allowed_of_ok quiet (ok.go ok.distinct (by rw [here]; rfl) away))
  · rw [here]
    simp [pending]
  · simp [pending, Cpu.go, Ne.symm other]
  · simp [Claims, pending, Cpu.go]
  · rw [record]
    simp [Cpu.go]

/-- The end of `acquire`. -/
theorem Related.acquired (related : Related s x) (here : (s.cpu k).pc = .setCpu l) :
    ∃ y, x.next (.acquired k l) = some y ∧
      Related ((s.setLock l { s.lock l with cpu := some k }).set k ((s.cpu k).go .run)) y := by
  obtain ⟨quiet,ok⟩ := related.ok (k := k) (by rw [here]; exact nofun)
  have away := ok.known
  rw [here] at away
  have mine : Claims (x.view k) (s.cpu k) l := Or.inr (Or.inl here)
  have free : x.owner l = none := by
    cases owned : x.owner l with
    | none => rfl
    | some j =>
      have has := (related.locks.held j l).mp owned
      by_cases own : j = k
      · rw [own] at has
        exact absurd has away
      · exact absurd (Or.inl has) (related.alone (Or.inl mine) own)
  refine ⟨_, if_pos free, ?_⟩
  generalize after : (⟨Function.update x.owner l (some k), Function.update x.view k
    { x.view k with held := l :: (x.view k).held }⟩ : Owners K L) = y
  have next : y.view k = { x.view k with held := l :: (x.view k).held } := by
    rw [← after]
    exact view_self ..
  have others : ∀ j, j ≠ k → y.view j = x.view j := by
    intro j other
    rw [← after]
    exact view_ne x _ other
  refine related.at_lock (Or.inl mine) others (fun m other => ?_) ?_ ?_ (fun j => ?_) ?_
  · rw [next, here]
    simp [pending, Cpu.go, other, Ne.symm other]
  · rw [show y.owner = Function.update x.owner l (some k) by rw [← after]]
    refine related.locks.held.acquire free (fun j m other => by rw [others j other]) fun m => ?_
    rw [next]
    exact List.mem_cons
  · rw [related.locked mine, next]
    simp [Claims]
  · rw [next]
    simp [eq_comm]
  · rw [next]
    exact allowed_of_ok quiet (ok.go (List.nodup_cons.mpr ⟨away,ok.distinct⟩) (by rw [here]; rfl) trivial)

/-- The start of `release`. -/
theorem Related.released (related : Related s x) (here : (s.cpu k).pc = .popHolding l true .release) :
    ∃ y, x.next (.released k l) = some y ∧ Related (s.set k ((s.cpu k).popcli (.clearCpu l))) y := by
  obtain ⟨quiet,ok⟩ := related.ok (k := k) (by rw [here]; exact nofun)
  have known := ok.known
  rw [here] at known
  have has : l ∈ (x.view k).held := of_decide_eq_true known.symm
  have mine : Claims (x.view k) (s.cpu k) l := Or.inl has
  refine ⟨_, if_pos ((related.locks.held k l).mpr has), ?_⟩
  generalize after : (⟨Function.update x.owner l none, Function.update x.view k
    { x.view k with held := (x.view k).held.erase l }⟩ : Owners K L) = y
  have next : y.view k = { x.view k with held := (x.view k).held.erase l } := by
    rw [← after]
    exact view_self ..
  have others : ∀ j, j ≠ k → y.view j = x.view j := by
    intro j other
    rw [← after]
    exact view_ne x _ other
  have gone : l ∉ (x.view k).held.erase l := fun member => (ok.distinct.mem_erase_iff.mp member).1 rfl
  have less := List.length_erase_of_mem has
  have more := List.length_pos_of_mem has
  have popped : CpuOk { x.view k with held := (x.view k).held.erase l } ((s.cpu k).popcli (.clearCpu l)) := by
    refine ok.popcli (ok.distinct.erase l) ?_ fun _ => gone
    rw [here, less]
    change (x.view k).held.length + 1 = (x.view k).held.length - 1 + 1 + 1
    omega
  have place : ((s.cpu k).popcli (.clearCpu l)).pc = .clearCpu l := ok.popcli_pc (by omega) _
  have whole : Related ((s.setLock l (s.lock l)).set k ((s.cpu k).popcli (.clearCpu l))) y := by
    refine related.at_lock (Or.inl mine) others (fun m other => ?_) ?_ ?_ (fun j => ?_) ?_
    · rw [next, here, place]
      simp [pending, other, Ne.symm other, ok.distinct.mem_erase_iff]
    · rw [show y.owner = Function.update x.owner l none by rw [← after]]
      refine related.locks.held.release has (fun j m other => by rw [others j other]) fun m => ?_
      rw [next]
      exact ok.distinct.mem_erase_iff
    · rw [related.locked mine, next, Claims, place]
      simp [pending]
    · rw [related.recorded k (Or.inl mine), next, place]
      simp [has]
    · rw [next]
      exact allowed_of_ok quiet popped
  rwa [show s.setLock l (s.lock l) = s by rw [State.setLock, Function.update_eq_self]] at whole

theorem Related.clear (related : Related s x) (here : (s.cpu k).pc = .clearCpu l) :
    Related ((s.setLock l { s.lock l with cpu := none }).set k ((s.cpu k).go (.unlock l))) x := by
  obtain ⟨quiet,ok⟩ := related.ok (k := k) (by rw [here]; exact nofun)
  have away := ok.known
  rw [here] at away
  have mine : Claims (x.view k) (s.cpu k) l := Or.inr (Or.inr (Or.inl here))
  refine related.at_lock (Or.inl mine) (fun _ _ => rfl) (fun m other => ⟨Iff.rfl, ?_, ?_⟩) related.locks.held ?_ (fun j => ?_)
    (allowed_of_ok quiet (ok.go ok.distinct (by rw [here]; rfl) away))
  · rw [here]
    simp [pending, Ne.symm other]
  · simp [pending, Cpu.go, Ne.symm other]
  · rw [related.locked mine]
    simp [Claims, pending, Cpu.go]
  · simp [Cpu.go, show l ∉ (x.view k).held from away]

theorem Related.free (related : Related s x) (here : (s.cpu k).pc = .unlock l) :
    Related ((s.setLock l { s.lock l with locked := false }).set k ((s.cpu k).go .popRelease)) x := by
  obtain ⟨quiet,ok⟩ := related.ok (k := k) (by rw [here]; exact nofun)
  have away := ok.known
  rw [here] at away
  have mine : Claims (x.view k) (s.cpu k) l := Or.inr (Or.inr (Or.inr here))
  have record := related.recorded k (Or.inl mine)
  rw [here] at record
  refine related.at_lock (Or.inl mine) (fun _ _ => rfl) (fun m other => ⟨Iff.rfl, ?_, ?_⟩) related.locks.held ?_ (fun j => ?_)
    (allowed_of_ok quiet (ok.go ok.distinct (by rw [here]; rfl) trivial))
  · rw [here]
    simp [pending, Ne.symm other]
  · simp [pending, Cpu.go]
  · simp [Claims, pending, Cpu.go, show l ∉ (x.view k).held from away]
  · rw [record]
    simp [Cpu.go]

end Moves

section Runs
variable {K L : Type} [DecidableEq K] [DecidableEq L] {s t : State K L} {x : Owners K L} {k : K} {l : L}

/-- A `popcli` in front of a place outside of the locks. -/
theorem Related.pop (related : Related s x) (going : (s.cpu k).pc ≠ .panic) {pc : Pc L}
    (plain : ∀ l, ¬ pending (s.cpu k).pc l) (plain' : ∀ l, ¬ pending pc l) (less : (s.cpu k).pc.extra = pc.extra + 1)
    (known : ∀ flag, Known (x.view k).held flag pc) : Related (s.set k ((s.cpu k).popcli pc)) x := by
  obtain ⟨quiet,ok⟩ := related.ok going
  refine related.go going plain ?_ (ok.popcli ok.distinct (by rw [less, Nat.add_assoc]) known)
  rw [ok.popcli_pc (by omega)]
  exact plain'

/-- `holding` says that `acquire` or `release` must not go on. -/
theorem Related.refused (related : Related s x) {r : Bool} {asker : Asker} (here : (s.cpu k).pc = .popHolding l r asker)
    (bad : asker = .acquire ∧ r = true ∨ asker = .release ∧ r = false) :
    ∃ y, x.next (.refused k l asker) = some y ∧ Related (s.set k ((s.cpu k).popcli .panic)) y := by
  obtain ⟨quiet,ok⟩ := related.ok (k := k) (by rw [here]; exact nofun)
  have known := ok.known
  have owned := related.locks.held k l
  rw [here] at known
  have deep : 0 < (s.cpu k).pc.extra := by
    rw [here]
    cases asker <;> exact Nat.succ_pos _
  refine ⟨_, if_pos ?_, related.move (by simp [here, pending]) ?_ rfl ?_⟩
  · refine bad.imp (And.imp_right fun same => ?_) (And.imp_right fun same => ?_)
    · rw [same] at known
      exact owned.mpr (of_decide_eq_true known.symm)
    · rw [same] at known
      exact fun has => of_decide_eq_false known.symm (owned.mp has)
  · rw [ok.popcli_pc (by omega)]
    simp [pending]
  · exact ok.popcli_pc (by omega) .panic

theorem popHolding_related (related : Related s x) {r : Bool} {asker : Asker} (here : (s.cpu k).pc = .popHolding l r asker) :
    ∃ y, System.exec Owners.next x (emit s (.step k)) = some y ∧
      Related (s.set k ((s.cpu k).popcli (answer l r asker))) y := by
  have going : (s.cpu k).pc ≠ .panic := by
    rw [here]
    exact nofun
  have known := (related.ok going).2.known
  have plain : ∀ l, ¬ pending (s.cpu k).pc l := by simp [here, pending]
  rw [here] at known
  rw [emit, here]
  cases asker with
  | acquire =>
    cases r with
    | true =>
      obtain ⟨y,next,after⟩ := related.refused here (Or.inl ⟨rfl,rfl⟩)
      exact ⟨y, by rw [System.exec, next]; rfl, after⟩
    | false =>
      refine ⟨x, rfl, related.pop going plain (by simp [answer, pending]) (by rw [here]; rfl) fun _ => ?_⟩
      exact of_decide_eq_false known.symm
  | release =>
    cases r with
    | true =>
      obtain ⟨y,next,after⟩ := related.released here
      exact ⟨y, by rw [System.exec, next]; rfl, after⟩
    | false =>
      obtain ⟨y,next,after⟩ := related.refused here (Or.inr ⟨rfl,rfl⟩)
      exact ⟨y, by rw [System.exec, next]; rfl, after⟩
  | other =>
    have right : r = decide (x.owner l = some k) := by
      rw [known]
      exact decide_eq_decide.mpr (related.locks.held k l).symm
    refine ⟨x, ?_, related.pop going plain (by simp [answer, pending]) (by rw [here]; rfl) fun _ => trivial⟩
    cases r <;> simp [System.exec, Owners.next, ← right]

theorem advance_related (related : Related s x) (run : advance s k = some t) :
    ∃ y, System.exec Owners.next x (emit s (.step k)) = some y ∧ Related t y := by
  have going : (s.cpu k).pc ≠ .panic := by
    intro stop
    rw [advance, stop] at run
    cases run
  obtain ⟨quiet,ok⟩ := related.ok going
  unfold advance at run
  dsimp only at run
  cases here : (s.cpu k).pc with
  | run | panic =>
    rw [here] at run
    cases run
  | push next =>
    rw [here] at run
    cases run
    refine ⟨x, by rw [emit, here]; rfl, related.go going (by simp [here, pending]) (by simp [Cpu.go, pending]) ?_⟩
    exact ok.go ok.distinct (by rw [here]; rfl) rfl
  | cli eflags next =>
    rw [here] at run
    cases run
    refine ⟨x, by rw [emit, here]; rfl, related.go going (by simp [here, pending]) ?_ (ok.cli here)⟩
    cases next <;> simp [Cpu.go, pending, After.pc]
  | masked | popRelease =>
    rw [here] at run
    cases run
    exact ⟨x, by rw [emit, here]; rfl, related.pop going (by simp [here, pending]) (by simp [pending]) (by rw [here]; rfl)
      fun _ => trivial⟩
  | readLocked l asker =>
    rw [here] at run
    cases run
    refine ⟨x, by rw [emit, here]; rfl, related.go going (by simp [here, pending]) ?_ (ok.go ok.distinct ?_ ?_)⟩
    · intro m
      dsimp only [Cpu.go]
      split <;> simp [pending]
    · rw [here]
      split <;> rfl
    · split
      · trivial
      · rename_i open_
        have away : l ∉ (x.view k).held := fun has => open_ (related.locked (Or.inl has))
        exact (decide_eq_false away).symm
  | readCpu l asker =>
    rw [here] at run
    cases run
    refine ⟨x, by rw [emit, here]; rfl, related.go going (by simp [here, pending]) (by simp [Cpu.go, pending])
      (ok.go ok.distinct (by rw [here]; rfl) ?_)⟩
    have record := related.locks.cpu l k
    rw [here] at record
    simp only [reduceCtorEq, or_false] at record
    change ((s.lock l).cpu == some k) = decide (l ∈ (x.view k).held)
    rw [beq_eq_decide]
    exact decide_eq_decide.mpr record
  | popHolding l r asker =>
    rw [here] at run
    cases run
    exact popHolding_related related here
  | spin l =>
    rw [here] at run
    cases run
    refine ⟨x, by rw [emit, here]; rfl, ?_⟩
    have away := ok.known
    rw [here] at away
    cases taken : (s.lock l).locked with
    | false => exact related.take here taken
    | true =>
      have same : s.setLock l { s.lock l with locked := true } = s := by
        rw [← taken]
        exact congrArg (State.mk · s.cpu) (Function.update_eq_self l s.lock)
      rw [same]
      exact related.go going (by simp [here, pending]) (by simp [Cpu.go, pending])
        (ok.go ok.distinct (by rw [here]; rfl) away)
  | setCpu l =>
    rw [here] at run
    cases run
    obtain ⟨y,next,after⟩ := related.acquired here
    exact ⟨y, by rw [emit, here, System.exec, next]; rfl, after⟩
  | clearCpu l =>
    rw [here] at run
    cases run
    exact ⟨x, by rw [emit, here]; rfl, related.clear here⟩
  | unlock l =>
    rw [here] at run
    cases run
    exact ⟨x, by rw [emit, here]; rfl, related.free here⟩

omit [DecidableEq L] in
theorem pending_extra {pc : Pc L} (waits : pending pc l) : pc.extra = 1 := by
  rcases waits with rfl | rfl | rfl <;> rfl

theorem interrupt_related (related : Related s x) (run : next s (.interrupt k) = some t) :
    ∃ y, System.exec Owners.next x (emit s (.interrupt k)) = some y ∧ Related t y := by
  rw [next] at run
  split at run
  · rename_i allowed
    cases run
    obtain ⟨quiet,ok⟩ := related.ok allowed.2
    obtain ⟨none,enabled,inside⟩ := ok.interrupt allowed.1
    have plain : ∀ l, ¬ pending (s.cpu k).pc l := by
      intro l waits
      have off := (ok.off (by rw [pending_extra waits]; omega)).1
      rw [allowed.1] at off
      cases off
    refine ⟨x.set k { x.view k with enabled := false, nest := (x.view k).nest + 1 }, ?_,
      related.move plain (by simp [pending]) rfl (allowed_of_ok quiet inside)⟩
    rw [emit, System.exec, Owners.next, if_pos ⟨none,enabled⟩]
    rfl
  · cases run

theorem iret_related (related : Related s x) (careful : (s.cpu k).ncli = 0) (run : next s (.iret k) = some t) :
    ∃ y, System.exec Owners.next x (emit s (.iret k)) = some y ∧ Related t y := by
  rw [next] at run
  split at run
  · rename_i pc frames here outer
    cases run
    obtain ⟨quiet,ok⟩ := related.ok (k := k) (by rw [here]; exact nofun)
    obtain ⟨none,deep,inside⟩ := ok.iret outer careful
    have shallow := (ok.frames pc (by rw [outer]; exact List.mem_cons_self)).1
    have plain : ∀ l, ¬ pending pc l := by
      intro l waits
      rw [pending_extra waits] at shallow
      cases shallow
    refine ⟨x.set k { x.view k with enabled := true, nest := (x.view k).nest - 1 }, ?_,
      related.move (by simp [here, pending]) plain rfl (allowed_of_ok quiet inside)⟩
    rw [emit, System.exec, Owners.next, if_pos ⟨none,deep⟩]
    rfl
  · cases run

theorem sti_related (related : Related s x) (careful : (s.cpu k).ncli = 0) (run : next s (.sti k) = some t) :
    ∃ y, System.exec Owners.next x (emit s (.sti k)) = some y ∧ Related t y := by
  rw [next] at run
  split at run
  · rename_i here
    cases run
    obtain ⟨quiet,ok⟩ := related.ok (k := k) (by rw [here]; exact nofun)
    obtain ⟨none,inside⟩ := ok.sti here careful
    refine ⟨x.set k { x.view k with enabled := true }, ?_,
      related.move (by simp [here, pending]) (by simp [here, pending]) rfl (allowed_of_ok quiet inside)⟩
    rw [emit, System.exec, Owners.next, if_pos none]
    rfl
  · cases run

theorem call_related {what : Call L} (related : Related s x) (run : next s (.call k what) = some t) :
    ∃ y, System.exec Owners.next x (emit s (.call k what)) = some y ∧ Related t y := by
  rw [next] at run
  split at run
  · rename_i here
    cases run
    have going : (s.cpu k).pc ≠ .panic := by
      rw [here]
      exact nofun
    obtain ⟨quiet,ok⟩ := related.ok going
    refine ⟨x, rfl, related.go going (by simp [here, pending]) ?_ (ok.go ok.distinct ?_ ?_)⟩
    · cases what <;> simp [Cpu.go, Call.pc, pending]
    · rw [here]
      cases what <;> rfl
    · cases what <;> trivial
  · cases run

theorem next_related {a : Action K L} (related : Related s x) (careful : Careful s a) (run : next s a = some t) :
    ∃ y, System.exec Owners.next x (emit s a) = some y ∧ Related t y := by
  cases a with
  | step k => exact advance_related related run
  | call k what => exact call_related related run
  | interrupt k => exact interrupt_related related run
  | iret k => exact iret_related related careful run
  | sti k => exact sti_related related careful run

omit [DecidableEq K] in
theorem start_related (start : Start s) : Related s (Owners.first K L) := by
  obtain ⟨locks,cpus⟩ := start
  refine ⟨⟨fun k l => by simp [Owners.first], ⟨fun _ => none, fun k l => ?_, fun l => ?_⟩, fun l k => ?_⟩, fun k => ?_⟩
  · simp [Owners.first, cpus, pending]
  · rw [locks]
    rfl
  · simp [Owners.first, locks, cpus]
  · rw [cpus]
    exact ⟨List.nodup_nil, rfl, rfl, fun more => absurd more (Int.lt_irrefl 0), trivial, rfl, nofun⟩

/-- What a processor is in relation to the record, while it runs code outside of `spinlock.c`. -/
structure Outside (s : State K L) (v : View L) (k : K) : Prop where
  depth : (s.cpu k).ncli = v.held.length
  flag : (s.cpu k).flag = true ↔ v.enabled = true ∧ v.held = []
  locks : ∀ l, (s.lock l).cpu = some k ↔ l ∈ v.held

omit [DecidableEq K] in
theorem Related.outside (related : Related s x) (here : (s.cpu k).pc = .run) : Outside s (x.view k) k := by
  obtain ⟨quiet,ok⟩ := related.ok (k := k) (by rw [here]; exact nofun)
  have depth := ok.depth
  rw [here] at depth
  refine ⟨depth, ?_, fun l => ?_⟩
  · rw [ok.flag, Bool.and_eq_true_iff, decide_eq_true_iff, depth]
    exact and_congr_right fun _ => by simp [Pc.extra]
  · rw [related.locks.cpu l k, here]
    simp

/-- In every order of steps and interrupts, the calls of `acquire` and `release` are those of locks
    with one owner at most. `acquire` panics for its own lock only and `release` for others only. A
    processor takes interrupts only without a lock, and behind its last `release` as before its first
    `acquire`. -/
theorem spinlocks_refine {origin : State K L} {events : List (Event K L)}
    (run : (system K L).Emits Careful emit origin events s) :
    ∃ x, System.exec Owners.next (Owners.first K L) events = some x ∧
      (∀ k, (s.cpu k).pc = .run → Outside s (x.view k) k) ∧
      ∀ k, (s.cpu k).pc = .panic → (x.view k).panicked = true := by
  obtain ⟨x,done,related⟩ := System.emits_simulation Owners.next (Owners.first K L) Related start_related
    (fun s a t x related careful run => next_related related careful run) run
  refine ⟨x, done, fun k here => related.outside here, fun k here => ?_⟩
  by_contra going
  have ok := related.each k
  rw [Allowed, if_neg going] at ok
  have known := ok.known
  rw [here] at known
  exact known

def idle : State Bool Unit := ⟨fun _ => ⟨false, none⟩, fun _ => ⟨false, 0, false, .run, []⟩⟩

/-- One processor takes the lock, the other one waits for it. -/
def contended : List (Action Bool Unit) :=
  .call false (.acquire ()) :: .call true (.acquire ()) :: (List.replicate 8 (.step false) ++ List.replicate 8 (.step true))

theorem contended_careful : ∀ a ∈ contended, ∀ s : State Bool Unit, Careful s a := by
  intro a member s
  cases a with
  | iret k | sti k => exact absurd member (by simp [contended])
  | _ => trivial

theorem spinlocks_refine_contended : ∃ s x, System.exec next idle contended = some s ∧
    System.exec Owners.next (Owners.first Bool Unit) [.acquired false ()] = some x ∧
    (s.cpu true).pc = .spin () ∧ Outside s (x.view false) false := by
  have run : System.exec next idle contended = some _ := rfl
  have start : (system Bool Unit).Emits Careful emit idle [] idle := .start ⟨fun _ => rfl, fun _ => rfl⟩
  obtain ⟨x,done,outside,_⟩ := spinlocks_refine (System.exec_emits contended contended_careful start run)
  exact ⟨_, x, run, done, rfl, outside false rfl⟩

end Runs

end Xv6Spinlock
