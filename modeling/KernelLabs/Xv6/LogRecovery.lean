import KernelLabs.Xv6.LogCrash

/-!
Runs of the redo log with crashes. The condition on the runs closes the gap between the
tests of `log_write`, made without the lock, and the recording: two operations that pass
the tests together can record one block too many, and then `write_log` writes past the
end of the log area.
-/
namespace Xv6LogRecovery
open Xv6LogDisk Xv6LogCrash Xv6Log Transition GroupCommit

section Runs
variable {P : Type} [DecidableEq P] {s t : State P} {x : Store Nat Block P}

/-- The count of recorded blocks that `log_write` has tested still holds when it
    records a block that is not in the log yet. -/
def Guarded (s : State P) : Action P → Prop
  | .record p => ∀ b, s.op p = .entering b → b ∈ s.log.lh ∨ logWriteTest s.log = .ok ()
  | _ => True

theorem advance_inv (inv : Inv s x) (run : advance s = some t) :
    ∃ y, System.exec Store.next x (emit s .advance) = some y ∧ Inv t y ∧
      (s.phase.booted = false → y = x) := by
  have stage := inv.stage
  unfold Stage at stage
  unfold advance at run
  cases place : s.phase with
  | readHead =>
    simp only [place] at run
    split at run
    · simp only [Option.some.injEq] at run
      refine ⟨x, by simp [emit, place, System.exec], run ▸ inv_readHead inv place, fun _ => rfl⟩
    · simp at run
  | recovering tail =>
    simp only [place] at run stage
    refine ⟨x, by simp [emit, place, System.exec], ?_, fun _ => rfl⟩
    split at run
    · rename_i b here
      split at run
      · simp only [Option.some.injEq] at run
        rw [← run]
        exact inv_install inv here stage.1 stage.2 (Or.inl ⟨place,rfl⟩)
      · simp at run
    · rename_i ended
      split at run
      · simp only [Option.some.injEq] at run
        rw [← run]
        exact inv_clearHead inv ended stage.1 stage.2 (Or.inl ⟨place,rfl⟩)
      · simp at run
  | running => simp [place] at run
  | writing tail =>
    simp only [place] at run stage
    split at run
    · rename_i b here
      split at run
      · simp only [Option.some.injEq] at run
        refine ⟨x, by simp [emit, place, here, System.exec], run ▸ inv_writeLog inv place here, ?_⟩
        simp [Phase.booted]
      · simp at run
    · rename_i ended
      split at run
      · simp only [Option.some.injEq] at run
        refine ⟨{ x with durable := x.pending }, ?_, run ▸ inv_writeHead inv place ended, ?_⟩
        · have idle : x.running = ∅ := stage.2.1
          simp [emit, place, ended, System.exec, Store.next, idle]
        · simp [Phase.booted]
      · simp at run
  | installing tail =>
    simp only [place] at run stage
    refine ⟨x, by simp [emit, place, System.exec], ?_, fun _ => rfl⟩
    split at run
    · rename_i b here
      split at run
      · simp only [Option.some.injEq] at run
        rw [← run]
        exact inv_install inv here stage.2.1 stage.2.2 (Or.inr ⟨place,stage.1,rfl⟩)
      · simp at run
    · rename_i ended
      split at run
      · simp only [Option.some.injEq] at run
        rw [← run]
        exact inv_clearHead inv ended stage.2.1 stage.2.2 (Or.inr ⟨place,stage.1,rfl⟩)
      · simp at run
  | committed =>
    simp only [place, Option.some.injEq] at run
    exact ⟨x, by simp [emit, place, System.exec], run ▸ inv_committed inv place, fun _ => rfl⟩

/-- Every step is matched by the events it emits. -/
theorem next_inv (inv : Inv s x) {a : Action P} (guarded : Guarded s a) (run : next s a = some t) :
    ∃ y, System.exec Store.next x (emit s a) = some y ∧ Inv t y := by
  cases a with
  | bread p b =>
    simp only [next] at run
    split at run
    · rename_i free
      simp only [Option.some.injEq] at run
      exact ⟨x, rfl, run ▸ inv_bread inv free⟩
    · simp at run
  | brelse p b =>
    simp only [next] at run
    split at run
    · rename_i held
      simp only [Option.some.injEq] at run
      exact ⟨x, rfl, run ▸ inv_brelse inv held.1 held.2⟩
    · simp at run
  | evict b =>
    simp only [next] at run
    split at run
    · rename_i free
      simp only [Option.some.injEq] at run
      exact ⟨x, rfl, run ▸ inv_evict inv free.1 free.2⟩
    · simp at run
  | modify p b data =>
    simp only [next] at run
    split at run
    · rename_i ready
      simp only [Option.some.injEq] at run
      exact ⟨x, rfl, run ▸ inv_modify inv ready.1 ready.2.1 ready.2.2⟩
    · simp at run
  | logWrite p =>
    simp only [next] at run
    split at run
    · rename_i b here
      split at run
      · simp only [Option.some.injEq] at run
        exact ⟨x, rfl, run ▸ inv_logWrite inv here⟩
      · simp at run
    · simp at run
  | record p =>
    simp only [next] at run
    split at run
    · rename_i b here
      split at run
      · simp only [Option.some.injEq] at run
        have member : p ∈ x.running := by
          rw [inv.running]
          simp [here]
        refine ⟨{ x with pending := Function.update x.pending b (s.buffer b).data }, ?_, ?_⟩
        · simp [emit, here, System.exec, Store.next, member]
        · rw [← run]
          exact inv_record inv here (guarded b here)
      · simp at run
    · simp at run
  | beginOp p =>
    simp only [next] at run
    split at run
    · rename_i ready
      simp only [Option.map_eq_some_iff] at run
      obtain ⟨log,admitted,same⟩ := run
      rw [← same]
      exact inv_beginOp inv ready.1 ready.2 admitted
    · simp at run
  | endOp p =>
    simp only [next] at run
    split at run
    · rename_i inside
      split at run
      · rename_i log done
        simp only [Option.some.injEq] at run
        rw [← run]
        exact inv_endOp inv inside done
      · rename_i log done
        simp only [Option.some.injEq] at run
        rw [← run]
        exact inv_endOp inv inside done
      · simp at run
    · simp at run
  | advance =>
    obtain ⟨y,events,after,_⟩ := advance_inv inv run
    exact ⟨y,events,after⟩
  | crash =>
    simp only [next, Option.some.injEq] at run
    refine ⟨.fresh x.durable, rfl, ?_⟩
    rw [← run]
    exact inv_crash inv

end Runs

/-- A disk as `mkfs` lays it out: the log follows the superblock, the inodes follow the log. -/
def poweredOn : State (Fin 3) where
  disk := fun _ => ⟨fun _ => 0⟩
  cache := fun _ => none
  holder := fun _ => none
  log := ⟨2, LOGSIZE, 0, false, []⟩
  op := fun _ => .outside
  phase := .readHead

theorem poweredOn_start : Start poweredOn :=
  ⟨rfl,by decide,rfl,rfl,rfl,rfl,fun _ => rfl,fun _ => rfl,fun _ => rfl⟩

def contents : Block := ⟨fun _ => 7⟩

/-- Process 0 changes block 100 up to the point where `log_write` takes the lock. -/
def entered : List (Action (Fin 3)) :=
  [.advance, .advance, .beginOp 0, .bread 0 100, .modify 0 100 contents, .logWrite 0]

/-- The rest of the operation, with its commit. -/
def finished : List (Action (Fin 3)) := [.brelse 0 100, .endOp 0] ++ List.replicate 5 .advance

def halfway : State (Fin 3) := (System.exec next poweredOn entered).get (by decide +kernel)

def logged : State (Fin 3) := (next halfway (.record 0)).get (by decide +kernel)

def done : State (Fin 3) := (System.exec next logged finished).get (by decide +kernel)

/-- Process `p` changes the blocks `base`, ..., `base + n - 1`. -/
def writes (p : Fin 3) (base n : Nat) : List (Action (Fin 3)) :=
  (List.range n).flatMap fun i => [.bread p (base + i), .modify p (base + i) contents, .logWrite p,
    .record p, .brelse p (base + i)]

end Xv6LogRecovery
