import KernelLabs.Xv6.FsLogged

/-!
`filewrite` on an inode (assignment-3 `file.c`): a long write is cut into transactions, each of
which stays within its reservation of the log.
-/
namespace Xv6Filewrite
open Xv6Fs Xv6FsOwn Xv6FsVolume Xv6FsFile Xv6FsSlots Xv6FsBytes Xv6FsLogged Recorded Bytes Wp

section Model

/-- A file of type `FD_INODE`. -/
structure OpenFile where
  writable : Bool
  ip : Slot
  off : UInt32

/-- `sections` has the blocks logged between `begin_op` and `end_op`, a list for each transaction. -/
structure Progress where
  fs : Fs
  off : UInt32
  sections : List (List Nat)

inductive Outcome where
  | returned (r : Int)
  | panicked (p : Panic)
  | shortFilewrite
  deriving DecidableEq

/-- The calls from `begin_op` to `end_op`. -/
def writeSection (sb : Superblock) (k : Slot) (src : Nat → BitVec 8) (off n : UInt32) : LogM (Option UInt32) := do
  quietly (ilock sb k)
  let r ← Xv6FsLogged.writei sb k src off n
  quietly (iunlock k)
  return r

/-- The loop with `i` bytes done; every turn that goes on has written a byte at least. -/
def filewriteLoop (sb : Superblock) (k : Slot) (addr : Nat → BitVec 8) (n : Int) : Nat → Nat → Progress → Outcome × Progress
  | 0, i, w => (.returned i, w)
  | fuel + 1, i, w =>
    if n ≤ i then (.returned i, w)
    else
      let n1 := min (n - i).toNat maxChunk
      match writeSection sb k (fun j => addr (i + j)) w.off (UInt32.ofNat n1) (w.fs, []) with
      | .error p => (.panicked p, w)
      | .ok (none, (t, logged)) => (.returned i, ⟨t, w.off, w.sections ++ [logged]⟩)
      | .ok (some r, (t, logged)) =>
        if r ≠ UInt32.ofNat n1 then (.shortFilewrite, ⟨t, w.off + r, w.sections ++ [logged]⟩)
        else filewriteLoop sb k addr n fuel (i + r.toNat) ⟨t, w.off + r, w.sections ++ [logged]⟩

def filewrite (sb : Superblock) (f : OpenFile) (addr : Nat → BitVec 8) (n : Int) (s : Fs) : Outcome × Progress :=
  if f.writable = false then (.returned (-1), ⟨s, f.off, []⟩)
  else
    match filewriteLoop sb f.ip addr n n.toNat 0 ⟨s, f.off, []⟩ with
    | (.returned i, w) => (.returned (if i = n then n else -1), w)
    | stopped => stopped

end Model

section Proof
variable {sb : Superblock} {s : Fs} {D : Nat → Dinode} {k : Slot} {addr : Nat → BitVec 8} {n : Int}

theorem replace_nothing (bytes : Xv6Fs.Bytes) (off : Nat) : replace bytes off [] = bytes := by
  unfold replace
  rw [List.append_nil, List.length_nil, Nat.add_zero, List.take_append_drop]

/-- Two writes in a row are one. -/
theorem replace_append {bytes : Xv6Fs.Bytes} {off : Nat} (start : off ≤ bytes.length) (first second : Xv6Fs.Bytes) :
    replace (replace bytes off first) (off + first.length) second = replace bytes off (first ++ second) := by
  have longer : off + first.length ≤ (replace bytes off first).length := by
    unfold replace
    rw [List.length_append, List.length_append, List.length_take, Nat.min_eq_left start]
    omega
  refine List.ext_getElem? fun o => ?_
  rw [replace_get longer, replace_get start, replace_get start, List.length_append]
  by_cases before : o < off + first.length
  · rw [if_neg (by omega)]
    by_cases inside : off ≤ o
    · rw [if_pos ⟨inside,before⟩, if_pos (by omega), List.getElem?_append_left (by omega)]
    · rw [if_neg (by omega), if_neg (by omega)]
  · by_cases inside : o < off + first.length + second.length
    · rw [if_pos (by omega), if_pos (by omega), List.getElem?_append_right (by omega)]
      congr 1
      omega
    · rw [if_neg (by omega), if_neg (by omega), if_neg (by omega)]

/-- What a transaction leaves of the file: nothing is written, or all of the chunk. -/
structure Wrote (sb : Superblock) (s : Fs) (D : Nat → Dinode) (k : Slot) (src : Nat → BitVec 8) (off n : UInt32) (r : Option UInt32)
    (t : Fs) (D' : Nat → Dinode) : Prop where
  clean : Clean sb t D'
  live : 0 < (t.icache k).ref
  inum : (t.icache k).inum = (s.icache k).inum
  bytes : (r = none ∧ file t.disk (D' (s.icache k).inum) = file s.disk (D (s.icache k).inum)) ∨
    (r = some n ∧ off.toNat ≤ (file s.disk (D (s.icache k).inum)).length ∧ off.toNat + n.toNat < 2 ^ 32 ∧
      file t.disk (D' (s.icache k).inum) = replace (file s.disk (D (s.icache k).inum)) off.toNat ((List.range n.toNat).map src))

theorem file_disk {t : Fs} (same : t.disk = s.disk) (d : Dinode) : file t.disk d = file s.disk d := by rw [same]

theorem writeSection_wrote {src : Nat → BitVec 8} {off n : UInt32} (clean : Clean sb s D) (live : 0 < (s.icache k).ref)
    (chunk : n.toNat ≤ maxChunk) : Logs (writeSection sb k src off n) s fun r t logged =>
      logged.toFinset.card ≤ Xv6Log.MAXOPBLOCKS ∧ ∃ D', Wrote sb s D k src off n r t D' := by
  have lax : Lax fun _ : Panic => True := fun _ _ _ => trivial
  generalize inum : (s.icache k).inum = i
  unfold writeSection
  refine logs_bind (logs_mono (logs_quietly (ilock_spec lax clean live {k} (Or.inl trivial))) ?_)
  rintro _ t _ ⟨rfl,locked,valid⟩
  have count := locked.counts k
  have liveT : 0 < (t.icache k).ref := by omega
  have inumT := ((locked.same k live).1).trans inum
  have holds : Holds t k i := ⟨liveT,valid,inumT⟩
  refine logs_bind (logs_mono (logs_wp (writei_logs locked.clean holds chunk) (writei_same sb k src off n)
    (writei_spec lax locked.clean holds)) ?_)
  rintro r u logged ⟨few,wrote⟩
  have after : ∃ D', Clean sb u D' ∧ SameSlots t u ∧
      ((r = none ∧ file u.disk (D' i) = file s.disk (D i)) ∨
      (r = some n ∧ off.toNat ≤ (file s.disk (D i)).length ∧ off.toNat + n.toNat < 2 ^ 32 ∧
        file u.disk (D' i) = replace (file s.disk (D i)) off.toNat ((List.range n.toNat).map src))) := by
    rcases wrote with ⟨none,same⟩ | ⟨all,D',wrote⟩
    · rw [same]
      exact ⟨D, locked.clean, fun _ => rfl, Or.inl ⟨none, file_disk locked.disk _⟩⟩
    · have most := (wrote.clean.volume.mapped i (wrote.clean.volume.here (wrote.slots.holds holds))).1
      have size := wrote.size
      refine ⟨D', wrote.clean, wrote.slots, Or.inr ⟨all, ?_, ?_, ?_⟩⟩
      · rw [file_length]
        exact wrote.start
      · unfold nblocks MAXFILE NDIRECT NINDIRECT BSIZE at most
        omega
      · rw [WroteFile.file_eq wrote, file_disk locked.disk]
  obtain ⟨D',cleanU,slots,bytes⟩ := after
  have liveU : 0 < (u.icache k).ref := by
    rw [slots k]
    exact liveT
  refine logs_bind (logs_mono (logs_quietly (iunlock_spec lax cleanU liveU {k})) ?_)
  rintro _ v _ ⟨rfl,unlocked⟩
  have last := unlocked.counts k
  have inumV : (v.icache k).inum = i := by
    rw [(unlocked.same k liveU).1, slots k]
    exact inumT
  refine logs_pure ⟨?_, D', unlocked.clean, by omega, by rw [inumV, inum], ?_⟩
  · simp only [List.nil_append, List.append_nil]
    exact few
  · rw [inum, file_disk unlocked.disk]
    exact bytes

/-- The bytes from `i` to `j` have been written, and no section has logged too much. -/
structure Advanced (sb : Superblock) (D : Nat → Dinode) (k : Slot) (addr : Nat → BitVec 8) (i j : Nat) (w v : Progress) (D' : Nat → Dinode) :
    Prop where
  clean : Clean sb v.fs D'
  order : i ≤ j
  off : v.off.toNat = w.off.toNat + (j - i)
  bytes : file v.fs.disk (D' (w.fs.icache k).inum) = replace (file w.fs.disk (D (w.fs.icache k).inum)) w.off.toNat
    ((List.range (j - i)).map fun q => addr (i + q))

theorem advanced_refl {w : Progress} (clean : Clean sb w.fs D) (i : Nat) : Advanced sb D k addr i i w w D := by
  refine ⟨clean, Nat.le_refl i, by omega, ?_⟩
  rw [Nat.sub_self]
  exact (replace_nothing _ _).symm

theorem filewriteLoop_reserved (fuel i : Nat) {w : Progress} (clean : Clean sb w.fs D) (live : 0 < (w.fs.icache k).ref)
    (few : ∀ logged ∈ w.sections, logged.toFinset.card ≤ Xv6Log.MAXOPBLOCKS) :
    (∀ logged ∈ (filewriteLoop sb k addr n fuel i w).2.sections, logged.toFinset.card ≤ Xv6Log.MAXOPBLOCKS) ∧
    ∀ r, (filewriteLoop sb k addr n fuel i w).1 = .returned r →
      ∃ j D', r = (j : Nat) ∧ Advanced sb D k addr i j w (filewriteLoop sb k addr n fuel i w).2 D' := by
  induction fuel generalizing i w D with
  | zero => exact ⟨few, fun r same => ⟨i, D, (Outcome.returned.inj same).symm, advanced_refl clean i⟩⟩
  | succ fuel ih =>
    unfold filewriteLoop
    by_cases done : n ≤ i
    · rw [if_pos done]
      exact ⟨few, fun r same => ⟨i, D, (Outcome.returned.inj same).symm, advanced_refl clean i⟩⟩
    · rw [if_neg done]
      dsimp only
      have small : min (n - i).toNat maxChunk < 2 ^ 32 := Nat.lt_of_le_of_lt (Nat.min_le_right _ _) (by decide)
      have size : (UInt32.ofNat (min (n - i).toNat maxChunk)).toNat = min (n - i).toNat maxChunk := UInt32.toNat_ofNat_of_lt' small
      have wrote := @writeSection_wrote sb w.fs D k (fun j => addr (i + j)) w.off (UInt32.ofNat (min (n - i).toNat maxChunk))
        clean live (by rw [size]; exact Nat.min_le_right _ _) []
      cases run : writeSection sb k (fun j => addr (i + j)) w.off (UInt32.ofNat (min (n - i).toNat maxChunk)) (w.fs, []) with
      | error p => exact ⟨few, fun r same => by cases same⟩
      | ok result =>
        obtain ⟨r,t,logged⟩ := result
        rw [run] at wrote
        obtain ⟨more,same,reserved,D',section_⟩ := wrote
        rw [List.nil_append] at same
        have fewer : ∀ l ∈ w.sections ++ [logged], l.toFinset.card ≤ Xv6Log.MAXOPBLOCKS := by
          intro l member
          rcases List.mem_append.mp member with old | new
          · exact few l old
          · rw [List.mem_singleton.mp new, same]
            exact reserved
        cases r with
        | none =>
          refine ⟨fewer, fun r same => ⟨i, D', (Outcome.returned.inj same).symm, section_.clean, Nat.le_refl i, by dsimp only; omega, ?_⟩⟩
          rcases section_.bytes with ⟨_,kept⟩ | ⟨wrong,_⟩
          · rw [Nat.sub_self]
            exact kept.trans (replace_nothing _ _).symm
          · cases wrong
        | some m =>
          rcases section_.bytes with ⟨wrong,_⟩ | ⟨whole,start,bound,bytes⟩
          · cases wrong
          cases whole
          dsimp only
          rw [if_neg (not_not_intro rfl), size]
          generalize count : min (n - i).toNat maxChunk = c at *
          have next := ih (D := D') (i + c) (w := ⟨t, w.off + UInt32.ofNat c, w.sections ++ [logged]⟩) section_.clean section_.live fewer
          refine ⟨next.1, fun r same => ?_⟩
          · obtain ⟨j,D'',value,later⟩ := next.2 r same
            have order := later.order
            have moved : (w.off + UInt32.ofNat c).toNat = w.off.toNat + c := by
              rw [size] at bound
              rw [UInt32.toNat_add, size]
              exact Nat.mod_eq_of_lt bound
            refine ⟨j, D'', value, later.clean, by omega, ?_, ?_⟩
            · rw [later.off]
              dsimp only
              omega
            · have after := later.bytes
              dsimp only at after
              have length : ((List.range c).map fun q => addr (i + q)).length = c := by rw [List.length_map, List.length_range]
              rw [section_.inum, bytes, size, moved] at after
              have joined := replace_append start ((List.range c).map fun q => addr (i + q)) ((List.range (j - (i + c))).map fun q => addr (i + c + q))
              rw [length] at joined
              rw [after, joined]
              congr 1
              rw [show j - i = c + (j - (i + c)) by omega, List.range_add, List.map_append, List.map_map]
              congr 1
              exact List.map_congr_left fun q _ => by rw [Function.comp_apply, Nat.add_assoc]

/-- Every transaction of `filewrite` logs at most `MAXOPBLOCKS` blocks, and when all was written the
    file has the bytes at the offset. -/
theorem filewrite_reserved (f : OpenFile) (addr : Nat → BitVec 8) (n : Int) (clean : Clean sb s D) (live : 0 < (s.icache f.ip).ref) :
    (∀ logged ∈ (filewrite sb f addr n s).2.sections, logged.toFinset.card ≤ Xv6Log.MAXOPBLOCKS) ∧
    ((filewrite sb f addr n s).1 = .returned n → ∃ D', Clean sb (filewrite sb f addr n s).2.fs D' ∧
      (filewrite sb f addr n s).2.off.toNat = f.off.toNat + n.toNat ∧
      file (filewrite sb f addr n s).2.fs.disk (D' (s.icache f.ip).inum) =
        replace (file s.disk (D (s.icache f.ip).inum)) f.off.toNat ((List.range n.toNat).map addr)) := by
  unfold filewrite
  by_cases closed : f.writable = false
  · rw [if_pos closed]
    refine ⟨fun logged member => absurd member List.not_mem_nil, fun same => ?_⟩
    have minus := Outcome.returned.inj same
    rw [← minus]
    exact ⟨D, clean, rfl, (replace_nothing _ _).symm⟩
  · rw [if_neg closed]
    obtain ⟨few,ends⟩ := @filewriteLoop_reserved sb D f.ip addr n n.toNat 0 ⟨s, f.off, []⟩ clean live
      fun logged member => absurd member List.not_mem_nil
    cases run : filewriteLoop sb f.ip addr n n.toNat 0 ⟨s, f.off, []⟩ with
    | mk outcome w =>
      rw [run] at few ends
      cases outcome with
      | panicked p => exact ⟨few, fun same => by cases same⟩
      | shortFilewrite => exact ⟨few, fun same => by cases same⟩
      | returned r =>
        refine ⟨few, fun same => ?_⟩
        obtain ⟨j,D',rfl,advanced⟩ := ends r rfl
        have all : n.toNat = j := by
          have value := Outcome.returned.inj same
          split at value
          · omega
          · -- The result -1 is `n` only where nothing was to be written.
            have zero : n.toNat = 0 := by omega
            rw [zero] at run ⊢
            have first := Outcome.returned.inj (congrArg Prod.fst run)
            omega
        refine ⟨D', advanced.clean, ?_, ?_⟩
        · rw [all]
          exact advanced.off
        · rw [all]
          have bytes := advanced.bytes
          simp only [Nat.zero_add, Nat.sub_zero] at bytes
          exact bytes

end Proof

section Opened
open Xv6FsRuns

/-- A byte is appended to the file, with a new block. -/
theorem filewrite_reserved_opened : ∃ D : Nat → Dinode,
    (∀ logged ∈ (filewrite tiny ⟨true, fileSlot, 512⟩ (fun _ => 1#8) 1 opened).2.sections, logged.toFinset.card ≤ Xv6Log.MAXOPBLOCKS) ∧
    ((filewrite tiny ⟨true, fileSlot, 512⟩ (fun _ => 1#8) 1 opened).1 = .returned 1 →
      ∃ D', Clean tiny (filewrite tiny ⟨true, fileSlot, 512⟩ (fun _ => 1#8) 1 opened).2.fs D' ∧
      (filewrite tiny ⟨true, fileSlot, 512⟩ (fun _ => 1#8) 1 opened).2.off.toNat = 513 ∧
      file (filewrite tiny ⟨true, fileSlot, 512⟩ (fun _ => 1#8) 1 opened).2.fs.disk (D' (opened.icache fileSlot).inum) =
        replace (file opened.disk (D (opened.icache fileSlot).inum)) 512 [1#8]) := by
  obtain ⟨D,sound⟩ := opened_sound
  exact ⟨D, filewrite_reserved ⟨true, fileSlot, 512⟩ (fun _ => 1#8) 1 sound.clean (by decide)⟩

example : (filewrite tiny ⟨true, fileSlot, 512⟩ (fun _ => 1#8) 1 opened).1 = .returned 1 ∧
    (filewrite tiny ⟨true, fileSlot, 512⟩ (fun _ => 1#8) 1 opened).2.sections = [[4, 7, 7, 2]] := by decide +kernel

end Opened
end Xv6Filewrite
