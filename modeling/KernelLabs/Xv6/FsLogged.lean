import KernelLabs.Lib.Recorded
import KernelLabs.Xv6.FsBytes
import KernelLabs.Xv6.Log

/-!
Writes to files with a record of the blocks that `log_write` is called for.
-/
namespace Xv6FsLogged
open Xv6Fs Xv6FsDisk Xv6FsOwn Xv6FsVolume Xv6FsFile Xv6FsBytes Recorded Bytes Wp

abbrev LogM (α : Type) : Type := Rec Nat Fs Panic α

section Model
variable (sb : Superblock)

/-- A block is changed and logged. -/
def bupdate (b : Nat) (f : Block → Block) : LogM Unit := do
  record b
  quietly (Xv6Fs.bupdate b f)

def state : LogM Fs := quietly get

def setDinode (k : Slot) (f : Dinode → Dinode) : LogM Unit := quietly (Xv6Fs.setDinode k f)

def bzero (b : Nat) : LogM Unit := bupdate b fun _ => zeroes

def balloc : LogM Nat := do
  let s ← state
  match (List.range ((sb.size + BPB - 1) / BPB)).findSome? fun k =>
      (findFree sb s.disk k).map fun bi => (k * BPB, bi) with
  | some (b, bi) => do
    bupdate (BBLOCK sb b) fun blk => Function.update blk (bi / 8) (blk (bi / 8) ||| mask bi)
    bzero (b + bi)
    return b + bi
  | none => throw .ballocOutOfBlocks

def iupdate (k : Slot) : LogM Unit := do
  let s ← state
  let ip := s.icache k
  bupdate (IBLOCK sb ip.inum) fun blk => overlay blk (ip.inum % IPB * 64) 64 ip.d.bytes

def allocAddr (k : Slot) (i : Fin (NDIRECT + 1)) : LogM Nat := do
  let s ← state
  let addr := (s.icache k).d.addrs i
  if addr = 0 then do
    let b ← balloc sb
    quietly (setAddr k i b)
    return b
  else return addr.toNat

theorem direct_slots : NeZero (NDIRECT + 1) := ⟨Nat.succ_ne_zero NDIRECT⟩

def bmap (k : Slot) (bn : Nat) : LogM Nat :=
  if bn < NDIRECT then allocAddr sb k (@Fin.ofNat (NDIRECT + 1) direct_slots bn)
  else if bn - NDIRECT < NINDIRECT then do
    let addr ← allocAddr sb k (Fin.last NDIRECT)
    let s ← state
    let entry := field (s.disk addr) (4 * (bn - NDIRECT)) 4
    if entry = 0 then do
      let b ← balloc sb
      bupdate addr fun blk => overlay blk (4 * (bn - NDIRECT)) 4 (byteOf b)
      return b
    else return entry
  else throw .bmapOutOfRange

def writeLoop (k : Slot) : Nat → (Nat → BitVec 8) → Nat → Nat → LogM Unit
  | 0, _, _, _ => pure ()
  | fuel + 1, src, off, n =>
    if n = 0 then pure ()
    else do
      let b ← bmap sb k (off / BSIZE)
      let m := min n (BSIZE - off % BSIZE)
      bupdate b fun blk => overlay blk (off % BSIZE) m src
      writeLoop k fuel (fun j => src (j + m)) (off + m) (n - m)

def writei (k : Slot) (src : Nat → BitVec 8) (off n : UInt32) : LogM (Option UInt32) := do
  let s ← state
  let ip := (s.icache k).d
  if ip.type = T_DEV then return none
  else if ip.size < off ∨ off + n < off then return none
  else if MAXFILE * BSIZE < (off + n).toNat then return none
  else do
    writeLoop sb k n.toNat src off.toNat n.toNat
    if 0 < n ∧ ip.size < off + n then do
      setDinode k fun d => { d with size := off + n }
      iupdate sb k
    else pure ()
    return some n

end Model

section Same
variable (sb : Superblock) (k : Slot)

theorem bupdate_same (b : Nat) (f : Block → Block) : Records (bupdate b f) (Xv6Fs.bupdate b f) :=
  records_record b (records_quietly _)

theorem state_same : Records state get := records_quietly _

theorem balloc_same : Records (balloc sb) (Xv6Fs.balloc sb) := by
  unfold balloc Xv6Fs.balloc
  refine records_bind state_same fun s => ?_
  generalize (List.range ((sb.size + BPB - 1) / BPB)).findSome? _ = found
  cases found with
  | some place => exact records_bind (bupdate_same _ _) fun _ => records_bind (bupdate_same _ _) fun _ => records_pure _
  | none => exact records_throw _

theorem allocAddr_same (i : Fin (NDIRECT + 1)) : Records (allocAddr sb k i) (Xv6Fs.allocAddr sb k i) := by
  unfold allocAddr Xv6Fs.allocAddr
  refine records_bind state_same fun s => records_ite ?_ (records_pure _)
  exact records_bind (balloc_same sb) fun b => records_bind (records_quietly _) fun _ => records_pure _

theorem bmap_same (bn : Nat) : Records (bmap sb k bn) (Xv6Fs.bmap sb k bn) := by
  unfold bmap Xv6Fs.bmap
  refine records_ite (allocAddr_same sb k _) (records_ite ?_ (records_throw _))
  refine records_bind (allocAddr_same sb k _) fun addr => records_bind state_same fun s => records_ite ?_ (records_pure _)
  exact records_bind (balloc_same sb) fun b => records_bind (bupdate_same _ _) fun _ => records_pure _

theorem writeLoop_same (fuel : Nat) (src : Nat → BitVec 8) (off n : Nat) :
    Records (writeLoop sb k fuel src off n) (Xv6Fs.writeLoop sb k fuel src off n) := by
  induction fuel generalizing src off n with
  | zero => exact records_pure _
  | succ fuel ih =>
    unfold writeLoop Xv6Fs.writeLoop
    refine records_ite (records_pure _) (records_bind (bmap_same sb k _) fun b => ?_)
    exact records_bind (bupdate_same _ _) fun _ => ih _ _ _

theorem iupdate_same : Records (iupdate sb k) (Xv6Fs.iupdate sb k) :=
  records_bind state_same fun _ => bupdate_same _ _

/-- The recorded `writei` is `writei`. -/
theorem writei_same (src : Nat → BitVec 8) (off n : UInt32) : Records (writei sb k src off n) (Xv6Fs.writei sb k src off n) := by
  unfold writei Xv6Fs.writei
  refine records_bind state_same fun s => ?_
  refine records_ite (records_pure _) (records_ite (records_pure _) (records_ite (records_pure _) ?_))
  refine records_bind (writeLoop_same sb k _ src _ _) fun _ => ?_
  refine records_ite ?_ (records_pure _)
  exact records_bind (records_quietly _) fun _ => records_bind (iupdate_same sb k) fun _ => records_pure _

end Same

section Blocks
variable {sb : Superblock} {s : Fs} {D : Nat → Dinode} {X : Nat → Nat} {k : Slot} {i bn : Nat}

theorem logs_state {P : Fs → Fs → List Nat → Prop} (holds : P s s []) : Logs state s P := fun _ =>
  ⟨[], by rw [List.append_nil], holds⟩

theorem logs_bupdate {b : Nat} {f : Block → Block} {P : Unit → Fs → List Nat → Prop}
    (holds : P () { s with disk := Function.update s.disk b (f (s.disk b)), written := s.written + 1 } [b]) :
    Logs (bupdate b f) s P := fun _ => ⟨[b], rfl, holds⟩

/-- A new block is logged, and the block of the bitmap with its bit. -/
theorem balloc_logs (sb : Superblock) (s : Fs) : Logs (balloc sb) s fun b t more => more = [BBLOCK sb b, b] ∧ t.icache = s.icache := by
  unfold balloc
  refine logs_bind (logs_state ?_)
  split
  · rename_i b bi found
    refine logs_bind (logs_bupdate (logs_bind (logs_bupdate (logs_pure ?_))))
    obtain ⟨j,_,hit⟩ := List.exists_of_findSome?_eq_some found
    obtain ⟨bi',first,pair⟩ := Option.map_eq_some_iff.mp hit
    cases pair
    have low := List.mem_range.mp (List.mem_of_find?_eq_some first)
    have same : BBLOCK sb (j * BPB + bi) = BBLOCK sb (j * BPB) := by
      unfold BBLOCK
      rw [Nat.mul_div_cancel j (show 0 < BPB by decide), Nat.mul_comm, Nat.mul_add_div (show 0 < BPB by decide), Nat.div_eq_of_lt low,
        Nat.add_zero]
    rw [same]
    exact ⟨rfl,rfl⟩
  · exact logs_throw

theorem allocAddr_logs (sb : Superblock) (s : Fs) (k : Slot) (a : Fin (NDIRECT + 1)) : Logs (allocAddr sb k a) s fun b t more =>
    (more = [] ∨ more = [BBLOCK sb b, b]) ∧
    ∀ a', (s.icache k).d.addrs a' ≠ 0 → (t.icache k).d.addrs a' = (s.icache k).d.addrs a' := by
  unfold allocAddr
  refine logs_bind (logs_state ?_)
  dsimp only
  split
  · rename_i none
    refine logs_bind (logs_mono (balloc_logs sb s) ?_)
    rintro b t more ⟨rfl,same⟩
    refine logs_bind (logs_mono (logs_quietly (R := fun _ u => ∀ a', (s.icache k).d.addrs a' ≠ 0 →
      (u.icache k).d.addrs a' = (s.icache k).d.addrs a') ?_) ?_)
    · refine wp_setDinode (f := withAddr a b) fun a' some => ?_
      dsimp only
      rw [Function.update_self, same]
      exact Function.update_of_ne (fun eq => some (by rw [eq]; exact none)) _ _
    · rintro _ u _ ⟨rfl,kept⟩
      exact logs_pure ⟨Or.inr rfl, kept⟩
  · exact logs_pure ⟨Or.inl rfl, fun _ _ => rfl⟩

/-- The blocks of a file that all its indirect blocks share. -/
def Shared (sb : Superblock) (s : Fs) (k : Slot) (c : Nat) : Prop :=
  lastAddr (s.icache k).d ≠ 0 ∧ (c = (lastAddr (s.icache k).d).toNat ∨ c = BBLOCK sb (lastAddr (s.icache k).d).toNat)

/-- A block that is there is found without a write. -/
theorem bmap_silent (low : bn < MAXFILE) (there : addrAt s.disk (s.icache k).d bn ≠ 0) :
    Logs (bmap sb k bn) s fun _ t more => more = [] ∧ t = s := by
  by_cases direct : bn < NDIRECT
  · have some : (s.icache k).d.addrs (Fin.ofNat _ bn) ≠ 0 := by
      intro zero
      unfold addrAt at there
      rw [if_pos direct] at there
      unfold Dinode.direct at there
      rw [zero] at there
      exact there rfl
    unfold bmap allocAddr
    rw [if_pos direct]
    refine logs_bind (logs_state ?_)
    dsimp only
    rw [if_neg some]
    exact logs_pure ⟨rfl,rfl⟩
  · have some : lastAddr (s.icache k).d ≠ 0 := by
      intro zero
      unfold addrAt at there
      rw [if_neg direct, if_pos zero] at there
      exact there rfl
    unfold addrAt at there
    rw [if_neg direct, if_neg some] at there
    unfold bmap allocAddr
    rw [if_neg direct, if_pos (by unfold MAXFILE at low; omega)]
    refine logs_bind (logs_bind (logs_state ?_))
    dsimp only
    unfold lastAddr at some there
    rw [if_neg some]
    refine logs_pure (logs_bind (logs_state ?_))
    rw [if_neg there]
    exact logs_pure ⟨rfl,rfl⟩

/-- What `bmap` logs for a block: itself and the bitmap, and what the file shares. -/
theorem bmap_logs (volume : Volume sb s D X) (holds : Holds s k i) (low : bn < MAXFILE) : Logs (bmap sb k bn) s fun b t more =>
    (bn < X i → more = []) ∧ (lastAddr (s.icache k).d ≠ 0 → lastAddr (t.icache k).d = lastAddr (s.icache k).d) ∧
    ∀ c ∈ more, c = b ∨ c = BBLOCK sb b ∨ Shared sb t k c := by
  by_cases inside : bn < X i
  · have there := ((volume.mapped i (volume.here holds)).2 bn low).mpr inside
    rw [← volume.cached.copy k i holds] at there
    refine logs_mono (bmap_silent low there) ?_
    rintro b t more ⟨rfl,rfl⟩
    exact ⟨fun _ => rfl, fun _ => rfl, fun c member => absurd member List.not_mem_nil⟩
  · by_cases direct : bn < NDIRECT
    · unfold bmap
      rw [if_pos direct]
      refine logs_mono (allocAddr_logs sb s k _) ?_
      rintro b t more ⟨rfl | rfl, kept⟩
      · exact ⟨fun _ => rfl, kept _, fun c member => absurd member List.not_mem_nil⟩
      · refine ⟨fun wrong => absurd wrong inside, kept _, fun c member => ?_⟩
        simp only [List.mem_cons, List.not_mem_nil, or_false] at member
        exact member.elim (fun eq => Or.inr (Or.inl eq)) Or.inl
    · unfold bmap
      rw [if_neg direct, if_pos (by unfold MAXFILE at low; omega)]
      refine logs_bind (logs_mono (logs_wp (allocAddr_logs sb s k _) (allocAddr_same sb k _)
        (allocAddr_last (E := fun _ => True) (fun _ _ _ => trivial) volume holds)) ?_)
      rintro addr t more ⟨⟨first,kept⟩,D',grown,some,rfl⟩
      have copy := grown.volume.cached.copy k i (grown.step.slots.holds holds)
      rw [← copy] at first some ⊢
      have shared : ∀ c ∈ more, Shared sb t k c := by
        intro c member
        rcases first with rfl | rfl
        · cases member
        · simp only [List.mem_cons, List.not_mem_nil, or_false] at member
          exact ⟨some, member.symm⟩
      refine logs_bind (logs_state ?_)
      dsimp only
      split
      · refine logs_bind (logs_mono (balloc_logs sb t) ?_)
        rintro b u new ⟨rfl,same⟩
        refine logs_bind (logs_bupdate (logs_pure ⟨fun wrong => absurd wrong inside, fun old => ?_, fun c member => ?_⟩))
        · dsimp only
          rw [same]
          exact kept _ old
        · have sharedU : ∀ c, Shared sb t k c → c = b ∨ c = BBLOCK sb b ∨ (lastAddr (u.icache k).d ≠ 0 ∧
              (c = (lastAddr (u.icache k).d).toNat ∨ c = BBLOCK sb (lastAddr (u.icache k).d).toNat)) := by
            intro c here
            rw [same]
            exact Or.inr (Or.inr here)
          simp only [List.mem_append, List.mem_cons, List.not_mem_nil, or_false, List.nil_append] at member
          rcases member with old | ((bitmap | new) | indirect)
          · exact sharedU c (shared c old)
          · exact Or.inr (Or.inl bitmap)
          · exact Or.inl new
          · exact sharedU c ⟨some, Or.inl indirect⟩
      · refine logs_pure ⟨fun wrong => absurd wrong inside, kept _, fun c member => ?_⟩
        simp only [List.append_nil] at member
        exact Or.inr (Or.inr (shared c member))

theorem Shared.kept {t : Fs} {c : Nat} (shared : Shared sb s k c)
    (kept : lastAddr (s.icache k).d ≠ 0 → lastAddr (t.icache k).d = lastAddr (s.icache k).d) : Shared sb t k c := by
  unfold Shared
  rw [kept shared.1]
  exact shared

/-- The number of blocks that `n` bytes at `off` lie in. -/
def touched (off n : Nat) : Nat := if n = 0 then 0 else (off + n - 1) / BSIZE - off / BSIZE + 1

theorem touched_step {off n : Nat} (some : n ≠ 0) :
    touched off n = touched (off + min n (BSIZE - off % BSIZE)) (n - min n (BSIZE - off % BSIZE)) + 1 := by
  unfold touched
  rw [if_neg some]
  have offset := Nat.mod_lt off (show 0 < BSIZE by decide)
  by_cases last : n - min n (BSIZE - off % BSIZE) = 0
  · rw [if_pos last]
    unfold BSIZE at *
    omega
  · rw [if_neg last]
    unfold BSIZE at *
    omega

/-- What a write logs beside the shared blocks, if the file has `x` blocks before. -/
def cost (off n x : Nat) : Nat := 2 * touched off n - if 0 < n ∧ off / BSIZE < x then 1 else 0

theorem writeLoop_logs (fuel : Nat) {src : Nat → BitVec 8} {off n : Nat} (volume : Volume sb s D X) (holds : Holds s k i)
    (fits : off + n ≤ MAXFILE * BSIZE) (reach : 0 < n → off / BSIZE ≤ X i) :
    Logs (writeLoop sb k fuel src off n) s fun _ t more =>
      (lastAddr (s.icache k).d ≠ 0 → lastAddr (t.icache k).d = lastAddr (s.icache k).d) ∧
      ∃ A : Finset Nat, A.card ≤ cost off n (X i) ∧ ∀ c ∈ more, c ∈ A ∨ Shared sb t k c := by
  induction fuel generalizing s D X src off n with
  | zero => exact logs_pure ⟨fun _ => rfl, ∅, Nat.zero_le _, fun c member => absurd member List.not_mem_nil⟩
  | succ fuel ih =>
    unfold writeLoop
    by_cases none : n = 0
    · rw [if_pos none]
      exact logs_pure ⟨fun _ => rfl, ∅, Nat.zero_le _, fun c member => absurd member List.not_mem_nil⟩
    · rw [if_neg none]
      have positive := Nat.pos_of_ne_zero none
      have start := reach positive
      have offset := Nat.mod_lt off (show 0 < BSIZE by decide)
      have last : off / BSIZE < MAXFILE := by
        unfold BSIZE at *
        omega
      have step := @touched_step off n none
      generalize size : min n (BSIZE - off % BSIZE) = m at step
      refine logs_bind (logs_mono (logs_wp (bmap_logs volume holds last) (bmap_same sb k _)
        (bmap_spec (E := fun _ => True) (fun _ _ _ => trivial) volume holds last start)) ?_)
      rintro b t more ⟨⟨silent,kept,classes⟩,D1,grown,address,_⟩
      have holdsT := grown.step.slots.holds holds
      have here1 : i ∈ allocated sb D1 := by
        rw [grown.step.allocated]
        exact volume.here holds
      have mapped : off / BSIZE < Function.update X i (max (X i) (off / BSIZE + 1)) i := by
        rw [Function.update_self]
        omega
      obtain ⟨moved,volume2,_⟩ := write_block grown.volume here1 (n := m) (w := t.written + 1) src mapped (by omega)
      rw [← address] at moved volume2
      refine logs_bind (logs_bupdate (logs_mono (ih volume2 (moved.slots.holds holdsT) (by omega) fun more => ?_) ?_))
      · rw [Function.update_self]
        unfold BSIZE at *
        omega
      rintro _ u later ⟨keptU,A,card,all⟩
      dsimp only at keptU
      refine ⟨fun some => (keptU ((kept some).symm ▸ some)).trans (kept some), ?_⟩
      have bound : A.card ≤ 2 * touched (off + m) (n - m) := le_trans card (Nat.sub_le _ _)
      unfold cost
      by_cases inside : off / BSIZE < X i
      · rw [if_pos ⟨positive,inside⟩, silent inside]
        refine ⟨insert b A, ?_, fun c member => ?_⟩
        · have one := Finset.card_insert_le b A
          omega
        · simp only [List.nil_append, List.singleton_append, List.mem_cons] at member
          rcases member with rfl | old
          · exact Or.inl (Finset.mem_insert_self _ _)
          · exact (all c old).imp (Finset.mem_insert_of_mem ·) id
      · rw [if_neg fun both => inside both.2]
        refine ⟨insert b (insert (BBLOCK sb b) A), ?_, fun c member => ?_⟩
        · have one := Finset.card_insert_le b (insert (BBLOCK sb b) A)
          have two := Finset.card_insert_le (BBLOCK sb b) A
          omega
        · simp only [List.singleton_append, List.mem_append, List.mem_cons] at member
          rcases member with first | rfl | old
          · rcases classes c first with rfl | rfl | shared
            · exact Or.inl (Finset.mem_insert_self _ _)
            · exact Or.inl (Finset.mem_insert_of_mem (Finset.mem_insert_self _ _))
            · exact Or.inr (shared.kept keptU)
          · exact Or.inl (Finset.mem_insert_self _ _)
          · exact (all c old).imp (fun inA => Finset.mem_insert_of_mem (Finset.mem_insert_of_mem inA)) id

end Blocks

section Chunks
variable {sb : Superblock} {s : Fs} {D : Nat → Dinode} {k : Slot} {i : Nat}

/-- The most that `filewrite` writes at once. -/
def maxChunk : Nat := (Xv6Log.MAXOPBLOCKS - 1 - 1 - 2) / 2 * 512

/-- A start inside a block lies in a block that the file has. -/
theorem cost_chunk {off n size : Nat} (chunk : n ≤ maxChunk) (start : off ≤ size) : cost off n ((size + BSIZE - 1) / BSIZE) ≤ 7 := by
  unfold maxChunk Xv6Log.MAXOPBLOCKS at chunk
  unfold cost touched
  by_cases none : n = 0
  · rw [if_pos none]
    omega
  · rw [if_neg none]
    by_cases aligned : off % BSIZE = 0
    · unfold BSIZE at *
      omega
    · rw [if_pos]
      · unfold BSIZE at *
        omega
      · unfold BSIZE at *
        omega

/-- A chunk stays within the reservation. -/
theorem writei_logs {src : Nat → BitVec 8} {off n : UInt32} (clean : Clean sb s D) (holds : Holds s k i) (chunk : n.toNat ≤ maxChunk) :
    Logs (writei sb k src off n) s fun _ _ more => more.toFinset.card ≤ Xv6Log.MAXOPBLOCKS := by
  have copy := clean.volume.cached.copy k i holds
  have silent : ([] : List Nat).toFinset.card ≤ Xv6Log.MAXOPBLOCKS := by decide
  unfold writei
  refine logs_bind (logs_state ?_)
  dsimp only
  rw [copy]
  split
  · exact logs_pure silent
  split
  · exact logs_pure silent
  split
  · exact logs_pure silent
  rename_i _ out big
  obtain ⟨low,whole⟩ := not_or.mp out
  rw [overflow, Nat.not_le] at whole
  have sum : (off + n).toNat = off.toNat + n.toNat := by
    rw [UInt32.toNat_add]
    exact Nat.mod_eq_of_lt whole
  rw [UInt32.lt_iff_toNat_lt, Nat.not_lt] at low
  rw [sum, Nat.not_lt] at big
  refine logs_bind (logs_mono (writeLoop_logs n.toNat clean.volume holds big fun _ => ?_) ?_)
  · unfold nblocks BSIZE
    omega
  rintro _ t more ⟨_,A,card,all⟩
  have seven : A.card ≤ 7 := le_trans card (cost_chunk chunk low)
  have counted : ∀ last : List Nat, last.length ≤ 1 → (more ++ last).toFinset.card ≤ Xv6Log.MAXOPBLOCKS := by
    intro last one
    have inside : (more ++ last).toFinset ⊆ (A ∪ {(lastAddr (t.icache k).d).toNat, BBLOCK sb (lastAddr (t.icache k).d).toNat}) ∪ last.toFinset := by
      intro c member
      rw [List.mem_toFinset, List.mem_append] at member
      rw [Finset.mem_union, Finset.mem_union, Finset.mem_insert, Finset.mem_singleton, List.mem_toFinset]
      rcases member with old | new
      · exact Or.inl ((all c old).imp id fun shared => shared.2)
      · exact Or.inr new
    have total := Finset.card_le_card inside
    have first := Finset.card_union_le (A ∪ {(lastAddr (t.icache k).d).toNat, BBLOCK sb (lastAddr (t.icache k).d).toNat}) last.toFinset
    have second := Finset.card_union_le A {(lastAddr (t.icache k).d).toNat, BBLOCK sb (lastAddr (t.icache k).d).toNat}
    have two : ({(lastAddr (t.icache k).d).toNat, BBLOCK sb (lastAddr (t.icache k).d).toNat} : Finset Nat).card ≤ 2 := Finset.card_le_two
    have short := List.toFinset_card_le last
    unfold Xv6Log.MAXOPBLOCKS
    omega
  split
  · refine logs_bind (logs_mono (logs_quietly (R := fun _ _ => True) (wp_trivial _ _)) ?_)
    rintro _ u _ ⟨rfl,_⟩
    unfold iupdate
    refine logs_bind (logs_bind (logs_state (logs_bupdate (logs_pure ?_))))
    simp only [List.nil_append, List.append_nil]
    exact counted _ (Nat.le_refl _)
  · refine logs_pure ?_
    exact counted [] (Nat.zero_le _)

end Chunks
end Xv6FsLogged
