import KernelLabs.Xv6.LogDisk

/-!
Crash atomicity of the redo log. The disk, the buffers and the log together stand for a
store with group commit: outside the log area the disk holds what is durable, except
that a committed transaction may be partly installed, and then the header and the log
blocks hold what is missing.
-/
namespace Xv6LogCrash
open Xv6LogDisk Xv6Log Transition GroupCommit

section Model
variable {P : Type}

/-- The process has changed block `b` and not yet recorded it. -/
def Editing (s : State P) (p : P) (b : Nat) : Prop := s.op p = .modified b ∨ s.op p = .entering b

/-- Blocks whose buffers may be ahead of the disk. -/
def unsaved (s : State P) : List Nat :=
  match s.phase with
  | .running => s.log.lh
  | .writing _ => s.log.lh
  | .installing tail => s.log.lh.drop tail
  | _ => []

/-- The home blocks hold what is durable. -/
def Home (s : State P) (x : Store Nat Block P) : Prop :=
  ∀ b, Outside s.log b → s.disk b = x.durable b

/-- The buffers hold what is pending. -/
def Seen (s : State P) (x : Store Nat Block P) : Prop :=
  ∀ b, Outside s.log b → (∀ p, ¬ Editing s p b) → (s.buffer b).data = x.pending b

/-- The log blocks below `n` hold the contents for the blocks of `lh`. -/
def Logged (s : State P) (lh : List Nat) (n : Nat) (contents : Nat → Block) : Prop :=
  ∀ i b, i < n → lh[i]? = some b → s.disk (s.log.start + i + 1) = contents b

/-- The transaction `lh` is committed, and its blocks from `tail` on may be missing at home. -/
structure Committed (s : State P) (x : Store Nat Block P) (lh : List Nat) (tail : Nat) : Prop where
  header : entries (s.disk s.log.start) = lh
  short : lh.length + 1 ≤ s.log.size
  outside : ∀ b ∈ lh, Outside s.log b
  logged : Logged s lh lh.length x.durable
  home : ∀ b, Outside s.log b → b ∉ lh.drop tail → s.disk b = x.durable b

/-- What a crash leaves can be recovered. -/
def Recoverable (s : State P) (x : Store Nat Block P) : Prop := ∃ lh, Committed s x lh 0

/-- No operation runs, and none has updates that are not durable. -/
structure Quiet (x : Store Nat Block P) : Prop where
  idle : x.running = ∅
  settled : x.pending = x.durable

def Stage (s : State P) (x : Store Nat Block P) : Prop :=
  match s.phase with
  | .readHead => s.log.lh = [] ∧ Quiet x ∧ Recoverable s x
  | .recovering tail => Quiet x ∧ Committed s x s.log.lh tail
  | .running => (s.disk s.log.start).word 0 = 0 ∧ Home s x ∧ Seen s x
  | .writing tail => s.log.committing = true ∧ x.running = ∅ ∧ (s.disk s.log.start).word 0 = 0 ∧
      Home s x ∧ Seen s x ∧ Logged s s.log.lh tail x.pending
  | .installing tail => s.log.committing = true ∧ Quiet x ∧ Committed s x s.log.lh tail
  | .committed => s.log.committing = true ∧ s.log.lh = [] ∧ x.running = ∅ ∧
      (s.disk s.log.start).word 0 = 0 ∧ Home s x ∧ Seen s x

structure Inv (s : State P) (x : Store Nat Block P) : Prop where
  area : 0 < s.log.size
  running : ∀ p, p ∈ x.running ↔ s.op p ≠ .outside
  count : s.log.outstanding = x.running.card
  locked : ∀ p b, Editing s p b → s.holder b = some p ∧ Outside s.log b
  clean : ∀ b, (s.buffer b).dirty = false → (∀ p, ¬ Editing s p b) → (s.buffer b).data = s.disk b
  dirty : ∀ b, (s.buffer b).dirty = true → b ∈ unsaved s
  short : s.log.lh.length + 1 ≤ s.log.size
  outside : ∀ b ∈ s.log.lh, Outside s.log b
  stage : Stage s x

section Buffers
variable {s : State P} {x : Store Nat Block P}

theorem buffer_setBuf (s : State P) (b c : Nat) (buf : Buf) :
    (s.setBuf b buf).buffer c = if c = b then buf else s.buffer c := by
  by_cases same : c = b
  · subst same
    simp [State.buffer, State.setBuf]
  · simp [State.buffer, State.setBuf, same]

theorem buffer_fill (s : State P) (b c : Nat) : (s.fill b).buffer c = s.buffer c := by
  change (s.setBuf b (s.buffer b)).buffer c = s.buffer c
  rw [buffer_setBuf]
  split
  · rename_i same
    rw [same]
  · rfl

theorem buffer_bwrite (s : State P) (b c : Nat) (data : Block) :
    (s.bwrite b data).buffer c = if c = b then ⟨data, false⟩ else s.buffer c := by
  by_cases same : c = b
  · subst same
    simp [State.buffer, State.bwrite, State.setBuf]
  · simp [State.buffer, State.bwrite, State.setBuf, same]

theorem disk_bwrite (s : State P) (b c : Nat) (data : Block) :
    (s.bwrite b data).disk c = if c = b then data else s.disk c := by
  by_cases same : c = b
  · subst same
    simp [State.bwrite, State.setBuf]
  · simp [State.bwrite, State.setBuf, same]

theorem entries_header (old : Block) (lh : List Nat) : entries (header old lh) = lh := by
  apply List.ext_getElem
  · simp [entries, header]
  · intro i low high
    simp [entries, header, high]

theorem entries_zero {b : Block} (zero : b.word 0 = 0) : entries b = [] := by
  simp [entries, zero]

theorem unsaved_subset (s : State P) : unsaved s ⊆ s.log.lh := by
  unfold unsaved
  split
  · exact List.Subset.refl _
  · exact List.Subset.refl _
  · exact List.drop_subset _ _
  · simp

theorem log_inside (inv : Inv s x) {b : Nat} (inside : ¬ Outside s.log b) :
    (s.buffer b).dirty = false ∧ (s.buffer b).data = s.disk b := by
  have clean : (s.buffer b).dirty = false := by
    by_contra ahead
    have listed := inv.dirty b (by simpa using ahead)
    exact inside (inv.outside b (unsaved_subset s listed))
  refine ⟨clean, inv.clean b clean fun p edit => inside (inv.locked p b edit).2⟩

theorem header_inside (inv : Inv s x) : ¬ Outside s.log s.log.start := by
  have area := inv.area
  unfold Outside
  omega

theorem block_inside {lh : List Nat} (short : lh.length + 1 ≤ s.log.size) {i : Nat} (low : i < lh.length) :
    ¬ Outside s.log (s.log.start + i + 1) := by
  unfold Outside
  omega

theorem no_edit (inv : Inv s x) (idle : x.running = ∅) (p : P) (b : Nat) : ¬ Editing s p b := by
  intro edit
  have inside : p ∈ x.running := by
    rw [inv.running]
    rcases edit with h | h <;> simp [h]
  simp [idle] at inside

/-- What is committed is found by recovery, whatever has been installed. -/
theorem committed_zero {lh : List Nat} {tail : Nat} (done : Committed s x lh tail) :
    Committed s x lh 0 := by
  refine ⟨done.header, done.short, done.outside, done.logged, fun b out missing => ?_⟩
  refine done.home b out fun listed => missing ?_
  rw [List.drop_zero]
  exact List.drop_subset _ _ listed

theorem committed_empty (area : 0 < s.log.size) (zero : (s.disk s.log.start).word 0 = 0)
    (home : Home s x) : Committed s x [] 0 := by
  refine ⟨entries_zero zero, by simp; omega, by simp, ?_, fun b out _ => home b out⟩
  intro i b low
  simp at low

theorem recoverable (inv : Inv s x) : Recoverable s x := by
  have stage := inv.stage
  unfold Stage at stage
  split at stage
  · exact stage.2.2
  · exact ⟨_,committed_zero stage.2⟩
  · exact ⟨_,committed_empty inv.area stage.1 stage.2.1⟩
  · exact ⟨_,committed_empty inv.area stage.2.2.1 stage.2.2.2.1⟩
  · exact ⟨_,committed_zero stage.2.2⟩
  · exact ⟨_,committed_empty inv.area stage.2.2.2.1 stage.2.2.2.2.1⟩

theorem committed_congr {t : State P} {lh : List Nat} {tail : Nat} (done : Committed s x lh tail)
    (disk : t.disk = s.disk) (start : t.log.start = s.log.start) (size : t.log.size = s.log.size) :
    Committed t x lh tail := by
  obtain ⟨header,short,outside,logged,home⟩ := done
  constructor
  · rw [disk, start]
    exact header
  · rw [size]
    exact short
  · unfold Outside at outside ⊢
    rw [start, size]
    exact outside
  · unfold Logged at logged ⊢
    rw [disk, start]
    exact logged
  · unfold Outside at home ⊢
    rw [disk, start, size]
    exact home

/-- Steps that move buffers in and out of the cache or lock and unlock them. -/
theorem inv_frame {t : State P} (inv : Inv s x) (disk : t.disk = s.disk)
    (buffer : ∀ b, t.buffer b = s.buffer b) (log : t.log = s.log) (phase : t.phase = s.phase)
    (edit : ∀ p b, Editing t p b ↔ Editing s p b) (op : ∀ p, t.op p = .outside ↔ s.op p = .outside)
    (holder : ∀ p b, Editing s p b → t.holder b = some p) : Inv t x := by
  have listed : unsaved t = unsaved s := by
    unfold unsaved
    rw [phase, log]
  have home : Home s x → Home t x := by
    unfold Home
    rw [disk, log]
    exact id
  have seen : Seen s x → Seen t x := by
    intro before b out free
    rw [log] at out
    rw [buffer b]
    exact before b out fun p h => free p ((edit p b).mpr h)
  constructor
  · rw [log]
    exact inv.area
  · intro p
    rw [inv.running p, not_iff_not, op p]
  · rw [log]
    exact inv.count
  · intro p b h
    have old := (edit p b).mp h
    rw [log]
    exact ⟨holder p b old, (inv.locked p b old).2⟩
  · intro b
    rw [buffer b, disk]
    intro saved free
    exact inv.clean b saved fun p h => free p ((edit p b).mpr h)
  · intro b
    rw [buffer b, listed]
    exact inv.dirty b
  · rw [log]
    exact inv.short
  · rw [log]
    exact inv.outside
  · have stage := inv.stage
    have whole : ∀ lh tail, Committed s x lh tail → Committed t x lh tail := by
      intro lh tail done
      exact committed_congr done disk (by rw [log]) (by rw [log])
    unfold Stage at stage ⊢
    rw [phase]
    unfold Logged at stage ⊢
    cases place : s.phase with
    | readHead =>
      simp only [place] at stage
      obtain ⟨lh,done⟩ := stage.2.2
      rw [log]
      exact ⟨stage.1, stage.2.1, lh, whole _ _ done⟩
    | recovering tail =>
      simp only [place] at stage
      rw [log]
      exact ⟨stage.1, whole _ _ stage.2⟩
    | running =>
      simp only [place] at stage
      rw [disk, log]
      exact ⟨stage.1, home stage.2.1, seen stage.2.2⟩
    | writing tail =>
      simp only [place] at stage
      obtain ⟨flag,idle,zero,at_home,ahead,logged⟩ := stage
      rw [disk, log]
      exact ⟨flag, idle, zero, home at_home, seen ahead, logged⟩
    | installing tail =>
      simp only [place] at stage
      rw [log]
      exact ⟨stage.1, stage.2.1, whole _ _ stage.2.2⟩
    | committed =>
      simp only [place] at stage
      obtain ⟨flag,empty,idle,zero,at_home,ahead⟩ := stage
      rw [disk, log]
      exact ⟨flag, empty, idle, zero, home at_home, seen ahead⟩

theorem inv_start (start : Start s) : Inv s (.fresh s.disk) := by
  obtain ⟨zero,area,none,flag,empty,phase,cache,holder,ops⟩ := start
  have raw : ∀ b, s.buffer b = ⟨s.disk b, false⟩ := by
    intro b
    simp [State.buffer, cache b]
  have edit : ∀ p b, ¬ Editing s p b := by
    intro p b h
    rcases h with h | h <;> simp [ops p] at h
  constructor
  · exact area
  · intro p
    simp [Store.fresh, ops p]
  · simp [Store.fresh, none]
  · exact fun p b h => absurd h (edit p b)
  · intro b _ _
    rw [raw b]
  · intro b ahead
    simp [raw b] at ahead
  · rw [empty]
    simp
    omega
  · simp [empty]
  · unfold Stage
    rw [phase]
    exact ⟨empty, ⟨rfl,rfl⟩, [], committed_empty area zero fun b _ => rfl⟩

theorem inv_brelse (inv : Inv s x) {p : P} {b : Nat} (held : s.holder b = some p)
    (done : s.op p = .inside ∨ s.op p = .outside) : Inv (s.setHolder b none) x := by
  refine inv_frame inv rfl (fun _ => rfl) rfl rfl (fun _ _ => Iff.rfl) (fun _ => Iff.rfl) ?_
  intro q c edit
  have mine := (inv.locked q c edit).1
  have other : c ≠ b := by
    intro same
    rw [same, held, Option.some.injEq] at mine
    subst mine
    unfold Editing at edit
    rcases done with h | h <;> simp [h] at edit
  simpa [State.setHolder, other] using mine

theorem inv_bread (inv : Inv s x) {p : P} {b : Nat} (free : s.holder b = none) :
    Inv ((s.fill b).setHolder b (some p)) x := by
  refine inv_frame inv rfl (fun c => buffer_fill s b c) rfl rfl (fun _ _ => Iff.rfl)
    (fun _ => Iff.rfl) ?_
  intro q c edit
  have held := (inv.locked q c edit).1
  have other : c ≠ b := by
    intro same
    rw [same, free] at held
    simp at held
  simpa [State.setHolder, State.fill, other] using held

theorem inv_evict (inv : Inv s x) {b : Nat} (free : s.holder b = none)
    (clean : (s.buffer b).dirty = false) :
    Inv { s with cache := Function.update s.cache b none } x := by
  refine inv_frame inv rfl (fun c => ?_) rfl rfl (fun _ _ => Iff.rfl) (fun _ => Iff.rfl)
    (fun q c edit => (inv.locked q c edit).1)
  by_cases same : c = b
  · subst same
    have data := inv.clean c clean (fun p edit => by
      have held := (inv.locked p c edit).1
      simp [free] at held)
    have raw : State.buffer { s with cache := Function.update s.cache c none } c = ⟨s.disk c, false⟩ := by
      simp [State.buffer]
    rw [raw, ← data, ← clean]
  · simp [State.buffer, same]

/-- Operations run only between commits. -/
theorem phase_running (inv : Inv s x) {p : P} (inside : s.op p ≠ .outside) : s.phase = .running := by
  have member := (inv.running p).mpr inside
  have stage := inv.stage
  have busy : x.running ≠ ∅ := by
    intro idle
    simp [idle] at member
  unfold Stage at stage
  split at stage
  · exact absurd stage.2.1.idle busy
  · exact absurd stage.1.idle busy
  · assumption
  · exact absurd stage.2.1 busy
  · exact absurd stage.2.1.idle busy
  · exact absurd stage.2.2.1 busy

theorem stage_running (inv : Inv s x) (phase : s.phase = .running) :
    (s.disk s.log.start).word 0 = 0 ∧ Home s x ∧ Seen s x := by
  have stage := inv.stage
  unfold Stage at stage
  rw [phase] at stage
  exact stage

/-- `begin_op` admits an operation only between commits. -/
theorem phase_admitted (inv : Inv s x) (booted : s.phase.booted = true)
    (flag : s.log.committing = false) : s.phase = .running := by
  have stage := inv.stage
  unfold Stage at stage
  split at stage
  · rename_i h
    simp [h, Phase.booted] at booted
  · rename_i h
    simp [h, Phase.booted] at booted
  · assumption
  · simp [flag] at stage
  · simp [flag] at stage
  · simp [flag] at stage

end Buffers

section Steps
variable [DecidableEq P] {s t : State P} {x : Store Nat Block P}

theorem editing_setOp {s : State P} {p q : P} {op : Op} {b : Nat} :
    Editing (s.setOp p op) q b ↔
      (q = p ∧ (op = .modified b ∨ op = .entering b)) ∨ (q ≠ p ∧ Editing s q b) := by
  unfold Editing State.setOp
  by_cases same : q = p
  · subst same
    simp
  · simp [same]

theorem inv_modify (inv : Inv s x) {p : P} {b : Nat} {data : Block} (inside : s.op p = .inside)
    (held : s.holder b = some p) (out : Outside s.log b) :
    Inv ((s.setBuf b { s.buffer b with data := data }).setOp p (.modified b)) x := by
  have phase := phase_running inv (p := p) (by simp [inside])
  obtain ⟨zero,home,seen⟩ := stage_running inv phase
  generalize after : (s.setBuf b { s.buffer b with data := data }).setOp p (.modified b) = t
  have mine : Editing t p b := by
    rw [← after, editing_setOp]
    exact Or.inl ⟨rfl,Or.inl rfl⟩
  have kept : ∀ q c, Editing s q c → Editing t q c := by
    intro q c edit
    rw [← after, editing_setOp]
    refine Or.inr ⟨fun same => ?_, edit⟩
    unfold Editing at edit
    simp [same, inside] at edit
  have buffer : ∀ c, c ≠ b → t.buffer c = s.buffer c := by
    intro c other
    rw [← after]
    change (s.setBuf b _).buffer c = _
    rw [buffer_setBuf, if_neg other]
  have log : t.log = s.log := by
    rw [← after]
    rfl
  have disk : t.disk = s.disk := by
    rw [← after]
    rfl
  have place : t.phase = s.phase := by
    rw [← after]
    rfl
  have listed : unsaved t = unsaved s := by
    unfold unsaved
    rw [place, log]
  constructor
  · rw [log]
    exact inv.area
  · intro q
    rw [inv.running q, ← after]
    by_cases same : q = p
    · subst same
      simp [State.setOp, inside]
    · simp [State.setOp, State.setBuf, same]
  · rw [log]
    exact inv.count
  · intro q c edit
    rw [log]
    have lock : t.holder = s.holder := by
      rw [← after]
      rfl
    rw [lock]
    rw [← after, editing_setOp] at edit
    rcases edit with ⟨same,now⟩ | ⟨_,old⟩
    · rcases now with h | h
      · simp only [Op.modified.injEq] at h
        rw [same, ← h]
        exact ⟨held,out⟩
      · simp at h
    · exact inv.locked q c old
  · intro c saved free
    have other : c ≠ b := fun same => free p (same ▸ mine)
    rw [buffer c other] at saved ⊢
    rw [disk]
    exact inv.clean c saved fun q h => free q (kept q c h)
  · intro c ahead
    rw [listed]
    apply inv.dirty c
    by_cases same : c = b
    · subst same
      rw [← after] at ahead
      change ((s.setBuf c _).buffer c).dirty = true at ahead
      rw [buffer_setBuf, if_pos rfl] at ahead
      exact ahead
    · rw [buffer c same] at ahead
      exact ahead
  · rw [log]
    exact inv.short
  · rw [log]
    exact inv.outside
  · unfold Stage
    rw [place, phase, disk, log]
    refine ⟨zero, fun c far => ?_, fun c far free => ?_⟩
    · rw [disk]
      rw [log] at far
      exact home c far
    · have other : c ≠ b := fun same => free p (same ▸ mine)
      rw [log] at far
      rw [buffer c other]
      exact seen c far fun q h => free q (kept q c h)

theorem inv_logWrite (inv : Inv s x) {p : P} {b : Nat} (here : s.op p = .modified b) :
    Inv (s.setOp p (.entering b)) x := by
  refine inv_frame inv rfl (fun _ => rfl) rfl rfl (fun q c => ?_) (fun q => ?_)
    (fun q c edit => (inv.locked q c edit).1)
  · rw [editing_setOp]
    by_cases same : q = p
    · subst same
      unfold Editing
      simp [here]
    · simp [same]
  · by_cases same : q = p
    · subst same
      simp [State.setOp, here]
    · simp [State.setOp, same]

theorem inv_record (inv : Inv s x) {p : P} {b : Nat} (here : s.op p = .entering b)
    (room : b ∈ s.log.lh ∨ logWriteTest s.log = .ok ()) :
    Inv (((s.setBuf b { s.buffer b with dirty := true }).setLog (Xv6Log.record s.log b)).setOp p .inside)
      { x with pending := Function.update x.pending b (s.buffer b).data } := by
  have phase := phase_running inv (p := p) (by simp [here])
  obtain ⟨zero,home,seen⟩ := stage_running inv phase
  obtain ⟨outstanding,_,size,start⟩ := record_outstanding s.log b
  have far : Outside s.log b := (inv.locked p b (Or.inr here)).2
  have same_area : ∀ c, Outside (Xv6Log.record s.log b) c ↔ Outside s.log c := by
    intro c
    unfold Outside
    rw [start, size]
  generalize after :
    ((s.setBuf b { s.buffer b with dirty := true }).setLog (Xv6Log.record s.log b)).setOp p .inside = t
  have log : t.log = Xv6Log.record s.log b := by
    rw [← after]
    rfl
  have disk : t.disk = s.disk := by
    rw [← after]
    rfl
  have place : t.phase = .running := by
    rw [← after, ← phase]
    rfl
  have buffer : ∀ c, t.buffer c = if c = b then { s.buffer b with dirty := true } else s.buffer c := by
    intro c
    rw [← after]
    exact buffer_setBuf s b c _
  have kept : ∀ q c, c ≠ b → Editing s q c → Editing t q c := by
    intro q c other edit
    rw [← after, editing_setOp]
    refine Or.inr ⟨fun same => ?_, edit⟩
    unfold Editing at edit
    simp only [same, here, reduceCtorEq, Op.entering.injEq, false_or] at edit
    exact other edit.symm
  constructor
  · rw [log, size]
    exact inv.area
  · intro q
    change q ∈ x.running ↔ _
    rw [inv.running q, ← after]
    by_cases same : q = p
    · subst same
      simp [State.setOp, here]
    · simp [State.setOp, State.setBuf, State.setLog, same]
  · rw [log, outstanding]
    exact inv.count
  · intro q c edit
    have lock : t.holder = s.holder := by
      rw [← after]
      rfl
    rw [log, lock, same_area]
    rw [← after, editing_setOp] at edit
    rcases edit with ⟨_,now⟩ | ⟨_,old⟩
    · simp at now
    · exact inv.locked q c old
  · intro c saved free
    rw [buffer c] at saved ⊢
    rw [disk]
    split at saved
    · simp at saved
    · rename_i other
      rw [if_neg other]
      exact inv.clean c saved fun q h => free q (kept q c other h)
  · intro c ahead
    have listed : unsaved t = (Xv6Log.record s.log b).lh := by
      unfold unsaved
      rw [place, log]
    rw [listed]
    by_cases same : c = b
    · rw [same]
      exact record_mem s.log b
    · rw [buffer c, if_neg same] at ahead
      exact record_keeps s.log b (unsaved_subset s (inv.dirty c ahead))
  · rw [log, size, record_length]
    have short := inv.short
    split
    · exact short
    · rename_i fresh
      rcases room with old | fits
      · exact absurd old fresh
      · unfold logWriteTest at fits
        split at fits
        · simp at fits
        · omega
  · intro c listed
    rw [log] at listed ⊢
    rw [same_area]
    unfold Xv6Log.record at listed
    split at listed
    · exact inv.outside c listed
    · simp only [List.mem_append, List.mem_singleton] at listed
      rcases listed with old | new
      · exact inv.outside c old
      · rw [new]
        exact far
  · unfold Stage
    rw [place, disk, log, start]
    refine ⟨zero, fun c out => ?_, fun c out free => ?_⟩
    · rw [disk]
      rw [log, same_area] at out
      exact home c out
    · rw [log, same_area] at out
      rw [buffer c]
      by_cases same : c = b
      · subst same
        simp
      · simp only [same, if_false, ne_eq, not_false_eq_true, Function.update_of_ne]
        exact seen c out fun q h => free q (kept q c same h)

/-- A process enters or leaves an operation while the home blocks hold what is durable. -/
theorem inv_switch (inv : Inv s x) {p : P} (op : Op) (y : Store Nat Block P) {n : Nat} (flag : Bool)
    (phase : Phase) (old : s.op p = .inside ∨ s.op p = .outside) (new : op = .inside ∨ op = .outside)
    (place : s.phase = .running) (same : y.pending = x.pending ∧ y.durable = x.durable)
    (running : ∀ q, q ∈ y.running ↔ if q = p then op ≠ .outside else q ∈ x.running)
    (count : n = y.running.card)
    (stage : phase = .running ∨ (flag = true ∧ y.running = ∅ ∧ (phase = .writing 0 ∨ phase = .committed ∧ s.log.lh = []))) :
    Inv (((s.setLog { s.log with outstanding := n, committing := flag }).setOp p op).setPhase phase) y := by
  obtain ⟨zero,home,seen⟩ := stage_running inv place
  generalize after :
    ((s.setLog { s.log with outstanding := n, committing := flag }).setOp p op).setPhase phase = t
  have edit : ∀ q c, Editing t q c ↔ Editing s q c := by
    intro q c
    rw [← after]
    change Editing ((s.setLog _).setOp p op) q c ↔ _
    rw [editing_setOp]
    by_cases eq : q = p
    · subst eq
      unfold Editing
      rcases old with h | h <;> rcases new with h' | h' <;> simp [h, h']
    · simp [eq, Editing, State.setLog]
  have log : t.log = { s.log with outstanding := n, committing := flag } := by
    rw [← after]
    rfl
  have disk : t.disk = s.disk := by
    rw [← after]
    rfl
  have buffer : ∀ c, t.buffer c = s.buffer c := by
    intro c
    rw [← after]
    rfl
  have now : t.phase = phase := by
    rw [← after]
    rfl
  have listed : unsaved s = s.log.lh := by
    unfold unsaved
    rw [place]
  have still : Home t y := by
    intro c out
    rw [log] at out
    rw [disk, same.2]
    exact home c out
  have view : Seen t y := by
    intro c out free
    rw [log] at out
    rw [buffer c, same.1]
    exact seen c out fun q h => free q ((edit q c).mpr h)
  constructor
  · rw [log]
    exact inv.area
  · intro q
    rw [running q, ← after]
    by_cases eq : q = p
    · subst eq
      simp [State.setOp, State.setPhase]
    · simp [State.setOp, State.setPhase, State.setLog, eq, inv.running q]
  · rw [log]
    exact count
  · intro q c h
    have lock : t.holder = s.holder := by
      rw [← after]
      rfl
    rw [log, lock]
    exact inv.locked q c ((edit q c).mp h)
  · intro c saved free
    rw [buffer c] at saved ⊢
    rw [disk]
    exact inv.clean c saved fun q h => free q ((edit q c).mpr h)
  · intro c ahead
    rw [buffer c] at ahead
    have member := inv.dirty c ahead
    rw [listed] at member
    unfold unsaved
    rw [now, log]
    rcases stage with h | ⟨_,_,h | ⟨h,empty⟩⟩
    · rw [h]
      exact member
    · rw [h]
      exact member
    · rw [empty] at member
      simp at member
  · rw [log]
    exact inv.short
  · rw [log]
    exact inv.outside
  · unfold Stage
    rw [now, log]
    rcases stage with h | ⟨committing,idle,h | ⟨h,empty⟩⟩
    · rw [h, disk]
      exact ⟨zero,still,view⟩
    · rw [h, disk]
      refine ⟨committing,idle,zero,still,view,?_⟩
      intro i b low
      simp at low
    · rw [h, disk]
      exact ⟨committing,empty,idle,zero,still,view⟩

theorem inv_beginOp (inv : Inv s x) {p : P} {log : Log} (out : s.op p = .outside)
    (booted : s.phase.booted = true) (admitted : Xv6Log.beginOp s.log = some log) :
    ∃ y, System.exec Store.next x [.start p] = some y ∧ Inv ((s.setLog log).setOp p .inside) y := by
  have fresh : p ∉ x.running := by
    rw [inv.running]
    simp [out]
  unfold Xv6Log.beginOp at admitted
  split at admitted
  · simp at admitted
  · rename_i free
    split at admitted
    · simp at admitted
    · simp only [Option.some.injEq] at admitted
      have phase := phase_admitted inv booted (by simpa using free)
      refine ⟨{ x with running := insert p x.running }, by simp [System.exec, Store.next, fresh], ?_⟩
      have after := inv_switch inv .inside { x with running := insert p x.running }
        (n := s.log.outstanding + 1) s.log.committing .running
        (Or.inr out) (Or.inl rfl) phase ⟨rfl,rfl⟩ (fun q => by by_cases eq : q = p <;> simp [eq])
        (by rw [Finset.card_insert_of_notMem fresh, inv.count]) (Or.inl rfl)
      rw [← admitted]
      rw [← phase] at after
      exact after

theorem inv_endOp (inv : Inv s x) {p : P} {log : Log} {last : Bool} (inside : s.op p = .inside)
    (done : Xv6Log.endOp s.log = .ok (log, last)) :
    ∃ y, System.exec Store.next x [.finish p] = some y ∧
      Inv (((s.setLog log).setOp p .outside).setPhase
        (if last then (if log.lh = [] then .committed else .writing 0) else s.phase)) y := by
  have member : p ∈ x.running := by
    rw [inv.running]
    simp [inside]
  have phase := phase_running inv (p := p) (by simp [inside])
  have left : s.log.outstanding - 1 = (x.running.erase p).card := by
    rw [Finset.card_erase_of_mem member, inv.count]
  have running : ∀ q, q ∈ x.running.erase p ↔ if q = p then (Op.outside : Op) ≠ .outside else q ∈ x.running := by
    intro q
    by_cases eq : q = p <;> simp [eq]
  refine ⟨{ x with running := x.running.erase p }, by simp [System.exec, Store.next, member], ?_⟩
  unfold Xv6Log.endOp at done
  dsimp only at done
  split at done
  · simp at done
  · split at done
    · rename_i none
      simp only [Except.ok.injEq, Prod.mk.injEq] at done
      obtain ⟨same,commits⟩ := done
      have idle : x.running.erase p = ∅ := by
        rw [← Finset.card_eq_zero, ← left]
        exact none
      rw [← commits, ← same]
      simp only [if_true]
      apply inv_switch inv .outside { x with running := x.running.erase p } true _ (Or.inl inside)
        (Or.inr rfl) phase ⟨rfl,rfl⟩ running left
      refine Or.inr ⟨rfl,idle,?_⟩
      split
      · exact Or.inr ⟨rfl,by assumption⟩
      · exact Or.inl rfl
    · simp only [Except.ok.injEq, Prod.mk.injEq] at done
      obtain ⟨same,goes⟩ := done
      rw [← goes, ← same, phase]
      exact inv_switch inv .outside { x with running := x.running.erase p } _ .running (Or.inl inside)
        (Or.inr rfl) phase ⟨rfl,rfl⟩ running left (Or.inl rfl)

end Steps

section Writes
variable {s t : State P} {x : Store Nat Block P}

/-- One `bwrite` of `commit` or `recover_from_log`, made while no operation runs. -/
theorem inv_bwrite (inv : Inv s x) {y : Store Nat Block P} (target : Nat) (data : Block)
    (lh : List Nat) (idle : x.running = ∅) (still : y.running = x.running)
    (buffer : ∀ c, t.buffer c = if c = target then ⟨data, false⟩ else s.buffer c)
    (disk : ∀ c, t.disk c = if c = target then data else s.disk c)
    (log : t.log = { s.log with lh := lh }) (op : t.op = s.op)
    (saved : ∀ c, c ≠ target → c ∈ unsaved s → c ∈ unsaved t)
    (short : lh.length + 1 ≤ s.log.size) (outside : ∀ b ∈ lh, Outside s.log b)
    (stage : Stage t y) : Inv t y := by
  have quiet : ∀ q c, ¬ Editing t q c := by
    intro q c edit
    refine no_edit inv idle q c ?_
    unfold Editing at edit ⊢
    rw [op] at edit
    exact edit
  constructor
  · rw [log]
    exact inv.area
  · rw [still, op]
    exact inv.running
  · rw [log, still]
    exact inv.count
  · exact fun q c edit => absurd edit (quiet q c)
  · intro c clean _
    rw [buffer c] at clean ⊢
    rw [disk c]
    split
    · rfl
    · rename_i other
      rw [if_neg other] at clean
      exact inv.clean c clean (no_edit inv idle · c)
  · intro c ahead
    rw [buffer c] at ahead
    split at ahead
    · simp at ahead
    · rename_i other
      exact saved c other (inv.dirty c ahead)
  · rw [log]
    exact short
  · rw [log]
    exact outside
  · exact stage

/-- Installing one block brings its home up to date. -/
theorem committed_install (inv : Inv s x) {tail b : Nat} (done : Committed s x s.log.lh tail)
    (here : s.log.lh[tail]? = some b) :
    Committed (installTrans s tail b) x s.log.lh (tail + 1) := by
  obtain ⟨low,value⟩ := List.getElem?_eq_some_iff.mp here
  have inside := block_inside done.short low
  have far : Outside s.log b := done.outside b (value ▸ List.getElem_mem low)
  have data : (s.buffer (s.log.start + tail + 1)).data = x.durable b := by
    rw [(log_inside inv inside).2]
    exact done.logged tail b low here
  have apart : ∀ c, ¬ Outside s.log c → c ≠ b := fun c near same => near (same ▸ far)
  have disk : ∀ c, (installTrans s tail b).disk c = if c = b then x.durable b else s.disk c := by
    intro c
    unfold installTrans
    rw [disk_bwrite, data]
    rfl
  refine ⟨?_, done.short, done.outside, ?_, ?_⟩
  · change entries ((installTrans s tail b).disk s.log.start) = s.log.lh
    rw [disk, if_neg (apart _ (header_inside inv))]
    exact done.header
  · intro i c bound place
    change (installTrans s tail b).disk (s.log.start + i + 1) = x.durable c
    rw [disk, if_neg (apart _ (block_inside done.short bound))]
    exact done.logged i c bound place
  · intro c out missing
    rw [disk]
    split
    · rename_i same
      rw [same]
    · rename_i other
      refine done.home c out fun listed => ?_
      rw [List.drop_eq_getElem_cons low, value] at listed
      rcases List.mem_cons.mp listed with same | later
      · exact other same
      · exact missing later

theorem inv_install (inv : Inv s x) {tail b : Nat} {phase : Phase}
    (here : s.log.lh[tail]? = some b) (quiet : Quiet x) (done : Committed s x s.log.lh tail)
    (place : (s.phase = .recovering tail ∧ phase = .recovering (tail + 1)) ∨
      (s.phase = .installing tail ∧ s.log.committing = true ∧ phase = .installing (tail + 1))) :
    Inv ((installTrans s tail b).setPhase phase) x := by
  obtain ⟨low,value⟩ := List.getElem?_eq_some_iff.mp here
  have after := committed_install inv done here
  refine inv_bwrite inv b (s.buffer (s.log.start + tail + 1)).data s.log.lh quiet.idle rfl
    (fun c => ?_) (fun c => ?_) rfl rfl ?_ done.short done.outside ?_
  · exact (buffer_bwrite _ b c _).trans (by rw [buffer_fill])
  · exact disk_bwrite _ b c _
  · intro c other listed
    rcases place with ⟨old,new⟩ | ⟨old,_,new⟩
    · simp [unsaved, old] at listed
    · simp only [unsaved, old] at listed
      rw [List.drop_eq_getElem_cons low, value] at listed
      rcases List.mem_cons.mp listed with same | later
      · exact absurd same other
      · unfold unsaved
        rw [new]
        exact later
  · have moved : Committed ((installTrans s tail b).setPhase phase) x s.log.lh (tail + 1) :=
      committed_congr after rfl rfl rfl
    unfold Stage
    rcases place with ⟨_,new⟩ | ⟨_,flag,new⟩
    · rw [new] at moved ⊢
      exact ⟨quiet,moved⟩
    · rw [new] at moved ⊢
      exact ⟨flag,quiet,moved⟩

/-- Clearing the header ends the installation. -/
theorem inv_clearHead (inv : Inv s x) {tail : Nat} {phase : Phase} (ended : s.log.lh[tail]? = none)
    (quiet : Quiet x) (done : Committed s x s.log.lh tail)
    (place : (s.phase = .recovering tail ∧ phase = .running) ∨
      (s.phase = .installing tail ∧ s.log.committing = true ∧ phase = .committed)) :
    Inv ((clearHead s).setPhase phase) x := by
  have past : s.log.lh.drop tail = [] := List.drop_eq_nil_of_le (List.getElem?_eq_none_iff.mp ended)
  have saved : unsaved s = [] := by
    unfold unsaved
    rcases place with ⟨old,_⟩ | ⟨old,_⟩
    · rw [old]
    · rw [old]
      exact past
  generalize after : (clearHead s).setPhase phase = t
  have disk : ∀ c, t.disk c = if c = s.log.start then header (s.buffer s.log.start).data [] else s.disk c := by
    intro c
    rw [← after]
    exact disk_bwrite _ _ c _
  have buffer : ∀ c, t.buffer c =
      if c = s.log.start then ⟨header (s.buffer s.log.start).data [], false⟩ else s.buffer c := by
    intro c
    rw [← after]
    exact buffer_bwrite _ _ c _
  have log : t.log = { s.log with lh := [] } := by
    rw [← after]
    rfl
  have now : t.phase = phase := by
    rw [← after]
    rfl
  have apart : ∀ c, Outside s.log c → c ≠ s.log.start :=
    fun c far same => header_inside inv (same ▸ far)
  have zero : (t.disk t.log.start).word 0 = 0 := by
    rw [log, disk, if_pos rfl]
    rfl
  have home : Home t x := by
    intro c out
    rw [log] at out
    rw [disk, if_neg (apart c out)]
    exact done.home c out (by simp [past])
  have seen : Seen t x := by
    intro c out _
    rw [log] at out
    have clean : (s.buffer c).dirty = false := by
      by_contra ahead
      have listed := inv.dirty c (by simpa using ahead)
      simp [saved] at listed
    rw [buffer, if_neg (apart c out), inv.clean c clean (no_edit inv quiet.idle · c), quiet.settled]
    exact done.home c out (by simp [past])
  refine inv_bwrite inv s.log.start _ [] quiet.idle rfl buffer disk log (by rw [← after]; rfl) ?_ ?_ (by simp) ?_
  · intro c _ listed
    simp [saved] at listed
  · have area := inv.area
    simp
    omega
  · unfold Stage
    rw [now]
    rcases place with ⟨_,new⟩ | ⟨_,flag,new⟩
    · rw [new]
      exact ⟨zero,home,seen⟩
    · rw [new, log]
      rw [log] at zero
      exact ⟨flag,rfl,quiet.idle,zero,home,seen⟩

theorem inv_writeLog (inv : Inv s x) {tail b : Nat} (place : s.phase = .writing tail)
    (here : s.log.lh[tail]? = some b) : Inv ((writeLog s tail b).setPhase (.writing (tail + 1))) x := by
  obtain ⟨low,value⟩ := List.getElem?_eq_some_iff.mp here
  have stage := inv.stage
  unfold Stage at stage
  rw [place] at stage
  obtain ⟨flag,idle,zero,home,seen,logged⟩ := stage
  have far : Outside s.log b := inv.outside b (value ▸ List.getElem_mem low)
  have inside := block_inside inv.short low
  have data : (s.buffer b).data = x.pending b := seen b far (no_edit inv idle · b)
  generalize after : (writeLog s tail b).setPhase (.writing (tail + 1)) = t
  have disk : ∀ c, t.disk c = if c = s.log.start + tail + 1 then (s.buffer b).data else s.disk c := by
    intro c
    rw [← after]
    exact disk_bwrite _ _ c _
  have buffer : ∀ c, t.buffer c =
      if c = s.log.start + tail + 1 then ⟨(s.buffer b).data, false⟩ else s.buffer c := by
    intro c
    rw [← after]
    exact (buffer_bwrite _ _ c _).trans (by rw [buffer_fill])
  have log : t.log = s.log := by
    rw [← after]
    rfl
  have now : t.phase = .writing (tail + 1) := by
    rw [← after]
    rfl
  have op : t.op = s.op := by
    rw [← after]
    rfl
  have apart : ∀ c, Outside s.log c → c ≠ s.log.start + tail + 1 :=
    fun c out same => inside (same ▸ out)
  refine inv_bwrite inv (s.log.start + tail + 1) _ s.log.lh idle rfl buffer disk log op ?_ inv.short
    inv.outside ?_
  · intro c _ listed
    simp only [unsaved, place] at listed
    unfold unsaved
    rw [now, log]
    exact listed
  · unfold Stage
    rw [now, log]
    refine ⟨flag, idle, ?_, ?_, ?_, ?_⟩
    · rw [disk, if_neg (by omega)]
      exact zero
    · intro c out
      rw [log] at out
      rw [disk, if_neg (apart c out)]
      exact home c out
    · intro c out _
      rw [log] at out
      rw [buffer, if_neg (apart c out)]
      exact seen c out (no_edit inv idle · c)
    · intro i c bound entry
      rw [log, disk]
      by_cases last : i = tail
      · subst last
        rw [if_pos rfl, data]
        rw [here, Option.some.injEq] at entry
        rw [entry]
      · rw [if_neg (by omega)]
        exact logged i c (by omega) entry

/-- The header write commits: what is pending becomes durable. -/
theorem inv_writeHead (inv : Inv s x) {tail : Nat} (place : s.phase = .writing tail)
    (ended : s.log.lh[tail]? = none) :
    Inv ((writeHead s).setPhase (.installing 0)) { x with durable := x.pending } := by
  have past := List.getElem?_eq_none_iff.mp ended
  have stage := inv.stage
  unfold Stage at stage
  rw [place] at stage
  obtain ⟨flag,idle,zero,home,seen,logged⟩ := stage
  generalize after : (writeHead s).setPhase (.installing 0) = t
  have disk : ∀ c, t.disk c =
      if c = s.log.start then header (s.buffer s.log.start).data s.log.lh else s.disk c := by
    intro c
    rw [← after]
    exact disk_bwrite _ _ c _
  have buffer : ∀ c, t.buffer c =
      if c = s.log.start then ⟨header (s.buffer s.log.start).data s.log.lh, false⟩ else s.buffer c := by
    intro c
    rw [← after]
    exact buffer_bwrite _ _ c _
  have log : t.log = s.log := by
    rw [← after]
    rfl
  have now : t.phase = .installing 0 := by
    rw [← after]
    rfl
  have op : t.op = s.op := by
    rw [← after]
    rfl
  refine inv_bwrite inv s.log.start _ s.log.lh idle rfl buffer disk log op ?_ inv.short inv.outside ?_
  · intro c _ listed
    simp only [unsaved, place] at listed
    unfold unsaved
    rw [now, log]
    exact listed
  · unfold Stage
    rw [now, log]
    refine ⟨flag, ⟨idle,rfl⟩, ?_, ?_, ?_, ?_, ?_⟩
    · rw [log, disk, if_pos rfl]
      exact entries_header _ _
    · rw [log]
      exact inv.short
    · rw [log]
      exact inv.outside
    · intro i b bound entry
      rw [log, disk, if_neg (by omega)]
      exact logged i b (by omega) entry
    · intro b out missing
      rw [log] at out
      have apart : b ≠ s.log.start := fun same => header_inside inv (same ▸ out)
      have clean : (s.buffer b).dirty = false := by
        by_contra ahead
        have listed := inv.dirty b (by simpa using ahead)
        exact missing (unsaved_subset s listed)
      rw [disk, if_neg apart]
      rw [← inv.clean b clean (no_edit inv idle · b)]
      exact seen b out (no_edit inv idle · b)

theorem inv_readHead (inv : Inv s x) (place : s.phase = .readHead) :
    Inv (((s.fill s.log.start).setLog
      { s.log with lh := entries (s.buffer s.log.start).data }).setPhase (.recovering 0)) x := by
  have stage := inv.stage
  unfold Stage at stage
  rw [place] at stage
  obtain ⟨empty,quiet,lh,done⟩ := stage
  have read : entries (s.buffer s.log.start).data = lh := by
    rw [(log_inside inv (header_inside inv)).2]
    exact done.header
  have saved : unsaved s = [] := by
    unfold unsaved
    rw [place]
  rw [read]
  refine ⟨inv.area, inv.running, inv.count, inv.locked, fun b => ?_, fun b ahead => ?_, done.short,
    done.outside, quiet, committed_congr done rfl rfl rfl⟩
  · change ((s.fill s.log.start).buffer b).dirty = false → _ → ((s.fill s.log.start).buffer b).data = _
    rw [buffer_fill]
    exact inv.clean b
  · change ((s.fill s.log.start).buffer b).dirty = true at ahead
    rw [buffer_fill] at ahead
    have listed := inv.dirty b ahead
    simp [saved] at listed

theorem inv_committed (inv : Inv s x) (place : s.phase = .committed) :
    Inv ((s.setLog { s.log with committing := false }).setPhase .running) x := by
  have stage := inv.stage
  unfold Stage at stage
  rw [place] at stage
  obtain ⟨_,empty,_,zero,home,seen⟩ := stage
  have saved : unsaved s = [] := by
    unfold unsaved
    rw [place]
  refine ⟨inv.area, inv.running, inv.count, inv.locked, inv.clean, fun b ahead => ?_, inv.short,
    inv.outside, zero, home, seen⟩
  have listed := inv.dirty b ahead
  simp [saved] at listed

/-- A crash leaves the disk, from which the last commit can be recovered. -/
theorem inv_crash (inv : Inv s x) :
    Inv (⟨s.disk, fun _ => none, fun _ => none, ⟨s.log.start, s.log.size, 0, false, []⟩,
      fun _ => .outside, .readHead⟩ : State P) (.fresh x.durable) := by
  obtain ⟨lh,done⟩ := recoverable inv
  have area := inv.area
  have edit : ∀ p b, ¬ Editing (⟨s.disk, fun _ => none, fun _ => none,
      ⟨s.log.start, s.log.size, 0, false, []⟩, fun _ => .outside, .readHead⟩ : State P) p b := by
    intro p b h
    rcases h with h | h <;> simp at h
  refine ⟨area, fun p => by simp [Store.fresh], rfl, fun p b h => absurd h (edit p b), fun b _ _ => rfl,
    fun b ahead => ?_, by simp; omega, by simp, rfl, ⟨rfl,rfl⟩, lh, ?_⟩
  · simp [State.buffer] at ahead
  · obtain ⟨header,short,outside,logged,home⟩ := done
    exact ⟨header,short,outside,logged,home⟩

end Writes

end Model
end Xv6LogCrash
