import KernelLabs.Xv6.BioCache

/-!
The buffer cache over whole runs, with any processes taking their steps in any order.
-/
namespace Xv6Bio
open Transition WriteBack

variable {π α : Type} {s t : Cache π α}

theorem started_sound [Fintype π] (started : started s) : Sound s := by
  obtain ⟨⟨data,bufs⟩,links,locks,uses,changed,truth⟩ := started
  refine ⟨?_, fun b => ?_, fun p b => ?_, fun p => ?_, fun b set => ?_, ?_⟩
  · rw [links]
    exact binit_lists
  · have none : ∀ p, share s p b = 0 := by
      intro p
      unfold share
      rw [uses]
      rfl
    dsimp only
    rw [bufs, Finset.sum_eq_zero fun p _ => none p]
  · rw [locks, uses]
    constructor <;> exact fun no => nomatch no
  · rw [uses]
    trivial
  · rw [changed] at set
    exact nomatch set
  · rw [← truth]
    refine Coherent.start s.truth fun b => ?_
    unfold line
    rw [bufs]
    rfl

variable [DecidableEq π]

theorem next_sound [Fintype π] (act : Act π α) (sound : Sound s) (run : next s act = some t) : Sound t := by
  unfold next at run
  cases act with
  | bget p n =>
    dsimp only at run
    split at run
    · rename_i use
      obtain ⟨⟨b,u⟩,got,rfl⟩ := Option.map_eq_some_iff.mp run
      exact bget_sound sound use got
    · exact nomatch run
  | acquiresleep p =>
    dsimp only at run
    split at run
    · rename_i b n use
      split at run
      · rename_i free
        rw [← Option.some.inj run]
        exact acquiresleep_sound sound use free
      · exact nomatch run
    · exact nomatch run
  | test p =>
    dsimp only at run
    split at run
    · rename_i b n use
      have fits := sound.fits p
      rw [use] at fits
      have locks : (s.use p).locks = some b := by rw [use]; rfl
      split at run
      · rename_i valid
        rw [← Option.some.inj run]
        exact test_sound sound use valid
      · rename_i invalid
        have quiet : s.changed b = false := sound.unchanged locks fun m holds => by rw [use] at holds; exact nomatch holds
        refine iderw_sound sound locks fits quiet run ?_
        -- A dirty buffer is valid, so this one is neither.
        cases dirty : (s.buf b).dirty with
        | false => exact Bool.eq_false_iff.mpr invalid
        | true =>
          refine absurd (sound.coherent.ahead b n (line_key fits) ?_) invalid
          change ((s.buf b).dirty || s.changed b) = true
          rw [dirty]
          rfl
    · exact nomatch run
  | ideintr p =>
    dsimp only at run
    split at run
    · rename_i b n use
      rw [← Option.some.inj run]
      exact ideintr_sound sound use
    · exact nomatch run
  | store p data =>
    dsimp only at run
    split at run
    · rename_i b n use
      rw [← Option.some.inj run]
      exact store_sound sound use data
    · exact nomatch run
  | bwrite p =>
    dsimp only at run
    split at run
    · rename_i b n use
      exact bwrite_sound sound use run
    · exact nomatch run
  | logWrite p =>
    dsimp only at run
    split at run
    · rename_i b n use
      rw [← Option.some.inj run]
      exact mark_sound _ sound use
    · exact nomatch run
  | releasesleep p =>
    dsimp only at run
    split at run
    · rename_i b n use
      split at run
      · rename_i fine
        rw [← Option.some.inj run]
        exact releasesleep_sound sound use fine.2
      · exact nomatch run
    · exact nomatch run
  | brelse p =>
    dsimp only at run
    split at run
    · rename_i b n use
      rw [← Option.some.inj run]
      exact brelse_sound sound use
    · exact nomatch run
  | log log =>
    rw [← Option.some.inj run]
    exact ⟨sound.ring, sound.counted, sound.owned, sound.fits, sound.quiet, sound.coherent⟩

theorem reach_sound [Fintype π] (reach : (system π α).Reach System.Free s) : Sound s :=
  System.reach_invariant (system π α) (fun _ => started_sound) (fun _ act _ sound _ run => next_sound act sound run) reach

/-- A buffer keeps its block or was free to be recycled. -/
def Kept (s t : Cache π α) (b : Fin NBUF) : Prop :=
  ((t.buf b).dev = (s.buf b).dev ∧ (t.buf b).blockno = (s.buf b).blockno) ∨ (s.buf b).dirty = false

omit [DecidableEq π] in
theorem kept_set {b c : Fin NBUF} {x : Buf α} (buf : t.buf = Function.update s.buf c x)
    (same : x.dev = (s.buf c).dev ∧ x.blockno = (s.buf c).blockno) : Kept s t b := by
  refine Or.inl ?_
  rw [buf]
  by_cases touched : b = c
  · rw [touched, Function.update_self]
    exact same
  · rw [Function.update_of_ne touched]
    exact ⟨rfl, rfl⟩

omit [DecidableEq π] in
theorem kept_same {b : Fin NBUF} (buf : t.buf = s.buf) : Kept s t b := by
  refine Or.inl ?_
  rw [buf]
  exact ⟨rfl, rfl⟩

theorem iderw_buf {p : π} {b : Fin NBUF} {n : Nat} (run : iderw s p b n = some t) : t.buf = s.buf := by
  unfold iderw at run
  split at run
  · exact nomatch run
  split at run
  · exact nomatch run
  rw [← Option.some.inj run]
  rfl

theorem scan_some {step : Node → Node} {p : Fin NBUF → Bool} {b : Fin NBUF} (fuel : Nat) {a : Node}
    (found : scan step p fuel a = some b) : p b = true := by
  induction fuel generalizing a with
  | zero => cases a <;> exact nomatch found
  | succ fuel ih =>
    cases a with
    | none => exact nomatch found
    | some c =>
      rw [scan] at found
      split at found
      · rename_i here
        exact Option.some.inj found ▸ here
      · exact ih found

omit [DecidableEq π] in
theorem bget_kept {dev n : Nat} {b c : Fin NBUF} (run : bget s dev n = some (b, t)) : Kept s t c := by
  unfold bget at run
  split at run
  · obtain ⟨rfl,rfl⟩ := Prod.mk.inj (Option.some.inj run)
    exact kept_set rfl ⟨rfl, rfl⟩
  · split at run
    · rename_i d found
      obtain ⟨rfl,rfl⟩ := Prod.mk.inj (Option.some.inj run)
      have free := scan_some NBUF found
      simp only [Bool.and_eq_true, beq_iff_eq, Bool.not_eq_true'] at free
      by_cases same : c = d
      · rw [same]
        exact Or.inr free.2
      · refine Or.inl ?_
        unfold Cache.setBuf
        dsimp only
        rw [Function.update_of_ne same]
        exact ⟨rfl, rfl⟩
    · exact nomatch run

/-- No step takes its block from a dirty buffer. -/
theorem next_kept {act : Act π α} (run : next s act = some t) (b : Fin NBUF) : Kept s t b := by
  unfold next at run
  cases act with
  | bget p n =>
    dsimp only at run
    split at run
    · obtain ⟨⟨c,u⟩,got,rfl⟩ := Option.map_eq_some_iff.mp run
      have kept : Kept s u b := bget_kept got
      exact kept
    · exact nomatch run
  | acquiresleep p =>
    dsimp only at run
    split at run
    · split at run
      · rw [← Option.some.inj run]
        exact kept_same rfl
      · exact nomatch run
    · exact nomatch run
  | test p =>
    dsimp only at run
    split at run
    · split at run
      · rw [← Option.some.inj run]
        exact kept_same rfl
      · exact kept_same (iderw_buf run)
    · exact nomatch run
  | ideintr p =>
    dsimp only at run
    split at run
    · rw [← Option.some.inj run]
      unfold ideintr
      dsimp only
      split
      · exact kept_set rfl ⟨rfl, rfl⟩
      · exact kept_set rfl ⟨rfl, rfl⟩
    · exact nomatch run
  | store p data =>
    dsimp only at run
    split at run
    · rw [← Option.some.inj run]
      exact kept_set rfl ⟨rfl, rfl⟩
    · exact nomatch run
  | bwrite p =>
    dsimp only at run
    split at run
    · unfold bwrite at run
      split at run
      · exact nomatch run
      · exact kept_set (iderw_buf run) ⟨rfl, rfl⟩
    · exact nomatch run
  | logWrite p =>
    dsimp only at run
    split at run
    · rw [← Option.some.inj run]
      exact kept_set rfl ⟨rfl, rfl⟩
    · exact nomatch run
  | releasesleep p =>
    dsimp only at run
    split at run
    · split at run
      · rw [← Option.some.inj run]
        exact kept_same rfl
      · exact nomatch run
    · exact nomatch run
  | brelse p =>
    dsimp only at run
    split at run
    · rw [← Option.some.inj run]
      unfold brelse
      dsimp only
      split
      · exact kept_set rfl ⟨rfl, rfl⟩
      · exact kept_set rfl ⟨rfl, rfl⟩
    · exact nomatch run
  | log log =>
    rw [← Option.some.inj run]
    exact kept_same rfl

/-- One buffer for a block, every buffer once in the list, no recycling of dirty buffers, and
    what a holder reads is what was last stored. -/
structure Cached (s : Cache π α) : Prop where
  one_buffer : ∀ b c, (s.buf b).dev = ROOTDEV → (s.buf c).dev = ROOTDEV → (s.buf b).blockno = (s.buf c).blockno → b = c
  one_place : ∃ list : List (Fin NBUF), Ring.Linked s.links.next s.links.prev none (list.map some) ∧
    list.Perm (List.finRange NBUF)
  dirty_stays : ∀ act t, next s act = some t → ∀ b, (s.buf b).dirty = true →
    (t.buf b).dev = (s.buf b).dev ∧ (t.buf b).blockno = (s.buf b).blockno
  current : ∀ p b n, s.use p = .holding b n →
    (s.buf b).dev = ROOTDEV ∧ (s.buf b).blockno = n ∧ (s.buf b).data = s.truth n

theorem Sound.cached [Fintype π] (sound : Sound s) : Cached s := by
  refine ⟨fun b c devB devC same => ?_, ?_, fun act t run b dirty => ?_, fun p b n use => ?_⟩
  · exact sound.coherent.unique b c _ (line_key ⟨devB, same⟩) (line_key ⟨devC, rfl⟩)
  · obtain ⟨list,lists,all⟩ := sound.ring
    have names := List.Nodup.of_map some (List.nodup_cons.mp lists.names).2
    refine ⟨list, lists, (List.perm_ext_iff_of_nodup names (List.nodup_finRange NBUF)).mpr fun b => ?_⟩
    exact ⟨fun _ => List.mem_finRange b, fun _ => all b⟩
  · refine (next_kept run b).resolve_right fun clean => ?_
    rw [dirty] at clean
    exact nomatch clean
  · have fits := sound.fits p
    rw [use] at fits
    exact ⟨fits.1.1, fits.1.2, sound.coherent.fresh b n (line_key fits.1) fits.2⟩

end Xv6Bio
