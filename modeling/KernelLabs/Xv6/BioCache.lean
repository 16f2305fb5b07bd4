import Mathlib.Algebra.BigOperators.Group.Finset.Basic
import KernelLabs.Lib.LockOwners
import KernelLabs.Lib.Ring
import KernelLabs.Lib.Shares
import KernelLabs.Lib.WriteBack
import KernelLabs.Xv6.Bio

/-!
The buffer cache is a coherent copy of the disk: the invariant of its states and its proof
step by step. Buffers are the lines of a write-back cache; a line is ahead of the disk while
its buffer is dirty or its holder has not yet called `log_write` or `bwrite`.
-/
namespace Xv6Bio
open WriteBack LockOwners

section Lists
variable {l : Links} {list : List (Fin NBUF)} {b : Fin NBUF}

/-- The list of the cache is `list`, in both directions. -/
def Links.Lists (l : Links) (list : List (Fin NBUF)) : Prop := Ring.Linked l.next l.prev none (list.map some)

theorem not_mem_head (new : b ∉ list) : some b ∉ none :: list.map some := by
  intro member
  rcases List.mem_cons.mp member with same | member
  · exact nomatch same
  · obtain ⟨c,there,same⟩ := List.mem_map.mp member
    exact new (Option.some.inj same ▸ there)

theorem pushHead_lists (lists : l.Lists list) (new : b ∉ list) : (l.pushHead b).Lists (b :: list) := by
  have ring := Ring.Linked.push lists (not_mem_head new)
  have head : Function.update l.next (some b) (l.next none) none = l.next none := Function.update_of_ne (by simp) _ _
  unfold Links.Lists Links.pushHead
  dsimp only
  rw [head]
  exact ring

theorem unlink_lists {front back : List (Fin NBUF)} (lists : l.Lists (front ++ b :: back)) : (l.unlink b).Lists (front ++ back) := by
  unfold Links.Lists at lists
  rw [List.map_append, List.map_cons] at lists
  have ring := Ring.Linked.unlink lists
  have after : l.next (some b) ≠ some b := by
    have step := Ring.path_step (Ring.path_append.mp lists.forward).2
    intro same
    rw [same] at step
    have member := List.head_mem (l := back.map some ++ [none]) (by simp)
    rw [← step] at member
    have names := lists.names
    rw [List.nodup_cons, List.nodup_append, List.nodup_cons] at names
    simp only [List.mem_append, List.mem_singleton, reduceCtorEq, or_false] at member
    exact names.2.2.1.1 member
  have kept : Function.update l.prev (l.next (some b)) (l.prev (some b)) (some b) = l.prev (some b) :=
    Function.update_of_ne (Ne.symm after) _ _
  unfold Links.Lists Links.unlink
  dsimp only
  rw [kept, List.map_append]
  exact ring

theorem scan_path {step : Node → Node} {p : Fin NBUF → Bool} {a : Node} (path : Ring.Path step a (list.map some) none)
    (fuel : Nat) (enough : list.length ≤ fuel) : scan step p fuel (step a) = list.find? p := by
  induction list generalizing a fuel with
  | nil =>
    rw [show step a = none from path]
    unfold scan
    rfl
  | cons b list ih =>
    cases fuel with
    | zero => exact absurd enough (by simp)
    | succ fuel =>
      rw [show step a = some b from path.1, scan, List.find?_cons, ih path.2 fuel (Nat.le_of_succ_le_succ enough)]
      cases p b <;> rfl

theorem lists_length (lists : l.Lists list) : list.length ≤ NBUF := by
  have names := (List.nodup_cons.mp lists.names).2
  have distinct : list.Nodup := List.Nodup.of_map some names
  have bound := distinct.length_le_card
  rwa [Fintype.card_fin] at bound

theorem scan_next {p : Fin NBUF → Bool} (lists : l.Lists list) : scan l.next p NBUF (l.next none) = list.find? p :=
  scan_path lists.forward NBUF (lists_length lists)

theorem scan_prev {p : Fin NBUF → Bool} (lists : l.Lists list) : scan l.prev p NBUF (l.prev none) = list.reverse.find? p := by
  have backward := lists.backward
  rw [← List.map_reverse] at backward
  exact scan_path backward NBUF (by rw [List.length_reverse]; exact lists_length lists)

/-- `binit` links all buffers. -/
theorem binit_lists : ∃ list, binit.Lists list ∧ ∀ b, b ∈ list := by
  have pushed : ∀ (rest : List (Fin NBUF)) (l : Links) (list : List (Fin NBUF)), l.Lists list → rest.Nodup →
      (∀ b ∈ rest, b ∉ list) → ∃ list', (rest.foldl Links.pushHead l).Lists list' ∧ ∀ b, b ∈ rest ∨ b ∈ list → b ∈ list' := by
    intro rest
    induction rest with
    | nil => exact fun l list lists _ _ => ⟨list, lists, fun b member => member.resolve_left (by simp)⟩
    | cons b rest ih =>
      intro l list lists names apart
      obtain ⟨outside,names⟩ := List.nodup_cons.mp names
      have later : ∀ c ∈ rest, c ∉ b :: list := by
        intro c member there
        rcases List.mem_cons.mp there with rfl | there
        · exact outside member
        · exact apart c (List.mem_cons_of_mem b member) there
      obtain ⟨list',lists',all⟩ := ih (l.pushHead b) (b :: list) (pushHead_lists lists (apart b List.mem_cons_self)) names later
      refine ⟨list', lists', fun c member => all c ?_⟩
      rw [List.mem_cons, or_assoc] at member
      rw [List.mem_cons]
      tauto
  obtain ⟨list,lists,all⟩ := pushed (List.finRange NBUF) ⟨fun _ => none, fun _ => none⟩ []
    (Ring.Linked.empty rfl rfl) (List.nodup_finRange NBUF) (by simp)
  exact ⟨list, lists, fun b => all b (Or.inl (List.mem_finRange b))⟩

end Lists

section Invariant

/-- The buffer that a use counts for. -/
def Use.on : Use → Option (Fin NBUF)
  | idle => none
  | locking b _ => some b
  | locked b _ => some b
  | disk b _ => some b
  | holding b _ => some b
  | releasing b _ => some b

/-- The buffer whose lock a use has. -/
def Use.locks : Use → Option (Fin NBUF)
  | locked b _ => some b
  | disk b _ => some b
  | holding b _ => some b
  | _ => none

variable {π α : Type} {s t : Cache π α} {p : π} {b : Fin NBUF} {n : Nat} {u : Use}

/-- The buffer is that of the block. -/
def Cache.At (s : Cache π α) (b : Fin NBUF) (n : Nat) : Prop := (s.buf b).dev = ROOTDEV ∧ (s.buf b).blockno = n

/-- What a use can rely on. -/
def Cache.Fits (s : Cache π α) : Use → Prop
  | .idle => True
  | .locking b n => s.At b n
  | .locked b n => s.At b n
  | .disk b n => s.At b n ∧ (s.buf b).valid = (s.buf b).dirty
  | .holding b n => s.At b n ∧ (s.buf b).valid = true
  | .releasing b n => s.At b n

/-- A buffer as a line of a write-back cache. -/
def Buf.line (x : Buf α) (changed : Bool) : Line Nat α where
  key := if x.dev = ROOTDEV then some x.blockno else none
  value := x.data
  valid := x.valid
  dirty := x.dirty || changed

def line (s : Cache π α) (b : Fin NBUF) : Line Nat α := (s.buf b).line (s.changed b)

theorem line_key (here : s.At b n) : (line s b).key = some n := by
  unfold line Buf.line
  dsimp only
  rw [if_pos here.1, here.2]

theorem at_of_key (key : (line s b).key = some n) : s.At b n := by
  unfold line Buf.line at key
  dsimp only at key
  split at key
  · rename_i dev
    exact ⟨dev, Option.some.inj key⟩
  · exact nomatch key

/-- The count of a buffer is not part of its line. -/
theorem line_refcnt (refcnt : Nat) : line (s.setBuf b { s.buf b with refcnt := refcnt }) = line s := by
  funext c
  change (Function.update s.buf b _ c).line (s.changed c) = _
  by_cases same : c = b
  · rw [same, Function.update_self]
    rfl
  · rw [Function.update_of_ne same]
    rfl

def share (s : Cache π α) (p : π) (b : Fin NBUF) : Nat := if (s.use p).on = some b then 1 else 0

structure Sound [Fintype π] (s : Cache π α) : Prop where
  ring : ∃ list, s.links.Lists list ∧ ∀ b, b ∈ list
  counted : Shares.Counted (fun b => (s.buf b).refcnt) (share s)
  owned : Owned s.lock fun p b => (s.use p).locks = some b
  fits : ∀ p, s.Fits (s.use p)
  quiet : ∀ b, s.changed b = true → ∃ p n, s.use p = .holding b n
  coherent : Coherent (line s) (s.disk ROOTDEV) s.truth

theorem locks_on (locks : u.locks = some b) : u.on = some b := by
  cases u <;> first | exact locks | exact nomatch locks

theorem Cache.Fits.here (fits : s.Fits u) (on : u.on = some b) : ∃ n, s.At b n := by
  cases u with
  | idle => exact nomatch on
  | locking c n => exact ⟨n, Option.some.inj on ▸ fits⟩
  | locked c n => exact ⟨n, Option.some.inj on ▸ fits⟩
  | disk c n => exact ⟨n, Option.some.inj on ▸ fits.1⟩
  | holding c n => exact ⟨n, Option.some.inj on ▸ fits.1⟩
  | releasing c n => exact ⟨n, Option.some.inj on ▸ fits⟩

theorem fits_holding {x : Buf α} (buf : s.buf b = x) (dev : x.dev = ROOTDEV) (block : x.blockno = n) (valid : x.valid = true) :
    s.Fits (.holding b n) := ⟨⟨buf ▸ dev, buf ▸ block⟩, buf ▸ valid⟩

/-- A use goes on as before if its buffer is still that of its block, with the flags it had
    while the use has the lock. -/
theorem Cache.Fits.keep (fits : s.Fits u) (block : ∀ b n, u.on = some b → s.At b n → t.At b n)
    (flags : ∀ b, u.locks = some b → (t.buf b).valid = (s.buf b).valid ∧ (t.buf b).dirty = (s.buf b).dirty) : t.Fits u := by
  cases u with
  | idle => trivial
  | locking b n => exact block b n rfl fits
  | locked b n => exact block b n rfl fits
  | disk b n =>
    refine ⟨block b n rfl fits.1, ?_⟩
    rw [(flags b rfl).1, (flags b rfl).2]
    exact fits.2
  | holding b n =>
    refine ⟨block b n rfl fits.1, ?_⟩
    rw [(flags b rfl).1]
    exact fits.2
  | releasing b n => exact block b n rfl fits

variable [Fintype π]

/-- A use that has not moved away from a buffer keeps its count. -/
theorem Sound.used (sound : Sound s) (on : (s.use p).on = some b) : 0 < (s.buf b).refcnt := by
  have part := sound.counted.share_le p b
  unfold share at part
  rw [if_pos on] at part
  exact part

theorem Sound.locked (sound : Sound s) (locks : (s.use p).locks = some b) : s.lock b = some p := (sound.owned p b).mpr locks

/-- Only a holder after `bread` has changed data. -/
theorem Sound.unchanged (sound : Sound s) (locks : (s.use p).locks = some b) (away : ∀ n, s.use p ≠ .holding b n) :
    s.changed b = false := by
  by_contra changed
  obtain ⟨q,m,holds⟩ := sound.quiet b (Bool.eq_true_of_not_eq_false changed)
  have same : q = p := sound.owned.exclusive (by rw [holds]; rfl) locks
  exact away m (same ▸ holds)

/-- A step of the one who has the lock of a buffer, which changes only that buffer and not
    its block, and keeps the lock. -/
theorem Sound.holder_step (sound : Sound s) (had : (s.use p).locks = some b) (links : t.links = s.links) (locks : t.lock = s.lock)
    (mine : (t.use p).locks = some b) (uses : ∀ q, q ≠ p → t.use q = s.use q) (bufs : ∀ c, c ≠ b → t.buf c = s.buf c)
    (block : (t.buf b).dev = (s.buf b).dev ∧ (t.buf b).blockno = (s.buf b).blockno ∧ (t.buf b).refcnt = (s.buf b).refcnt)
    (fits : t.Fits (t.use p)) (quiet : ∀ c, t.changed c = true → (c = b ∧ ∃ n, t.use p = .holding b n) ∨ (c ≠ b ∧ s.changed c = true))
    (coherent : Coherent (line t) (t.disk ROOTDEV) t.truth) : Sound t := by
  have counts : ∀ c, (t.buf c).refcnt = (s.buf c).refcnt := by
    intro c
    by_cases same : c = b
    · rw [same, block.2.2]
    · rw [bufs c same]
  refine ⟨?_, ?_, ?_, fun q => ?_, fun c changed => ?_, coherent⟩
  · rw [links]
    exact sound.ring
  · have shares : share t = share s := by
      funext q c
      unfold share
      by_cases same : q = p
      · rw [same, locks_on mine, locks_on had]
      · rw [uses q same]
    rw [shares, funext counts]
    exact sound.counted
  · rw [locks]
    refine sound.owned.keep fun q c => ?_
    by_cases same : q = p
    · rw [same, mine, had]
    · rw [uses q same]
  · by_cases same : q = p
    · rw [same]
      exact fits
    · rw [uses q same]
      refine (sound.fits q).keep (fun c m _ here => ?_) fun c locked => ?_
      · unfold Cache.At at here ⊢
        by_cases touched : c = b
        · rw [touched, block.1, block.2.1, ← touched]
          exact here
        · rw [bufs c touched]
          exact here
      · have apart : c ≠ b := by
          rintro rfl
          exact same (sound.owned.exclusive locked had)
        rw [bufs c apart]
        exact ⟨rfl, rfl⟩
  · rcases quiet c changed with ⟨rfl,m,here⟩ | ⟨other,before⟩
    · exact ⟨p, m, here⟩
    · obtain ⟨q,m,holds⟩ := sound.quiet c before
      have apart : q ≠ p := by
        rintro rfl
        rw [holds] at had
        exact other (Option.some.inj had)
      exact ⟨q, m, (uses q apart).trans holds⟩

/-- A step of the one who has the lock that writes the buffer. -/
theorem Sound.write [DecidableEq π] (sound : Sound s) (had : (s.use p).locks = some b) {x : Buf α} {f : Bool}
    (links : t.links = s.links) (locks : t.lock = s.lock) (use : t.use = Function.update s.use p u)
    (buf : t.buf = Function.update s.buf b x) (changed : t.changed = Function.update s.changed b f)
    (block : x.dev = (s.buf b).dev ∧ x.blockno = (s.buf b).blockno ∧ x.refcnt = (s.buf b).refcnt)
    (keeps : u.locks = some b) (fits : t.buf b = x → t.Fits u) (quiet : f = true → ∃ n, u = .holding b n)
    (coherent : (∀ c, c ≠ b → line t c = line s c) → line t b = ⟨(line s b).key, x.data, x.valid, x.dirty || f⟩ →
      Coherent (line t) (t.disk ROOTDEV) t.truth) : Sound t := by
  have mine : t.use p = u := by rw [use, Function.update_self]
  have here : t.buf b = x := by rw [buf, Function.update_self]
  have others : ∀ c, c ≠ b → t.buf c = s.buf c := fun c other => by rw [buf, Function.update_of_ne other]
  have same : ∀ c, c ≠ b → t.changed c = s.changed c := fun c other => by rw [changed, Function.update_of_ne other]
  have now : t.changed b = f := by rw [changed, Function.update_self]
  refine sound.holder_step had links locks (mine ▸ keeps) (fun q other => ?_) others (here ▸ block) (mine ▸ fits here) (fun c set => ?_)
    (coherent (fun c other => ?_) ?_)
  · rw [use, Function.update_of_ne other]
  · by_cases touched : c = b
    · subst touched
      obtain ⟨n,holds⟩ := quiet (now ▸ set)
      exact Or.inl ⟨rfl, n, mine.trans holds⟩
    · exact Or.inr ⟨touched, same c touched ▸ set⟩
  · unfold line
    rw [others c other, same c other]
  · unfold line Buf.line
    rw [here, now, block.1, block.2.1]

end Invariant

section Steps
variable {π α : Type} [DecidableEq π] {s t : Cache π α} {p : π} {b : Fin NBUF} {n : Nat} {u : Use}

theorem go_self (s : Cache π α) (p : π) (u : Use) : (s.go p u).use p = u := by
  unfold Cache.go
  dsimp only
  rw [Function.update_self]

theorem go_other {q : π} (other : q ≠ p) (u : Use) : (s.go p u).use q = s.use q := by
  unfold Cache.go
  dsimp only
  rw [Function.update_of_ne other]

variable [Fintype π]

theorem test_sound (sound : Sound s) (use : s.use p = .locked b n) (valid : (s.buf b).valid = true) :
    Sound (s.go p (.holding b n)) := by
  have fits := sound.fits p
  rw [use] at fits
  refine sound.holder_step (by rw [use]; rfl) rfl rfl ?_ (fun q other => go_other other _) (fun _ _ => rfl) ⟨rfl, rfl, rfl⟩ ?_
    (fun c changed => ?_) sound.coherent
  · rw [go_self]
    rfl
  · rw [go_self]
    exact ⟨fits, valid⟩
  · by_cases same : c = b
    · exact Or.inl ⟨same, n, go_self s p _⟩
    · exact Or.inr ⟨same, changed⟩

/-- `iderw` on a buffer with something to do. -/
theorem iderw_sound {b : Fin NBUF} {n : Nat} (sound : Sound s) (locks : (s.use p).locks = some b) (here : s.At b n)
    (quiet : s.changed b = false) (run : iderw s p b n = some t) (work : (s.buf b).valid = (s.buf b).dirty) : Sound t := by
  unfold iderw at run
  split at run
  · exact nomatch run
  split at run
  · exact nomatch run
  rw [← Option.some.inj run]
  refine sound.holder_step locks rfl rfl ?_ (fun q other => go_other other _) (fun _ _ => rfl) ⟨rfl, rfl, rfl⟩ ?_
    (fun c changed => Or.inr ⟨?_, changed⟩) sound.coherent
  · rw [go_self]
    rfl
  · rw [go_self]
    exact ⟨here, work⟩
  · rintro rfl
    change s.changed c = true at changed
    rw [quiet] at changed
    exact nomatch changed

theorem ideintr_sound (sound : Sound s) (use : s.use p = .disk b n) : Sound ((ideintr s b).go p (.holding b n)) := by
  have locks : (s.use p).locks = some b := by rw [use]; rfl
  have fits := sound.fits p
  rw [use] at fits
  obtain ⟨here,work⟩ := fits
  have key := line_key here
  have quiet : s.changed b = false := sound.unchanged locks fun m holds => by rw [use] at holds; exact nomatch holds
  have keep : s.changed = Function.update s.changed b false := by rw [← quiet, Function.update_eq_self]
  unfold ideintr
  dsimp only
  split
  · rename_i dirty
    have valid : (s.buf b).valid = true := work.trans dirty
    refine sound.write locks rfl rfl rfl rfl keep ⟨rfl, rfl, rfl⟩ rfl (fun buf => ?_) (fun _ => ⟨n, rfl⟩) fun others mine => ?_
    · exact fits_holding buf here.1 here.2 rfl
    · have store : Function.update s.disk (s.buf b).dev (Function.update (s.disk (s.buf b).dev) (s.buf b).blockno (s.buf b).data) ROOTDEV =
          Function.update (s.disk ROOTDEV) n (line s b).value := by
        rw [here.1, here.2, Function.update_self]
        rfl
      change Coherent _ (Function.update s.disk _ _ ROOTDEV) s.truth
      rw [store]
      refine sound.coherent.flush key valid others ?_ ?_ ?_
      · rw [mine, key]
      · rw [mine]
        rfl
      · rw [mine]
  · rename_i clean
    have level : (line s b).dirty = false := by
      change ((s.buf b).dirty || s.changed b) = false
      rw [quiet, Bool.or_false]
      exact Bool.eq_false_iff.mpr clean
    refine sound.write locks rfl rfl rfl rfl keep ⟨rfl, rfl, rfl⟩ rfl (fun buf => ?_) (fun _ => ⟨n, rfl⟩) fun others mine => ?_
    · exact fits_holding buf here.1 here.2 rfl
    · refine sound.coherent.fill key level others ?_ ?_ ?_
      · rw [mine, key]
      · rw [mine, here.1, here.2]
      · rw [mine]

theorem store_sound (sound : Sound s) (use : s.use p = .holding b n) (data : α) :
    Sound { s.setBuf b { s.buf b with data := data } with
      changed := Function.update s.changed b true
      truth := Function.update s.truth n data } := by
  have locks : (s.use p).locks = some b := by rw [use]; rfl
  have fits := sound.fits p
  rw [use] at fits
  have key := line_key fits.1
  have keep : s.use = Function.update s.use p (.holding b n) := by rw [← use, Function.update_eq_self]
  refine sound.write locks rfl rfl keep rfl rfl ⟨rfl, rfl, rfl⟩ rfl (fun buf => ?_) (fun _ => ⟨n, rfl⟩) fun others mine => ?_
  · exact fits_holding buf fits.1.1 fits.1.2 fits.2
  · have assigned := sound.coherent.assign key others (by rw [mine, key]) (by rw [mine]; exact fits.2) (by rw [mine]; exact Bool.or_true _)
    rw [mine] at assigned
    exact assigned

/-- `log_write` and the first part of `bwrite`. -/
theorem mark_sound (log : Xv6Log.Log) (sound : Sound s) (use : s.use p = .holding b n) :
    Sound { s.setBuf b { s.buf b with dirty := true } with
      log := log
      changed := Function.update s.changed b false } := by
  have locks : (s.use p).locks = some b := by rw [use]; rfl
  have fits := sound.fits p
  rw [use] at fits
  have key := line_key fits.1
  have keep : s.use = Function.update s.use p (.holding b n) := by rw [← use, Function.update_eq_self]
  refine sound.write locks rfl rfl keep rfl rfl ⟨rfl, rfl, rfl⟩ rfl (fun buf => ?_) (fun no => nomatch no) fun others mine => ?_
  · exact fits_holding buf fits.1.1 fits.1.2 fits.2
  · refine sound.coherent.mark key fits.2 others ?_ ?_ ?_ ?_
    · rw [mine, key]
    · rw [mine]
      rfl
    · rw [mine]
      exact fits.2
    · rw [mine]
      rfl

theorem bwrite_sound (sound : Sound s) (use : s.use p = .holding b n) (run : bwrite s p b n = some t) : Sound t := by
  unfold bwrite at run
  split at run
  · exact nomatch run
  have fits := sound.fits p
  rw [use] at fits
  have marked := mark_sound s.log sound use
  refine iderw_sound marked (p := p) ?_ ?_ ?_ run ?_
  · change (s.use p).locks = some b
    rw [use]
    rfl
  · unfold Cache.At Cache.setBuf
    dsimp only
    rw [Function.update_self]
    exact fits.1
  · exact Function.update_self b false s.changed
  · unfold Cache.setBuf
    dsimp only
    rw [Function.update_self]
    exact fits.2

/-- A step that changes only a lock, and where the use is with its buffer. -/
theorem Sound.walk {lock : Fin NBUF → Option π} (sound : Sound s)
    (owned : Owned lock fun q c => (({ s with lock := lock }.go p u).use q).locks = some c) (on : u.on = (s.use p).on)
    (fits : s.Fits u) (quiet : ∀ c m, s.use p = .holding c m → s.changed c = false) : Sound ({ s with lock := lock }.go p u) := by
  refine ⟨sound.ring, ?_, owned, fun q => ?_, fun c changed => ?_, sound.coherent⟩
  · have shares : share ({ s with lock := lock }.go p u) = share s := by
      funext q c
      unfold share
      by_cases same : q = p
      · rw [same, go_self, on]
      · rw [go_other same]
    rw [shares]
    exact sound.counted
  · by_cases same : q = p
    · rw [same, go_self]
      exact fits
    · rw [go_other same]
      exact sound.fits q
  · obtain ⟨q,m,holds⟩ := sound.quiet c changed
    have apart : q ≠ p := by
      rintro rfl
      have no := quiet c m holds
      rw [show s.changed c = true from changed] at no
      exact nomatch no
    exact ⟨q, m, (go_other apart u).trans holds⟩

theorem acquiresleep_sound (sound : Sound s) (use : s.use p = .locking b n) (free : s.lock b = none) :
    Sound ({ s with lock := Function.update s.lock b (some p) }.go p (.locked b n)) := by
  have fits := sound.fits p
  rw [use] at fits
  refine sound.walk (sound.owned.acquire free (fun q c other => ?_) fun c => ?_) (by rw [use]; rfl) fits fun c m holds => ?_
  · rw [go_other other]
  · rw [go_self, use]
    exact ⟨fun same => Or.inl (Option.some.inj same).symm, fun same => (same.resolve_right nofun) ▸ rfl⟩
  · rw [use] at holds
    exact nomatch holds

theorem releasesleep_sound (sound : Sound s) (use : s.use p = .holding b n) (quiet : s.changed b = false) :
    Sound ({ s with lock := Function.update s.lock b none }.go p (.releasing b n)) := by
  have fits := sound.fits p
  rw [use] at fits
  have locks : (s.use p).locks = some b := by rw [use]; rfl
  refine sound.walk (sound.owned.release locks (fun q c other => ?_) fun c => ?_) (by rw [use]; rfl) fits.1 fun c m holds => ?_
  · rw [go_other other]
  · rw [go_self, locks]
    constructor
    · exact fun no => nomatch no
    · exact fun both => absurd (Option.some.inj both.2).symm both.1
  · rw [use] at holds
    injection holds with same
    rw [← same]
    exact quiet

/-- A step at the ends of a use, which takes or gives up a place in the count of a buffer. -/
theorem Sound.ends {x : Buf α} {links : Links} (sound : Sound s) (idle : (s.use p).locks = none) (stays : u.locks = none)
    (ring : ∃ list, links.Lists list ∧ ∀ c, c ∈ list)
    (count : ∀ c, (if c = b then x.refcnt else (s.buf c).refcnt) + (if (s.use p).on = some c then 1 else 0) =
      (s.buf c).refcnt + if u.on = some c then 1 else 0)
    (fits : ({ s.setBuf b x with links := links }.go p u).Fits u)
    (others : ∀ q, q ≠ p → (s.use q).on = some b → x.dev = (s.buf b).dev ∧ x.blockno = (s.buf b).blockno ∧
      x.valid = (s.buf b).valid ∧ x.dirty = (s.buf b).dirty)
    (coherent : Coherent (line (s.setBuf b x)) (s.disk ROOTDEV) s.truth) : Sound ({ s.setBuf b x with links := links }.go p u) := by
  have bufs : ∀ c, c ≠ b → ({ s.setBuf b x with links := links }.go p u).buf c = s.buf c := by
    intro c other
    change Function.update s.buf b x c = s.buf c
    rw [Function.update_of_ne other]
  have here : ({ s.setBuf b x with links := links }.go p u).buf b = x := by
    change Function.update s.buf b x b = x
    rw [Function.update_self]
  refine ⟨ring, ?_, ?_, fun q => ?_, fun c changed => ?_, coherent⟩
  · refine sound.counted.local p (fun q other => ?_) fun c => ?_
    · funext c
      unfold share
      rw [go_other other]
      rfl
    · unfold share
      rw [go_self, ← count c]
      by_cases same : c = b
      · rw [if_pos same, same, here]
      · rw [if_neg same, bufs c same]
  · refine sound.owned.keep fun q c => ?_
    by_cases same : q = p
    · rw [same, go_self, idle, stays]
    · rw [go_other same]
      rfl
  · by_cases same : q = p
    · rw [same, go_self]
      exact fits
    · rw [go_other same]
      refine (sound.fits q).keep (fun c m on at' => ?_) fun c locks => ?_
      · unfold Cache.At at at' ⊢
        by_cases touched : c = b
        · subst touched
          obtain ⟨dev,block,_⟩ := others q same on
          rw [here, dev, block]
          exact at'
        · rw [bufs c touched]
          exact at'
      · by_cases touched : c = b
        · subst touched
          obtain ⟨_,_,valid,dirty⟩ := others q same (locks_on locks)
          rw [here]
          exact ⟨valid, dirty⟩
        · rw [bufs c touched]
          exact ⟨rfl, rfl⟩
  · obtain ⟨q,m,holds⟩ := sound.quiet c changed
    have apart : q ≠ p := by
      rintro rfl
      rw [holds] at idle
      exact nomatch idle
    exact ⟨q, m, (go_other apart u).trans holds⟩

theorem hit_sound (sound : Sound s) (use : s.use p = .idle) (here : s.At b n) :
    Sound ((s.setBuf b { s.buf b with refcnt := (s.buf b).refcnt + 1 }).go p (.locking b n)) := by
  refine sound.ends (by rw [use]; rfl) rfl sound.ring (fun c => ?_) ?_ (fun q _ _ => ⟨rfl, rfl, rfl, rfl⟩) ?_
  · rw [use]
    by_cases same : c = b
    · subst same
      simp [Use.on]
    · simp [Use.on, same, Ne.symm same]
  · change (Function.update s.buf b _ b).dev = ROOTDEV ∧ (Function.update s.buf b _ b).blockno = n
    rw [Function.update_self]
    exact here
  · rw [line_refcnt]
    exact sound.coherent

theorem recycle_sound (sound : Sound s) (use : s.use p = .idle) (unused : (s.buf b).refcnt = 0) (clean : (s.buf b).dirty = false)
    (absent : ∀ c, ¬ s.At c n) :
    Sound ((s.setBuf b { s.buf b with dev := ROOTDEV, blockno := n, valid := false, dirty := false, refcnt := 1 }).go p
      (.locking b n)) := by
  have nobody : ∀ q, (s.use q).on ≠ some b := by
    intro q on
    have := sound.used on
    omega
  have quiet : s.changed b = false := by
    by_contra changed
    obtain ⟨q,m,holds⟩ := sound.quiet b (Bool.eq_true_of_not_eq_false changed)
    exact nobody q (by rw [holds]; rfl)
  have level : (line s b).dirty = false := by
    change ((s.buf b).dirty || s.changed b) = false
    rw [clean, quiet]
    rfl
  refine sound.ends (by rw [use]; rfl) rfl sound.ring (fun c => ?_) ?_ (fun q _ on => absurd on (nobody q)) ?_
  · rw [use]
    by_cases same : c = b
    · subst same
      simp [Use.on, unused]
    · simp [Use.on, same, Ne.symm same]
  · change (Function.update s.buf b _ b).dev = ROOTDEV ∧ (Function.update s.buf b _ b).blockno = n
    rw [Function.update_self]
    exact ⟨rfl, rfl⟩
  · refine sound.coherent.claim level (fun c key => absent c (at_of_key key)) (fun c other => ?_) ?_ ?_ ?_
    · change (Function.update s.buf b _ c).line (s.changed c) = _
      rw [Function.update_of_ne other]
      rfl
    all_goals
      unfold line Cache.setBuf
      dsimp only
      rw [Function.update_self]
    · rfl
    · rfl
    · exact quiet

theorem bget_sound (sound : Sound s) (use : s.use p = .idle) (run : bget s ROOTDEV n = some (b, t)) :
    Sound (t.go p (.locking b n)) := by
  obtain ⟨list,lists,all⟩ := sound.ring
  unfold bget at run
  rw [scan_next lists] at run
  split at run
  · rename_i c found
    obtain ⟨rfl,rfl⟩ := Prod.mk.inj (Option.some.inj run)
    have match' := List.find?_some found
    simp only [Bool.and_eq_true, beq_iff_eq] at match'
    exact hit_sound sound use match'
  · rename_i missing
    rw [scan_prev lists] at run
    split at run
    · rename_i c found
      obtain ⟨rfl,rfl⟩ := Prod.mk.inj (Option.some.inj run)
      have free := List.find?_some found
      simp only [Bool.and_eq_true, beq_iff_eq, Bool.not_eq_true'] at free
      refine recycle_sound sound use free.1 free.2 fun c here => ?_
      have miss := List.find?_eq_none.mp missing c (all c)
      simp only [Bool.and_eq_true, beq_iff_eq] at miss
      exact miss here
    · exact nomatch run

theorem relink_lists {l : Links} (ring : ∃ list, l.Lists list ∧ ∀ c, c ∈ list) (b : Fin NBUF) :
    ∃ list, ((l.unlink b).pushHead b).Lists list ∧ ∀ c, c ∈ list := by
  obtain ⟨list,lists,all⟩ := ring
  obtain ⟨front,back,rfl⟩ := List.append_of_mem (all b)
  have names := List.Nodup.of_map some (List.nodup_cons.mp lists.names).2
  rw [List.nodup_middle] at names
  refine ⟨b :: (front ++ back), pushHead_lists (unlink_lists lists) (List.nodup_cons.mp names).1, fun c => ?_⟩
  have member := all c
  rw [List.mem_append, List.mem_cons] at member
  rw [List.mem_cons, List.mem_append]
  tauto

theorem brelse_sound (sound : Sound s) (use : s.use p = .releasing b n) : Sound ((brelse s b).go p .idle) := by
  have used := sound.used (p := p) (b := b) (by rw [use]; rfl)
  have count : ∀ c, (if c = b then (s.buf b).refcnt - 1 else (s.buf c).refcnt) + (if (s.use p).on = some c then 1 else 0) =
      (s.buf c).refcnt + if Use.idle.on = some c then 1 else 0 := by
    intro c
    rw [use]
    by_cases same : c = b
    · subst same
      simp [Use.on]
      omega
    · simp [Use.on, same, Ne.symm same]
  have coherent : Coherent (line (s.setBuf b { s.buf b with refcnt := (s.buf b).refcnt - 1 })) (s.disk ROOTDEV) s.truth := by
    rw [line_refcnt]
    exact sound.coherent
  unfold brelse
  dsimp only
  split
  · exact sound.ends (by rw [use]; rfl) rfl (relink_lists sound.ring b) count trivial (fun q _ _ => ⟨rfl, rfl, rfl, rfl⟩) coherent
  · exact sound.ends (by rw [use]; rfl) rfl sound.ring count trivial (fun q _ _ => ⟨rfl, rfl, rfl, rfl⟩) coherent

end Steps

end Xv6Bio
