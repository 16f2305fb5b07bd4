import KernelLabs.Lab2.MlfqWakeup

/-!
The promotion pass. It raises the live processes below the top level and moves their entries,
but it treats unused slots in the same way, and `setpriority` writes to the first slot with the
pid it is given.
-/
namespace MlfqPromotion
open Mlfq MlfqQueued MlfqCapacity MlfqWakeup ArrayQueue
open Xv6Proc (NPROC Procstate)

/-- A slot that the pass treats. -/
def Eligible (t : Table) (p : Fin NPROC) : Prop := (t.proc p).state ≠ .zombie ∧ (t.proc p).priority < MAXPRIORITY

/-- A live process below the top level. -/
def Promoted (t : Table) (p : Fin NPROC) : Prop := (t.proc p).state ≠ .unused ∧ Eligible t p

instance (t : Table) : DecidablePred (Eligible t) := fun _ => inferInstanceAs (Decidable (_ ∧ _))
instance (t : Table) : DecidablePred (Promoted t) := fun p => inferInstanceAs (Decidable (_ ∧ Eligible t p))

def due (t : Table) (p : Fin NPROC) : Int := if Promoted t p then (t.proc p).priority + 1 else (t.proc p).priority

/-- The entries of slots in use. -/
def used (t : Table) (x : Option (Fin NPROC)) : Bool := x.any fun q => decide ((t.proc q).state ≠ .unused)

/-- The entries of slots in use that the pass leaves where they are. -/
def remains (t : Table) (x : Option (Fin NPROC)) : Bool := used t x && x.all fun q => !decide (Promoted t q)

/-- The pass moves the entry of `p` to level `l`. -/
def arrives (t : Table) (l : Int) (p : Fin NPROC) : Bool := decide (Promoted t p ∧ due t p = l)

/-- Exactly the live processes below the top level are raised by one, get a new budget and go to
    the tail of their new level in table order. -/
structure PromotesRight (t u : Table) : Prop where
  priority : ∀ q, (u.proc q).priority = due t q
  budget : ∀ q, (u.proc q).budget = if Promoted t q then DEFAULT_BUDGET else (t.proc q).budget
  moved : ∀ l : Int, 0 ≤ l → l ≤ MAXPRIORITY → (u.queue l).entries.filter (used t) =
    (t.queue l).entries.filter (remains t) ++ ((List.finRange NPROC).filter (arrives t l)).map some
  tidy : Tidy u

/-- The first slot with the pid of `p`. -/
def first (t : Table) (p : Fin NPROC) : Fin NPROC :=
  ((List.finRange NPROC).find? fun i => (t.proc i).pid == (t.proc p).pid).getD p

/-- The slots whose turn writes to slot `q`, in table order. -/
def writers (t : Table) (done : List (Fin NPROC)) (q : Fin NPROC) : List (Fin NPROC) :=
  done.filter fun p => decide (Eligible t p ∧ first t p = q)

/-- The pass does no harm: each live process is the first slot with its pid, and what is written
    to any other slot is what it has. -/
structure Harmless (t : Table) : Prop where
  own : ∀ p, Promoted t p → first t p = p
  last : ∀ q p, (writers t (List.finRange NPROC) q).getLast? = some p → (t.proc p).priority + 1 = due t q
  budget : ∀ q, ¬ Promoted t q → Eligible t q ∨ writers t (List.finRange NPROC) q ≠ [] → (t.proc q).budget = DEFAULT_BUDGET

section Turns
variable {t u : Table} {p : Fin NPROC}

theorem find_first (t : Table) (p : Fin NPROC) :
    ((List.finRange NPROC).find? fun i => (t.proc i).pid == (t.proc p).pid) = some (first t p) := by
  unfold first
  cases found : (List.finRange NPROC).find? fun i => (t.proc i).pid == (t.proc p).pid with
  | none => exact absurd (beq_self_eq_true _) (List.find?_eq_none.mp found p (List.mem_finRange p))
  | some i => rfl

theorem first_pid (t : Table) (p : Fin NPROC) : (t.proc (first t p)).pid = (t.proc p).pid := by
  simpa using List.find?_some (find_first t p)

theorem first_le (t : Table) (p : Fin NPROC) : first t p ≤ p := by
  by_contra less
  obtain ⟨_,done,later,whole,before⟩ := List.find?_eq_some_iff_append.mp (find_first t p)
  have miss := before p ((mem_earlier whole p).mpr (not_le.mp less))
  simp at miss

theorem first_congr (pids : ∀ i, (u.proc i).pid = (t.proc i).pid) (p : Fin NPROC) : first u p = first t p := by
  unfold first
  simp only [pids]

/-- Slot `q` after the turn of an eligible slot `p`. -/
def written (t : Table) (p q : Fin NPROC) : Proc :=
  { t.proc q with
    priority := if first t p = q then (t.proc p).priority + 1 else (t.proc q).priority
    budget := if first t p = q ∨ p = q then DEFAULT_BUDGET else (t.proc q).budget }

/-- One turn of the pass. -/
theorem promoteOne_eq (sound : Sound t) (eligible : Eligible t p) :
    promoteOne t p = enqueue { dequeue t p with proc := written t p } p := by
  have proc : (dequeue t p).proc = t.proc := (dequeue_spec sound p).2.2
  obtain ⟨low,_⟩ := sound.range p
  have fits : ¬ ((t.proc p).priority + 1 < 0 ∨ MAXPRIORITY < (t.proc p).priority + 1) := by
    have less := eligible.2
    omega
  have both : (t.proc p).state ≠ .zombie ∧ (t.proc p).priority < MAXPRIORITY := eligible
  unfold promoteOne
  rw [if_pos both]
  dsimp only
  rw [proc]
  unfold setpriority
  rw [if_neg fits]
  simp only [proc]
  rw [find_first]
  congr 1
  unfold resetBudget Table.set
  dsimp only
  congr 1
  funext q
  unfold written
  by_cases mine : q = p
  · subst mine
    by_cases own : first t q = q
    · simp [own]
    · simp [own, Ne.symm own, proc]
  · by_cases owner : first t p = q
    · subst owner
      simp [mine]
    · simp [mine, owner, Ne.symm owner, Ne.symm mine, proc]

theorem eraseIdx_filter {α : Type} [BEq α] [LawfulBEq α] {l : List α} {k : Nat} {x : α} (once : l.count x ≤ 1)
    (at_k : l[k]? = some x) : l.eraseIdx k = l.filter (· != x) := by
  obtain ⟨inside,same⟩ := List.getElem?_eq_some_iff.mp at_k
  have split : l = l.take k ++ x :: l.drop (k + 1) := by
    rw [← same, List.getElem_cons_drop, List.take_append_drop]
  have alone : x ∉ l.take k ∧ x ∉ l.drop (k + 1) := by
    rw [split, List.count_append, List.count_cons_self] at once
    exact ⟨List.count_eq_zero.mp (by omega), List.count_eq_zero.mp (by omega)⟩
  have other : ∀ m : List α, x ∉ m → m.filter (· != x) = m := by
    intro m away
    refine List.filter_eq_self.mpr fun y member => ?_
    rw [bne_iff_ne]
    exact fun eq => away (eq ▸ member)
  rw [List.eraseIdx_eq_take_drop_succ]
  conv_rhs => rw [split]
  rw [List.filter_append, List.filter_cons_of_neg (by simp), other _ alone.1, other _ alone.2]

/-- The first loops of a turn take every entry of `p` out of its level. -/
theorem dequeue_entries (once : ((t.queue (t.proc p).priority).entries).count (some p) ≤ 1) (l : Int) :
    ((dequeue t p).queue l).entries =
      if l = (t.proc p).priority then (t.queue l).entries.filter (· != some p) else (t.queue l).entries := by
  unfold dequeue
  dsimp only
  by_cases here : l = (t.proc p).priority
  · subst here
    rw [if_pos rfl]
    split
    · rename_i missing
      refine (List.filter_eq_self.mpr fun x member => ?_).symm
      rw [bne_iff_ne]
      exact fun eq => findEntry_none missing (eq ▸ member)
    · rename_i k found
      obtain ⟨inside,cell⟩ := findEntry_some found
      have entry : (t.queue (t.proc p).priority).entries[k]? = some (some p) := by
        rw [Queue.getElem?_entries, if_pos inside, cell]
      simp only [Table.setQueue, Function.update_self]
      rw [Queue.entries_removeAt inside]
      exact eraseIdx_filter once entry
  · rw [if_neg here]
    split
    · rfl
    · simp [Table.setQueue, here]

/-- The proc structures after the slots in `done` have had their turns. -/
def passed (t : Table) (done : List (Fin NPROC)) (q : Fin NPROC) : Proc :=
  { t.proc q with
    priority := ((writers t done q).getLast?.map fun p => (t.proc p).priority + 1).getD (t.proc q).priority
    budget := if (q ∈ done ∧ Eligible t q) ∨ writers t done q ≠ [] then DEFAULT_BUDGET else (t.proc q).budget }

/-- The entries of slots in use that the turns of `done` leave where they are. -/
def stays (t : Table) (done : List (Fin NPROC)) (x : Option (Fin NPROC)) : Bool :=
  used t x && x.all fun q => !decide (q ∈ done ∧ Promoted t q)

/-- The slots in `done` have had their turns. -/
structure Passed (t : Table) (done : List (Fin NPROC)) (u : Table) : Prop where
  sound : Sound u
  proc : u.proc = passed t done
  entries : (∀ q, Promoted t q → first t q = q) → Tidy t → ∀ l : Int, 0 ≤ l → l ≤ MAXPRIORITY →
    (u.queue l).entries.filter (used t) =
      (t.queue l).entries.filter (stays t done) ++ (done.filter (arrives t l)).map some

theorem passed_later {done later : List (Fin NPROC)} (whole : List.finRange NPROC = done ++ p :: later) :
    passed t done p = t.proc p := by
  have none : writers t done p = [] := by
    refine List.filter_eq_nil_iff.mpr fun q member writes => ?_
    have mine := (of_decide_eq_true writes).2
    exact absurd ((mem_earlier whole q).mp member) (not_lt.mpr (mine ▸ first_le t q))
  have fresh : p ∉ done := fun member => lt_irrefl p ((mem_earlier whole p).mp member)
  unfold passed
  rw [none, if_neg (by rintro (both | some); exacts [fresh both.1, some rfl])]
  rfl

theorem eligible_congr (same : u.proc p = t.proc p) : Eligible u p ↔ Eligible t p := by
  unfold Eligible
  rw [same]

/-- A turn that moves no process. -/
theorem stays_skip {done : List (Fin NPROC)} (out : ¬ Promoted t p) : stays t (done ++ [p]) = stays t done := by
  have same : ∀ q, (q ∈ done ++ [p] ∧ Promoted t q) ↔ (q ∈ done ∧ Promoted t q) := by
    intro q
    rw [List.mem_append, List.mem_singleton]
    constructor
    · rintro ⟨here | rfl, promoted⟩
      · exact ⟨here,promoted⟩
      · exact absurd promoted out
    · exact fun both => ⟨Or.inl both.1, both.2⟩
  funext x
  unfold stays
  simp only [same]

theorem arrives_skip {l : Int} (out : ¬ Promoted t p) : [p].filter (arrives t l) = [] :=
  List.filter_cons_of_neg fun arrived => out (of_decide_eq_true arrived).1

/-- A slot that the pass leaves out. -/
theorem passed_skip {done : List (Fin NPROC)} (before : Passed t done u) (out : ¬ Eligible t p) : Passed t (done ++ [p]) u := by
  have treated : ∀ q, (q ∈ done ++ [p] ∧ Eligible t q) ↔ (q ∈ done ∧ Eligible t q) := by
    intro q
    rw [List.mem_append, List.mem_singleton]
    constructor
    · rintro ⟨here | rfl, eligible⟩
      · exact ⟨here,eligible⟩
      · exact absurd eligible out
    · exact fun both => ⟨Or.inl both.1, both.2⟩
  have same : ∀ q, writers t (done ++ [p]) q = writers t done q := by
    intro q
    have none : [p].filter (fun p => decide (Eligible t p ∧ first t p = q)) = [] :=
      List.filter_cons_of_neg fun writes => out (of_decide_eq_true writes).1
    unfold writers
    rw [List.filter_append, none, List.append_nil]
  have idle : ¬ Promoted t p := fun promoted => out promoted.2
  refine ⟨before.sound, ?_, fun own tidy l low high => ?_⟩
  · rw [before.proc]
    funext q
    unfold passed
    simp only [treated, same]
  · rw [stays_skip idle, List.filter_append, arrives_skip idle, List.append_nil, before.entries own tidy l low high]

/-- The turn of slot `p` for the proc structures. -/
theorem written_passed {done later : List (Fin NPROC)} (whole : List.finRange NPROC = done ++ p :: later)
    (proc : u.proc = passed t done) (eligible : Eligible t p) : written u p = passed t (done ++ [p]) := by
  have mine : u.proc p = t.proc p := by rw [proc, passed_later whole]
  have owner : first u p = first t p := first_congr (fun i => by rw [proc]; rfl) p
  funext q
  have more : writers t (done ++ [p]) q = writers t done q ++ if first t p = q then [p] else [] := by
    unfold writers
    rw [List.filter_append]
    congr 1
    by_cases own : first t p = q
    · rw [if_pos own]
      exact List.filter_cons_of_pos (decide_eq_true ⟨eligible,own⟩)
    · rw [if_neg own]
      exact List.filter_cons_of_neg fun writes => own (of_decide_eq_true writes).2
  have treated : (q ∈ done ++ [p] ∧ Eligible t q) ↔ (q ∈ done ∧ Eligible t q) ∨ p = q := by
    rw [List.mem_append, List.mem_singleton]
    constructor
    · rintro ⟨here | rfl, also⟩
      · exact Or.inl ⟨here,also⟩
      · exact Or.inr rfl
    · rintro (both | rfl)
      · exact ⟨Or.inl both.1, both.2⟩
      · exact ⟨Or.inr rfl, eligible⟩
  unfold written
  rw [owner, mine, proc]
  unfold passed
  rw [more]
  simp only [treated]
  by_cases own : first t p = q
  · simp [own]
  · by_cases self : p = q
    · subst self
      simp [own]
    · simp [own, self]

theorem filter_eraseIdx {α : Type} {f : α → Bool} {l : List α} {k : Nat} {x : α} (at_k : l[k]? = some x) (out : f x = false) :
    (l.eraseIdx k).filter f = l.filter f := by
  obtain ⟨inside,same⟩ := List.getElem?_eq_some_iff.mp at_k
  have split : l = l.take k ++ x :: l.drop (k + 1) := by
    rw [← same, List.getElem_cons_drop, List.take_append_drop]
  rw [List.eraseIdx_eq_take_drop_succ]
  conv_rhs => rw [split]
  rw [List.filter_append, List.filter_append, List.filter_cons_of_neg (by simp [out])]

/-- The entries of slots in use when an unused slot is taken out of its level. -/
theorem dequeue_unused (out : used t (some p) = false) (l : Int) :
    ((dequeue u p).queue l).entries.filter (used t) = (u.queue l).entries.filter (used t) := by
  unfold dequeue
  dsimp only
  split
  · rfl
  · rename_i k found
    obtain ⟨inside,cell⟩ := findEntry_some found
    by_cases here : l = (u.proc p).priority
    · subst here
      simp only [Table.setQueue, Function.update_self]
      rw [Queue.entries_removeAt inside]
      refine filter_eraseIdx ?_ out
      rw [Queue.getElem?_entries, if_pos inside, cell]
    · simp [Table.setQueue, here]

theorem promoted_used (promoted : Promoted t p) : used t (some p) = true := decide_eq_true promoted.1

/-- A process whose turn is still to come is where it was. -/
theorem passed_count {done later : List (Fin NPROC)} (whole : List.finRange NPROC = done ++ p :: later)
    (before : Passed t done u) (own : ∀ q, Promoted t q → first t q = q) (tidy : Tidy t) (promoted : Promoted t p)
    {l : Int} (low : 0 ≤ l) (high : l ≤ MAXPRIORITY) : (u.queue l).entries.count (some p) = (t.queue l).entries.count (some p) := by
  have fresh : p ∉ done := fun member => lt_irrefl p ((mem_earlier whole p).mp member)
  have none : some p ∉ (done.filter (arrives t l)).map some := by
    intro member
    obtain ⟨q,inside,same⟩ := List.mem_map.mp member
    exact fresh (Option.some.inj same ▸ List.mem_of_mem_filter inside)
  have here : stays t done (some p) = true := by simp [stays, promoted_used promoted, fresh]
  rw [← List.count_filter (promoted_used promoted), before.entries own tidy l low high, List.count_append, List.count_filter here,
    List.count_eq_zero_of_not_mem none, Nat.add_zero]

/-- The turn of a process takes its entry out. -/
theorem stays_promoted {done : List (Fin NPROC)} (promoted : Promoted t p) (l : List (Option (Fin NPROC))) :
    l.filter (stays t (done ++ [p])) = (l.filter (stays t done)).filter (· != some p) := by
  rw [List.filter_filter]
  refine List.filter_congr fun x _ => ?_
  cases x with
  | none => rfl
  | some q =>
    by_cases same : q = p
    · subst same
      simp [stays, promoted]
    · simp [stays, same]

/-- The loops of the turn of slot `p`. -/
theorem promoted_entries {done later : List (Fin NPROC)} (whole : List.finRange NPROC = done ++ p :: later) (sound : Sound t)
    (before : Passed t done u) (own : ∀ q, Promoted t q → first t q = q) (tidy : Tidy t) (promoted : Promoted t p)
    {l : Int} (low : 0 ≤ l) (high : l ≤ MAXPRIORITY) : ((dequeue u p).queue l).entries.filter (used t) =
      (t.queue l).entries.filter (stays t (done ++ [p])) ++ (done.filter (arrives t l)).map some := by
  have mine : u.proc p = t.proc p := by rw [before.proc, passed_later whole]
  obtain ⟨bottom,top⟩ := sound.range p
  have once := tidy p promoted.1 _ bottom top
  rw [if_pos rfl, ← passed_count whole before own tidy promoted bottom top, ← mine] at once
  have fresh : p ∉ done := fun member => lt_irrefl p ((mem_earlier whole p).mp member)
  have rest : ((done.filter (arrives t l)).map some).filter (· != some p) = (done.filter (arrives t l)).map some := by
    refine List.filter_eq_self.mpr fun x member => ?_
    obtain ⟨q,inside,rfl⟩ := List.mem_map.mp member
    rw [bne_iff_ne]
    exact fun same => fresh (Option.some.inj same ▸ List.mem_of_mem_filter inside)
  rw [dequeue_entries once, mine, stays_promoted promoted]
  by_cases here : l = (t.proc p).priority
  · rw [if_pos here, List.filter_comm, before.entries own tidy l low high, List.filter_append, rest]
  · have gone := tidy p promoted.1 l low high
    rw [if_neg here] at gone
    rw [if_neg here, before.entries own tidy l low high]
    congr 1
    refine (List.filter_eq_self.mpr fun x member => ?_).symm
    rw [bne_iff_ne]
    rintro rfl
    have more := List.count_pos_iff.mpr (List.mem_of_mem_filter member)
    omega

/-- One turn of the pass keeps `Passed`. -/
theorem promoteOne_passed {done later : List (Fin NPROC)} (whole : List.finRange NPROC = done ++ p :: later) (sound : Sound t)
    (before : Passed t done u) : Passed t (done ++ [p]) (promoteOne u p) := by
  have mine : u.proc p = t.proc p := by rw [before.proc, passed_later whole]
  by_cases eligible : Eligible t p
  · have also : Eligible u p := (eligible_congr mine).mpr eligible
    have proc := written_passed whole before.proc eligible
    have after := (keeps_promoteOne before.sound p).1.sound
    rw [promoteOne_eq before.sound also] at after ⊢
    have out : Sound { dequeue u p with proc := written u p } := ⟨after.range, (dequeue_spec before.sound p).1.sized⟩
    refine ⟨after, proc, fun own tidy l low high => ?_⟩
    rw [enqueue_entries p (out.sized l), List.filter_append, List.filter_append, List.map_append]
    change ((dequeue u p).queue l).entries.filter (used t) ++ (if l = (written u p p).priority then [some p] else []).filter (used t) = _
    by_cases promoted : Promoted t p
    · have level : (written u p p).priority = due t p := by
        have owner : first u p = p := (first_congr (fun i => by rw [before.proc]; rfl) p).trans (own p promoted)
        unfold written due
        rw [owner, if_pos rfl, if_pos promoted, mine]
      rw [promoted_entries whole sound before own tidy promoted low high, List.append_assoc, level]
      congr 2
      by_cases here : l = due t p
      · have arrived : arrives t l p = true := decide_eq_true ⟨promoted, here.symm⟩
        rw [if_pos here, List.filter_cons_of_pos (promoted_used promoted), List.filter_cons_of_pos arrived]
        rfl
      · have away : ¬ arrives t l p = true := fun arrived => here (of_decide_eq_true arrived).2.symm
        rw [if_neg here, List.filter_cons_of_neg away]
        rfl
    · have unused : used t (some p) = false := decide_eq_false fun used => promoted ⟨used,eligible⟩
      have none : (if l = (written u p p).priority then [some p] else []).filter (used t) = [] := by
        split
        · exact List.filter_cons_of_neg (by rw [unused]; decide)
        · rfl
      rw [none, arrives_skip promoted, stays_skip promoted, dequeue_unused unused, before.entries own tidy l low high,
        List.map_nil, List.append_nil, List.append_nil]
  · have skip : promoteOne u p = u := by
      unfold promoteOne
      exact if_neg fun both => eligible ((eligible_congr mine).mp both)
    rw [skip]
    exact passed_skip before eligible

theorem promote_passed (sound : Sound t) : Passed t (List.finRange NPROC) (promote t) := by
  have fold : ∀ (later done : List (Fin NPROC)) (u : Table), List.finRange NPROC = done ++ later → Passed t done u →
      Passed t (List.finRange NPROC) (later.foldl promoteOne u) := by
    intro later
    induction later with
    | nil =>
      intro done u whole before
      rw [whole, List.append_nil]
      exact before
    | cons p rest ih =>
      intro done u whole before
      have next : List.finRange NPROC = (done ++ [p]) ++ rest := by rw [whole, List.append_assoc, List.singleton_append]
      exact ih (done ++ [p]) (promoteOne u p) next (promoteOne_passed whole sound before)
  refine fold (List.finRange NPROC) [] t rfl ⟨sound, ?_, fun own tidy l _ _ => ?_⟩
  · funext q
    simp [passed, writers]
  · rw [List.filter_nil, List.map_nil, List.append_nil]
    refine List.filter_congr fun x _ => ?_
    cases x <;> simp [stays, used]

/-- Some turn writes to a live process below the top level. -/
theorem writers_of_raised {q p : Fin NPROC} (last : (writers t (List.finRange NPROC) q).getLast? = some p) :
    (t.proc q).pid = (t.proc p).pid ∧ first t p = q := by
  have writes := of_decide_eq_true (List.mem_filter.mp (List.mem_of_getLast? last)).2
  exact ⟨writes.2 ▸ first_pid t p, writes.2⟩

theorem first_of_pid {q : Fin NPROC} (same : (t.proc q).pid = (t.proc p).pid) : first t q = first t p := by
  have found := find_first t q
  rw [same, find_first t p] at found
  exact (Option.some.inj found).symm

/-- A process that is the first slot with its pid is written to. -/
theorem writers_own (own : first t p = p) (eligible : Eligible t p) : writers t (List.finRange NPROC) p ≠ [] := by
  have member : p ∈ writers t (List.finRange NPROC) p :=
    List.mem_filter.mpr ⟨List.mem_finRange p, decide_eq_true ⟨eligible,own⟩⟩
  exact fun none => List.not_mem_nil (none ▸ member)

theorem due_ne (promoted : Promoted t p) : due t p ≠ (t.proc p).priority := by
  unfold due
  rw [if_pos promoted]
  omega

theorem harmless_of_right (sound : Sound t) (right : PromotesRight t (promote t)) : Harmless t := by
  have proc := (promote_passed sound).proc
  have priority : ∀ q, ((writers t (List.finRange NPROC) q).getLast?.map fun p => (t.proc p).priority + 1).getD (t.proc q).priority =
      due t q := by
    intro q
    rw [← right.priority q, proc]
    rfl
  refine ⟨fun p promoted => ?_, fun q p last => ?_, fun q other touched => ?_⟩
  · cases last : (writers t (List.finRange NPROC) p).getLast? with
    | none =>
      have same := priority p
      rw [last] at same
      exact absurd same.symm (due_ne promoted)
    | some r =>
      obtain ⟨pid,writes⟩ := writers_of_raised last
      exact (first_of_pid pid).trans writes
  · have same := priority q
    rwa [last] at same
  · have kept := right.budget q
    rw [if_neg other, proc] at kept
    have treated : (q ∈ List.finRange NPROC ∧ Eligible t q) ∨ writers t (List.finRange NPROC) q ≠ [] := by
      rcases touched with eligible | written
      · exact Or.inl ⟨List.mem_finRange q, eligible⟩
      · exact Or.inr written
    unfold passed at kept
    rw [if_pos treated] at kept
    exact kept.symm

theorem right_of_harmless (sound : Sound t) (tidy : Tidy t) (harmless : Harmless t) : PromotesRight t (promote t) := by
  have after := promote_passed sound
  have priority : ∀ q, ((promote t).proc q).priority = due t q := by
    intro q
    rw [after.proc]
    change ((writers t (List.finRange NPROC) q).getLast?.map fun p => (t.proc p).priority + 1).getD (t.proc q).priority = due t q
    cases last : (writers t (List.finRange NPROC) q).getLast? with
    | none =>
      have idle : ¬ Promoted t q := fun promoted =>
        writers_own (harmless.own q promoted) promoted.2 (List.getLast?_eq_none_iff.mp last)
      unfold due
      rw [if_neg idle]
      rfl
    | some p => exact harmless.last q p last
  have moved : ∀ l : Int, 0 ≤ l → l ≤ MAXPRIORITY → ((promote t).queue l).entries.filter (used t) =
      (t.queue l).entries.filter (remains t) ++ ((List.finRange NPROC).filter (arrives t l)).map some := by
    intro l low high
    have same : stays t (List.finRange NPROC) = remains t := by
      funext x
      unfold stays remains
      simp only [List.mem_finRange, true_and]
    rw [after.entries harmless.own tidy l low high, same]
  refine ⟨priority, fun q => ?_, moved, fun p used' l low high => ?_⟩
  · rw [after.proc]
    unfold passed
    by_cases promoted : Promoted t q
    · rw [if_pos promoted]
      exact if_pos (Or.inl ⟨List.mem_finRange q, promoted.2⟩)
    · rw [if_neg promoted]
      by_cases treated : (q ∈ List.finRange NPROC ∧ Eligible t q) ∨ writers t (List.finRange NPROC) q ≠ []
      · rw [if_pos treated, harmless.budget q promoted (treated.imp_left And.right)]
      · rw [if_neg treated]
  · have inUse : used t (some p) = true := by
      rw [after.proc] at used'
      exact decide_eq_true used'
    rw [priority, ← List.count_filter inUse, moved l low high, List.count_append,
      List.count_map_of_injective _ _ (Option.some_injective _)]
    by_cases promoted : Promoted t p
    · have gone : some p ∉ (t.queue l).entries.filter (remains t) := by
        intro member
        have stays := (List.mem_filter.mp member).2
        simp [remains, promoted] at stays
      rw [List.count_eq_zero_of_not_mem gone, Nat.zero_add]
      by_cases here : l = due t p
      · rw [if_pos here]
        exact List.nodup_iff_count_le_one.mp ((List.nodup_finRange NPROC).filter _) p
      · have away : p ∉ (List.finRange NPROC).filter (arrives t l) :=
          fun member => here (of_decide_eq_true (List.mem_filter.mp member).2).2.symm
        rw [if_neg here, List.count_eq_zero_of_not_mem away]
    · have stays : remains t (some p) = true := by simp [remains, inUse, promoted]
      have away : p ∉ (List.finRange NPROC).filter (arrives t l) :=
        fun member => promoted (of_decide_eq_true (List.mem_filter.mp member).2).1
      rw [List.count_filter stays, List.count_eq_zero_of_not_mem away, Nat.add_zero]
      unfold due
      rw [if_neg promoted]
      exact tidy p (of_decide_eq_true inUse) l low high

/-- No two slots in use have the same pid. -/
def Distinct (t : Table) : Prop :=
  ∀ p q, (t.proc p).state ≠ .unused → (t.proc q).state ≠ .unused → (t.proc p).pid = (t.proc q).pid → p = q

/-- It goes wrong when the turn of an unused slot changes anything. -/
theorem promotes_right_iff (sound : Sound t) (_distinct : Distinct t) (tidy : Tidy t) :
    PromotesRight t (promote t) ↔ Harmless t :=
  ⟨harmless_of_right sound, right_of_harmless sound tidy⟩

end Turns

/-- Slot 0 runs at the lowest level and the other slots are unused. -/
def oneProcess (rest : Proc) : Table where
  proc := fun p => if p = 0 then ⟨.runnable, 1, none, none, false, 0, 3⟩ else rest
  queue := fun l => if l = 0 then Queue.empty.push 0 else .empty
  overran := false

theorem oneProcess_other {rest : Proc} {p : Fin NPROC} (other : p ≠ 0) : (oneProcess rest).proc p = rest := if_neg other

theorem oneProcess_used {rest : Proc} (unused : rest.state = .unused) {p : Fin NPROC}
    (inUse : ((oneProcess rest).proc p).state ≠ .unused) : p = 0 := by
  by_contra other
  rw [oneProcess_other other] at inUse
  exact inUse unused

theorem oneProcess_sound {rest : Proc} (range : 0 ≤ rest.priority ∧ rest.priority ≤ MAXPRIORITY) : Sound (oneProcess rest) := by
  refine ⟨fun p => ?_, fun l => ?_⟩
  · by_cases zero : p = 0
    · rw [zero]
      exact ⟨Int.le_refl 0, show (0 : Int) ≤ MAXPRIORITY by decide⟩
    · rw [oneProcess_other zero]
      exact range
  · unfold oneProcess
    dsimp only
    split <;> decide

theorem oneProcess_distinct {rest : Proc} (unused : rest.state = .unused) : Distinct (oneProcess rest) :=
  fun _ _ first second _ => (oneProcess_used unused first).trans (oneProcess_used unused second).symm

theorem oneProcess_tidy {rest : Proc} (unused : rest.state = .unused) : Tidy (oneProcess rest) := by
  intro p inUse l _ _
  have zero := oneProcess_used unused inUse
  subst zero
  have level : ((oneProcess rest).proc 0).priority = 0 := rfl
  rw [level]
  by_cases bottom : l = 0
  · subst bottom
    have entries : ((oneProcess rest).queue 0).entries = [some 0] := rfl
    rw [entries, if_pos rfl]
    decide
  · have none : ((oneProcess rest).queue l).entries = [] := by
      unfold oneProcess
      dsimp only
      rw [if_neg bottom]
      rfl
    rw [none, if_neg bottom]
    exact Nat.le_refl 0

/-- The unused slots are as they are at boot: the pass gives them a budget. -/
theorem unused_promoted : Sound (oneProcess ⟨.unused, 0, none, none, false, 0, 0⟩) ∧
    Distinct (oneProcess ⟨.unused, 0, none, none, false, 0, 0⟩) ∧ Tidy (oneProcess ⟨.unused, 0, none, none, false, 0, 0⟩) ∧
    ¬ PromotesRight (oneProcess ⟨.unused, 0, none, none, false, 0, 0⟩) (promote (oneProcess ⟨.unused, 0, none, none, false, 0, 0⟩)) := by
  have sound : Sound (oneProcess ⟨.unused, 0, none, none, false, 0, 0⟩) := oneProcess_sound (by decide)
  refine ⟨sound, oneProcess_distinct rfl, oneProcess_tidy rfl, fun right => ?_⟩
  have budget := (harmless_of_right sound right).budget 1 (by decide) (Or.inl (by decide))
  exact absurd budget (by decide)

theorem promotes_right_iff_top : PromotesRight (oneProcess ⟨.unused, 0, none, none, false, 2, 0⟩)
    (promote (oneProcess ⟨.unused, 0, none, none, false, 2, 0⟩)) ↔ Harmless (oneProcess ⟨.unused, 0, none, none, false, 2, 0⟩) :=
  promotes_right_iff (oneProcess_sound (by decide)) (oneProcess_distinct rfl) (oneProcess_tidy rfl)

end MlfqPromotion
