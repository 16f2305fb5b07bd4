import KernelLabs.Lab2.MlfqCapacity

/-!
What `wakeup1` appends. Its search for a process stops one short of the last entry of a
level, so the process of the last entry is appended a second time, unless one that was
woken before it has been appended to that level.
-/
namespace MlfqWakeup
open Mlfq MlfqQueued MlfqCapacity ArrayQueue
open Xv6Proc (NPROC Procstate Chan)

def Asleep (t : Table) (chan : Option Chan) (p : Fin NPROC) : Prop :=
  (t.proc p).state = .sleeping ∧ (t.proc p).chan = chan

/-- The entries of the level of `p`. -/
def home (t : Table) (p : Fin NPROC) : List (Option (Fin NPROC)) := (t.queue (t.proc p).priority).entries

/-- Each process is queued at most once, and only in its own level. -/
def Tidy (t : Table) : Prop :=
  ∀ p, (t.proc p).state ≠ .unused → ∀ l : Int, 0 ≤ l → l ≤ MAXPRIORITY →
    (t.queue l).entries.count (some p) ≤ if l = (t.proc p).priority then 1 else 0

/-- The search of `wakeup1` does not see `p`: it is the last entry, and no slot before it
    has been appended to its level. -/
def Missed (t : Table) (chan : Option Chan) (p : Fin NPROC) : Prop :=
  (home t p).getLast? = some (some p) ∧
    ∀ q, q < p → Asleep t chan q → (t.proc q).priority = (t.proc p).priority → some q ∈ home t p

/-- `wakeup1` appends `p` to level `l`. -/
def Added (t : Table) (chan : Option Chan) (l : Int) (p : Fin NPROC) : Prop :=
  Asleep t chan p ∧ (t.proc p).priority = l ∧ (some p ∉ home t p ∨ Missed t chan p)

instance (t : Table) (chan : Option Chan) (p : Fin NPROC) : Decidable (Asleep t chan p) :=
  inferInstanceAs (Decidable (_ ∧ _))

instance (t : Table) (chan : Option Chan) (p : Fin NPROC) : Decidable (Missed t chan p) :=
  inferInstanceAs (Decidable (_ ∧ ∀ q, q < p → Asleep t chan q → (t.proc q).priority = (t.proc p).priority → some q ∈ home t p))

instance (t : Table) (chan : Option Chan) (l : Int) : DecidablePred (Added t chan l) :=
  fun p => inferInstanceAs (Decidable (Asleep t chan p ∧ (t.proc p).priority = l ∧ (some p ∉ home t p ∨ Missed t chan p)))

/-- Exactly the sleepers on `chan` are woken and queued once, and nothing else moves. -/
structure WakesRight (chan : Option Chan) (t u : Table) : Prop where
  woken : ∀ q, u.proc q = if Asleep t chan q then { t.proc q with state := .runnable } else t.proc q
  tidy : Tidy u
  once : ∀ q, Asleep t chan q → (home u q).count (some q) = 1
  order : ∀ l, (u.queue l).entries.filter (fun x => !(x.any fun q => decide (Asleep t chan q))) =
    (t.queue l).entries.filter fun x => !(x.any fun q => decide (Asleep t chan q))

section Lists
variable {α : Type}

/-- An entry that occurs at most once is the last one or before it. -/
theorem not_mem_dropLast [BEq α] [LawfulBEq α] {l : List α} {x : α} (once : l.count x ≤ 1) : x ∉ l.dropLast ↔ x ∉ l ∨ l.getLast? = some x := by
  rcases List.eq_nil_or_concat l with rfl | ⟨front,y,rfl⟩
  · simp
  · rw [List.concat_eq_append] at once ⊢
    rw [List.dropLast_concat, List.getLast?_concat, List.mem_append, List.mem_singleton, Option.some.injEq]
    rw [List.count_append, List.count_singleton] at once
    constructor
    · intro away
      by_cases same : x = y
      · exact Or.inr same.symm
      · exact Or.inl (not_or.mpr ⟨away,same⟩)
    · rintro (away | rfl)
      · exact fun member => away (Or.inl member)
      · refine fun member => ?_
        have more := List.count_pos_iff.mpr member
        rw [if_pos (beq_self_eq_true _)] at once
        omega

theorem dropLast_entries (q : Queue α) : q.entries.dropLast = (List.range q.size.toNat).map q.cell := by
  have shorter : q.count - 1 = q.size.toNat := by
    unfold Queue.count
    omega
  unfold Queue.entries
  rw [List.dropLast_eq_take, List.length_map, List.length_range, ← List.map_take, List.take_range, shorter,
    Nat.min_eq_left (by omega)]

end Lists

section Turns
variable {t u : Table} {chan : Option Chan} {p : Fin NPROC}

theorem findEntry_none_iff (q : Queue (Fin NPROC)) (p : Fin NPROC) :
    findEntry q p q.size.toNat = none ↔ some p ∉ q.entries.dropLast := by
  rw [dropLast_entries]
  unfold findEntry
  rw [List.find?_eq_none]
  simp only [List.mem_map, List.mem_range, beq_iff_eq]
  exact ⟨fun missing ⟨i,low,cell⟩ => missing i low cell, fun missing i low cell => missing ⟨i,low,cell⟩⟩

/-- The slots of a prefix of the table are those before the next one. -/
theorem mem_earlier {done later : List (Fin NPROC)} (whole : List.finRange NPROC = done ++ p :: later) (q : Fin NPROC) :
    q ∈ done ↔ q < p := by
  have sorted : (done ++ p :: later).Pairwise (· < ·) := whole ▸ List.pairwise_lt_finRange NPROC
  obtain ⟨_,tail,across⟩ := List.pairwise_append.mp sorted
  refine ⟨fun member => across q member p List.mem_cons_self, fun less => ?_⟩
  have member : q ∈ done ++ p :: later := whole ▸ List.mem_finRange q
  rcases List.mem_append.mp member with before | after
  · exact before
  · rcases List.mem_cons.mp after with rfl | after
    · exact absurd less (lt_irrefl q)
    · exact absurd less (not_lt_of_gt ((List.pairwise_cons.mp tail).1 q after))

/-- What the slots in `done` have been given. -/
structure Woken (chan : Option Chan) (t : Table) (done : List (Fin NPROC)) (u : Table) : Prop where
  proc : ∀ q, u.proc q = if q ∈ done ∧ Asleep t chan q then { t.proc q with state := .runnable } else t.proc q
  entries : ∀ l, (u.queue l).entries = (t.queue l).entries ++ (done.filter (Added t chan l)).map some
  sized : ∀ l, -1 ≤ (u.queue l).size

theorem not_found_iff (once : (home t p).count (some p) ≤ 1) {done later : List (Fin NPROC)}
    (whole : List.finRange NPROC = done ++ p :: later) :
    (some p ∉ (home t p ++ (done.filter (Added t chan (t.proc p).priority)).map some).dropLast) ↔
      (some p ∉ home t p ∨ Missed t chan p) := by
  by_cases none : done.filter (Added t chan (t.proc p).priority) = []
  · have earlier : ∀ q, q < p → Asleep t chan q → (t.proc q).priority = (t.proc p).priority → some q ∈ home t p := by
      intro q less asleep level
      by_contra away
      have added : Added t chan (t.proc p).priority q := ⟨asleep, level, Or.inl (by unfold home at away ⊢; rwa [level])⟩
      have member : q ∈ done.filter (Added t chan (t.proc p).priority) :=
        List.mem_filter.mpr ⟨(mem_earlier whole q).mpr less, decide_eq_true added⟩
      rw [none] at member
      exact nomatch member
    rw [none, List.map_nil, List.append_nil, not_mem_dropLast once]
    exact or_congr_right ⟨fun last => ⟨last,earlier⟩, fun missed => missed.1⟩
  · have kept : (done.filter (Added t chan (t.proc p).priority)).map some ≠ [] := fun eq => none (List.map_eq_nil_iff.mp eq)
    obtain ⟨q,member⟩ := List.exists_mem_of_ne_nil _ none
    obtain ⟨before,added⟩ := List.mem_filter.mp member
    obtain ⟨asleep,level,why⟩ := of_decide_eq_true added
    have less := (mem_earlier whole q).mp before
    rw [List.dropLast_append_of_ne_nil kept, List.mem_append, not_or]
    constructor
    · exact fun away => Or.inl away.1
    · rintro (away | missed)
      · refine ⟨away, fun there => ?_⟩
        obtain ⟨r,inside,same⟩ := List.mem_map.mp (List.mem_of_mem_dropLast there)
        have less := (mem_earlier whole r).mp (List.mem_of_mem_filter inside)
        exact absurd less (Option.some.inj same ▸ lt_irrefl r)
      · -- A slot that was appended before has an entry already, so it was the last one, and that is `p`.
        have there := missed.2 q less asleep level
        have same : home t q = home t p := by
          unfold home
          rw [level]
        rcases why with away | missedQ
        · exact absurd (same ▸ there) away
        · have lastQ := missedQ.1
          rw [same, missed.1, Option.some.injEq, Option.some.injEq] at lastQ
          exact absurd less (lastQ ▸ lt_irrefl p)

theorem added_none {l : Int} (away : ¬ Added t chan l p) : [p].filter (Added t chan l) = [] :=
  List.filter_cons_of_neg fun added => away (of_decide_eq_true added)

theorem woken_skip {done : List (Fin NPROC)} (woken : Woken chan t done u) (awake : ¬ Asleep t chan p) :
    Woken chan t (done ++ [p]) u := by
  refine ⟨fun q => ?_, fun l => ?_, woken.sized⟩
  · have same : (q ∈ done ++ [p] ∧ Asleep t chan q) ↔ (q ∈ done ∧ Asleep t chan q) := by
      rw [List.mem_append, List.mem_singleton]
      constructor
      · rintro ⟨before | rfl, asleep⟩
        · exact ⟨before,asleep⟩
        · exact absurd asleep awake
      · exact fun both => ⟨Or.inl both.1, both.2⟩
    rw [woken.proc q]
    simp only [same]
  · rw [woken.entries l, List.filter_append, added_none fun added => awake added.1, List.append_nil]

/-- One turn of `wakeup1`. -/
theorem wakeOne_woken (tidy : Asleep t chan p → (home t p).count (some p) ≤ 1) {done later : List (Fin NPROC)}
    (whole : List.finRange NPROC = done ++ p :: later) (woken : Woken chan t done u) :
    Woken chan t (done ++ [p]) (wakeOne chan u p) := by
  have fresh : u.proc p = t.proc p := by
    rw [woken.proc p, if_neg]
    exact fun both => lt_irrefl p ((mem_earlier whole p).mp both.1)
  unfold wakeOne
  rw [fresh]
  by_cases asleep : Asleep t chan p
  · have proc : ∀ q, (u.set p { t.proc p with state := .runnable }).proc q =
        if q ∈ done ++ [p] ∧ Asleep t chan q then { t.proc q with state := .runnable } else t.proc q := by
      intro q
      by_cases same : q = p
      · subst same
        rw [if_pos ⟨List.mem_append_right done (List.mem_singleton.mpr rfl), asleep⟩]
        simp [Table.set]
      · have other : (u.set p { t.proc p with state := .runnable }).proc q = u.proc q := by simp [Table.set, same]
        rw [other, woken.proc q]
        simp only [List.mem_append, List.mem_singleton, same, or_false]
    have mine : ((u.set p { t.proc p with state := .runnable }).proc p).priority = (t.proc p).priority := by simp [Table.set]
    have entries : ((u.queue (t.proc p).priority).entries) =
        home t p ++ (done.filter (Added t chan (t.proc p).priority)).map some := woken.entries _
    have due : (t.proc p).state = .sleeping ∧ (t.proc p).chan = chan := asleep
    rw [if_pos due]
    dsimp only
    rw [mine]
    split
    · rename_i k found
      replace found : findEntry (u.queue (t.proc p).priority) p (u.queue (t.proc p).priority).size.toNat = some k := found
      have seen : ¬ (some p ∉ home t p ∨ Missed t chan p) := by
        rw [← not_found_iff (tidy asleep) whole, ← entries, ← findEntry_none_iff, found]
        simp
      refine ⟨proc, fun l => ?_, woken.sized⟩
      rw [List.filter_append, added_none fun added => seen added.2.2, List.append_nil]
      exact woken.entries l
    · rename_i found
      have unseen : some p ∉ home t p ∨ Missed t chan p := by
        rw [← not_found_iff (tidy asleep) whole, ← entries, ← findEntry_none_iff]
        exact found
      refine ⟨proc, fun l => ?_, fun l => ?_⟩
      · rw [enqueue_queue, mine]
        by_cases same : l = (t.proc p).priority
        · have added : Added t chan l p := ⟨asleep, same.symm, unseen⟩
          have one : [p].filter (Added t chan l) = [p] := List.filter_cons_of_pos (decide_eq_true added)
          rw [← same, Function.update_self, List.filter_append, one, List.map_append, List.map_singleton, ← List.append_assoc,
            ← woken.entries l]
          exact Queue.entries_push (woken.sized l) p
        · rw [Function.update_of_ne same, List.filter_append, added_none fun added => same added.2.1.symm, List.append_nil]
          exact woken.entries l
      · rw [enqueue_queue, mine]
        by_cases same : l = (t.proc p).priority
        · rw [same, Function.update_self, Queue.size_push]
          have sized := woken.sized (t.proc p).priority
          change -1 ≤ (u.queue (t.proc p).priority).size + 1
          omega
        · rw [Function.update_of_ne same]
          exact woken.sized l
  · have awake : ¬ ((t.proc p).state = .sleeping ∧ (t.proc p).chan = chan) := asleep
    rw [if_neg awake]
    exact woken_skip woken asleep

theorem wakeup_woken (tidy : ∀ p, Asleep t chan p → (home t p).count (some p) ≤ 1) {done later : List (Fin NPROC)}
    (whole : List.finRange NPROC = done ++ later) (woken : Woken chan t done u) :
    Woken chan t (List.finRange NPROC) (later.foldl (wakeOne chan) u) := by
  induction later generalizing done u with
  | nil =>
    rw [whole, List.append_nil]
    exact woken
  | cons p rest ih =>
    have next : List.finRange NPROC = (done ++ [p]) ++ rest := by rw [whole, List.append_assoc, List.singleton_append]
    exact ih next (wakeOne_woken (tidy p) whole woken)

theorem added_count (t : Table) (chan : Option Chan) (l : Int) (q : Fin NPROC) :
    (((List.finRange NPROC).filter (Added t chan l)).map some).count (some q) = if Added t chan l q then 1 else 0 := by
  rw [List.count_map_of_injective _ _ (Option.some_injective _)]
  by_cases added : Added t chan l q
  · rw [if_pos added]
    exact List.count_eq_one_of_mem ((List.nodup_finRange NPROC).filter _)
      (List.mem_filter.mpr ⟨List.mem_finRange q, decide_eq_true added⟩)
  · rw [if_neg added]
    exact List.count_eq_zero_of_not_mem fun member => added (of_decide_eq_true (List.mem_filter.mp member).2)

theorem wakeup1_woken (sound : Sound t) (tidy : ∀ p, Asleep t chan p → (home t p).count (some p) ≤ 1) :
    Woken chan t (List.finRange NPROC) (wakeup1 t chan) := by
  have start : Woken chan t [] t := by
    refine ⟨fun q => ?_, fun l => ?_, sound.sized⟩
    · rw [if_neg fun both => List.not_mem_nil both.1]
    · rw [List.filter_nil, List.map_nil, List.append_nil]
  exact wakeup_woken tidy rfl start

theorem asleep_used (asleep : Asleep t chan p) : (t.proc p).state ≠ .unused := by
  rw [asleep.1]
  decide

theorem tidy_home (sound : Sound t) (tidy : Tidy t) (used : (t.proc p).state ≠ .unused) : (home t p).count (some p) ≤ 1 := by
  have once := tidy p used (t.proc p).priority (sound.range p).1 (sound.range p).2
  rwa [if_pos rfl] at once

/-- A sleeper that the search misses is queued twice. -/
theorem missed_twice (sound : Sound t) (tidy : Tidy t) (asleep : Asleep t chan p) (missed : Missed t chan p) :
    2 ≤ (home (wakeup1 t chan) p).count (some p) := by
  have woken : Woken chan t (List.finRange NPROC) (wakeup1 t chan) :=
    wakeup1_woken sound fun q asleep => tidy_home sound tidy (asleep_used asleep)
  have level : ((wakeup1 t chan).proc p).priority = (t.proc p).priority := by
    rw [woken.proc p]
    split <;> rfl
  have there : 0 < (home t p).count (some p) := List.count_pos_iff.mpr (List.mem_of_getLast? missed.1)
  have added : Added t chan (t.proc p).priority p := ⟨asleep, rfl, Or.inr missed⟩
  unfold home at there ⊢
  rw [level, woken.entries, List.count_append, added_count, if_pos added]
  omega

/-- It goes wrong when a sleeper is the last entry of its level, and no process before it in the
    table was appended to that level. -/
theorem wakes_right_iff (sound : Sound t) (tidy : Tidy t) :
    WakesRight chan t (wakeup1 t chan) ↔ ∀ p, Asleep t chan p → ¬ Missed t chan p := by
  constructor
  · intro right p asleep missed
    have twice := missed_twice sound tidy asleep missed
    rw [right.once p asleep] at twice
    omega
  · intro seen
    have woken : Woken chan t (List.finRange NPROC) (wakeup1 t chan) :=
      wakeup1_woken sound fun q asleep => tidy_home sound tidy (asleep_used asleep)
    have proc : ∀ q, (wakeup1 t chan).proc q =
        if Asleep t chan q then { t.proc q with state := .runnable } else t.proc q := by
      intro q
      rw [woken.proc q]
      simp only [List.mem_finRange, true_and]
    have level : ∀ q, ((wakeup1 t chan).proc q).priority = (t.proc q).priority := by
      intro q
      rw [proc q]
      split <;> rfl
    have added : ∀ l q, Added t chan l q ↔ Asleep t chan q ∧ (t.proc q).priority = l ∧ some q ∉ home t q := by
      intro l q
      constructor
      · rintro ⟨asleep,level,away | missed⟩
        · exact ⟨asleep,level,away⟩
        · exact absurd missed (seen q asleep)
      · rintro ⟨asleep,level,away⟩
        exact ⟨asleep, level, Or.inl away⟩
    have once : ∀ q, Asleep t chan q → (home (wakeup1 t chan) q).count (some q) = 1 := by
      intro q asleep
      have before := tidy_home sound tidy (asleep_used asleep)
      unfold home at before ⊢
      rw [level, woken.entries, List.count_append, added_count]
      by_cases there : some q ∈ home t q
      · have more := List.count_pos_iff.mpr there
        rw [if_neg fun all => ((added _ q).mp all).2.2 there]
        unfold home at more
        omega
      · rw [if_pos ((added _ q).mpr ⟨asleep,rfl,there⟩)]
        have none := List.count_eq_zero_of_not_mem there
        unfold home at none
        omega
    refine ⟨proc, fun q used l low high => ?_, once, fun l => ?_⟩
    · by_cases asleep : Asleep t chan q
      · by_cases mine : l = ((wakeup1 t chan).proc q).priority
        · rw [if_pos mine, mine]
          exact Nat.le_of_eq (once q asleep)
        · rw [if_neg mine, woken.entries, List.count_append, added_count]
          rw [level] at mine
          have none := tidy q (asleep_used asleep) l low high
          rw [if_neg mine] at none
          rw [if_neg fun all => mine ((added l q).mp all).2.1.symm]
          omega
      · have same : (wakeup1 t chan).proc q = t.proc q := by rw [proc q, if_neg asleep]
        rw [same] at used ⊢
        rw [woken.entries, List.count_append, added_count, if_neg fun all => asleep all.1]
        exact tidy q used l low high
    · rw [woken.entries, List.filter_append]
      have none : (((List.finRange NPROC).filter (Added t chan l)).map some).filter
          (fun x => !(x.any fun q => decide (Asleep t chan q))) = [] := by
        refine List.filter_eq_nil_iff.mpr fun x member => ?_
        obtain ⟨q,inside,rfl⟩ := List.mem_map.mp member
        have asleep := (of_decide_eq_true (List.mem_filter.mp inside).2).1
        simp [asleep]
      rw [none, List.append_nil]

end Turns

/-- Slots 0 and 1 sleep on addresses of their own and are queued in this order. -/
def twoSleepers : Table where
  proc := fun p =>
    if p = 0 then ⟨.sleeping, 1, none, some (.other 0), false, 0, DEFAULT_BUDGET⟩
    else if p = 1 then ⟨.sleeping, 2, none, some (.other 1), false, 0, DEFAULT_BUDGET⟩
    else ⟨.unused, 0, none, none, false, 0, 0⟩
  queue := fun l => if l = 0 then (Queue.empty.push 0).push 1 else .empty
  overran := false

theorem twoSleepers_priority (p : Fin NPROC) : (twoSleepers.proc p).priority = 0 := by
  unfold twoSleepers
  dsimp only
  split
  · rfl
  · split <;> rfl

theorem twoSleepers_sound : Sound twoSleepers := by
  refine ⟨fun p => ?_, fun l => ?_⟩
  · rw [twoSleepers_priority]
    decide
  · unfold twoSleepers
    dsimp only
    split <;> decide

theorem twoSleepers_tidy : Tidy twoSleepers := by
  intro p _ l _ _
  rw [twoSleepers_priority]
  by_cases bottom : l = 0
  · subst bottom
    have entries : (twoSleepers.queue 0).entries = [some 0, some 1] := rfl
    rw [entries, if_pos rfl]
    refine List.nodup_iff_count_le_one.mp ?_ _
    decide
  · have none : (twoSleepers.queue l).entries = [] := by
      unfold twoSleepers
      dsimp only
      rw [if_neg bottom]
      rfl
    rw [none, if_neg bottom]
    exact Nat.le_refl 0

/-- Waking the process of the last entry queues it twice. -/
theorem last_woken_twice : Sound twoSleepers ∧ Tidy twoSleepers ∧
    ¬ WakesRight (some (.other 1)) twoSleepers (wakeup1 twoSleepers (some (.other 1))) := by
  refine ⟨twoSleepers_sound, twoSleepers_tidy, fun right => ?_⟩
  have asleep : Asleep twoSleepers (some (.other 1)) 1 := by decide
  have missed : Missed twoSleepers (some (.other 1)) 1 := by decide
  have twice := missed_twice twoSleepers_sound twoSleepers_tidy asleep missed
  rw [right.once 1 asleep] at twice
  omega

theorem wakes_right_iff_first : WakesRight (some (.other 0)) twoSleepers (wakeup1 twoSleepers (some (.other 0))) ↔
    ∀ p, Asleep twoSleepers (some (.other 0)) p → ¬ Missed twoSleepers (some (.other 0)) p :=
  wakes_right_iff twoSleepers_sound twoSleepers_tidy

end MlfqWakeup
