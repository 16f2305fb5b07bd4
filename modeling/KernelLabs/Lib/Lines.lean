import Mathlib.Data.List.DropRight

/- Lines of a list: the pieces that a separator ends, and what stands behind the last one. -/
namespace Lines

variable {α : Type} {sep : α}

theorem flatten_separated {l : List (List α)} (more : l ≠ []) :
    (l.map (· ++ [sep])).flatten = [sep].intercalate l ++ [sep] := by
  induction l with
  | nil => exact absurd rfl more
  | cons x l ih =>
    cases l with
    | nil => simp
    | cons y l =>
      have later := ih (List.cons_ne_nil y l)
      rw [List.map_cons, List.flatten_cons, later]
      simp [List.intercalate]

variable [DecidableEq α] {s t u v k : List α}

/-- The lines of `s`, each without its separator. -/
def lines (sep : α) (s : List α) : List (List α) := (s.splitOn sep).dropLast

/-- `s` up to its last separator and with it. -/
def ended (sep : α) (s : List α) : List α := s.rdropWhile (· ≠ sep)

/-- What `s` has behind its last separator. -/
def rest (sep : α) (s : List α) : List α := s.rtakeWhile (· ≠ sep)

theorem apart (plain : sep ∉ s) : ∀ x ∈ s, decide (x ≠ sep) = true :=
  fun _ member => decide_eq_true fun same => plain (same ▸ member)

theorem ended_rest (sep : α) (s : List α) : ended sep s ++ rest sep s = s := List.rdropWhile_append_rtakeWhile

theorem rest_plain (sep : α) (s : List α) : sep ∉ rest sep s :=
  fun member => absurd rfl (of_decide_eq_true (List.mem_rtakeWhile_imp (p := fun x => decide (x ≠ sep)) member))

theorem ended_plain (plain : sep ∉ s) : ended sep s = [] := List.rdropWhile_eq_nil_iff.mpr (apart plain)

theorem rest_of_plain (plain : sep ∉ s) : rest sep s = s := List.rtakeWhile_eq_self_iff.mpr (apart plain)

/-- A list with a separator is cut at the last one. -/
theorem ended_eq (held : sep ∈ s) : ∃ a, ended sep s = a ++ [sep] := by
  have more : s.rdropWhile (fun x => decide (x ≠ sep)) ≠ [] := by
    intro none
    have whole := ended_rest sep s
    have cut : ended sep s = [] := none
    rw [cut, List.nil_append] at whole
    have plain := rest_plain sep s
    rw [whole] at plain
    exact plain held
  have last := List.rdropWhile_last_not _ s more
  rw [decide_eq_true_iff, not_not] at last
  refine ⟨(s.rdropWhile fun x => decide (x ≠ sep)).dropLast, ?_⟩
  have whole := List.dropLast_append_getLast more
  rw [last] at whole
  exact whole.symm

theorem ended_append (held : sep ∈ t) : ended sep (s ++ t) = s ++ ended sep t := by
  unfold ended List.rdropWhile
  have stop : (t.reverse.dropWhile fun x => decide (x ≠ sep)).isEmpty = false := by
    rw [List.isEmpty_eq_false_iff]
    intro empty
    exact of_decide_eq_true (List.dropWhile_eq_nil_iff.mp empty sep (List.mem_reverse.mpr held)) rfl
  rw [List.reverse_append, List.dropWhile_append, stop, if_neg Bool.false_ne_true, List.reverse_append, List.reverse_reverse]

theorem ended_append_plain (plain : sep ∉ t) : ended sep (s ++ t) = ended sep s := by
  unfold ended List.rdropWhile
  have all := List.dropWhile_eq_nil_iff.mpr fun x member => apart plain x (List.mem_reverse.mp member)
  rw [List.reverse_append, List.dropWhile_append, all]
  rfl

theorem ended_ended_append : ended sep (ended sep s ++ t) = ended sep s ++ ended sep t := by
  by_cases held : sep ∈ t
  · exact ended_append held
  · rw [ended_append_plain held, ended_plain held, List.append_nil]
    exact List.rdropWhile_idempotent _ _

theorem rest_append_cons : rest sep (s ++ sep :: t) = rest sep t := by
  unfold rest List.rtakeWhile
  have stop : ([sep] ++ s.reverse).takeWhile (fun x => decide (x ≠ sep)) = [] := List.takeWhile_cons_of_neg (by simp)
  rw [List.reverse_append, List.reverse_cons, List.append_assoc, List.takeWhile_append, stop, List.append_nil]
  split
  · rename_i all
    rw [(List.takeWhile_prefix _).eq_of_length all]
  · rfl

theorem lines_plain (plain : sep ∉ s) : lines sep s = [] := by
  unfold lines
  rw [List.splitOn_eq_singleton plain, List.dropLast_singleton]

theorem lines_append_cons : lines sep (s ++ sep :: t) = s.splitOn sep ++ lines sep t := by
  unfold lines
  rw [List.splitOn_append_cons_self, List.dropLast_append_of_ne_nil (List.splitOn_ne_nil sep t)]

theorem lines_cut {a : List α} (cut : ended sep s = a ++ [sep]) : lines sep s = a.splitOn sep := by
  have whole := ended_rest sep s
  rw [cut, List.append_assoc, List.singleton_append] at whole
  rw [← whole, lines_append_cons, lines_plain (rest_plain sep s), List.append_nil]

/-- The lines up to the last separator come before all later ones. -/
theorem lines_ended (held : sep ∈ s) : lines sep (ended sep s ++ t) = lines sep s ++ lines sep t := by
  obtain ⟨a,cut⟩ := ended_eq held
  rw [lines_cut cut, cut, List.append_assoc, List.singleton_append, lines_append_cons]

/-- The lines with their separators are all of the list up to its last separator. -/
theorem lines_flatten (sep : α) (s : List α) : ((lines sep s).map (· ++ [sep])).flatten = ended sep s := by
  by_cases held : sep ∈ s
  · obtain ⟨a,cut⟩ := ended_eq held
    rw [lines_cut cut, cut, flatten_separated (List.splitOn_ne_nil sep a), List.intercalate_splitOn]
  · rw [lines_plain held, ended_plain held]
    rfl

theorem within_first (plain : sep ∉ k) : ∃ line ∈ (k ++ v).splitOn sep, k.length ≤ line.length := by
  by_cases held : sep ∈ v
  · obtain ⟨a,b,rfl,first⟩ := List.eq_append_cons_of_mem held
    refine ⟨k ++ a, ?_, ?_⟩
    · rw [← List.append_assoc, List.splitOn_append_cons_self_of_not_mem (List.not_mem_append plain first)]
      exact List.mem_cons_self
    · rw [List.length_append]
      exact Nat.le_add_right _ _
  · refine ⟨k ++ v, ?_, ?_⟩
    · rw [List.splitOn_eq_singleton (List.not_mem_append plain held)]
      exact List.mem_singleton_self _
    · rw [List.length_append]
      exact Nat.le_add_right _ _

/-- What has no separator lies within a line. -/
theorem within_line (plain : sep ∉ k) : ∃ line ∈ (u ++ k ++ v).splitOn sep, k.length ≤ line.length := by
  by_cases held : sep ∈ u
  · obtain ⟨a,cut⟩ := ended_eq held
    have whole := ended_rest sep u
    rw [cut, List.append_assoc, List.singleton_append] at whole
    obtain ⟨line,member,long⟩ := within_first (v := v) (List.not_mem_append (rest_plain sep u) plain)
    rw [List.length_append] at long
    refine ⟨line, ?_, by omega⟩
    rw [← whole, List.append_assoc, List.append_assoc, List.cons_append, List.splitOn_append_cons_self, ← List.append_assoc]
    exact List.mem_append_right _ member
  · obtain ⟨line,member,long⟩ := within_first (v := v) (List.not_mem_append held plain)
    rw [List.length_append] at long
    exact ⟨line, member, by omega⟩

end Lines
