import Mathlib.Data.List.TakeWhile

/- Pieces of a list between separators, and its words: the pieces that are not empty. -/
namespace Words
variable {α : Type} {sep : α → Bool} {a : α} {w l rest : List α}

/-- A separator at the end begins a new piece. -/
theorem pieces_sep (l : List α) (gap : sep a = true) : (l ++ [a]).splitOnP sep = l.splitOnP sep ++ [[]] :=
  List.splitOnP_append_cons l [] gap

/-- What is no separator goes to the last piece. -/
theorem pieces_more (l : List α) (plain : sep a = false) :
    ∃ front last, l.splitOnP sep = front ++ [last] ∧ (l ++ [a]).splitOnP sep = front ++ [last ++ [a]] := by
  induction l with
  | nil =>
    refine ⟨[], [], rfl, ?_⟩
    exact List.splitOnP_eq_singleton fun x member => List.mem_singleton.mp member ▸ plain
  | cons b l ih =>
    obtain ⟨front,last,before,after⟩ := ih
    rw [List.cons_append, List.splitOnP_cons_eq_if_modifyHead, List.splitOnP_cons_eq_if_modifyHead, before, after]
    by_cases gap : sep b = true
    · rw [if_pos gap, if_pos gap]
      exact ⟨[] :: front, last, rfl, rfl⟩
    · rw [if_neg gap, if_neg gap]
      cases front with
      | nil => exact ⟨[], b :: last, rfl, rfl⟩
      | cons piece front => exact ⟨(b :: piece) :: front, last, rfl, rfl⟩

def words (sep : α → Bool) (l : List α) : List (List α) := (l.splitOnP sep).filter fun w => !w.isEmpty

theorem words_sep (gap : sep a = true) : words sep (a :: l) = words sep l := by
  unfold words
  rw [List.splitOnP_cons_eq_if_modifyHead, if_pos gap]
  rfl

theorem words_drop (l : List α) : words sep (l.dropWhile sep) = words sep l := by
  induction l with
  | nil => rfl
  | cons a l ih =>
    by_cases gap : sep a = true
    · rw [List.dropWhile_cons_of_pos gap, words_sep gap, ih]
    · rw [List.dropWhile_cons_of_neg gap]

/-- A word stands before a separator or the end. -/
theorem words_word (more : w ≠ []) (word : ∀ x ∈ w, sep x = false) (ends : ∀ x, rest.head? = some x → sep x = true) :
    words sep (w ++ rest) = w :: words sep rest := by
  have keep : ∀ t, List.filter (fun w : List α => !w.isEmpty) (w :: t) = w :: t.filter fun w => !w.isEmpty :=
    fun _ => List.filter_cons_of_pos (by simp [more])
  cases rest with
  | nil =>
    unfold words
    rw [List.append_nil, List.splitOnP_eq_singleton word, keep]
    rfl
  | cons a rest =>
    have gap := ends a rfl
    rw [words_sep gap]
    unfold words
    rw [List.splitOnP_append_cons_of_forall_mem word a gap, keep]

/-- The first word, and the words behind it. -/
theorem words_cut (first : l.dropWhile sep = a :: rest) :
    words sep l = (a :: rest).takeWhile (fun x => !sep x) :: words sep ((a :: rest).dropWhile fun x => !sep x) := by
  have plain : sep a = false := by
    have stop := List.head?_dropWhile_not sep l
    rw [first] at stop
    simpa using stop
  have whole : (a :: rest).takeWhile (fun x => !sep x) ++ (a :: rest).dropWhile (fun x => !sep x) = a :: rest :=
    List.takeWhile_append_dropWhile
  rw [← words_drop l, first, ← congrArg (words sep) whole]
  refine words_word ?_ (fun x member => ?_) fun x head => ?_
  · rw [List.takeWhile_cons_of_pos (by rw [plain]; rfl)]
    exact List.cons_ne_nil _ _
  · have holds := List.mem_takeWhile_imp member
    simpa using holds
  · have stop := List.head?_dropWhile_not (fun x => !sep x) (a :: rest)
    rw [head] at stop
    simpa using stop

end Words
