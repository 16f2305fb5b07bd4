import Mathlib.Computability.Language

/-!
Patterns that are sequences of letters, each to be read once or any number of times: the language
of a pattern, and what it means that a text begins with a word of a language, or has one in it.
-/
namespace Patterns

variable {α : Type} {L : Language α} {p : Set α} {first last : Prop} {text : List α}

/-- A place of a pattern: the letters it stands for, and if they may be repeated. -/
structure Item (α : Type) where
  letters : Set α
  starred : Bool

/-- The words of one letter of `p`. -/
def single (p : Set α) : Language α := {w | ∃ a ∈ p, w = [a]}

def Item.language (item : Item α) : Language α :=
  if item.starred then KStar.kstar (single item.letters) else single item.letters

def language (items : List (Item α)) : Language α := (items.map Item.language).prod

/-- The text begins with a word of `L`, and ends with it if it must. -/
def Begins (L : Language α) (last : Prop) (text : List α) : Prop :=
  ∃ w after, text = w ++ after ∧ w ∈ L ∧ (last → after = [])

/-- The text has a word of `L` in it, at the beginning or the end if it must be there. -/
def Occurs (L : Language α) (first last : Prop) (text : List α) : Prop :=
  ∃ before w after, text = before ++ w ++ after ∧ w ∈ L ∧ (first → before = []) ∧ (last → after = [])

theorem occurs_iff : Occurs L first last text ↔ ∃ before rest, text = before ++ rest ∧ (first → before = []) ∧ Begins L last rest := by
  constructor
  · rintro ⟨before,w,after,split,word,start,finish⟩
    exact ⟨before, w ++ after, by rw [split, List.append_assoc], start, w, after, rfl, word, finish⟩
  · rintro ⟨before,rest,split,start,w,after,same,word,finish⟩
    exact ⟨before, w, after, by rw [split, same, List.append_assoc], word, start, finish⟩

theorem begins_one : Begins (1 : Language α) last text ↔ (last → text = []) := by
  constructor
  · rintro ⟨w,after,split,word,finish⟩
    rw [Language.mem_one] at word
    rw [split, word]
    exact finish
  · intro finish
    exact ⟨[], text, rfl, Language.nil_mem_one, finish⟩

theorem begins_single : Begins (single p * L) last text ↔ ∃ a rest, text = a :: rest ∧ a ∈ p ∧ Begins L last rest := by
  constructor
  · rintro ⟨w,after,split,word,finish⟩
    obtain ⟨u,⟨a,letter,rfl⟩,v,tail,rfl⟩ := Language.mem_mul.mp word
    exact ⟨a, v ++ after, split, letter, v, after, rfl, tail, finish⟩
  · rintro ⟨a,rest,split,letter,v,after,same,tail,finish⟩
    exact ⟨a :: v, after, by rw [split, same, List.cons_append], Language.mem_mul.mpr ⟨[a], ⟨a,letter,rfl⟩, v, tail, rfl⟩, finish⟩

theorem kstar_single : text ∈ KStar.kstar (single p) ↔ ∀ a ∈ text, a ∈ p := by
  constructor
  · rintro ⟨words,rfl,each⟩ a member
    obtain ⟨w,here,inside⟩ := List.mem_flatten.mp member
    obtain ⟨b,letter,rfl⟩ := each w here
    rwa [List.mem_singleton.mp inside]
  · intro each
    refine ⟨text.map fun a => [a], ?_, fun w member => ?_⟩
    · rw [← List.flatMap_def, List.flatMap_singleton']
    · obtain ⟨a,here,rfl⟩ := List.mem_map.mp member
      exact ⟨a, each a here, rfl⟩

theorem begins_star : Begins (KStar.kstar (single p) * L) last text ↔
    ∃ u rest, text = u ++ rest ∧ (∀ a ∈ u, a ∈ p) ∧ Begins L last rest := by
  constructor
  · rintro ⟨w,after,split,word,finish⟩
    obtain ⟨u,repeated,v,tail,rfl⟩ := Language.mem_mul.mp word
    exact ⟨u, v ++ after, by rw [split, List.append_assoc], kstar_single.mp repeated, v, after, rfl, tail, finish⟩
  · rintro ⟨u,rest,split,each,v,after,same,tail,finish⟩
    exact ⟨u ++ v, after, by rw [split, same, List.append_assoc], Language.append_mem_mul (kstar_single.mpr each) tail, finish⟩

theorem begins_star_nil : Begins (KStar.kstar (single p) * L) last [] ↔ Begins L last [] := by
  rw [begins_star]
  constructor
  · rintro ⟨u,rest,split,_,begins⟩
    obtain ⟨_,rfl⟩ := List.append_eq_nil_iff.mp split.symm
    exact begins
  · intro begins
    exact ⟨[], [], rfl, fun a member => absurd member List.not_mem_nil, begins⟩

theorem begins_star_cons {a : α} : Begins (KStar.kstar (single p) * L) last (a :: text) ↔
    Begins L last (a :: text) ∨ (a ∈ p ∧ Begins (KStar.kstar (single p) * L) last text) := by
  rw [begins_star, begins_star]
  constructor
  · rintro ⟨u,rest,split,each,begins⟩
    cases u with
    | nil =>
      left
      rw [split]
      exact begins
    | cons b u =>
      obtain ⟨rfl,rfl⟩ := List.cons.inj split
      exact Or.inr ⟨each a List.mem_cons_self, u, rest, rfl, fun c member => each c (List.mem_cons_of_mem a member), begins⟩
  · rintro (begins | ⟨letter,u,rest,rfl,each,begins⟩)
    · exact ⟨[], a :: text, rfl, fun c member => absurd member List.not_mem_nil, begins⟩
    · exact ⟨a :: u, rest, rfl, List.forall_mem_cons.mpr ⟨letter,each⟩, begins⟩

theorem language_nil : language ([] : List (Item α)) = 1 := rfl

theorem language_cons (item : Item α) (items : List (Item α)) : language (item :: items) = item.language * language items := by
  unfold language
  rw [List.map_cons, List.prod_cons]

end Patterns
