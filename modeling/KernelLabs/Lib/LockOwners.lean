import Mathlib.Logic.Function.Basic

/- Mutual exclusion: a lock has at most one owner, and owners that know what they hold. -/
namespace LockOwners
variable {κ lock : Type} {owner owner' : lock → Option κ} {holds holds' : κ → lock → Prop}

/-- The record of owners and what each of them holds say the same. -/
def Owned (owner : lock → Option κ) (holds : κ → lock → Prop) : Prop := ∀ k l, owner l = some k ↔ holds k l

theorem Owned.exclusive (owned : Owned owner holds) {k j : κ} {l : lock} (mine : holds k l) (yours : holds j l) :
    k = j := by
  have here := (owned k l).mpr mine
  rw [(owned j l).mpr yours, Option.some.injEq] at here
  exact here.symm

theorem Owned.free (owned : Owned owner holds) {l : lock} (free : owner l = none) (k : κ) : ¬ holds k l := by
  intro mine
  rw [(owned k l).mpr mine] at free
  simp at free

theorem Owned.keep (owned : Owned owner holds) (same : ∀ k l, holds' k l ↔ holds k l) : Owned owner holds' := by
  intro k l
  rw [same]
  exact owned k l

variable [DecidableEq lock]

theorem Owned.acquire (owned : Owned owner holds) {k : κ} {l : lock} (free : owner l = none)
    (others : ∀ j m, j ≠ k → (holds' j m ↔ holds j m)) (mine : ∀ m, holds' k m ↔ m = l ∨ holds k m) :
    Owned (Function.update owner l (some k)) holds' := by
  intro j m
  by_cases taken : m = l
  · subst taken
    rw [Function.update_self, Option.some.injEq]
    constructor
    · rintro rfl
      exact (mine m).mpr (Or.inl rfl)
    · intro has
      by_contra away
      exact owned.free free j ((others j m (Ne.symm away)).mp has)
  · rw [Function.update_of_ne taken, owned j m]
    by_cases own : j = k
    · subst own
      rw [mine]
      simp [taken]
    · exact (others j m own).symm

theorem Owned.release (owned : Owned owner holds) {k : κ} {l : lock} (held : holds k l)
    (others : ∀ j m, j ≠ k → (holds' j m ↔ holds j m)) (mine : ∀ m, holds' k m ↔ m ≠ l ∧ holds k m) :
    Owned (Function.update owner l none) holds' := by
  intro j m
  by_cases dropped : m = l
  · subst dropped
    rw [Function.update_self]
    simp only [reduceCtorEq, false_iff]
    intro has
    by_cases own : j = k
    · subst own
      exact ((mine m).mp has).1 rfl
    · exact own (owned.exclusive ((others j m own).mp has) held)
  · rw [Function.update_of_ne dropped, owned j m]
    by_cases own : j = k
    · subst own
      rw [mine]
      simp [dropped]
    · exact (others j m own).symm

end LockOwners
