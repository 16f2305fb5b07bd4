import Mathlib.Data.Multiset.UnionInter
import Mathlib.Logic.Function.Basic

/- Resources that are each in the custody of at most one holder or in a pool that
   belongs to no one. -/
namespace Custody
variable {R P : Type}

/-- Every resource of `all`, and no other, is once in the pool or held by one holder. -/
structure Exclusive (own : R → Option P) (pool : Multiset P) (all : P → Prop) : Prop where
  once : pool.Nodup
  alone : ∀ r p, own r = some p → p ∉ pool
  single : ∀ r s p, own r = some p → own s = some p → r = s
  covers : ∀ p, all p ↔ p ∈ pool ∨ ∃ r, own r = some p

variable {own : R → Option P} {pool pool' : Multiset P} {all : P → Prop} {r : R} {p : P}

theorem Exclusive.unheld (fresh : pool.Nodup) : Exclusive (fun _ : R => none) pool (· ∈ pool) := by
  constructor
  · exact fresh
  · exact fun _ _ held => nomatch held
  · exact fun _ _ _ held => nomatch held
  · simp

theorem Exclusive.all_held (ex : Exclusive own pool all) (held : own r = some p) : all p :=
  (ex.covers p).mpr (Or.inr ⟨r, held⟩)

theorem Exclusive.all_pool (ex : Exclusive own pool all) (member : p ∈ pool) : all p :=
  (ex.covers p).mpr (Or.inl member)

/-- What the holders have decides the pool. -/
theorem Exclusive.pool_eq (left : Exclusive own pool all) (right : Exclusive own pool' all) : pool = pool' := by
  refine Multiset.Nodup.ext left.once right.once |>.mpr fun p => ⟨fun member => ?_, fun member => ?_⟩
  · rcases (right.covers p).mp (left.all_pool member) with there | ⟨r,held⟩
    · exact there
    · exact absurd member (left.alone r p held)
  · rcases (left.covers p).mp (right.all_pool member) with there | ⟨r,held⟩
    · exact there
    · exact absurd member (right.alone r p held)

variable [DecidableEq R]

/-- A resource of the pool is given to a holder that has none. -/
theorem Exclusive.give (ex : Exclusive own (p ::ₘ pool) all) (none : own r = none) :
    Exclusive (Function.update own r (some p)) pool all := by
  obtain ⟨outside,once⟩ := Multiset.nodup_cons.mp ex.once
  have before : ∀ s q, Function.update own r (some p) s = some q → (s = r ∧ q = p) ∨ (s ≠ r ∧ own s = some q) := by
    intro s q held
    by_cases same : s = r
    · subst same
      rw [Function.update_self] at held
      exact Or.inl ⟨rfl, (Option.some.inj held).symm⟩
    · rw [Function.update_of_ne same] at held
      exact Or.inr ⟨same, held⟩
  refine ⟨once, fun s q held member => ?_, fun s t q heldS heldT => ?_, fun q => ?_⟩
  · rcases before s q held with ⟨_,rfl⟩ | ⟨_,old⟩
    · exact outside member
    · exact ex.alone s q old (Multiset.mem_cons_of_mem member)
  · rcases before s q heldS with ⟨sameS,rfl⟩ | ⟨otherS,oldS⟩ <;> rcases before t _ heldT with ⟨sameT,eq⟩ | ⟨otherT,oldT⟩
    · rw [sameS, sameT]
    · exact absurd (Multiset.mem_cons_self _ _) (ex.alone t _ oldT)
    · exact absurd (eq ▸ Multiset.mem_cons_self _ _) (ex.alone s _ oldS)
    · exact ex.single s t q oldS oldT
  · rw [ex.covers q, Multiset.mem_cons]
    constructor
    · rintro ((rfl | member) | ⟨s,held⟩)
      · exact Or.inr ⟨r, Function.update_self r _ own⟩
      · exact Or.inl member
      · refine Or.inr ⟨s, ?_⟩
        rw [Function.update_of_ne, held]
        rintro rfl
        rw [none] at held
        exact nomatch held
    · rintro (member | ⟨s,held⟩)
      · exact Or.inl (Or.inr member)
      · rcases before s q held with ⟨_,rfl⟩ | ⟨_,old⟩
        · exact Or.inl (Or.inl rfl)
        · exact Or.inr ⟨s, old⟩

/-- A holder returns its resource to the pool. -/
theorem Exclusive.take (ex : Exclusive own pool all) (held : own r = some p) :
    Exclusive (Function.update own r none) (p ::ₘ pool) all := by
  have before : ∀ s q, Function.update own r none s = some q → s ≠ r ∧ own s = some q := by
    intro s q now
    by_cases same : s = r
    · subst same
      rw [Function.update_self] at now
      exact nomatch now
    · exact ⟨same, Function.update_of_ne same none own ▸ now⟩
  refine ⟨Multiset.nodup_cons.mpr ⟨ex.alone r p held, ex.once⟩, fun s q now member => ?_, fun s t q nowS nowT => ?_, fun q => ?_⟩
  · obtain ⟨other,old⟩ := before s q now
    rcases Multiset.mem_cons.mp member with rfl | member
    · exact other (ex.single s r q old held)
    · exact ex.alone s q old member
  · exact ex.single s t q (before s q nowS).2 (before t q nowT).2
  · rw [ex.covers q, Multiset.mem_cons]
    constructor
    · rintro (member | ⟨s,old⟩)
      · exact Or.inl (Or.inr member)
      · by_cases same : s = r
        · subst same
          exact Or.inl (Or.inl (Option.some.inj (old.symm.trans held)))
        · exact Or.inr ⟨s, by rw [Function.update_of_ne same, old]⟩
    · rintro ((rfl | member) | ⟨s,now⟩)
      · exact Or.inr ⟨r, held⟩
      · exact Or.inl member
      · exact Or.inr ⟨s, (before s q now).2⟩

/-- Some holders, each named once, return what they have. -/
theorem Exclusive.takeAll (ex : Exclusive own pool all) {roles : List R} (names : roles.Nodup) :
    Exclusive (fun r => if r ∈ roles then none else own r) (↑(roles.filterMap own) + pool) all := by
  induction roles with
  | nil => simpa using ex
  | cons r roles ih =>
    obtain ⟨new,names⟩ := List.nodup_cons.mp names
    have rest := ih names
    have apart : (if r ∈ roles then none else own r) = own r := if_neg new
    cases held : own r with
    | none =>
      rw [List.filterMap_cons_none held]
      convert rest using 2 with s
      by_cases same : s = r
      · subst same
        rw [if_pos List.mem_cons_self, apart, held]
      · simp only [List.mem_cons, same, false_or]
    | some p =>
      rw [List.filterMap_cons_some held, ← Multiset.cons_coe, Multiset.cons_add]
      convert rest.take (apart.trans held) using 2 with s
      by_cases same : s = r
      · subst same
        rw [if_pos List.mem_cons_self, Function.update_self]
      · rw [Function.update_of_ne same]
        simp only [List.mem_cons, same, false_or]

omit [DecidableEq R] in
/-- New resources join the pool. -/
theorem Exclusive.join (ex : Exclusive own pool all) {new : Multiset P} (fresh : new.Nodup) (apart : ∀ q ∈ new, ¬ all q) :
    Exclusive own (new + pool) (fun q => q ∈ new ∨ all q) := by
  refine ⟨Multiset.nodup_add.mpr ⟨fresh, ex.once, ?_⟩, fun s q held member => ?_, ex.single, fun q => ?_⟩
  · exact Multiset.disjoint_left.mpr fun member there => apart _ member (ex.all_pool there)
  · rcases Multiset.mem_add.mp member with member | member
    · exact apart q member (ex.all_held held)
    · exact ex.alone s q held member
  · rw [ex.covers q, Multiset.mem_add, or_assoc]

end Custody
