import Mathlib.Logic.Basic

/- Resources that are each used by at most one user at a time, in a phase that agrees
   with what the resource itself records. -/
namespace Leases
variable {U R K : Type} {claim claim' : U → Option (R × K)} {agrees agrees' : R → K → Prop}

structure Leased (claim : U → Option (R × K)) (agrees : R → K → Prop) : Prop where
  agree : ∀ u r k, claim u = some (r, k) → agrees r k
  alone : ∀ u v r k l, claim u = some (r, k) → claim v = some (r, l) → u = v

/-- A resource whose record agrees with no phase is used by nobody. -/
theorem Leased.idle (leased : Leased claim agrees) {r : R} (none : ∀ k, ¬ agrees r k) (u : U) (k : K) :
    claim u ≠ some (r, k) := fun busy => none k (leased.agree u r k busy)

/-- Users give up what they have, and the records of what they keep still agree. -/
theorem Leased.keep (leased : Leased claim agrees) (less : ∀ u, claim' u = claim u ∨ claim' u = none)
    (kept : ∀ u r k, claim' u = some (r, k) → agrees r k → agrees' r k) : Leased claim' agrees' := by
  have before : ∀ u r k, claim' u = some (r, k) → claim u = some (r, k) := by
    intro u r k now
    rcases less u with same | gone
    · exact same ▸ now
    · rw [gone] at now
      exact nomatch now
  constructor
  · intro u r k now
    exact kept u r k now (leased.agree u r k (before u r k now))
  · intro u v r k l one other
    exact leased.alone u v r k l (before u r k one) (before v r l other)

/-- One user moves on to a resource that no other user has. -/
theorem Leased.move (leased : Leased claim agrees) (u : U)
    (others : ∀ v, v ≠ u → claim' v = claim v ∨ claim' v = none)
    (mine : ∀ r k, claim' u = some (r, k) → agrees' r k ∧ ∀ v l, claim v = some (r, l) → v = u)
    (kept : ∀ v r k, v ≠ u → claim v = some (r, k) → agrees r k → agrees' r k) :
    Leased claim' agrees' := by
  have before : ∀ v r k, v ≠ u → claim' v = some (r, k) → claim v = some (r, k) := by
    intro v r k away now
    rcases others v away with same | gone
    · exact same ▸ now
    · rw [gone] at now
      exact nomatch now
  constructor
  · intro v r k now
    by_cases same : v = u
    · subst same
      exact (mine r k now).1
    · have old := before v r k same now
      exact kept v r k same old (leased.agree v r k old)
  · intro v w r k l one other
    by_cases first : v = u <;> by_cases second : w = u
    · rw [first, second]
    · subst first
      exact absurd ((mine r k one).2 w l (before w r l second other)) second
    · subst second
      exact absurd ((mine r l other).2 v k (before v r k first one)) first
    · exact leased.alone v w r k l (before v r k first one) (before w r l second other)

end Leases
