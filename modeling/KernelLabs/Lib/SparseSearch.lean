import Mathlib.Order.Lattice
import Mathlib.Data.Int.Init
import Mathlib.Order.Basic

/-!
Bisection over the places that satisfy a predicate, when only their values are in order: the next
such place below an index, and the bisection for one value.
-/
namespace SparseSearch

/-- The last place from `m` down to `l` that satisfies `p`, or `l - 1`. -/
def scanBack (p : Int → Prop) [DecidablePred p] (l m : Int) : Int :=
  if l ≤ m ∧ ¬ p m then scanBack p l (m - 1) else m
termination_by (m - l + 1).toNat
decreasing_by omega

/-- The middle as C divides, towards 0. -/
def middle (l r : Int) : Int := (l + r).tdiv 2

variable {p : Int → Prop} [DecidablePred p] {α : Type} [LinearOrder α] {v : Int → α} {key : α} {l m r r' i : Int}

theorem scanBack_le (p : Int → Prop) [DecidablePred p] (l m : Int) : scanBack p l m ≤ m := by
  induction m using scanBack.induct p l with
  | case1 m here ih =>
    rw [scanBack, if_pos here]
    omega
  | case2 m stop =>
    have stays : scanBack p l m = m := by rw [scanBack, if_neg stop]
    exact Int.le_of_eq stays

theorem le_scanBack (start : l - 1 ≤ m) : l - 1 ≤ scanBack p l m := by
  induction m using scanBack.induct p l with
  | case1 m here ih =>
    rw [scanBack, if_pos here]
    exact ih (by omega)
  | case2 m stop =>
    rw [scanBack, if_neg stop]
    exact start

theorem scanBack_holds (inside : l ≤ scanBack p l m) : p (scanBack p l m) := by
  induction m using scanBack.induct p l with
  | case1 m here ih =>
    rw [scanBack, if_pos here] at inside ⊢
    exact ih inside
  | case2 m stop =>
    rw [scanBack, if_neg stop] at inside ⊢
    by_contra none
    exact stop ⟨inside,none⟩

theorem scanBack_none (above : scanBack p l m < i) (below : i ≤ m) : ¬ p i := by
  induction m using scanBack.induct p l with
  | case1 m here ih =>
    rw [scanBack, if_pos here] at above
    by_cases last : i = m
    · rw [last]
      exact here.2
    · exact ih above (by omega)
  | case2 m stop =>
    rw [scanBack, if_neg stop] at above
    omega

/-- A scan over places that do not satisfy `p` goes down to the end. -/
theorem scanBack_end (start : l - 1 ≤ m) (none : ∀ j, l ≤ j → j ≤ m → ¬ p j) : scanBack p l m = l - 1 := by
  have low := le_scanBack (p := p) start
  by_contra other
  exact none _ (by omega) (scanBack_le p l m) (scanBack_holds (by omega))

theorem scanBack_past (past : m < l) : scanBack p l m = m := by
  rw [scanBack, if_neg fun both => by omega]

theorem middle_bounds (inside : l ≤ r) : l ≤ middle l r ∧ middle l r ≤ r := by
  have sign : (2 : Int).sign = 1 := rfl
  unfold middle
  rw [Int.tdiv_eq_ediv, sign]
  split
  · omega
  · rename_i odd
    rw [not_or] at odd
    omega

/-- The bisection from `l` to `r` for `key`: where it first meets the key, and its right end then. -/
def hit (p : Int → Prop) [DecidablePred p] (v : Int → α) (key : α) (l r : Int) : Option (Int × Int) :=
  if l ≤ r then
    if scanBack p l (middle l r) < l then hit p v key (middle l r + 1) r
    else if v (scanBack p l (middle l r)) < key then hit p v key (middle l r + 1) r
    else if key < v (scanBack p l (middle l r)) then hit p v key l (scanBack p l (middle l r) - 1)
    else some (scanBack p l (middle l r), r)
  else none
termination_by (r - l + 1).toNat
decreasing_by
  all_goals
    have mid := middle_bounds (l := l) (r := r) (by assumption)
    have below := scanBack_le p l (middle l r)
    omega

theorem hit_found (found : hit p v key l r = some (m, r')) : l ≤ m ∧ m ≤ r' ∧ r' ≤ r ∧ p m ∧ v m = key := by
  induction l, r using hit.induct p v key with
  | case1 l r inside missing ih =>
    rw [hit, if_pos inside, if_pos missing] at found
    have mid := middle_bounds inside
    have later := ih found
    exact ⟨by omega, later.2⟩
  | case2 l r inside present less ih =>
    rw [hit, if_pos inside, if_neg present, if_pos less] at found
    have mid := middle_bounds inside
    have later := ih found
    exact ⟨by omega, later.2⟩
  | case3 l r inside present notLess more ih =>
    rw [hit, if_pos inside, if_neg present, if_neg notLess, if_pos more] at found
    have mid := middle_bounds inside
    have below := scanBack_le p l (middle l r)
    obtain ⟨low,order,high,rest⟩ := ih found
    exact ⟨low, order, by omega, rest⟩
  | case4 l r inside present notLess notMore =>
    rw [hit, if_pos inside, if_neg present, if_neg notLess, if_neg notMore] at found
    obtain ⟨rfl,rfl⟩ := Prod.mk.inj (Option.some.inj found)
    have mid := middle_bounds inside
    have below := scanBack_le p l (middle l r)
    have low := Int.not_lt.mp present
    exact ⟨low, by omega, Int.le_refl r, scanBack_holds low, le_antisymm (not_lt.mp notMore) (not_lt.mp notLess)⟩
  | case5 l r past =>
    rw [hit, if_neg past] at found
    cases found

end SparseSearch
