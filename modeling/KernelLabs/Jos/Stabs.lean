import Mathlib.Algebra.Ring.Nat
import KernelLabs.Lib.SparseSearch
import Mathlib.Data.Nat.Basic

/-!
`stab_binsearch` of JOS (lab-1 `kdebug.c`). A table with entries of 12 bytes fits in memory, so the
sum of two of its indices is an `int`.
-/
namespace JosKdebug
open SparseSearch

structure Stab where
  n_type : BitVec 8
  n_value : BitVec 32

/-- The variables of the loop. -/
structure Search where
  region_left : Int
  region_right : Int
  l : Int
  r : Int
  any_matches : Bool
  addr : BitVec 32

section Code
variable (stabs : Int → Stab) (type : Int)

/-- `stabs[i].n_type == type` -/
def IsType (i : Int) : Prop := ((stabs i).n_type.toNat : Int) = type

instance : DecidablePred (IsType stabs type) := fun _ => inferInstanceAs (Decidable (_ = _))

/-- One turn of the loop. -/
def turn (s : Search) : Search :=
  let true_m := middle s.l s.r
  -- search for earliest stab with right type
  let m := scanBack (IsType stabs type) s.l true_m
  if m < s.l then { s with l := true_m + 1 }
  -- actual binary search
  else if (stabs m).n_value < s.addr then { s with any_matches := true, region_left := m, l := true_m + 1 }
  else if (stabs m).n_value > s.addr then { s with any_matches := true, region_right := m - 1, r := m - 1 }
  -- exact match for 'addr', but continue loop to find *region_right
  else { s with any_matches := true, region_left := m, l := m, addr := s.addr + 1 }

/-- The turn to come is an exact match. -/
def Exact (s : Search) : Prop :=
  s.l ≤ scanBack (IsType stabs type) s.l (middle s.l s.r) ∧
    (stabs (scanBack (IsType stabs type) s.l (middle s.l s.r))).n_value = s.addr

instance (s : Search) : Decidable (Exact stabs type s) := inferInstanceAs (Decidable (_ ∧ _))

/-- An exact match may leave the region as it is, but the next turn is none. -/
def measure (s : Search) : Nat := 2 * (s.r - s.l + 1).toNat + if Exact stabs type s then 1 else 0

theorem measure_less {s t : Search} (less : (t.r - t.l + 1).toNat < (s.r - s.l + 1).toNat) : measure stabs type t < measure stabs type s := by
  unfold measure
  split <;> omega

theorem toNat_succ (addr : BitVec 32) : (addr + 1).toNat = (addr.toNat + 1) % 2 ^ 32 := BitVec.toNat_add addr 1

theorem addr_succ (addr : BitVec 32) : addr ≠ addr + 1 := by
  intro same
  have number := congrArg BitVec.toNat same
  rw [toNat_succ] at number
  have limit := addr.isLt
  omega

theorem turn_measure (s : Search) (inside : s.l ≤ s.r) : measure stabs type (turn stabs type s) < measure stabs type s := by
  have mid := middle_bounds inside
  have below := scanBack_le (IsType stabs type) s.l (middle s.l s.r)
  unfold turn
  dsimp only
  split
  · apply measure_less
    dsimp only
    omega
  · rename_i found
    split
    · apply measure_less
      dsimp only
      omega
    · split
      · apply measure_less
        dsimp only
        omega
      · rename_i notLess notMore
        by_cases same : scanBack (IsType stabs type) s.l (middle s.l s.r) = s.l
        · have value : (stabs (scanBack (IsType stabs type) s.l (middle s.l s.r))).n_value = s.addr := by
            rw [BitVec.lt_def] at notLess
            rw [gt_iff_lt, BitVec.lt_def] at notMore
            exact BitVec.eq_of_toNat_eq (by omega)
          have now : Exact stabs type s := ⟨Int.not_lt.mp found, value⟩
          unfold measure
          rw [if_pos now, if_neg]
          · dsimp only
            rw [same]
            omega
          · rintro ⟨_,next⟩
            dsimp only at next
            rw [same] at next value
            rw [same] at next
            exact addr_succ s.addr (value.symm.trans next)
        · apply measure_less
          dsimp only
          omega

def search (s : Search) : Search := if s.l ≤ s.r then search (turn stabs type s) else s
termination_by measure stabs type s
decreasing_by exact turn_measure stabs type s (by assumption)

/-- `stab_binsearch`: what it leaves in `*region_left` and `*region_right`. -/
def stab_binsearch (region_left region_right : Int) (addr : BitVec 32) : Int × Int :=
  let s := search stabs type ⟨region_left, region_right, region_left, region_right, false, addr⟩
  if !s.any_matches then (s.region_left, s.region_left - 1)
  -- find rightmost region containing 'addr'
  else (scanBack (IsType stabs type) (s.region_left + 1) s.region_right, s.region_right)

end Code

section Turns
variable {stabs : Int → Stab} {type : Int} {s : Search}

/-- `stabs[i].n_value` -/
def value (stabs : Int → Stab) (i : Int) : Nat := (stabs i).n_value.toNat

/-- Where the turn finds an entry of the type. -/
def probe (stabs : Int → Stab) (type : Int) (s : Search) : Int := scanBack (IsType stabs type) s.l (middle s.l s.r)

theorem turn_missing (missing : probe stabs type s < s.l) : turn stabs type s = { s with l := middle s.l s.r + 1 } := if_pos missing

theorem turn_less (present : ¬ probe stabs type s < s.l) (less : value stabs (probe stabs type s) < s.addr.toNat) :
    turn stabs type s = { s with any_matches := true, region_left := probe stabs type s, l := middle s.l s.r + 1 } :=
  (if_neg present).trans (if_pos (BitVec.lt_def.mpr less))

theorem turn_more (present : ¬ probe stabs type s < s.l) (more : s.addr.toNat < value stabs (probe stabs type s)) :
    turn stabs type s = { s with any_matches := true, region_right := probe stabs type s - 1, r := probe stabs type s - 1 } :=
  (if_neg present).trans ((if_neg fun less => Nat.lt_asymm more (BitVec.lt_def.mp less)).trans (if_pos (BitVec.lt_def.mpr more)))

theorem turn_exact (present : ¬ probe stabs type s < s.l) (same : value stabs (probe stabs type s) = s.addr.toNat) :
    turn stabs type s =
      { s with any_matches := true, region_left := probe stabs type s, l := probe stabs type s, addr := s.addr + 1 } :=
  (if_neg present).trans ((if_neg fun less => Nat.ne_of_lt (BitVec.lt_def.mp less) same).trans
    (if_neg fun more => Nat.ne_of_gt (BitVec.lt_def.mp more) same))

theorem search_turn (inside : s.l ≤ s.r) : search stabs type s = search stabs type (turn stabs type s) := by
  rw [search, if_pos inside]

theorem search_done (past : ¬ s.l ≤ s.r) : search stabs type s = s := by
  rw [search, if_neg past]

/-- Up to the first exact match the loop is a bisection for `addr`. -/
theorem search_hit {l r m r' : Int} {addr : BitVec 32} (found : hit (IsType stabs type) (value stabs) addr.toNat l r = some (m, r'))
    (left : Int) (any : Bool) : search stabs type ⟨left, r, l, r, any, addr⟩ = search stabs type ⟨m, r', m, r', true, addr + 1⟩ := by
  induction l, r using hit.induct (IsType stabs type) (value stabs) addr.toNat generalizing left any with
  | case1 l r inside missing ih =>
    rw [hit, if_pos inside, if_pos missing] at found
    rw [search_turn inside, turn_missing (s := ⟨left, r, l, r, any, addr⟩) missing]
    exact ih found left any
  | case2 l r inside present less ih =>
    rw [hit, if_pos inside, if_neg present, if_pos less] at found
    rw [search_turn inside, turn_less (s := ⟨left, r, l, r, any, addr⟩) present less]
    exact ih found _ true
  | case3 l r inside present notLess more ih =>
    rw [hit, if_pos inside, if_neg present, if_neg notLess, if_pos more] at found
    rw [search_turn inside, turn_more (s := ⟨left, r, l, r, any, addr⟩) present more]
    exact ih found left true
  | case4 l r inside present notLess notMore =>
    rw [hit, if_pos inside, if_neg present, if_neg notLess, if_neg notMore] at found
    obtain ⟨rfl,rfl⟩ := Prod.mk.inj (Option.some.inj found)
    have same := Nat.le_antisymm (Nat.not_lt.mp notMore) (Nat.not_lt.mp notLess)
    rw [search_turn inside, turn_exact (s := ⟨left, r, l, r, any, addr⟩) present same]
    rfl
  | case5 l r past =>
    rw [hit, if_neg past] at found
    cases found

end Turns

section Narrowing
variable {stabs : Int → Stab} {type : Int} {a : Nat} {L R left l r m : Int} {any : Bool}

/-- The entries of the type are in the order of their values. -/
def Ordered (stabs : Int → Stab) (type L R : Int) : Prop :=
  ∀ i j, L ≤ i → i ≤ j → j ≤ R → IsType stabs type i → IsType stabs type j → value stabs i ≤ value stabs j

/-- What is known when the search has narrowed the region down to `l` and `r`: the entries before `l`
    are not above `a`, one that is stands right behind `r`, and `left` is the last entry before `l`, or
    the beginning of the region when there is none. -/
structure Narrowed (stabs : Int → Stab) (type : Int) (a : Nat) (L R left l r : Int) (any : Bool) : Prop where
  low : L ≤ l
  gap : l ≤ r + 1
  high : r ≤ R
  before : ∀ i, L ≤ i → i < l → IsType stabs type i → value stabs i ≤ a
  after : r < R → IsType stabs type (r + 1) ∧ a < value stabs (r + 1)
  found : (left = L ∧ (∀ i, L ≤ i → i < l → ¬ IsType stabs type i) ∧ (any = true ↔ r < R)) ∨
    (any = true ∧ L ≤ left ∧ left ≤ l ∧ left ≤ r ∧ IsType stabs type left ∧ value stabs left ≤ a ∧
      ∀ i, left < i → i < l → ¬ IsType stabs type i)

theorem narrowed_start (region : L ≤ R + 1) : Narrowed stabs type a L R L L R false := by
  refine ⟨Int.le_refl L, region, Int.le_refl R, fun i above below => by omega, fun more => by omega, Or.inl ⟨rfl, fun i above below => by omega, ?_⟩⟩
  constructor
  · intro no
    cases no
  · intro more
    omega

theorem Narrowed.missing (narrowed : Narrowed stabs type a L R left l r any) (inside : l ≤ r)
    (missing : scanBack (IsType stabs type) l (middle l r) < l) : Narrowed stabs type a L R left (middle l r + 1) r any := by
  have mid := middle_bounds inside
  have low := narrowed.low
  have none : ∀ i, l ≤ i → i < middle l r + 1 → ¬ IsType stabs type i := fun i above below => scanBack_none (l := l) (m := middle l r) (by omega) (by omega)
  refine ⟨by omega, by omega, narrowed.high, fun i above below here => ?_, narrowed.after, ?_⟩
  · by_cases old : i < l
    · exact narrowed.before i above old here
    · exact absurd here (none i (by omega) below)
  · rcases narrowed.found with ⟨start,empty,more⟩ | ⟨found,above,below,within,entry,small,last⟩
    · refine Or.inl ⟨start, fun i from' upto => ?_, more⟩
      by_cases old : i < l
      · exact empty i from' old
      · exact none i (by omega) upto
    · refine Or.inr ⟨found, above, by omega, within, entry, small, fun i from' upto => ?_⟩
      by_cases old : i < l
      · exact last i from' old
      · exact none i (by omega) upto

theorem Narrowed.less (narrowed : Narrowed stabs type a L R left l r any) (ordered : Ordered stabs type L R) (inside : l ≤ r)
    (present : ¬ scanBack (IsType stabs type) l (middle l r) < l)
    (less : value stabs (scanBack (IsType stabs type) l (middle l r)) ≤ a) :
    Narrowed stabs type a L R (scanBack (IsType stabs type) l (middle l r)) (middle l r + 1) r true := by
  have mid := middle_bounds inside
  have low := narrowed.low
  have high := narrowed.high
  have below := scanBack_le (IsType stabs type) l (middle l r)
  have entry := scanBack_holds (Int.not_lt.mp present)
  have none : ∀ i, scanBack (IsType stabs type) l (middle l r) < i → i < middle l r + 1 → ¬ IsType stabs type i :=
    fun i above upto => scanBack_none (l := l) (m := middle l r) above (by omega)
  refine ⟨by omega, by omega, high, fun i above upto here => ?_, narrowed.after,
    Or.inr ⟨rfl, by omega, by omega, by omega, entry, less, none⟩⟩
  by_cases later : scanBack (IsType stabs type) l (middle l r) < i
  · exact absurd here (none i later upto)
  · exact Nat.le_trans (ordered i _ above (by omega) (by omega) here entry) less

theorem Narrowed.more (narrowed : Narrowed stabs type a L R left l r any) (inside : l ≤ r)
    (present : ¬ scanBack (IsType stabs type) l (middle l r) < l)
    (more : a < value stabs (scanBack (IsType stabs type) l (middle l r))) :
    Narrowed stabs type a L R left l (scanBack (IsType stabs type) l (middle l r) - 1) true := by
  have mid := middle_bounds inside
  have low := narrowed.low
  have high := narrowed.high
  have below := scanBack_le (IsType stabs type) l (middle l r)
  have entry := scanBack_holds (Int.not_lt.mp present)
  refine ⟨low, by omega, by omega, narrowed.before, fun _ => ?_, ?_⟩
  · rw [Int.sub_add_cancel]
    exact ⟨entry,more⟩
  · rcases narrowed.found with ⟨start,empty,_⟩ | ⟨_,above,upto,within,here,small,last⟩
    · exact Or.inl ⟨start, empty, iff_of_true rfl (by omega)⟩
    · have other : left ≠ scanBack (IsType stabs type) l (middle l r) := by
        intro same
        rw [← same] at more
        omega
      exact Or.inr ⟨rfl, above, upto, by omega, here, small, last⟩

theorem Narrowed.exact' (narrowed : Narrowed stabs type a L R left l r any) (ordered : Ordered stabs type L R) (inside : l ≤ r)
    (present : ¬ scanBack (IsType stabs type) l (middle l r) < l)
    (same : value stabs (scanBack (IsType stabs type) l (middle l r)) = a) :
    Narrowed stabs type a L R (scanBack (IsType stabs type) l (middle l r)) (scanBack (IsType stabs type) l (middle l r)) r true := by
  have mid := middle_bounds inside
  have low := narrowed.low
  have high := narrowed.high
  have below := scanBack_le (IsType stabs type) l (middle l r)
  have entry := scanBack_holds (Int.not_lt.mp present)
  refine ⟨by omega, by omega, high, fun i above upto here => ?_, narrowed.after,
    Or.inr ⟨rfl, by omega, Int.le_refl _, by omega, entry, Nat.le_of_eq same, fun i above upto => by omega⟩⟩
  exact same ▸ ordered i _ above (by omega) (by omega) here entry

/-- The search knows as much at its first exact match. -/
theorem narrowed_hit (ordered : Ordered stabs type L R) {r' : Int} (found : hit (IsType stabs type) (value stabs) a l r = some (m, r'))
    (narrowed : Narrowed stabs type a L R left l r any) : Narrowed stabs type a L R m m r' true := by
  induction l, r using hit.induct (IsType stabs type) (value stabs) a generalizing left any with
  | case1 l r inside missing ih =>
    rw [hit, if_pos inside, if_pos missing] at found
    exact ih found (narrowed.missing inside missing)
  | case2 l r inside present less ih =>
    rw [hit, if_pos inside, if_neg present, if_pos less] at found
    exact ih found (narrowed.less ordered inside present (Nat.le_of_lt less))
  | case3 l r inside present notLess more ih =>
    rw [hit, if_pos inside, if_neg present, if_neg notLess, if_pos more] at found
    exact ih found (narrowed.more inside present more)
  | case4 l r inside present notLess notMore =>
    rw [hit, if_pos inside, if_neg present, if_neg notLess, if_neg notMore] at found
    obtain ⟨rfl,rfl⟩ := Prod.mk.inj (Option.some.inj found)
    exact narrowed.exact' ordered inside present (Nat.le_antisymm (Nat.not_lt.mp notMore) (Nat.not_lt.mp notLess))
  | case5 l r past =>
    rw [hit, if_neg past] at found
    cases found

/-- Without a further exact match the search narrows the region down to nothing. -/
theorem narrowed_end (ordered : Ordered stabs type L R) {addr : BitVec 32} (least : a ≤ addr.toNat) (most : addr.toNat ≤ a + 1)
    (none : hit (IsType stabs type) (value stabs) addr.toNat l r = none) (narrowed : Narrowed stabs type a L R left l r any) :
    ∃ left' l' r' any', search stabs type ⟨left, r, l, r, any, addr⟩ = ⟨left', r', l', r', any', addr⟩ ∧
      Narrowed stabs type a L R left' l' r' any' ∧ r' < l' := by
  induction l, r using hit.induct (IsType stabs type) (value stabs) addr.toNat generalizing left any with
  | case1 l r inside missing ih =>
    rw [hit, if_pos inside, if_pos missing] at none
    rw [search_turn inside, turn_missing (s := ⟨left, r, l, r, any, addr⟩) missing]
    exact ih none (narrowed.missing inside missing)
  | case2 l r inside present less ih =>
    rw [hit, if_pos inside, if_neg present, if_pos less] at none
    rw [search_turn inside, turn_less (s := ⟨left, r, l, r, any, addr⟩) present less]
    exact ih none (narrowed.less ordered inside present (by omega))
  | case3 l r inside present notLess more ih =>
    rw [hit, if_pos inside, if_neg present, if_neg notLess, if_pos more] at none
    rw [search_turn inside, turn_more (s := ⟨left, r, l, r, any, addr⟩) present more]
    exact ih none (narrowed.more inside present (by omega))
  | case4 l r inside present notLess notMore =>
    rw [hit, if_pos inside, if_neg present, if_neg notLess, if_neg notMore] at none
    cases none
  | case5 l r past =>
    rw [search_done past]
    exact ⟨left, l, r, any, rfl, narrowed, by omega⟩

end Narrowing

section Answers
variable {stabs : Int → Stab} {type : Int} {a : Nat} {L R left l r m : Int} {any : Bool}

/-- An entry of the type in the region that is not above `a`. -/
def Below (stabs : Int → Stab) (type : Int) (a : Nat) (L R i : Int) : Prop :=
  L ≤ i ∧ i ≤ R ∧ IsType stabs type i ∧ value stabs i ≤ a

/-- `left` is the last such entry, and `right` stands just before the next entry of the type or at the
    end of the region. -/
structure Bracket (stabs : Int → Stab) (type : Int) (a : Nat) (L R left right : Int) : Prop where
  inside : L ≤ left ∧ left ≤ right ∧ right ≤ R
  entry : IsType stabs type left ∧ value stabs left ≤ a
  last : ∀ i, left < i → i ≤ R → IsType stabs type i → a < value stabs i
  between : ∀ i, left < i → i ≤ right → ¬ IsType stabs type i
  next : right < R → IsType stabs type (right + 1)

/-- What `stab_binsearch` is to leave. -/
def Answers (stabs : Int → Stab) (type : Int) (a : Nat) (L R : Int) (result : Int × Int) : Prop :=
  ((∃ i, Below stabs type a L R i) → Bracket stabs type a L R result.1 result.2) ∧
  ((¬ ∃ i, Below stabs type a L R i) → result.2 < result.1)

/-- The last lines of `stab_binsearch`. -/
def finish (stabs : Int → Stab) (type : Int) (s : Search) : Int × Int :=
  if !s.any_matches then (s.region_left, s.region_left - 1)
  else (scanBack (IsType stabs type) (s.region_left + 1) s.region_right, s.region_right)

theorem finish_some (left right l r : Int) (addr : BitVec 32) : finish stabs type ⟨left, right, l, r, true, addr⟩ =
    (scanBack (IsType stabs type) (left + 1) right, right) := rfl

theorem answers_none (none : ∀ i, L ≤ i → i ≤ R → ¬ IsType stabs type i) : Answers stabs type a L R (L, L - 1) := by
  refine ⟨?_, fun _ => ?_⟩
  · rintro ⟨i,above,below,here,_⟩
    exact absurd here (none i above below)
  · dsimp only
    omega

/-- When the region is narrowed down to nothing, the answer is right unless all entries of the type
    are above `a`. -/
theorem narrowed_answers (ordered : Ordered stabs type L R) (narrowed : Narrowed stabs type a L R left l r any) (past : r < l)
    (addr : BitVec 32) : Answers stabs type a L R (finish stabs type ⟨left, r, l, r, any, addr⟩) ↔
      (∀ i, L ≤ i → i ≤ R → ¬ IsType stabs type i) ∨ ∃ i, Below stabs type a L R i := by
  have low := narrowed.low
  have gap := narrowed.gap
  have high := narrowed.high
  have exceeds : ∀ i, r < i → i ≤ R → IsType stabs type i → a < value stabs i := by
    intro i above below here
    obtain ⟨entry,more⟩ := narrowed.after (by omega)
    exact Nat.lt_of_lt_of_le more (ordered (r + 1) i (by omega) (by omega) below entry here)
  rcases narrowed.found with ⟨rfl,empty,more⟩ | ⟨rfl,above,_,within,entry,small,last⟩
  · have none : ∀ i, left ≤ i → i ≤ r → ¬ IsType stabs type i := fun i from' upto => empty i from' (by omega)
    have noneBelow : ¬ ∃ i, Below stabs type a left R i := by
      rintro ⟨i,from',upto,here,small⟩
      by_cases later : r < i
      · exact absurd small (Nat.not_le.mpr (exceeds i later upto here))
      · exact none i from' (Int.not_lt.mp later) here
    cases any with
    | false =>
      have whole : ¬ r < R := fun less => by cases more.mpr less
      have region : ∀ i, left ≤ i → i ≤ R → ¬ IsType stabs type i := fun i from' upto => none i from' (by omega)
      exact iff_of_true (answers_none region) (Or.inl region)
    | true =>
      have less := more.mp rfl
      refine iff_of_false (fun answers => ?_) ?_
      · have order := answers.2 noneBelow
        rw [finish_some] at order
        by_cases start : left ≤ r
        · rw [scanBack_end (by omega) fun i from' upto => none i (by omega) upto] at order
          omega
        · rw [scanBack_past (by omega)] at order
          omega
      · rintro (region | here)
        · exact region (r + 1) (by omega) (by omega) (narrowed.after less).1
        · exact noneBelow here
  · have plain : ∀ i, left < i → i ≤ r → ¬ IsType stabs type i := fun i from' upto => last i from' (by omega)
    have here : Below stabs type a L R left := ⟨above, by omega, entry, small⟩
    rw [finish_some, scanBack_end (by omega) fun i from' upto => plain i (by omega) upto, Int.add_sub_cancel]
    refine iff_of_true ⟨fun _ => ?_, fun none => absurd ⟨left,here⟩ none⟩ (Or.inr ⟨left,here⟩)
    refine ⟨⟨above, within, high⟩, ⟨entry,small⟩, fun i from' upto here => ?_, plain, fun less => (narrowed.after less).1⟩
    by_cases later : r < i
    · exact exceeds i later upto here
    · exact absurd here (plain i from' (Int.not_lt.mp later))

variable (stabs type) in
/-- Behind a second exact match the search does not come back. -/
theorem search_beyond {q : Int} (s : Search) (low : q ≤ s.l) (leftmost : q ≤ s.region_left) (right : q ≤ s.region_right)
    (beyond : value stabs q < s.addr.toNat ∨ q < s.l) (some : s.any_matches = true) (room : value stabs q + 1 < 2 ^ 32) :
    q ≤ (search stabs type s).region_left ∧ q ≤ (search stabs type s).region_right ∧ (search stabs type s).any_matches = true := by
  induction s using search.induct stabs type with
  | case1 s inside ih =>
    rw [search_turn inside]
    have mid := middle_bounds inside
    have under := scanBack_le (IsType stabs type) s.l (middle s.l s.r)
    by_cases missing : probe stabs type s < s.l
    · rw [turn_missing missing] at ih ⊢
      exact ih (by dsimp only; omega) leftmost right (Or.inr (by dsimp only; omega)) some
    · have present := Int.not_lt.mp missing
      rcases Nat.lt_trichotomy (value stabs (probe stabs type s)) s.addr.toNat with less | same | more
      · rw [turn_less missing less] at ih ⊢
        exact ih (by dsimp only; omega) (by dsimp only; omega) right (Or.inr (by dsimp only; omega)) rfl
      · rw [turn_exact missing same] at ih ⊢
        refine ih (by dsimp only; omega) (by dsimp only; omega) right ?_ rfl
        dsimp only
        have limit := s.addr.isLt
        have next : (s.addr + 1).toNat = (s.addr.toNat + 1) % 2 ^ 32 := BitVec.toNat_add _ _
        by_cases here : probe stabs type s = q
        · rw [here] at same
          omega
        · exact Or.inr (by omega)
      · rw [turn_more missing more] at ih ⊢
        have other : probe stabs type s ≠ q := by
          intro here
          rw [here] at more present
          omega
        exact ih low leftmost (by dsimp only; omega) beyond rfl
  | case2 s past =>
    rw [search_done past]
    exact ⟨leftmost, right, some⟩

/-- Once the key has wrapped to 0, all entries are above it. -/
theorem search_wrapped (count : Nat) (entry : IsType stabs type m) (size : r - m + 1 = count)
    (above : ∀ i, m ≤ i → i ≤ r → IsType stabs type i → 0 < value stabs i) :
    search stabs type ⟨m, r, m, r, true, 0⟩ = ⟨m, m - 1, m, m - 1, true, 0⟩ := by
  induction count using Nat.strong_induction_on generalizing r with
  | h count ih =>
    by_cases inside : m ≤ r
    · have mid := middle_bounds inside
      have under := scanBack_le (IsType stabs type) m (middle m r)
      have reach : m ≤ scanBack (IsType stabs type) m (middle m r) := by
        by_contra below
        exact scanBack_none (Int.not_le.mp below) mid.1 entry
      have present : ¬ probe stabs type ⟨m, r, m, r, true, 0⟩ < m := Int.not_lt.mpr reach
      have more : (0 : BitVec 32).toNat < value stabs (probe stabs type ⟨m, r, m, r, true, 0⟩) :=
        above _ reach (Int.le_trans under mid.2) (scanBack_holds reach)
      rw [search_turn inside, turn_more (s := ⟨m, r, m, r, true, 0⟩) present more]
      have later : probe stabs type ⟨m, r, m, r, true, 0⟩ = scanBack (IsType stabs type) m (middle m r) := rfl
      rw [later]
      refine ih (scanBack (IsType stabs type) m (middle m r) - 1 - m + 1).toNat (by omega) (by omega) fun i from' upto => above i from' (by omega)
    · rw [search_done inside]
      have last : r = m - 1 := by omega
      rw [last]

/-- After an exact match at `addr` the search looks for entries up to `addr + 1`. It must not meet one
    there, unless that is the last address: then the key wraps to 0, and the search steps back to the
    entry before, if that is where the answer stands. -/
def Unmistaken (stabs : Int → Stab) (type : Int) (a : Nat) (L R : Int) : Prop :=
  ∀ m r', hit (IsType stabs type) (value stabs) a L R = some (m, r') →
    ∀ m2 r2, hit (IsType stabs type) (value stabs) (a + 1) m r' = some (m2, r2) →
      a + 1 = 2 ^ 32 - 1 ∧ IsType stabs type (m2 - 1) ∧ value stabs (m2 - 1) ≤ a

/-- There is no mistake unless the region has an entry at the address and one at the next. -/
theorem unmistaken_apart (apart : ∀ i j, L ≤ i → i ≤ R → L ≤ j → j ≤ R → IsType stabs type i → IsType stabs type j →
    value stabs i = a → value stabs j ≠ a + 1) : Unmistaken stabs type a L R := by
  intro m r' first m2 r2 second
  obtain ⟨low,order,high,entry,same⟩ := hit_found first
  obtain ⟨low2,order2,high2,entry2,same2⟩ := hit_found second
  exact absurd same2 (apart m m2 low (by omega) (by omega) (by omega) entry entry2 same)

theorem stab_binsearch_eq (stabs : Int → Stab) (type L R : Int) (addr : BitVec 32) :
    stab_binsearch stabs type L R addr = finish stabs type (search stabs type ⟨L, R, L, R, false, addr⟩) := rfl

theorem search_mistaken (ordered : Ordered stabs type L R) {addr : BitVec 32} (size : addr.toNat = a) {m r' m2 r2 : Int}
    (small : a + 1 < 2 ^ 32 - 1)
    (first : hit (IsType stabs type) (value stabs) a L R = some (m, r'))
    (second : hit (IsType stabs type) (value stabs) (a + 1) m r' = some (m2, r2)) :
    ¬ Answers stabs type a L R (finish stabs type (search stabs type ⟨m2, r2, m2, r2, true, addr + 1 + 1⟩)) := by
  obtain ⟨low,order,high,entry,same⟩ := hit_found first
  obtain ⟨low2,order2,high2,entry2,same2⟩ := hit_found second
  have next : (addr + 1 + 1).toNat = a + 2 := by
    rw [toNat_succ, toNat_succ, size]
    omega
  have beyond := search_beyond stabs type ⟨m2, r2, m2, r2, true, addr + 1 + 1⟩ (Int.le_refl m2)
    (Int.le_refl m2) order2 (Or.inl (by rw [same2, next]; omega)) rfl (by omega)
  intro answers
  have bracket := answers.1 ⟨m, low, by omega, entry, Nat.le_of_eq same⟩
  have reached : m2 ≤ (finish stabs type (search stabs type ⟨m2, r2, m2, r2, true, addr + 1 + 1⟩)).1 := by
    unfold finish
    rw [beyond.2.2, if_neg (show ¬ (!true) = true by decide)]
    dsimp only
    by_cases start : (search stabs type ⟨m2, r2, m2, r2, true, addr + 1 + 1⟩).region_left ≤
        (search stabs type ⟨m2, r2, m2, r2, true, addr + 1 + 1⟩).region_right
    · have back := le_scanBack (p := IsType stabs type)
        (l := (search stabs type ⟨m2, r2, m2, r2, true, addr + 1 + 1⟩).region_left + 1)
        (m := (search stabs type ⟨m2, r2, m2, r2, true, addr + 1 + 1⟩).region_right) (by omega)
      rw [Int.add_sub_cancel] at back
      exact Int.le_trans beyond.1 back
    · rw [scanBack_past (by omega)]
      exact beyond.2.1
  have sorted := ordered m2 _ (by omega) reached (by have inside := bracket.inside; omega) entry2 bracket.entry.1
  have value := bracket.entry.2
  omega

/-- At the last address but one the key wraps. -/
theorem search_rescued (ordered : Ordered stabs type L R) {addr : BitVec 32} (size : addr.toNat = a) {m r' m2 r2 : Int}
    (last : a + 1 = 2 ^ 32 - 1)
    (first : hit (IsType stabs type) (value stabs) a L R = some (m, r'))
    (second : hit (IsType stabs type) (value stabs) (a + 1) m r' = some (m2, r2)) :
    Answers stabs type a L R (finish stabs type (search stabs type ⟨m2, r2, m2, r2, true, addr + 1 + 1⟩)) ↔
      IsType stabs type (m2 - 1) ∧ value stabs (m2 - 1) ≤ a := by
  obtain ⟨low,order,high,entry,same⟩ := hit_found first
  obtain ⟨low2,order2,high2,entry2,same2⟩ := hit_found second
  have wrapped : addr + 1 + 1 = 0 := by
    apply BitVec.eq_of_toNat_eq
    rw [toNat_succ, toNat_succ, size, last]
    rfl
  have exceeds : ∀ i, m2 ≤ i → i ≤ R → IsType stabs type i → a < value stabs i := fun i from' upto here => by
    have sorted := ordered m2 i (by omega) from' upto entry2 here
    omega
  have apart : m ≠ m2 := by
    rintro rfl
    omega
  rw [wrapped, search_wrapped (r2 - m2 + 1).toNat entry2 (by omega) fun i from' upto here =>
    Nat.lt_of_le_of_lt (Nat.zero_le a) (exceeds i from' (by omega) here), finish_some, scanBack_past (by omega)]
  constructor
  · intro answers
    exact (answers.1 ⟨m, low, by omega, entry, Nat.le_of_eq same⟩).entry
  · rintro here
    refine ⟨fun _ => ⟨⟨by dsimp only; omega, Int.le_refl _, by dsimp only; omega⟩, here, fun i from' upto => ?_, fun i from' upto => ?_, fun _ => ?_⟩,
      fun none => absurd ⟨m, low, by omega, entry, Nat.le_of_eq same⟩ none⟩
    · exact exceeds i (by dsimp only at from'; omega) upto
    · dsimp only at from' upto
      omega
    · rw [Int.sub_add_cancel]
      exact entry2

end Answers

/-- `stab_binsearch` answers right just when the region has no entry of the type, or has one that is
    not above `addr` and the search is not mistaken about `addr + 1`. -/
theorem stab_binsearch_answers {stabs : Int → Stab} {type L R : Int} (ordered : Ordered stabs type L R) {addr : BitVec 32}
    (below : addr.toNat < 2 ^ 32 - 1) : Answers stabs type addr.toNat L R (stab_binsearch stabs type L R addr) ↔
      (∀ i, L ≤ i → i ≤ R → ¬ IsType stabs type i) ∨
      ((∃ i, Below stabs type addr.toNat L R i) ∧ Unmistaken stabs type addr.toNat L R) := by
  rw [stab_binsearch_eq]
  by_cases region : L ≤ R + 1
  · have start : Narrowed stabs type addr.toNat L R L L R false := narrowed_start region
    cases first : hit (IsType stabs type) (value stabs) addr.toNat L R with
    | none =>
      obtain ⟨left,l,r,any,run,narrowed,past⟩ := narrowed_end ordered (Nat.le_refl _) (Nat.le_succ _) first start
      have right : Unmistaken stabs type addr.toNat L R := fun m r' found => by
        rw [first] at found
        cases found
      rw [run, narrowed_answers ordered narrowed past, and_iff_left right]
    | some found =>
      obtain ⟨m,r'⟩ := found
      obtain ⟨low,order,high,entry,same⟩ := hit_found first
      have here : Below stabs type addr.toNat L R m := ⟨low, by omega, entry, Nat.le_of_eq same⟩
      have some : ¬ ∀ i, L ≤ i → i ≤ R → ¬ IsType stabs type i := fun none => none m low (by omega) entry
      have next : (addr + 1).toNat = addr.toNat + 1 := by
        rw [toNat_succ]
        omega
      rw [search_hit first L false, or_iff_right some, and_iff_right ⟨m,here⟩]
      cases second : hit (IsType stabs type) (value stabs) (addr.toNat + 1) m r' with
      | none =>
        rw [← next] at second
        obtain ⟨left,l,r,any,run,narrowed,past⟩ :=
          narrowed_end ordered (by omega) (by omega) second (narrowed_hit ordered first start)
        rw [next] at second
        have right : Unmistaken stabs type addr.toNat L R := fun m' r'' found m2 r2 found2 => by
          rw [first] at found
          cases found
          rw [second] at found2
          cases found2
        rw [run, narrowed_answers ordered narrowed past]
        exact iff_of_true (Or.inr ⟨m,here⟩) right
      | some found2 =>
        obtain ⟨m2,r2⟩ := found2
        have only : Unmistaken stabs type addr.toNat L R ↔
            addr.toNat + 1 = 2 ^ 32 - 1 ∧ IsType stabs type (m2 - 1) ∧ value stabs (m2 - 1) ≤ addr.toNat := by
          constructor
          · intro right
            exact right m r' first m2 r2 second
          · intro right m' r'' found n2 s2 found2
            rw [first] at found
            cases found
            rw [second] at found2
            cases found2
            exact right
        have again : hit (IsType stabs type) (value stabs) (addr + 1).toNat m r' = Option.some (m2, r2) := by
          rw [next]
          exact second
        rw [search_hit again m true, only]
        by_cases last : addr.toNat + 1 = 2 ^ 32 - 1
        · rw [search_rescued ordered rfl last first second, and_iff_right last]
        · exact iff_of_false (search_mistaken ordered rfl (by omega) first second) fun both => last both.1
  · have none : ∀ i, L ≤ i → i ≤ R → ¬ IsType stabs type i := fun i above below => by omega
    rw [search_done (by dsimp only; omega)]
    exact iff_of_true (answers_none none) (Or.inl none)

/-- Two entries of type 36, at 0x100 and at the next address. -/
def neighbours (i : Int) : Stab := ⟨if i = 0 ∨ i = 1 then 36 else 0, if i = 0 then 0x100 else 0x101⟩

theorem neighbours_type (i : Int) : IsType neighbours 36 i ↔ i = 0 ∨ i = 1 := by
  unfold IsType neighbours
  by_cases here : i = 0 ∨ i = 1
  · rw [if_pos here]
    exact iff_of_true rfl here
  · rw [if_neg here]
    exact iff_of_false (show ¬ ((0 : BitVec 8).toNat : Int) = 36 by decide) here

theorem stab_binsearch_answers_neighbours : Answers neighbours 36 0x101 0 1 (stab_binsearch neighbours 36 0 1 0x101) := by
  have ordered : Ordered neighbours 36 0 1 := by
    intro i j _ order _ hereI hereJ
    rcases (neighbours_type i).mp hereI with rfl | rfl <;> rcases (neighbours_type j).mp hereJ with rfl | rfl
    · decide
    · decide
    · omega
    · decide
  refine (@stab_binsearch_answers _ _ _ _ ordered 0x101 (by decide)).mpr (Or.inr ⟨⟨1, by decide, by decide, ?_, by decide⟩, ?_⟩)
  · exact (neighbours_type 1).mpr (Or.inr rfl)
  · refine unmistaken_apart fun i j _ _ _ _ _ hereJ _ => ?_
    rcases (neighbours_type j).mp hereJ with rfl | rfl <;> decide

/-- The search for 0x100 goes on to the entry at 0x101. -/
theorem stab_binsearch_neighbours : stab_binsearch neighbours 36 0 1 0x100 = (1, 1) ∧
    ¬ Answers neighbours 36 0x100 0 1 (stab_binsearch neighbours 36 0 1 0x100) := by
  have run : stab_binsearch neighbours 36 0 1 0x100 = (1, 1) := by
    simp [stab_binsearch, search, turn, scanBack, middle, neighbours_type, neighbours]
  rw [run]
  refine ⟨rfl, fun answers => ?_⟩
  have bracket := answers.1 ⟨0, by decide, by decide, (neighbours_type 0).mpr (Or.inl rfl), by decide⟩
  exact absurd bracket.entry.2 (by decide)

end JosKdebug
