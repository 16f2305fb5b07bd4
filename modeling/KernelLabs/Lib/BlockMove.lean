import Mathlib.Algebra.Ring.Nat
import Mathlib.Logic.Function.Basic

/-!
Copies of blocks that may overlap, in a memory whose addresses wrap around: what a copy from the
low end and a copy from the high end leave, and when this is the block that was to be moved.
-/
namespace BlockMove

abbrev Memory (w : Nat) (V : Type) : Type := BitVec w → V

variable {w : Nat} {V : Type}

/-- `while (n-- > 0) *d++ = *s++` -/
def copyUp (mem : Memory w V) (d s : BitVec w) : Nat → Memory w V
  | 0 => mem
  | n + 1 => copyUp (Function.update mem d (mem s)) (d + 1) (s + 1) n

/-- `while (n-- > 0) *--d = *--s` -/
def copyDown (mem : Memory w V) (d s : BitVec w) : Nat → Memory w V
  | 0 => mem
  | n + 1 => copyDown (Function.update mem (d - 1) (mem (s - 1))) (d - 1) (s - 1) n

/-- The block at `d` holds what the block at `s` held, and nothing else changes. -/
def moved (mem : Memory w V) (d s : BitVec w) (n : Nat) : Memory w V :=
  fun a => if (a - d).toNat < n then mem (s + (a - d)) else mem a

/-- The block at `s` repeats itself after `f` places. -/
def Repeats (mem : Memory w V) (s : BitVec w) (f n : Nat) : Prop :=
  ∀ i, i + f < n → mem (s + BitVec.ofNat w i) = mem (s + BitVec.ofNat w (i + f))

variable {mem : Memory w V} {d s : BitVec w} {n i : Nat}

theorem distance (small : i < 2 ^ w) : (d + BitVec.ofNat w i - d).toNat = i := by
  rw [BitVec.add_comm, BitVec.add_sub_cancel, BitVec.toNat_ofNat, Nat.mod_eq_of_lt small]

/-- Every address stands at a distance from `d`. -/
theorem at_distance (d a : BitVec w) : a = d + BitVec.ofNat w (a - d).toNat := by
  rw [BitVec.ofNat_toNat, BitVec.setWidth_eq, BitVec.add_comm, BitVec.sub_add_cancel]

theorem moved_at (small : i < 2 ^ w) :
    moved mem d s n (d + BitVec.ofNat w i) = if i < n then mem (s + BitVec.ofNat w i) else mem (d + BitVec.ofNat w i) := by
  unfold moved
  rw [distance small, BitVec.add_comm d, BitVec.add_sub_cancel]

theorem memory_ext {m m' : Memory w V} (d : BitVec w)
    (same : ∀ i, i < 2 ^ w → m (d + BitVec.ofNat w i) = m' (d + BitVec.ofNat w i)) : m = m' := by
  funext a
  rw [at_distance d a]
  exact same _ (BitVec.isLt _)

/-- The places up to `f` come round again. -/
theorem next_place (k f : Nat) : (k + 1) % f = if k % f + 1 = f then 0 else k % f + 1 := by
  have step : (k + 1) % f = (k % f + 1) % f := by rw [Nat.mod_add_mod]
  rw [step]
  split
  · rename_i last
    rw [last, Nat.mod_self]
  · rename_i inner
    rcases Nat.eq_zero_or_pos f with rfl | some
    · rw [Nat.mod_zero]
    · have below := Nat.mod_lt k some
      exact Nat.mod_eq_of_lt (by omega)

theorem shift (b : BitVec w) (k : Nat) : b + 1 + BitVec.ofNat w k = b + BitVec.ofNat w (k + 1) := by
  rw [Nat.add_comm, BitVec.ofNat_add, BitVec.add_assoc]
  rfl

theorem shift_distance (d s : BitVec w) : d + 1 - (s + 1) = d - s := by
  rw [BitVec.sub_eq_iff_eq_add, ← BitVec.add_assoc, BitVec.sub_add_cancel]

theorem unshift (b : BitVec w) (k : Nat) : b + BitVec.ofNat w (k + 1) - 1 = b + BitVec.ofNat w k := by
  rw [BitVec.sub_eq_iff_eq_add, BitVec.ofNat_add, ← BitVec.add_assoc]
  rfl

theorem ofNat_wrap (b : BitVec w) : b + BitVec.ofNat w (2 ^ w) = b := by
  have none : BitVec.ofNat w (2 ^ w) = 0#w := BitVec.eq_of_toNat_eq (by rw [BitVec.toNat_ofNat, Nat.mod_self, BitVec.toNat_zero])
  rw [none, BitVec.add_zero]

theorem place_ne (inner : i + 1 < 2 ^ w) : d + BitVec.ofNat w (i + 1) ≠ d := by
  intro same
  have apart := distance (d := d) inner
  rw [same, BitVec.sub_self] at apart
  cases apart

/-- The place `k` of the source is the first of the destination if it is as far from it. -/
theorem place_eq {k : Nat} (small : k < 2 ^ w) : s + BitVec.ofNat w k = d ↔ k = (d - s).toNat := by
  constructor
  · rintro rfl
    exact (distance small).symm
  · intro same
    rw [same]
    exact (at_distance s d).symm

/-- A copy from the low end repeats what stands in front of `d`. -/
theorem copyUp_at (fits : n ≤ 2 ^ w) (small : i < 2 ^ w) : copyUp mem d s n (d + BitVec.ofNat w i) =
    if i < n then mem (s + BitVec.ofNat w (i % (d - s).toNat)) else mem (d + BitVec.ofNat w i) := by
  induction n generalizing mem d s i with
  | zero => rw [copyUp, if_neg (Nat.not_lt_zero i)]
  | succ n ih =>
    rw [copyUp]
    cases i with
    | zero =>
      have last : d + BitVec.ofNat w 0 = d + 1 + BitVec.ofNat w (2 ^ w - 1) := by
        rw [shift, Nat.sub_add_cancel Nat.one_le_two_pow, ofNat_wrap]
        exact BitVec.add_zero d
      rw [if_pos (Nat.succ_pos n), last, ih (by omega) (by omega), if_neg (by omega), ← last, Nat.zero_mod]
      rw [show d + BitVec.ofNat w 0 = d from BitVec.add_zero d, Function.update_self, show s + BitVec.ofNat w 0 = s from BitVec.add_zero s]
    | succ k =>
      rw [← shift d k, ih (by omega) (by omega), shift_distance, shift s, shift d, Function.update_of_ne (place_ne small)]
      by_cases inside : k < n
      · have below : k % (d - s).toNat ≤ k := Nat.mod_le _ _
        rw [if_pos inside, if_pos (Nat.succ_lt_succ inside), next_place]
        by_cases round : k % (d - s).toNat + 1 = (d - s).toNat
        · rw [if_pos round, (place_eq (by omega)).mpr round, Function.update_self, show s + BitVec.ofNat w 0 = s from BitVec.add_zero s]
        · rw [if_neg round, Function.update_of_ne fun same => round ((place_eq (by omega)).mp same)]
      · rw [if_neg inside, if_neg fun more => inside (Nat.lt_of_succ_lt_succ more)]

/-- A block repeats itself just when every place of it can be found in front of `f`. -/
theorem repeats_iff {f : Nat} :
    Repeats mem s f n ↔ ∀ i, i < n → mem (s + BitVec.ofNat w (i % f)) = mem (s + BitVec.ofNat w i) := by
  constructor
  · intro again i
    induction i using Nat.strongRecOn with
    | ind i ih =>
      intro inside
      rcases Nat.lt_or_ge i f with first | later
      · rw [Nat.mod_eq_of_lt first]
      · rcases Nat.eq_zero_or_pos f with rfl | some
        · rw [Nat.mod_zero]
        · rw [Nat.mod_eq_sub_mod later, ih (i - f) (by omega) (by omega), again (i - f) (by omega), Nat.sub_add_cancel later]
  · intro front i inside
    rw [← front i (by omega), ← front (i + f) inside, Nat.add_mod_right]

/-- A copy from the low end moves the block just when what it overwrites is what it reads later. -/
theorem copyUp_moved (fits : n ≤ 2 ^ w) : copyUp mem d s n = moved mem d s n ↔ Repeats mem s (d - s).toNat n := by
  rw [repeats_iff]
  constructor
  · intro same i inside
    have here := congrFun same (d + BitVec.ofNat w i)
    rwa [copyUp_at fits (by omega), moved_at (by omega), if_pos inside, if_pos inside] at here
  · intro front
    refine memory_ext d fun i small => ?_
    rw [copyUp_at fits small, moved_at small]
    by_cases inside : i < n
    · rw [if_pos inside, if_pos inside, front i inside]
    · rw [if_neg inside, if_neg inside]

variable (mem) in
/-- A copy from the high end moves the block if the destination does not end inside the source. -/
theorem copyDown_moved (fits : n ≤ 2 ^ w) (clear : n ≤ (s - d).toNat) :
    copyDown mem (d + BitVec.ofNat w n) (s + BitVec.ofNat w n) n = moved mem d s n := by
  induction n generalizing mem with
  | zero =>
    refine memory_ext d fun i small => ?_
    rw [moved_at small, if_neg (Nat.not_lt_zero i), copyDown]
  | succ n ih =>
    rw [copyDown, unshift, unshift, ih _ (by omega) (by omega)]
    refine memory_ext d fun i small => ?_
    rw [moved_at small, moved_at small]
    rcases Nat.lt_trichotomy i n with inside | rfl | outside
    · rw [if_pos inside, if_pos (Nat.lt_succ_of_lt inside), Function.update_of_ne]
      intro same
      have split : BitVec.ofNat w n = BitVec.ofNat w (n - i) + BitVec.ofNat w i := by
        rw [← BitVec.ofNat_add, Nat.sub_add_cancel (Nat.le_of_lt inside)]
      rw [split, ← BitVec.add_assoc, BitVec.add_left_inj] at same
      rw [same, distance (by omega)] at clear
      omega
    · rw [if_neg (Nat.lt_irrefl _), if_pos (Nat.lt_succ_self _), Function.update_self]
    · rw [if_neg (by omega), if_neg (by omega), Function.update_of_ne]
      intro same
      have here := (place_eq (d := d + BitVec.ofNat w n) small).mp same
      rw [distance (by omega)] at here
      omega

/-- Where the destination holds the block already, a copy changes nothing. -/
theorem copyUp_idle (same : ∀ i, i < n → mem (d + BitVec.ofNat w i) = mem (s + BitVec.ofNat w i)) : copyUp mem d s n = mem := by
  induction n generalizing d s with
  | zero => rfl
  | succ n ih =>
    have first := same 0 (Nat.succ_pos n)
    rw [show d + BitVec.ofNat w 0 = d from BitVec.add_zero d, show s + BitVec.ofNat w 0 = s from BitVec.add_zero s] at first
    rw [copyUp, ← first, Function.update_eq_self]
    refine ih fun i inside => ?_
    rw [shift, shift]
    exact same (i + 1) (Nat.succ_lt_succ inside)

theorem copyDown_idle (same : ∀ i, i < n → mem (d + BitVec.ofNat w i) = mem (s + BitVec.ofNat w i)) :
    copyDown mem (d + BitVec.ofNat w n) (s + BitVec.ofNat w n) n = mem := by
  induction n with
  | zero => rfl
  | succ n ih =>
    rw [copyDown, unshift, unshift, ← same n (Nat.lt_succ_self n), Function.update_eq_self]
    exact ih fun i inside => same i (Nat.lt_succ_of_lt inside)

theorem moved_idle (fits : n ≤ 2 ^ w) :
    moved mem d s n = mem ↔ ∀ i, i < n → mem (d + BitVec.ofNat w i) = mem (s + BitVec.ofNat w i) := by
  constructor
  · intro same i inside
    have here := congrFun same (d + BitVec.ofNat w i)
    rw [moved_at (by omega), if_pos inside] at here
    exact here.symm
  · intro same
    refine memory_ext d fun i small => ?_
    rw [moved_at small]
    by_cases inside : i < n
    · rw [if_pos inside, same i inside]
    · rw [if_neg inside]

end BlockMove
