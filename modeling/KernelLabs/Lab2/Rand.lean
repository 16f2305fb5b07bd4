import KernelLabs.Lab2.Lottery
import KernelLabs.Lib.Lagged

/-!
The random numbers of the lottery (lab-2 `rand.c`). An `unsigned long` has 32 bits. The generator keeps
624 words and makes the next 624 in their place; what it gives out is the sequence that the recurrence
of the words says, from the last seed on.
-/
namespace LotteryRand
open Lagged

abbrev Word := BitVec 32

def N : Nat := 624
def M : Nat := 397
def MATRIX_A : Word := 0x9908b0df
def UPPER_MASK : Word := 0x80000000
def LOWER_MASK : Word := 0x7fffffff
def TEMPERING_MASK_B : Word := 0x9d2c5680
def TEMPERING_MASK_C : Word := 0xefc60000
def RAND_MAX : Word := 0x7fffffff

/-- The static variables. -/
structure Twister where
  mt : Nat → Word
  mti : Nat

/-- Before the first call. -/
def Twister.off (mt : Nat → Word) : Twister := ⟨mt, N + 1⟩

def sgenrand (t : Twister) (seed : Word) : Twister :=
  let mt := Function.update t.mt 0 (seed &&& 0xffffffff)
  ⟨(List.range (N - 1)).foldl (fun mt i => Function.update mt (i + 1) ((69069 * mt i) &&& 0xffffffff)) mt, N⟩

def mag01 (y : Word) : Word := if y = 0 then 0 else MATRIX_A

/-- One turn of the loops of `genrand`: `mt[kk]` from itself, `mt[next]` and `mt[far]`. -/
def twist (mt : Nat → Word) (kk next far : Nat) : Nat → Word :=
  let y := (mt kk &&& UPPER_MASK) ||| (mt next &&& LOWER_MASK)
  Function.update mt kk (mt far ^^^ (y >>> 1) ^^^ mag01 (y &&& 1))

/-- `generate N words at one time` -/
def generate (mt : Nat → Word) : Nat → Word :=
  let mt := (List.range (N - M)).foldl (fun mt kk => twist mt kk (kk + 1) (kk + M)) mt
  let mt := (List.range' (N - M) (M - 1)).foldl (fun mt kk => twist mt kk (kk + 1) (kk + M - N)) mt
  twist mt (N - 1) 0 (M - 1)

def tempering (y : Word) : Word :=
  let y := y ^^^ (y >>> 11)
  let y := y ^^^ ((y <<< 7) &&& TEMPERING_MASK_B)
  let y := y ^^^ ((y <<< 15) &&& TEMPERING_MASK_C)
  y ^^^ (y >>> 18)

/-- The part of `genrand` under `if (mti >= N)`. -/
def refill (t : Twister) : Twister :=
  if N ≤ t.mti then
    let t := if t.mti = N + 1 then sgenrand t 4357 else t
    ⟨generate t.mt, 0⟩
  else t

def genrand (t : Twister) : Twister × Word :=
  let t := refill t
  ({ t with mti := t.mti + 1 }, tempering (t.mt t.mti) &&& RAND_MAX)

/-- A call of `sgenrand` or of `genrand`. -/
inductive Call where
  | seed (s : Word)
  | draw

/-- What the calls of `genrand` return. -/
def draws (t : Twister) : List Call → List Word
  | [] => []
  | .seed s :: calls => draws (sgenrand t s) calls
  | .draw :: calls => (genrand t).2 :: draws (genrand t).1 calls

/-- The words by their recurrence. -/
def word (seed : Word) (k : Nat) : Word :=
  if k = 0 then seed
  else if k < N then 69069 * word seed (k - 1)
  else
    let y := (word seed (k - N) &&& UPPER_MASK) ||| (word seed (k - N + 1) &&& LOWER_MASK)
    word seed (k - N + M) ^^^ (y >>> 1) ^^^ mag01 (y &&& 1)
termination_by k
decreasing_by
  all_goals
    have n : N = 624 := rfl
    have m : M = 397 := rfl
    omega

/-- The draws since the last seed, and those to come. -/
def promised (seed : Word) (k : Nat) : List Call → List Word
  | [] => []
  | .seed s :: calls => promised s 0 calls
  | .draw :: calls => (tempering (word seed (N + k)) &&& RAND_MAX) :: promised seed (k + 1) calls

section Words
variable {seed : Word} {t : Twister} {mt : Nat → Word} {n k : Nat}

def mix (here next far : Word) : Word :=
  let y := (here &&& UPPER_MASK) ||| (next &&& LOWER_MASK)
  far ^^^ (y >>> 1) ^^^ mag01 (y &&& 1)

theorem word_follows (seed : Word) : Follows mix N M (word seed) := by
  intro k
  have past : k + N ≠ 0 ∧ ¬ k + N < N := by
    unfold N
    omega
  rw [word, if_neg past.1, if_neg past.2]
  dsimp only
  rw [Nat.add_sub_cancel]
  rfl

theorem word_first (inside : k + 1 < N) : word seed (k + 1) = 69069 * word seed k := by
  rw [word, if_neg (Nat.succ_ne_zero k), if_pos inside]
  rfl

theorem ones (x : Word) : x &&& 0xffffffff = x := BitVec.and_allOnes

/-- The seeds are the first words. -/
theorem sgenrand_words (t : Twister) (seed : Word) : Renewed N (word seed) 0 0 (sgenrand t seed).mt := by
  have loop : ∀ k, k < N → ∀ j, j ≤ k → (List.range k).foldl (fun mt i => Function.update mt (i + 1)
      ((69069 * mt i) &&& 0xffffffff)) (Function.update t.mt 0 (seed &&& 0xffffffff)) j = word seed j := by
    intro k
    induction k with
    | zero =>
      intro _ j low
      rw [Nat.le_zero.mp low, word, if_pos rfl]
      exact (Function.update_self ..).trans (ones seed)
    | succ k ih =>
      intro inside j low
      have before := ih (Nat.lt_of_succ_lt inside)
      rw [List.range_succ, List.foldl_append]
      dsimp only [List.foldl_cons, List.foldl_nil]
      by_cases last : j = k + 1
      · rw [last, Function.update_self, before k (Nat.le_refl k), ones, word_first inside]
      · rw [Function.update_of_ne last]
        exact before j (by omega)
  intro j low
  rw [if_neg (Nat.not_lt_zero j), Nat.zero_add, Nat.add_zero]
  unfold sgenrand
  dsimp only
  exact loop (N - 1) (by decide) j (by omega)

theorem turn_twist {next far : Nat} (near : (k + 1) % N = next) (away : (k + M) % N = far) (mt : Nat → Word) :
    turn mix N M mt k = twist mt k next far := by
  unfold turn twist mix
  rw [near, away]

theorem range_parts : List.range N = List.range (N - M) ++ List.range' (N - M) (M - 1) ++ [N - 1] := by
  have first : List.range' 0 (N - M) ++ List.range' (0 + (N - M)) (M - 1) = List.range' 0 (N - 1) := List.range'_append_1
  have last : List.range' 0 (N - 1) ++ List.range' (0 + (N - 1)) 1 = List.range' 0 N := List.range'_append_1
  rw [Nat.zero_add] at first last
  rw [List.range_eq_range', List.range_eq_range', first, ← last]
  rfl

/-- The three parts of the loop are one round. -/
theorem generate_sweep (mt : Nat → Word) : generate mt = sweep mix N M mt := by
  have size : N = 624 ∧ M = 397 := ⟨rfl,rfl⟩
  obtain ⟨n,m⟩ := size
  unfold sweep generate
  dsimp only
  have around : ∀ mt, turn mix N M mt (N - 1) = twist mt (N - 1) 0 (M - 1) := turn_twist (by decide) (by decide)
  rw [range_parts, List.foldl_append, List.foldl_append, List.foldl_cons, List.foldl_nil, around]
  have low : ∀ mt, ∀ k ∈ List.range (N - M), twist mt k (k + 1) (k + M) = turn mix N M mt k := by
    intro mt k member
    have inside := List.mem_range.mp member
    exact (turn_twist (Nat.mod_eq_of_lt (by omega)) (Nat.mod_eq_of_lt (by omega)) mt).symm
  have high : ∀ mt, ∀ k ∈ List.range' (N - M) (M - 1), twist mt k (k + 1) (k + M - N) = turn mix N M mt k := by
    intro mt k member
    obtain ⟨least,most⟩ := List.mem_range'_1.mp member
    refine (turn_twist (Nat.mod_eq_of_lt (by omega)) ?_ mt).symm
    rw [Nat.mod_eq_sub_mod (by omega), Nat.mod_eq_of_lt (by omega)]
  rw [List.foldl_ext _ _ _ low, List.foldl_ext _ _ _ high]

/-- The next word is the one with number `n`. -/
def Next (x : Nat → Word) (n : Nat) (t : Twister) : Prop :=
  ∃ base, Renewed N x base 0 t.mt ∧ t.mti ≤ N ∧ base + t.mti = n

theorem sgenrand_next (t : Twister) (seed : Word) : Next (word seed) (N + 0) (sgenrand t seed) :=
  ⟨0, sgenrand_words t seed, Nat.le_refl N, Nat.zero_add N⟩

theorem refill_next (next : Next (word seed) n t) : Next (word seed) n (refill t) ∧ (refill t).mti < N := by
  obtain ⟨base,renewed,inside,place⟩ := next
  unfold refill
  by_cases used : N ≤ t.mti
  · have seeded : t.mti ≠ N + 1 := by omega
    rw [if_pos used, if_neg seeded]
    refine ⟨⟨base + N, ?_, Nat.zero_le N, by dsimp only; omega⟩, (by decide : 0 < N)⟩
    dsimp only
    rw [generate_sweep]
    exact sweep_renewed (word_follows seed) (by decide) (by decide) (by decide) renewed
  · rw [if_neg used]
    exact ⟨⟨base,renewed,inside,place⟩, Nat.lt_of_not_le used⟩

theorem genrand_next (next : Next (word seed) n t) : Next (word seed) (n + 1) (genrand t).1 ∧
    (genrand t).2 = tempering (word seed n) &&& RAND_MAX := by
  obtain ⟨⟨base,renewed,_,place⟩,inside⟩ := refill_next next
  have here := renewed _ inside
  rw [if_neg (Nat.not_lt_zero _), Nat.add_zero, place] at here
  unfold genrand
  dsimp only
  rw [here]
  exact ⟨⟨base, renewed, inside, by rw [← place]; rfl⟩, rfl⟩

theorem draws_seed (s : Word) (calls : List Call) : draws t (.seed s :: calls) = draws (sgenrand t s) calls := by
  rw [draws.eq_def]

theorem draws_draw (calls : List Call) : draws t (.draw :: calls) = (genrand t).2 :: draws (genrand t).1 calls := by
  rw [draws.eq_def]

theorem draws_promised (next : Next (word seed) (N + k) t) (calls : List Call) : draws t calls = promised seed k calls := by
  induction calls generalizing seed k t with
  | nil => rfl
  | cons call calls ih =>
    cases call with
    | seed s =>
      rw [draws_seed, promised]
      exact ih (sgenrand_next t s)
    | draw =>
      obtain ⟨after,same⟩ := genrand_next next
      rw [Nat.add_assoc] at after
      rw [draws_draw, promised, same, ih after]

/-- Without a seed the first call takes 4357. -/
theorem genrand_off (mt : Nat → Word) : genrand (.off mt) = genrand (sgenrand (.off mt) 4357) := by
  have off : (Twister.off mt).mti = N + 1 := rfl
  have set : (sgenrand (.off mt) 4357).mti = N := rfl
  have first : refill (.off mt) = ⟨generate (sgenrand (.off mt) 4357).mt, 0⟩ := by
    unfold refill
    rw [if_pos (by rw [off]; exact Nat.le_succ N), if_pos off]
  have second : refill (sgenrand (.off mt) 4357) = ⟨generate (sgenrand (.off mt) 4357).mt, 0⟩ := by
    unfold refill
    rw [if_pos (Nat.le_of_eq set.symm), if_neg (by rw [set]; exact Nat.ne_of_lt (Nat.lt_succ_self N))]
  unfold genrand
  rw [first, second]

theorem draws_off (mt : Nat → Word) (calls : List Call) : draws (.off mt) calls = promised 4357 0 calls := by
  cases calls with
  | nil => rfl
  | cons call calls =>
    cases call with
    | seed s =>
      rw [draws_seed, promised]
      exact draws_promised (sgenrand_next _ s) calls
    | draw =>
      rw [draws_draw, genrand_off, ← draws_draw]
      exact draws_promised (sgenrand_next _ 4357) (.draw :: calls)

theorem stripped (x : Word) : (x &&& RAND_MAX).toNat ≤ Lottery.RAND_MAX := by
  rw [BitVec.toNat_and]
  exact Nat.and_le_right

theorem promised_range (calls : List Call) : ∀ y ∈ promised seed k calls, y.toNat ≤ Lottery.RAND_MAX := by
  induction calls generalizing seed k with
  | nil => nofun
  | cons call calls ih =>
    cases call with
    | seed s => exact ih
    | draw =>
      intro y member
      rcases List.mem_cons.mp member with rfl | later
      · exact stripped _
      · exact ih y later

/-- In whatever order seeds are set and numbers drawn, from power-on each draw is the next word of the
recurrence from the last seed, tempered and in the range that `random_at_most` relies on. -/
theorem draws_follow (mt : Nat → Word) (calls : List Call) : draws (.off mt) calls = promised 4357 0 calls ∧
    ∀ y ∈ draws (.off mt) calls, y.toNat ≤ Lottery.RAND_MAX := by
  have same := draws_off mt calls
  rw [same]
  exact ⟨rfl, promised_range calls⟩

end Words
end LotteryRand
