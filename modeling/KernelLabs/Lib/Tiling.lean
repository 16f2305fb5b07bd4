import Mathlib.Logic.Function.Basic

/- Blocks of memory that cover an area without overlap, and how they are joined and split. -/
namespace Tiling
variable {block block' area area' : Nat → Prop} {len len' : Nat → Nat} {p q k n : Nat}

structure Tiles (block : Nat → Prop) (len : Nat → Nat) (area : Nat → Prop) : Prop where
  pos : ∀ p, block p → 0 < len p
  apart : ∀ p q, block p → block q → p < q → p + len p ≤ q
  cover : ∀ x, area x ↔ ∃ p, block p ∧ p ≤ x ∧ x < p + len p

theorem Tiles.congr (tiles : Tiles block len area) (same : ∀ p, block' p ↔ block p) (lens : ∀ p, block p → len' p = len p) :
    Tiles block' len' area := by
  refine ⟨fun p here => ?_, fun p q hereP hereQ less => ?_, fun x => ?_⟩
  · rw [lens p ((same p).mp here)]
    exact tiles.pos p ((same p).mp here)
  · rw [lens p ((same p).mp hereP)]
    exact tiles.apart p q ((same p).mp hereP) ((same q).mp hereQ) less
  · rw [tiles.cover]
    constructor
    · rintro ⟨p,here,inside⟩
      exact ⟨p, (same p).mpr here, lens p here ▸ inside⟩
    · rintro ⟨p,here,inside⟩
      rw [lens p ((same p).mp here)] at inside
      exact ⟨p, (same p).mp here, inside⟩

/-- A block starts nowhere inside another. -/
theorem Tiles.not_inside (tiles : Tiles block len area) (hereP : block p) (hereQ : block q) (above : p < q) : ¬ q < p + len p :=
  Nat.not_lt.mpr (tiles.apart p q hereP hereQ above)

/-- Two blocks, one after the other, become one. -/
theorem Tiles.merge (tiles : Tiles block len area) (hereP : block p) (hereQ : block q) (next : p + len p = q) :
    Tiles (fun x => block x ∧ x ≠ q) (Function.update len p (len p + len q)) area := by
  have pos := tiles.pos p hereP
  have other : p ≠ q := by omega
  refine ⟨fun x here => ?_, fun x y hereX hereY less => ?_, fun x => ?_⟩
  · by_cases same : x = p
    · rw [same, Function.update_self]
      omega
    · rw [Function.update_of_ne same]
      exact tiles.pos x here.1
  · by_cases same : x = p
    · subst same
      rw [Function.update_self]
      have first := tiles.apart x y hereX.1 hereY.1 less
      have second := tiles.apart q y hereQ hereY.1 (by have := hereY.2; omega)
      omega
    · rw [Function.update_of_ne same]
      exact tiles.apart x y hereX.1 hereY.1 less
  · rw [tiles.cover]
    constructor
    · rintro ⟨y,here,low,high⟩
      by_cases second : y = q
      · subst second
        exact ⟨p, ⟨hereP, other⟩, by omega, by rw [Function.update_self]; omega⟩
      · refine ⟨y, ⟨here, second⟩, low, ?_⟩
        by_cases first : y = p
        · rw [first] at high ⊢
          rw [Function.update_self]
          omega
        · rw [Function.update_of_ne first]
          exact high
    · rintro ⟨y,⟨here,_⟩,low,high⟩
      by_cases first : y = p
      · subst first
        rw [Function.update_self] at high
        by_cases below : x < q
        · exact ⟨y, here, low, by omega⟩
        · exact ⟨q, hereQ, by omega, by omega⟩
      · rw [Function.update_of_ne first] at high
        exact ⟨y, here, low, high⟩

/-- A block is cut in two. -/
theorem Tiles.split (tiles : Tiles block len area) (here : block p) (some : 0 < k) (part : k < len p) :
    Tiles (fun x => block x ∨ x = p + k) (Function.update (Function.update len p k) (p + k) (len p - k)) area := by
  have new : ¬ block (p + k) := fun there => tiles.not_inside here there (by omega) (by omega)
  have first : Function.update (Function.update len p k) (p + k) (len p - k) p = k := by
    rw [Function.update_of_ne (by omega), Function.update_self]
  have others : ∀ x, x ≠ p → block x → Function.update (Function.update len p k) (p + k) (len p - k) x = len x := by
    intro x other there
    have away : x ≠ p + k := fun same => new (same ▸ there)
    rw [Function.update_of_ne away, Function.update_of_ne other]
  refine ⟨fun x there => ?_, fun x y thereX thereY less => ?_, fun x => ?_⟩
  · rcases there with there | rfl
    · by_cases same : x = p
      · rw [same, first]
        exact some
      · rw [others x same there]
        exact tiles.pos x there
    · rw [Function.update_self]
      omega
  · rcases thereX with thereX | rfl <;> rcases thereY with thereY | rfl
    · by_cases same : x = p
      · rw [same, first]
        have := tiles.apart p y here thereY (by omega)
        omega
      · rw [others x same thereX]
        exact tiles.apart x y thereX thereY less
    · by_cases same : x = p
      · exact Nat.le_of_eq (by rw [same, first])
      · rw [others x same thereX]
        rcases Nat.lt_or_gt_of_ne same with below | above
        · have := tiles.apart x p thereX here below
          omega
        · exact absurd (show x < p + len p by omega) (tiles.not_inside here thereX above)
    · rw [Function.update_self]
      have := tiles.apart p y here thereY (by omega)
      omega
    · omega
  · rw [tiles.cover]
    constructor
    · rintro ⟨y,there,low,high⟩
      by_cases same : y = p
      · subst same
        by_cases lower : x < y + k
        · exact ⟨y, Or.inl there, low, by rw [first]; exact lower⟩
        · exact ⟨y + k, Or.inr rfl, by omega, by rw [Function.update_self]; omega⟩
      · exact ⟨y, Or.inl there, low, by rw [others y same there]; exact high⟩
    · rintro ⟨y,there | rfl,low,high⟩
      · by_cases same : y = p
        · subst same
          rw [first] at high
          exact ⟨y, here, low, by omega⟩
        · rw [others y same there] at high
          exact ⟨y, there, low, high⟩
      · rw [Function.update_self] at high
        exact ⟨p, here, by omega, by omega⟩

/-- A new block above all others. -/
theorem Tiles.add (tiles : Tiles block len area) (some : 0 < n) (above : ∀ p, block p → p + len p ≤ q) :
    Tiles (fun x => block x ∨ x = q) (Function.update len q n) (fun x => area x ∨ (q ≤ x ∧ x < q + n)) := by
  have below : ∀ x, block x → x ≠ q := by
    rintro x there rfl
    have := above x there
    have := tiles.pos x there
    omega
  refine ⟨fun x there => ?_, fun x y thereX thereY less => ?_, fun x => ?_⟩
  · rcases there with there | rfl
    · rw [Function.update_of_ne (below x there)]
      exact tiles.pos x there
    · rw [Function.update_self]
      exact some
  · rcases thereX with thereX | rfl <;> rcases thereY with thereY | rfl
    · rw [Function.update_of_ne (below x thereX)]
      exact tiles.apart x y thereX thereY less
    · rw [Function.update_of_ne (below x thereX)]
      exact above x thereX
    · have := above y thereY
      omega
    · omega
  · rw [tiles.cover]
    constructor
    · rintro (⟨y,there,inside⟩ | inside)
      · exact ⟨y, Or.inl there, by rw [Function.update_of_ne (below y there)]; exact inside⟩
      · exact ⟨q, Or.inr rfl, by rw [Function.update_self]; exact inside⟩
    · rintro ⟨y,there | rfl,inside⟩
      · rw [Function.update_of_ne (below y there)] at inside
        exact Or.inl ⟨y, there, inside⟩
      · rw [Function.update_self] at inside
        exact Or.inr inside

end Tiling
