import Mathlib.Data.List.Basic
import Mathlib.Logic.Function.Basic

/- A finite map in a list of slots. A slot is free or has a key with its value; a new key takes the
   first free slot, and a new one at the end when there is none. -/
namespace SlotTable
variable {K V : Type}

abbrev Table (K V : Type) := List (Option (K × V))

/-- No key has two slots. -/
def Distinct (t : Table K V) : Prop :=
  ∀ (e f : Nat) (a : K) (v w : V), t[e]? = some (some (a, v)) → t[f]? = some (some (a, w)) → e = f

/-- The first free slot, or the end. -/
def vacant (t : Table K V) : Nat := t.findIdx Option.isNone

def write (t : Table K V) (e : Nat) (slot : Option (K × V)) : Table K V := t.take e ++ slot :: t.drop (e + 1)

section Slots
variable {t : Table K V} {e f : Nat} {slot : Option (K × V)}

theorem vacant_le (t : Table K V) : vacant t ≤ t.length := List.findIdx_le_length

theorem vacant_free (inside : vacant t < t.length) : t[vacant t]? = some none := by
  have free := List.findIdx_getElem (p := Option.isNone) (w := inside)
  rw [Option.isNone_iff_eq_none] at free
  rw [List.getElem?_eq_getElem inside]
  exact congrArg some free

theorem vacant_place (t : Table K V) : t[vacant t]? = some none ∨ t[vacant t]? = none := by
  rcases Nat.lt_or_ge (vacant t) t.length with inside | past
  · exact Or.inl (vacant_free inside)
  · exact Or.inr (List.getElem?_eq_none past)

theorem write_get (place : e ≤ t.length) (f : Nat) : (write t e slot)[f]? = if f = e then some slot else t[f]? := by
  have front : (t.take e).length = e := by rw [List.length_take, Nat.min_eq_left place]
  unfold write
  by_cases before : f < e
  · rw [if_neg (Nat.ne_of_lt before), List.getElem?_append_left (by omega), List.getElem?_take_of_lt before]
  · rw [List.getElem?_append_right (by omega), front]
    by_cases same : f = e
    · rw [if_pos same, same, Nat.sub_self]
      rfl
    · rw [if_neg same]
      obtain ⟨d,after⟩ : ∃ d, f = e + 1 + d := ⟨f - e - 1, by omega⟩
      rw [after, show e + 1 + d - e = d + 1 by omega, List.getElem?_cons_succ, List.getElem?_drop]

theorem distinct_erase (distinct : Distinct t) (place : e ≤ t.length) : Distinct (write t e none) := by
  intro f g b w x first second
  rw [write_get place] at first second
  split at first
  · cases first
  split at second
  · cases second
  exact distinct f g b w x first second

end Slots

variable [DecidableEq K] {t : Table K V} {a b : K} {v : V} {e : Nat}

/-- The slot of a key. -/
def find (t : Table K V) (a : K) : Option Nat := t.findIdx? fun slot => slot.any fun p => decide (p.1 = a)

/-- The map that the table stands for. -/
def lookup (t : Table K V) (a : K) : Option V := (find t a).bind fun e => t[e]?.join.map Prod.snd

theorem find_some (found : find t a = some e) : ∃ v, t[e]? = some (some (a, v)) := by
  obtain ⟨inside,hit,_⟩ := List.findIdx?_eq_some_iff_getElem.mp found
  rw [Option.any_eq_true] at hit
  obtain ⟨p,entry,same⟩ := hit
  rw [decide_eq_true_eq] at same
  refine ⟨p.2, ?_⟩
  rw [List.getElem?_eq_getElem inside, entry, ← same]

theorem find_none (missing : find t a = none) (e : Nat) (v : V) : t[e]? ≠ some (some (a, v)) := by
  intro entry
  have other := List.findIdx?_eq_none_iff.mp missing _ (List.mem_of_getElem? entry)
  simp at other

theorem find_iff (distinct : Distinct t) : find t a = some e ↔ ∃ v, t[e]? = some (some (a, v)) := by
  refine ⟨find_some, ?_⟩
  rintro ⟨v,entry⟩
  cases found : find t a with
  | none => exact absurd entry (find_none found e v)
  | some f =>
    obtain ⟨w,other⟩ := find_some found
    rw [distinct e f a v w entry other]

theorem lookup_iff (distinct : Distinct t) : lookup t a = some v ↔ ∃ e : Nat, t[e]? = some (some (a, v)) := by
  unfold lookup
  constructor
  · intro found
    obtain ⟨e,here,value⟩ := Option.bind_eq_some_iff.mp found
    obtain ⟨w,entry⟩ := find_some here
    rw [entry] at value
    cases value
    exact ⟨e,entry⟩
  · rintro ⟨e,entry⟩
    rw [(find_iff distinct).mpr ⟨v,entry⟩, Option.bind_some, entry]
    rfl

theorem lookup_find (entry : t[e]? = some (some (a, v))) (found : find t a = some e) : lookup t a = some v := by
  unfold lookup
  rw [found, Option.bind_some, entry]
  rfl

theorem lookup_none : lookup t a = none ↔ find t a = none := by
  unfold lookup
  constructor
  · intro missing
    by_contra found
    obtain ⟨e,here⟩ := Option.ne_none_iff_exists'.mp found
    obtain ⟨v,entry⟩ := find_some here
    rw [here, Option.bind_some, entry] at missing
    cases missing
  · intro missing
    rw [missing]
    rfl

/-- Two tables with the same entries for a key give it the same value. -/
theorem lookup_ext {u : Table K V} (distinct : Distinct t) (distinct' : Distinct u)
    (same : ∀ v, (∃ e : Nat, t[e]? = some (some (a, v))) ↔ ∃ e : Nat, u[e]? = some (some (b, v))) : lookup t a = lookup u b := by
  refine Option.ext fun v => ?_
  rw [lookup_iff distinct, lookup_iff distinct', same]

section Commands

inductive Command (K V : Type) where
  | insert (a : K) (v : V)
  | erase (a : K)

/-- What a command means for the map. An insertion of a key that is there is refused. -/
def apply (m : K → Option V) : Command K V → K → Option V
  | .insert a v => if m a = none then Function.update m a (some v) else m
  | .erase a => Function.update m a none

/-- What it does to the table. -/
def step (t : Table K V) : Command K V → Table K V
  | .insert a v => if find t a = none then write t (vacant t) (some (a, v)) else t
  | .erase a => match find t a with
    | some e => write t e none
    | none => t

/-- A new key in a free slot. -/
theorem distinct_insert (distinct : Distinct t) (missing : find t a = none) : Distinct (write t (vacant t) (some (a, v))) := by
  intro e f b w x first second
  rw [write_get (vacant_le t)] at first second
  split at first <;> split at second
  · rename_i one two
    rw [one, two]
  · cases first
    exact absurd second (find_none missing f x)
  · cases second
    exact absurd first (find_none missing e w)
  · exact distinct e f b w x first second

theorem lookup_insert (distinct : Distinct t) (missing : find t a = none) :
    lookup (write t (vacant t) (some (a, v))) = Function.update (lookup t) a (some v) := by
  have distinct' := distinct_insert (v := v) distinct missing
  funext b
  by_cases same : b = a
  · rw [same, Function.update_self, lookup_iff distinct']
    refine ⟨vacant t, ?_⟩
    rw [write_get (vacant_le t), if_pos rfl]
  · rw [Function.update_of_ne same]
    refine lookup_ext distinct' distinct fun w => exists_congr fun e => ?_
    rw [write_get (vacant_le t)]
    split
    · rename_i new
      constructor
      · intro entry
        cases entry
        exact absurd rfl same
      · intro entry
        rw [new] at entry
        rcases vacant_place t with free | past
        · cases free.symm.trans entry
        · cases past.symm.trans entry
    · rfl

theorem lookup_erase (distinct : Distinct t) (found : find t a = some e) :
    lookup (write t e none) = Function.update (lookup t) a none := by
  obtain ⟨v,entry⟩ := find_some found
  have place : e ≤ t.length := Nat.le_of_lt (List.getElem?_eq_some_iff.mp entry).1
  have distinct' := distinct_erase distinct place
  funext b
  by_cases same : b = a
  · rw [same, Function.update_self, Option.eq_none_iff_forall_ne_some]
    intro w again
    obtain ⟨f,other⟩ := (lookup_iff distinct').mp again
    rw [write_get place] at other
    split at other
    · cases other
    · rename_i apart
      exact apart (distinct f e a w v other entry)
  · rw [Function.update_of_ne same]
    refine lookup_ext distinct' distinct fun w => exists_congr fun f => ?_
    rw [write_get place]
    split
    · rename_i gone
      constructor
      · intro wrong
        cases wrong
      · intro wrong
        rw [gone, entry] at wrong
        cases wrong
        exact absurd rfl same
    · rfl

theorem step_spec (distinct : Distinct t) (command : Command K V) :
    Distinct (step t command) ∧ lookup (step t command) = apply (lookup t) command := by
  cases command with
  | insert a v =>
    dsimp only [step, apply]
    by_cases missing : find t a = none
    · rw [if_pos missing, if_pos (lookup_none.mpr missing)]
      exact ⟨distinct_insert distinct missing, lookup_insert distinct missing⟩
    · rw [if_neg missing, if_neg (lookup_none.not.mpr missing)]
      exact ⟨distinct,rfl⟩
  | erase a =>
    dsimp only [step, apply]
    cases found : find t a with
    | none =>
      refine ⟨distinct, ?_⟩
      dsimp only
      rw [← lookup_none.mpr found, Function.update_eq_self]
    | some e =>
      obtain ⟨v,entry⟩ := find_some found
      exact ⟨distinct_erase distinct (Nat.le_of_lt (List.getElem?_eq_some_iff.mp entry).1), lookup_erase distinct found⟩

end Commands
end SlotTable
