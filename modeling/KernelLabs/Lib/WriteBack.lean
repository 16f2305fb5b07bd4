import Mathlib.Logic.Function.Basic

/- Write-back caches: lines that hold the values of some keys of a slower store, and may be
   ahead of it. `truth` has the value last stored under each key. -/
namespace WriteBack
variable {ι K V : Type}

structure Line (K V : Type) where
  key : Option K
  value : V
  valid : Bool
  dirty : Bool

/-- No key is in two lines, lines are right, and the store is right where no line is ahead. -/
structure Coherent (line : ι → Line K V) (store truth : K → V) : Prop where
  unique : ∀ i j k, (line i).key = some k → (line j).key = some k → i = j
  fresh : ∀ i k, (line i).key = some k → (line i).valid = true → (line i).value = truth k
  ahead : ∀ i k, (line i).key = some k → (line i).dirty = true → (line i).valid = true
  clean : ∀ k, (∀ i, (line i).key = some k → (line i).dirty = false) → store k = truth k

variable {line line' : ι → Line K V} {store truth : K → V} {i : ι} {k : K} {v : V}

theorem Coherent.start (truth : K → V) (empty : ∀ i, (line i).key = none) : Coherent line truth truth := by
  have none : ∀ {i : ι} {k : K}, (line i).key ≠ some k := by
    intro i k there
    rw [empty i] at there
    exact nomatch there
  exact ⟨fun i j k there => absurd there none, fun i k there => absurd there none, fun i k there => absurd there none,
    fun k _ => rfl⟩

/-- The store has the value of a key whose line is not ahead. -/
theorem Coherent.behind (coherent : Coherent line store truth) (here : (line i).key = some k) (even : (line i).dirty = false) :
    store k = truth k := by
  refine coherent.clean k fun j there => ?_
  rw [coherent.unique j i k there here]
  exact even

/-- A line that is not ahead is given to a key that no line has. -/
theorem Coherent.claim (coherent : Coherent line store truth) (even : (line i).dirty = false)
    (absent : ∀ j, (line j).key ≠ some k) (others : ∀ j, j ≠ i → line' j = line j) (key : (line' i).key = some k)
    (invalid : (line' i).valid = false) (level : (line' i).dirty = false) : Coherent line' store truth := by
  have old : ∀ j m, (line' j).key = some m → (j = i ∧ m = k) ∨ (j ≠ i ∧ (line j).key = some m) := by
    intro j m there
    by_cases same : j = i
    · subst same
      exact Or.inl ⟨rfl, Option.some.inj (there.symm.trans key)⟩
    · exact Or.inr ⟨same, others j same ▸ there⟩
  refine ⟨fun j j' m there there' => ?_, fun j m there valid => ?_, fun j m there dirty => ?_, fun m level' => ?_⟩
  · rcases old j m there with ⟨rfl,rfl⟩ | ⟨_,before⟩ <;> rcases old j' _ there' with ⟨rfl,same⟩ | ⟨_,before'⟩
    · rfl
    · exact absurd before' (absent j')
    · exact absurd (same ▸ before) (absent j)
    · exact coherent.unique j j' m before before'
  · rcases old j m there with ⟨rfl,rfl⟩ | ⟨other,before⟩
    · rw [invalid] at valid
      exact nomatch valid
    · rw [others j other] at valid ⊢
      exact coherent.fresh j m before valid
  · rcases old j m there with ⟨rfl,rfl⟩ | ⟨other,before⟩
    · rw [level] at dirty
      exact nomatch dirty
    · rw [others j other] at dirty ⊢
      exact coherent.ahead j m before dirty
  · refine coherent.clean m fun j there => ?_
    by_cases same : j = i
    · rw [same]
      exact even
    · rw [← others j same] at there ⊢
      exact level' j there

/-- A step that keeps every key, and changes one line, the store and the truth only for its key. -/
theorem Coherent.change (coherent : Coherent line store truth) {store' truth' : K → V} (here : (line i).key = some k)
    (others : ∀ j, j ≠ i → line' j = line j) (key : (line' i).key = some k)
    (stores : ∀ m, m ≠ k → store' m = store m) (truths : ∀ m, m ≠ k → truth' m = truth m)
    (fresh : (line' i).valid = true → (line' i).value = truth' k) (ahead : (line' i).dirty = true → (line' i).valid = true)
    (clean : (line' i).dirty = false → store' k = truth' k) : Coherent line' store' truth' := by
  have keys : ∀ j, (line' j).key = (line j).key := by
    intro j
    by_cases same : j = i
    · rw [same, key, here]
    · rw [others j same]
  have away : ∀ j m, (line j).key = some m → j ≠ i → m ≠ k := by
    rintro j m there other rfl
    exact other (coherent.unique j i m there here)
  refine ⟨fun j j' m there there' => ?_, fun j m there valid => ?_, fun j m there dirty => ?_, fun m level => ?_⟩
  · exact coherent.unique j j' m (keys j ▸ there) (keys j' ▸ there')
  · rw [keys j] at there
    by_cases same : j = i
    · subst same
      cases here.symm.trans there
      exact fresh valid
    · rw [others j same] at valid ⊢
      rw [truths m (away j m there same)]
      exact coherent.fresh j m there valid
  · rw [keys j] at there
    by_cases same : j = i
    · subst same
      exact ahead dirty
    · rw [others j same] at dirty ⊢
      exact coherent.ahead j m there dirty
  · by_cases same : m = k
    · subst same
      exact clean (level i key)
    · rw [stores m same, truths m same]
      refine coherent.clean m fun j there => ?_
      have other : j ≠ i := by
        rintro rfl
        exact same (Option.some.inj (there.symm.trans here))
      rw [← others j other] at there ⊢
      exact level j there

/-- The value of a key is fetched from the store. -/
theorem Coherent.fill (coherent : Coherent line store truth) (here : (line i).key = some k) (even : (line i).dirty = false)
    (others : ∀ j, j ≠ i → line' j = line j) (key : (line' i).key = some k) (value : (line' i).value = store k)
    (valid : (line' i).valid = true) : Coherent line' store truth :=
  have same := coherent.behind here even
  coherent.change here others key (fun _ _ => rfl) (fun _ _ => rfl) (fun _ => value.trans same) (fun _ => valid) fun _ => same

variable [DecidableEq K]

/-- A new value is stored, in the line only. -/
theorem Coherent.assign (coherent : Coherent line store truth) (here : (line i).key = some k)
    (others : ∀ j, j ≠ i → line' j = line j) (key : (line' i).key = some k) (valid : (line' i).valid = true)
    (dirty : (line' i).dirty = true) : Coherent line' store (Function.update truth k (line' i).value) := by
  refine coherent.change here others key (fun _ _ => rfl) (fun m other => Function.update_of_ne other _ truth) (fun _ => ?_)
    (fun _ => valid) fun level => ?_
  · rw [Function.update_self]
  · rw [dirty] at level
    exact nomatch level

/-- The store is given the value of a line. -/
theorem Coherent.flush (coherent : Coherent line store truth) (here : (line i).key = some k) (right : (line i).valid = true)
    (others : ∀ j, j ≠ i → line' j = line j) (key : (line' i).key = some k) (value : (line' i).value = (line i).value)
    (valid : (line' i).valid = true) : Coherent line' (Function.update store k (line i).value) truth := by
  have fresh := coherent.fresh i k here right
  refine coherent.change here others key (fun m other => Function.update_of_ne other _ store) (fun _ _ => rfl)
    (fun _ => value.trans fresh) (fun _ => valid) fun _ => ?_
  rw [Function.update_self, fresh]

omit [DecidableEq K] in
/-- A line counts as ahead from now on. -/
theorem Coherent.mark (coherent : Coherent line store truth) (here : (line i).key = some k) (right : (line i).valid = true)
    (others : ∀ j, j ≠ i → line' j = line j) (key : (line' i).key = some k) (value : (line' i).value = (line i).value)
    (valid : (line' i).valid = true) (dirty : (line' i).dirty = true) : Coherent line' store truth := by
  refine coherent.change here others key (fun _ _ => rfl) (fun _ _ => rfl) (fun _ => value.trans (coherent.fresh i k here right))
    (fun _ => valid) fun level => ?_
  rw [dirty] at level
  exact nomatch level

end WriteBack
