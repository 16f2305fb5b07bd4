import Mathlib.Logic.Basic

/- Weakest preconditions for programs that change a state and may stop with an error.
   `E` holds of the errors that are allowed. -/
namespace Wp
variable {σ ε α β : Type} {E : ε → Prop}

def wp (E : ε → Prop) (m : StateT σ (Except ε) α) (s : σ) (Q : α → σ → Prop) : Prop :=
  match m s with
  | .ok (a, t) => Q a t
  | .error e => E e

theorem wp_mono {m : StateT σ (Except ε) α} {s : σ} {Q R : α → σ → Prop} (first : wp E m s R)
    (weaker : ∀ a t, R a t → Q a t) : wp E m s Q := by
  unfold wp at first ⊢
  split
  · rename_i a t run
    rw [run] at first
    exact weaker a t first
  · rename_i e run
    rw [run] at first
    exact first

/-- Two results about one program; the errors need to be allowed by one of them only. -/
theorem wp_and {m : StateT σ (Except ε) α} {s : σ} {Q R : α → σ → Prop} (first : wp E m s Q)
    (second : wp (fun _ => True) m s R) : wp E m s fun a t => Q a t ∧ R a t := by
  unfold wp at first second ⊢
  split
  · rename_i a t run
    rw [run] at first second
    exact ⟨first,second⟩
  · rename_i e run
    rw [run] at first
    exact first

theorem wp_trivial (m : StateT σ (Except ε) α) (s : σ) : wp (fun _ => True) m s fun _ _ => True := by
  unfold wp
  split <;> trivial

@[simp]
theorem wp_pure (a : α) (s : σ) (Q : α → σ → Prop) : wp E (pure a) s Q ↔ Q a s := Iff.rfl

@[simp]
theorem wp_bind (m : StateT σ (Except ε) α) (f : α → StateT σ (Except ε) β) (s : σ)
    (Q : β → σ → Prop) : wp E (m >>= f) s Q ↔ wp E m s fun a t => wp E (f a) t Q := by
  unfold wp
  simp only [bind, StateT.bind, Except.bind]
  cases m s with
  | error e => rfl
  | ok result => rfl

@[simp]
theorem wp_get (s : σ) (Q : σ → σ → Prop) :
    wp E (get : StateT σ (Except ε) σ) s Q ↔ Q s s := Iff.rfl

@[simp]
theorem wp_set (t s : σ) (Q : PUnit → σ → Prop) :
    wp E (set t : StateT σ (Except ε) PUnit) s Q ↔ Q ⟨⟩ t := Iff.rfl

@[simp]
theorem wp_modify (f : σ → σ) (s : σ) (Q : PUnit → σ → Prop) :
    wp E (modify f : StateT σ (Except ε) PUnit) s Q ↔ Q ⟨⟩ (f s) := Iff.rfl

@[simp]
theorem wp_throw (e : ε) (s : σ) (Q : α → σ → Prop) :
    wp E (throw e : StateT σ (Except ε) α) s Q ↔ E e := Iff.rfl

@[simp]
theorem wp_ite (c : Prop) [Decidable c] (m n : StateT σ (Except ε) α) (s : σ) (Q : α → σ → Prop) :
    wp E (if c then m else n) s Q ↔ if c then wp E m s Q else wp E n s Q := by
  split <;> rfl

/-- A loop over a list keeps an invariant that may speak of what is still to come. -/
theorem wp_forM {ι : Type} (body : ι → StateT σ (Except ε) PUnit) (I : List ι → σ → Prop)
    (step : ∀ i rest s, I (i :: rest) s → wp E (body i) s fun _ t => I rest t) (l : List ι) {s : σ}
    (before : I l s) : wp E (forM l body) s fun _ t => I [] t := by
  induction l generalizing s with
  | nil => exact before
  | cons i rest ih =>
    rw [List.forM_cons, wp_bind]
    exact wp_mono (step i rest s before) fun _ t after => ih after

theorem wp_ok {m : StateT σ (Except ε) α} {s t : σ} {a : α} {Q : α → σ → Prop} (holds : wp E m s Q)
    (run : m s = .ok (a, t)) : Q a t := by
  unfold wp at holds
  rw [run] at holds
  exact holds

/-- Without allowed errors the program ends. -/
theorem wp_total {m : StateT σ (Except ε) α} {s : σ} {Q : α → σ → Prop} (holds : wp (fun _ => False) m s Q) :
    ∃ a t, m s = .ok (a, t) ∧ Q a t := by
  unfold wp at holds
  cases run : m s with
  | ok result =>
    rw [run] at holds
    exact ⟨result.1, result.2, rfl, holds⟩
  | error e =>
    rw [run] at holds
    exact holds.elim

theorem wp_error {m : StateT σ (Except ε) α} {s : σ} {e : ε} {Q : α → σ → Prop} (holds : wp E m s Q)
    (run : m s = .error e) : E e := by
  unfold wp at holds
  rw [run] at holds
  exact holds

/-- Programs that run alike from here. -/
theorem wp_congr {m n : StateT σ (Except ε) α} {s : σ} {Q : α → σ → Prop} (same : m s = n s) (holds : wp E n s Q) : wp E m s Q := by
  unfold wp at holds ⊢
  rw [same]
  exact holds

/-- A program goes on after a first part that ends. -/
theorem bind_run {m : StateT σ (Except ε) α} {f : α → StateT σ (Except ε) β} {s t : σ} {a : α} (run : m s = .ok (a, t)) :
    (m >>= f) s = f a t := by
  simp only [bind, StateT.bind, Except.bind, run]

theorem bind_error {m : StateT σ (Except ε) α} {f : α → StateT σ (Except ε) β} {s : σ} {e : ε} (run : m s = .error e) :
    (m >>= f) s = .error e := by
  simp only [bind, StateT.bind, Except.bind, run]

theorem bind_ok {m : StateT σ (Except ε) α} {f : α → StateT σ (Except ε) β} {s : σ} {r : β × σ} (run : (m >>= f) s = .ok r) :
    ∃ a t, m s = .ok (a, t) ∧ f a t = .ok r := by
  cases first : m s with
  | error e =>
    rw [bind_error first] at run
    cases run
  | ok result =>
    obtain ⟨a,t⟩ := result
    rw [bind_run first] at run
    exact ⟨a, t, rfl, run⟩

end Wp
