import KernelLabs.Lib.Wp

/- Programs that record events. A recorded program does what another one does, and its trace
   only grows. -/
namespace Recorded
open Wp
variable {τ σ ε α β : Type}

abbrev Rec (τ σ ε α : Type) : Type := StateT (σ × List τ) (Except ε) α

/-- A program without events. -/
def quietly (m : StateT σ (Except ε) α) : Rec τ σ ε α := fun s =>
  match m s.1 with
  | .ok (a, t) => .ok (a, (t, s.2))
  | .error e => .error e

def record (e : τ) : Rec τ σ ε Unit := fun s => .ok ((), (s.1, s.2 ++ [e]))

/-- `r` is `m` with records. -/
def Records (r : Rec τ σ ε α) (m : StateT σ (Except ε) α) : Prop := ∀ s l,
  match m s with
  | .ok (a, t) => ∃ more, r (s, l) = .ok (a, (t, l ++ more))
  | .error e => r (s, l) = .error e

section Records
variable {r : Rec τ σ ε α} {m : StateT σ (Except ε) α} {f : α → Rec τ σ ε β} {g : α → StateT σ (Except ε) β}

theorem records_quietly (m : StateT σ (Except ε) α) : Records (τ := τ) (quietly m) m := by
  intro s l
  unfold quietly
  cases m s with
  | ok result => exact ⟨[], by rw [List.append_nil]⟩
  | error e => rfl

theorem records_pure (a : α) : Records (pure a : Rec τ σ ε α) (pure a) := fun s l => ⟨[], by rw [List.append_nil]; rfl⟩

theorem records_throw (e : ε) : Records (throw e : Rec τ σ ε α) (throw e) := fun _ _ => rfl

theorem records_bind (first : Records r m) (second : ∀ a, Records (f a) (g a)) : Records (r >>= f) (m >>= g) := by
  intro s l
  have start := first s l
  simp only [bind, StateT.bind, Except.bind]
  cases run : m s with
  | error e =>
    rw [run] at start
    simp only [start]
  | ok result =>
    obtain ⟨a,t⟩ := result
    rw [run] at start
    obtain ⟨more,done⟩ := start
    have rest := second a t (l ++ more)
    simp only [done]
    cases later : g a t with
    | error e =>
      rw [later] at rest
      exact rest
    | ok result =>
      rw [later] at rest
      obtain ⟨again,done⟩ := rest
      exact ⟨more ++ again, by rw [done, List.append_assoc]⟩

/-- An event before a program. -/
theorem records_record (e : τ) (same : Records r m) : Records (do record e; r) m := by
  intro s l
  have rest := same s (l ++ [e])
  cases run : m s with
  | error e' =>
    rw [run] at rest
    exact rest
  | ok result =>
    rw [run] at rest
    obtain ⟨more,done⟩ := rest
    exact ⟨e :: more, done.trans (by rw [List.append_assoc]; rfl)⟩

theorem records_ite {c : Prop} [Decidable c] {r' : Rec τ σ ε α} {m' : StateT σ (Except ε) α} (first : Records r m)
    (second : Records r' m') : Records (if c then r else r') (if c then m else m') := by
  split
  · exact first
  · exact second

end Records

/-- What a run that ends has recorded. -/
def Logs (r : Rec τ σ ε α) (s : σ) (P : α → σ → List τ → Prop) : Prop := ∀ l,
  match r (s, l) with
  | .ok (a, (t, l')) => ∃ more, l' = l ++ more ∧ P a t more
  | .error _ => True

section Logs
variable {r : Rec τ σ ε α} {m : StateT σ (Except ε) α} {f : α → Rec τ σ ε β} {s : σ} {P : α → σ → List τ → Prop}
  {Q : β → σ → List τ → Prop}

theorem logs_mono {P' : α → σ → List τ → Prop} (first : Logs r s P') (weaker : ∀ a t more, P' a t more → P a t more) :
    Logs r s P := by
  intro l
  have start := first l
  cases run : r (s, l) with
  | error e => trivial
  | ok result =>
    obtain ⟨a,t,l'⟩ := result
    rw [run] at start
    obtain ⟨more,same,holds⟩ := start
    exact ⟨more, same, weaker a t more holds⟩

theorem logs_pure {a : α} (holds : P a s []) : Logs (pure a : Rec τ σ ε α) s P := fun l => ⟨[], by rw [List.append_nil], holds⟩

theorem logs_throw {e : ε} : Logs (throw e : Rec τ σ ε α) s P := fun _ => trivial

theorem logs_bind (first : Logs r s fun a t more => Logs (f a) t fun b u later => Q b u (more ++ later)) :
    Logs (r >>= f) s Q := by
  intro l
  have start := first l
  simp only [bind, StateT.bind, Except.bind]
  cases run : r (s, l) with
  | error e => trivial
  | ok result =>
    obtain ⟨a,t,l'⟩ := result
    rw [run] at start
    obtain ⟨more,same,rest⟩ := start
    have last := rest l'
    simp only
    cases later : f a (t, l') with
    | error e => trivial
    | ok result =>
      obtain ⟨b,u,l''⟩ := result
      rw [later] at last
      obtain ⟨again,same',holds⟩ := last
      exact ⟨more ++ again, by rw [same', same, List.append_assoc], holds⟩

/-- What is known of the program without records. -/
theorem logs_wp {R : α → σ → Prop} (first : Logs r s P) (records : Records r m) (known : wp (fun _ => True) m s R) :
    Logs r s fun a t more => P a t more ∧ R a t := by
  intro l
  have start := first l
  have plain := records s l
  unfold wp at known
  cases run : m s with
  | error e =>
    rw [run] at plain
    rw [plain]
    trivial
  | ok result =>
    rw [run] at plain known
    obtain ⟨more,done⟩ := plain
    rw [done] at start ⊢
    obtain ⟨more',same,holds⟩ := start
    exact ⟨more', same, holds, known⟩

theorem logs_quietly {R : α → σ → Prop} (known : wp (fun _ => True) m s R) :
    Logs (quietly m) s fun a t (more : List τ) => more = [] ∧ R a t := by
  intro l
  unfold wp at known
  unfold quietly
  dsimp only
  cases run : m s with
  | error e => trivial
  | ok result =>
    rw [run] at known
    exact ⟨[], by rw [List.append_nil], rfl, known⟩

end Logs
end Recorded
