import Mathlib.Logic.Basic

/- Labelled transition systems with a partial step function, the states reached by
   steps that all meet a side condition, and the invariant rule for them. -/
namespace Transition
variable {σ α : Type}

structure System (σ α : Type) where
  start : σ → Prop
  next : σ → α → Option σ

namespace System
variable (sys : System σ α)

/-- States of runs whose every step `a`, taken in `s`, meets `allowed s a`. -/
inductive Reach (allowed : σ → α → Prop) : σ → Prop where
  | start {s : σ} (init : sys.start s) : Reach allowed s
  | step {s t : σ} (a : α) (before : Reach allowed s) (ok : allowed s a)
      (run : sys.next s a = some t) : Reach allowed t

def Free : σ → α → Prop := fun _ _ => True

variable {sys}

theorem reach_invariant (sys : System σ α) {allowed : σ → α → Prop} {I : σ → Prop}
    (init : ∀ s, sys.start s → I s)
    (keep : ∀ s a t, I s → allowed s a → sys.next s a = some t → I t)
    {s : σ} (reach : sys.Reach allowed s) : I s := by
  induction reach with
  | start h => exact init _ h
  | step a before ok run ih => exact keep _ a _ ih ok run

theorem Reach.mono {allowed weaker : σ → α → Prop} (more : ∀ s a, allowed s a → weaker s a) {s : σ}
    (reach : sys.Reach allowed s) : sys.Reach weaker s := by
  induction reach with
  | start init => exact .start init
  | step a _ ok run ih => exact .step a ih (more _ a ok) run

/-- The run of a list of labels, for concrete executions. -/
def exec (next : σ → α → Option σ) (s : σ) : List α → Option σ
  | [] => some s
  | a :: rest => (next s a).bind fun t => exec next t rest

theorem exec_reach {allowed : σ → α → Prop} {s t : σ} (labels : List α)
    (ok : ∀ a ∈ labels, ∀ s, allowed s a) (reach : sys.Reach allowed s)
    (run : exec sys.next s labels = some t) : sys.Reach allowed t := by
  induction labels generalizing s with
  | nil =>
    simp only [exec, Option.some.injEq] at run
    exact run ▸ reach
  | cons a rest ih =>
    simp only [exec, Option.bind_eq_some_iff] at run
    obtain ⟨u,first,run⟩ := run
    have later : ∀ b ∈ rest, ∀ s, allowed s b := fun b mem => ok b (List.mem_cons_of_mem a mem)
    exact ih later (.step a reach (ok a List.mem_cons_self s) first) run

theorem exec_append (next : σ → α → Option σ) (s : σ) (first second : List α) :
    exec next s (first ++ second) = (exec next s first).bind fun t => exec next t second := by
  induction first generalizing s with
  | nil => rfl
  | cons a rest ih =>
    simp only [List.cons_append, exec, Option.bind_assoc]
    exact Option.bind_congr fun t _ => ih t

/-- Steps that pass a test, for concrete executions under a side condition. -/
def guarded (guard : σ → α → Bool) (next : σ → α → Option σ) (s : σ) (a : α) : Option σ :=
  if guard s a then next s a else none

theorem guarded_reach {allowed : σ → α → Prop} (guard : σ → α → Bool)
    (sound : ∀ s a, guard s a = true → allowed s a) {s t : σ} (labels : List α)
    (reach : sys.Reach allowed s) (run : exec (guarded guard sys.next) s labels = some t) :
    sys.Reach allowed t := by
  induction labels generalizing s with
  | nil =>
    simp only [exec, Option.some.injEq] at run
    exact run ▸ reach
  | cons a rest ih =>
    simp only [exec, Option.bind_eq_some_iff] at run
    obtain ⟨u,first,run⟩ := run
    unfold guarded at first
    split at first
    · rename_i passed
      exact ih (.step a reach (sound s a passed) first) run
    · simp at first

section Traces
variable {τ ε : Type}

/-- Runs from `origin` with the events that their steps emit. -/
inductive Emits (sys : System σ α) (allowed : σ → α → Prop) (emit : σ → α → List ε) (origin : σ) :
    List ε → σ → Prop where
  | start (init : sys.start origin) : Emits sys allowed emit origin [] origin
  | step {events : List ε} {s t : σ} (a : α) (before : Emits sys allowed emit origin events s)
      (ok : allowed s a) (run : sys.next s a = some t) :
      Emits sys allowed emit origin (events ++ emit s a) t

/-- The invariant rule for runs with their events. -/
theorem emits_invariant {allowed : σ → α → Prop} {emit : σ → α → List ε} {origin s : σ}
    {events : List ε} {I : List ε → σ → Prop} (init : sys.start origin → I [] origin)
    (keep : ∀ events s a t, I events s → allowed s a → sys.next s a = some t →
      I (events ++ emit s a) t)
    (run : sys.Emits allowed emit origin events s) : I events s := by
  induction run with
  | start h => exact init h
  | step a before ok step ih => exact keep _ _ a _ ih ok step

/-- A system whose every step is matched, event by event, by steps of another machine
    is matched over whole runs. -/
theorem emits_simulation {allowed : σ → α → Prop} {emit : σ → α → List ε} {origin s : σ}
    {events : List ε} (next : τ → ε → Option τ) (first : τ) (related : σ → τ → Prop)
    (init : sys.start origin → related origin first)
    (keep : ∀ s a t x, related s x → allowed s a → sys.next s a = some t →
      ∃ y, exec next x (emit s a) = some y ∧ related t y)
    (run : sys.Emits allowed emit origin events s) :
    ∃ y, exec next first events = some y ∧ related s y := by
  induction run with
  | start h => exact ⟨first,rfl,init h⟩
  | step a before ok step ih =>
    obtain ⟨x,done,here⟩ := ih
    obtain ⟨y,more,there⟩ := keep _ a _ x here ok step
    refine ⟨y, ?_, there⟩
    rw [exec_append, done]
    exact more

/-- The events of the run of a list of labels. -/
def trace (next : σ → α → Option σ) (emit : σ → α → List ε) (s : σ) : List α → List ε
  | [] => []
  | a :: rest => emit s a ++ ((next s a).map fun t => trace next emit t rest).getD []

theorem exec_emits {allowed : σ → α → Prop} {emit : σ → α → List ε} {origin s t : σ}
    {events : List ε} (labels : List α) (ok : ∀ a ∈ labels, ∀ s, allowed s a)
    (before : sys.Emits allowed emit origin events s) (run : exec sys.next s labels = some t) :
    sys.Emits allowed emit origin (events ++ trace sys.next emit s labels) t := by
  induction labels generalizing s events with
  | nil =>
    simp only [exec, Option.some.injEq] at run
    simpa [trace, run] using before
  | cons a rest ih =>
    simp only [exec, Option.bind_eq_some_iff] at run
    obtain ⟨u,first,run⟩ := run
    have later : ∀ b ∈ rest, ∀ s, allowed s b := fun b mem => ok b (List.mem_cons_of_mem a mem)
    have after := ih later (.step a before (ok a List.mem_cons_self s) first) run
    simpa [trace, first] using after

end Traces
end System
end Transition
