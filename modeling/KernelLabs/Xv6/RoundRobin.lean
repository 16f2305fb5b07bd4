import KernelLabs.Xv6.Sleep
import Mathlib.Data.Fintype.Card

/-!
The order in which `scheduler` dispatches. On every processor it goes round the table, so nobody is
dispatched twice by one processor while somebody else stays RUNNABLE.
-/
namespace Xv6RoundRobin
open Xv6Sleep Transition
open Xv6Proc (NPROC Procstate)

section Modes
variable {K L C δ : Type} [DecidableEq K] [DecidableEq L] [DecidableEq C] {g : Guards L C δ}
  {s t : State K L C δ} {k : K} {p q : Fin NPROC}

/-- The process that a step dispatches, with its processor. -/
def dispatches (s : State K L C δ) : K × Action L C δ → List (K × Fin NPROC)
  | (k, .step) =>
    match s.mode k with
    | .loop i => if h : i < NPROC then if s.state ⟨i, h⟩ = .runnable then [(k, ⟨i, h⟩)] else [] else []
    | _ => []
  | _ => []

/-- The slot that the processor's scheduler looks at next. -/
def place : Mode → Nat
  | .out => NPROC
  | .loop i => i
  | .run p => p.val + 1

omit [DecidableEq K] [DecidableEq C] in
theorem acquire_mode {l : L} {f : State K L C δ → State K L C δ} (run : (s.acquire k l).map f = some t)
    (same : ∀ u, (f u).mode = u.mode) : t.mode = s.mode := by
  unfold State.acquire at run
  split at run
  · cases run
    exact same _
  · cases run

omit [DecidableEq K] [DecidableEq L] [DecidableEq C] in
theorem wake_mode (s : State K L C δ) (p : Fin NPROC) (wakes : Bool) : (s.wake p wakes).mode = s.mode := by
  unfold State.wake
  split <;> rfl

/-- A process gives its processor back to the scheduler behind its own slot. -/
theorem advance_mode (run : advance g s k p = some t) :
    t.mode = s.mode ∨ t.mode = Function.update s.mode k (.loop (p.val + 1)) := by
  cases here : s.pc p with
  | out back =>
    rw [advance, here] at run
    cases back with
    | none => cases run
    | some c =>
      dsimp only at run
      exact Or.inl (acquire_mode run fun _ => rfl)
  | held | made =>
    rw [advance, here] at run
    cases run
  | sleepAcquire | wakeAcquire | yieldAcquire =>
    rw [advance, here] at run
    dsimp only at run
    exact Or.inl (acquire_mode run fun _ => rfl)
  | sched | yieldSched =>
    rw [advance, here] at run
    cases run
    exact Or.inr rfl
  | wakeLoop c i =>
    rw [advance, here] at run
    dsimp only at run
    split at run
    · cases run
      exact Or.inl (wake_mode s _ _)
    · cases run
      exact Or.inl rfl
  | _ =>
    rw [advance, here] at run
    cases run
    exact Or.inl rfl

theorem choose_mode {a : Action L C δ} (run : choose g s k p a = some t) :
    t.mode = s.mode ∨ t.mode = Function.update s.mode k (.loop (p.val + 1)) := by
  cases a with
  | step => exact advance_mode run
  | acquire l =>
    rw [choose] at run
    split at run
    · exact Or.inl (acquire_mode run fun _ => rfl)
    · cases run
  | work c d =>
    rw [choose] at run
    split at run
    · cases run
      left
      unfold work
      dsimp only
      split <;> rfl
    · cases run
  | kill r =>
    rw [choose] at run
    split at run
    · cases run
      exact Or.inl (wake_mode s r true)
    · cases run
  | _ =>
    rw [choose] at run
    split at run
    · cases run
      exact Or.inl rfl
    · cases run

/-- How the place of a scheduler moves when it dispatches nobody and `q` is RUNNABLE. -/
inductive Passes (q i : Nat) : Nat → Prop
  | stay : Passes q i i
  | skip (other : i ≠ q) (inside : i < NPROC) : Passes q i (i + 1)
  | wrap {j : Nat} (past : NPROC ≤ i) (first : j = 0 ∨ j = NPROC) : Passes q i j

theorem next_others {a : Action L C δ} (run : next g s (k, a) = some t) {j : K} (other : j ≠ k) : t.mode j = s.mode j := by
  unfold next at run
  dsimp only at run
  cases here : s.mode k with
  | out =>
    rw [here] at run
    cases a <;> dsimp only at run
    case step =>
      obtain ⟨u,taken,rfl⟩ := Option.map_eq_some_iff.mp run
      rw [setMode_mode, Function.update_of_ne other, acquire_mode (f := id) (by rw [taken]; rfl) fun _ => rfl]
    all_goals cases run
  | loop i =>
    rw [here] at run
    cases a <;> dsimp only at run
    case step =>
      cases run
      unfold schedule
      split
      · split <;> simp only [setMode_mode, setState_mode, Function.update_of_ne other]
      · rw [setMode_mode, Function.update_of_ne other, release_mode]
    all_goals cases run
  | run p =>
    rw [here] at run
    rcases choose_mode run with same | back
    · rw [same]
    · rw [back, Function.update_of_ne other]

/-- A step of a processor dispatches the process at its place, or moves on. -/
theorem next_place {a : Action L C δ} (ready : s.state q = .runnable) (run : next g s (k, a) = some t) :
    (dispatches s (k, a) = [] ∧ Passes q.val (place (s.mode k)) (place (t.mode k))) ∨
      ∃ p, dispatches s (k, a) = [(k, p)] ∧ place (s.mode k) = p.val ∧ place (t.mode k) = p.val + 1 ∧
        t.state p = .running := by
  unfold next at run
  dsimp only at run
  cases here : s.mode k with
  | out =>
    rw [here] at run
    cases a <;> dsimp only at run
    case step =>
      obtain ⟨u,taken,rfl⟩ := Option.map_eq_some_iff.mp run
      refine Or.inl ⟨by simp only [dispatches, here], ?_⟩
      rw [setMode_mode, Function.update_self]
      exact .wrap (Nat.le_refl _) (Or.inl rfl)
    all_goals cases run
  | loop i =>
    rw [here] at run
    cases a <;> dsimp only at run
    case step =>
      cases run
      unfold schedule
      by_cases inside : i < NPROC
      · rw [dif_pos inside]
        by_cases here' : s.state ⟨i, inside⟩ = .runnable
        · rw [if_pos here']
          refine Or.inr ⟨⟨i, inside⟩, ?_, rfl, ?_, ?_⟩
          · simp only [dispatches, here, inside, here', dif_pos, if_pos]
          · rw [setMode_mode, Function.update_self]
            rfl
          · rw [setMode_state, setState_state, Function.update_self]
        · rw [if_neg here']
          refine Or.inl ⟨?_, ?_⟩
          · simp only [dispatches, here, inside, here', dif_pos, if_neg, not_false_eq_true]
          · rw [setMode_mode, Function.update_self]
            refine .skip (fun same => here' ?_) inside
            rw [← ready]
            exact congrArg s.state (Fin.ext same)
      · rw [dif_neg inside]
        refine Or.inl ⟨?_, ?_⟩
        · simp only [dispatches, here, inside, dif_neg, not_false_eq_true]
        · rw [setMode_mode, Function.update_self]
          exact .wrap (Nat.le_of_not_lt inside) (Or.inr rfl)
    all_goals cases run
  | run p =>
    rw [here] at run
    have none : dispatches s (k, a) = [] := by
      cases a <;> simp only [dispatches, here]
    refine Or.inl ⟨none, ?_⟩
    rcases choose_mode run with same | back
    · rw [same, here]
      exact .stay
    · rw [back, Function.update_self]
      exact .stay

end Modes

section Turns
variable {K L C δ : Type} [DecidableEq K] [DecidableEq L] [DecidableEq C] {g : Guards L C δ}
  {origin s t : State K L C δ} {k : K} {p q : Fin NPROC} {events : List (K × Fin NPROC)}

/-- How many slots a scheduler at `i` looks at before `q`. -/
def gap (q i : Nat) : Nat := if i ≤ q then q - i else NPROC - i + q

theorem Passes.gap_le {q i j : Nat} (inside : q < NPROC) (passes : Passes q i j) : gap q j ≤ gap q i := by
  unfold gap
  cases passes with
  | stay => exact Nat.le_refl _
  | skip other inside => split <;> split <;> omega
  | wrap past first =>
    rcases first with rfl | rfl
    · rw [if_pos (Nat.zero_le q), if_neg (by omega)]
      omega
    · rw [if_neg (by omega), if_neg (by omega)]
      omega

theorem gap_succ {q i : Nat} (low : i < NPROC) (other : i ≠ q) : gap q (i + 1) < gap q i := by
  unfold gap
  split <;> split <;> omega

/-- The processes that `k` dispatches. -/
def turns (k : K) (events : List (K × Fin NPROC)) : List (Fin NPROC) :=
  (events.filter fun e => e.1 = k).map (·.2)

/-- The states in which `q` is RUNNABLE, and the steps from them. -/
def Waits (q : Fin NPROC) (s : State K L C δ) : K × Action L C δ → Prop := fun _ => s.state q = .runnable

/-- Runs from any state. -/
def runsFrom (g : Guards L C δ) (origin : State K L C δ) : System (State K L C δ) (K × Action L C δ) :=
  ⟨(· = origin), next g⟩

/-- The processor comes nearer to `q` with every process it dispatches. -/
structure Nearing (q : Fin NPROC) (k : K) (events : List (K × Fin NPROC)) (s : State K L C δ) : Prop where
  order : (turns k events).Pairwise fun a b => gap q b.val < gap q a.val
  ahead : s.state q = .runnable → ∀ p ∈ turns k events, gap q (place (s.mode k)) < gap q p.val

theorem turns_append (k : K) (first second : List (K × Fin NPROC)) :
    turns k (first ++ second) = turns k first ++ turns k second := by
  rw [turns, List.filter_append, List.map_append]
  rfl

theorem next_nearing {j : K} {a : Action L C δ} (ready : s.state q = .runnable) (near : Nearing q k events s)
    (run : next g s (j, a) = some t) : Nearing q k (events ++ dispatches s (j, a)) t := by
  obtain ⟨order,ahead⟩ := near
  have ahead := ahead ready
  rcases next_place ready run with ⟨none,passes⟩ | ⟨p,one,here,after,running⟩
  · rw [none, List.append_nil]
    refine ⟨order, fun _ p member => ?_⟩
    by_cases own : j = k
    · rw [← own] at ahead member ⊢
      exact Nat.lt_of_le_of_lt (passes.gap_le q.isLt) (ahead p member)
    · rw [next_others run (Ne.symm own)]
      exact ahead p member
  · rw [one]
    by_cases own : j = k
    · subst own
      have last : turns j [(j, p)] = [p] := by simp [turns]
      refine ⟨?_, fun still r member => ?_⟩
      · rw [turns_append, last, List.pairwise_append]
        refine ⟨order, List.pairwise_singleton _ p, fun r member r' at_ => ?_⟩
        rw [List.mem_singleton.mp at_, ← here]
        exact ahead r member
      · have other : p.val ≠ q.val := by
          intro same
          rw [← Fin.ext same, running] at still
          cases still
        have closer := gap_succ p.isLt other
        rw [turns_append, last, List.mem_append, List.mem_singleton] at member
        rw [after]
        rcases member with before | rfl
        · exact Nat.lt_trans closer (here ▸ ahead r before)
        · exact closer
    · have none : turns k [(j, p)] = [] := by simp [turns, own]
      refine ⟨?_, fun _ r member => ?_⟩
      · rw [turns_append, none, List.append_nil]
        exact order
      · rw [turns_append, none, List.append_nil] at member
        rw [next_others run (Ne.symm own)]
        exact ahead r member

/-- While a process stays RUNNABLE, whoever runs and whatever the others do, no processor dispatches
    anybody twice; so each dispatches fewer than `NPROC` others before it. -/
theorem bounded_wait (run : (runsFrom g origin).Emits (Waits q) dispatches origin events s) (k : K) :
    (turns k events).Nodup ∧ (q ∉ turns k events → (turns k events).length < NPROC) := by
  have near : Nearing q k events s := by
    refine System.emits_invariant (fun _ => ⟨List.Pairwise.nil, fun _ _ member => by cases member⟩) ?_ run
    rintro events s ⟨j,a⟩ t near ready step
    exact next_nearing ready near step
  have distinct : (turns k events).Nodup := near.order.imp fun closer same => by
    rw [same] at closer
    exact Nat.lt_irrefl _ closer
  refine ⟨distinct, fun others => ?_⟩
  have all := (List.nodup_cons.mpr ⟨others,distinct⟩).length_le_card
  rw [Fintype.card_fin, List.length_cons] at all
  exact all

def oneLock : Guards Unit Unit Unit := ⟨(), fun _ => (), fun _ _ => false⟩

/-- Every process is RUNNABLE, and the only processor is at the first slot. -/
def crowd : State Unit Unit Unit Unit :=
  ⟨fun _ => some (), fun _ => .loop 0, fun _ => .yieldRelease none, fun _ => .runnable, fun _ => none, fun _ => ()⟩

def firstSlot : Fin NPROC := ⟨0, by decide⟩

def secondSlot : Fin NPROC := ⟨1, by decide⟩

theorem bounded_wait_crowd : ∃ s, (runsFrom oneLock crowd).Emits (Waits secondSlot) dispatches crowd [((), firstSlot)] s ∧
    (turns () [((), firstSlot)]).length < NPROC := by
  have run : (runsFrom oneLock crowd).Emits (Waits secondSlot) dispatches crowd [((), firstSlot)]
      (schedule oneLock crowd () 0) := .step ((), Action.step) (.start rfl) rfl rfl
  exact ⟨_, run, (bounded_wait run ()).2 (by decide)⟩

end Turns

end Xv6RoundRobin
