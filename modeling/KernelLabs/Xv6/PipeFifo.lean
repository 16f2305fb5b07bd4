import KernelLabs.Xv6.Pipe

/-!
A pipe is a queue of bytes: what `piperead` returns, followed by what is in the buffer, is
what `pipewrite` has stored, wherever the two counters started.
-/
namespace PipeFifo
open Xv6Pipe RingBuffer Transition
variable {P : Type} [DecidableEq P]

def inHand : Pc → List Byte
  | .copying _ got => got
  | _ => []

/-- The bytes that the call that holds the lock has copied and not yet returned. -/
def taken (s : State P) : List Byte :=
  match s.lock with
  | none => []
  | some p => inHand (s.pc p)

/-- Every byte stored has been returned, is in hand, or is in the buffer. -/
structure Flows (events : List Event) (s : State P) : Prop where
  room : count s.ring ≤ PIPESIZE
  order : stored events = returned events ++ taken s ++ contents PIPESIZE s.ring

omit [DecidableEq P] in
theorem taken_free {s : State P} (free : s.lock = none) : taken s = [] := by
  simp [taken, free]

omit [DecidableEq P] in
theorem taken_held {s : State P} {p : P} (held : s.lock = some p) : taken s = inHand (s.pc p) := by
  simp [taken, held]

theorem taken_enter (s : State P) (p : P) (pc : Pc) : taken (enter s p pc) = inHand pc := by
  simp [taken, enter, State.setPc]

theorem taken_setPc {s : State P} {p : P} (held : s.lock = some p) (pc : Pc) :
    taken (s.setPc p pc) = inHand pc := by
  have here : (s.setPc p pc).lock = some p := held
  rw [taken_held here]
  simp [State.setPc]

theorem full_iff (r : Buffer Byte 32) : isFull r = true ↔ count r = PIPESIZE := by
  unfold isFull
  rw [decide_eq_true_eq]
  exact count_full r (by decide)

theorem empty_iff (r : Buffer Byte 32) : isEmpty r = true ↔ count r = 0 := by
  unfold isEmpty
  rw [decide_eq_true_eq]
  exact (count_zero r).symm

omit [DecidableEq P] in
/-- Steps that move no byte. -/
theorem flows_still {events : List Event} {s t : State P} (flows : Flows events s)
    (ring : t.ring = s.ring) (hand : taken t = taken s) : Flows (events ++ []) t := by
  rw [List.append_nil]
  exact ⟨ring ▸ flows.room, by rw [ring, hand]; exact flows.order⟩

theorem flows_store {events : List Event} {s : State P} (flows : Flows events s) {p : P} {b : Byte}
    {rest : List Byte} (held : s.lock = some p) (place : s.pc p = .writing (b :: rest))
    (room : isFull s.ring = false) : Flows (events ++ [.stored b])
      { s.setPc p (.writing rest) with ring := push PIPESIZE s.ring b } := by
  have bound := flows.room
  have space : count s.ring < PIPESIZE := by
    have other : count s.ring ≠ PIPESIZE := by
      rw [ne_eq, ← full_iff, room]
      simp
    omega
  have small : count s.ring + 1 < 2 ^ 32 := by
    unfold PIPESIZE at space
    omega
  refine ⟨?_, ?_⟩
  · change count (push PIPESIZE s.ring b) ≤ PIPESIZE
    rw [count_push s.ring b small]
    exact space
  · have before : taken s = [] := by
      rw [taken_held held, place]
      rfl
    have hand : taken { s.setPc p (.writing rest) with ring := push PIPESIZE s.ring b } = [] :=
      taken_setPc held _
    have order := flows.order
    rw [before, List.append_nil] at order
    rw [hand, contents_push s.ring b (by decide) space (by decide), List.append_nil,
      ← List.append_assoc]
    simp only [stored, returned, List.flatMap_append, List.flatMap_singleton, List.append_nil] at order ⊢
    rw [order]

theorem flows_take {events : List Event} {s : State P} (flows : Flows events s) {p : P} {n : Nat}
    {got : List Byte} (held : s.lock = some p) (place : s.pc p = .copying (n + 1) got)
    (ready : isEmpty s.ring = false) : Flows (events ++ [])
      { s.setPc p (.copying n (got ++ [head PIPESIZE s.ring])) with ring := pop s.ring } := by
  have some_byte : 0 < count s.ring := by
    have other : count s.ring ≠ 0 := by
      rw [ne_eq, ← empty_iff, ready]
      simp
    omega
  have fewer := count_pop s.ring some_byte
  have bound := flows.room
  rw [List.append_nil]
  refine ⟨?_, ?_⟩
  · change count (pop s.ring) ≤ PIPESIZE
    omega
  · have before : taken s = got := by
      rw [taken_held held, place]
      rfl
    have hand : taken { s.setPc p (.copying n (got ++ [head PIPESIZE s.ring])) with
        ring := pop s.ring } = got ++ [head PIPESIZE s.ring] := taken_setPc held _
    rw [hand, flows.order, before, contents_pop s.ring (by decide) some_byte]
    simp

theorem flows_copied {events : List Event} {s : State P} (flows : Flows events s) {p : P} {n : Nat}
    {got : List Byte} (held : s.lock = some p) (place : s.pc p = .copying n got) :
    Flows (events ++ [.returned got]) (leave (wakeup s .nwrite) p) := by
  have before : taken s = got := by
    rw [taken_held held, place]
    rfl
  have hand : taken (leave (wakeup s .nwrite) p) = [] := taken_free rfl
  have order := flows.order
  refine ⟨flows.room, ?_⟩
  rw [hand, List.append_nil]
  rw [before] at order
  simp only [stored, returned, List.flatMap_append, List.flatMap_singleton, List.append_nil] at order ⊢
  exact order

theorem step_flows {events new : List Event} {s t : State P} {a : Action P} (flows : Flows events s)
    (moves : Moves s a new t) : Flows (events ++ new) t := by
  cases moves with
  | write free idle opened =>
    exact flows_still flows rfl ((taken_enter s _ _).trans (taken_free free).symm)
  | read free idle opened =>
    exact flows_still flows rfl ((taken_enter s _ _).trans (taken_free free).symm)
  | written held place =>
    refine flows_still flows rfl ((taken_free rfl).trans ?_)
    rw [taken_held held, place]
    rfl
  | refused held place full why =>
    refine flows_still flows rfl ((taken_free rfl).trans ?_)
    rw [taken_held held, place]
    rfl
  | waits held place full opened =>
    refine flows_still flows rfl ((taken_setPc held _).trans ?_)
    rw [taken_held held, place]
    rfl
  | store held place room => exact flows_store flows held place room
  | doze held place =>
    refine flows_still flows rfl ((taken_free rfl).trans ?_)
    rw [taken_held held, place]
    rfl
  | killed held place =>
    refine flows_still flows rfl ((taken_free rfl).trans ?_)
    rw [taken_held held, place]
    rfl
  | starves held place empty opened =>
    refine flows_still flows rfl ((taken_setPc held _).trans ?_)
    rw [taken_held held, place]
    rfl
  | copies held place ready =>
    refine flows_still flows rfl ((taken_setPc held _).trans ?_)
    rw [taken_held held, place]
    rfl
  | nod held place =>
    refine flows_still flows rfl ((taken_free rfl).trans ?_)
    rw [taken_held held, place]
    rfl
  | copied held place => exact flows_copied flows held place
  | take held place ready => exact flows_take flows held place ready
  | rewrite free awake place =>
    exact flows_still flows rfl ((taken_enter s _ _).trans (taken_free free).symm)
  | reread free awake place =>
    exact flows_still flows rfl ((taken_enter s _ _).trans (taken_free free).symm)
  | kill => exact flows_still flows rfl rfl
  | closeWrite free => exact flows_still flows rfl ((taken_free free).trans (taken_free free).symm)
  | closeRead free => exact flows_still flows rfl ((taken_free free).trans (taken_free free).symm)

omit [DecidableEq P] in
theorem flows_start {s : State P} (start : Start s) : Flows [] s := by
  have none := (count_zero s.ring).mpr start.1
  refine ⟨by rw [none]; exact Nat.zero_le _, ?_⟩
  rw [taken_free start.2.2.2.1]
  have empty : contents PIPESIZE s.ring = [] := by
    rw [← List.length_eq_zero_iff, length_contents, none]
  rw [empty]
  rfl

/-- In every run, whenever the lock is free, the bytes returned are the first of the bytes
    stored and the rest are the bytes between the two counters. -/
theorem pipe_is_fifo {origin s : State P} {events : List Event}
    (run : (system P).Emits System.Free emit origin events s) (free : s.lock = none) :
    (s.ring.nwrite - s.ring.nread).toNat ≤ PIPESIZE ∧
      (contents PIPESIZE s.ring).length = (s.ring.nwrite - s.ring.nread).toNat ∧
      stored events = returned events ++ contents PIPESIZE s.ring := by
  have flows : Flows events s := System.emits_invariant flows_start
    (fun _ _ _ _ flows _ run => step_flows flows (step_moves run)) run
  refine ⟨flows.room, length_contents PIPESIZE s.ring, ?_⟩
  have order := flows.order
  rwa [taken_free free, List.append_nil] at order

/-- A pipe whose counters are about to wrap around. -/
def worn : State (Fin 2) where
  ring := ⟨fun _ => 0, 0xfffffffe, 0xfffffffe⟩
  readopen := true
  writeopen := true
  lock := none
  pc := fun _ => .idle
  asleep := fun _ => none
  killed := fun _ => false

theorem worn_start : Start worn := ⟨rfl, rfl, rfl, rfl, fun _ => rfl, fun _ => rfl⟩

/-- Four bytes are written and three of them read. -/
def writer : Fin 2 := ⟨0, Nat.two_pos⟩
def reader : Fin 2 := ⟨1, Nat.one_lt_two⟩

def wornLabels : List (Action (Fin 2)) :=
  .write writer [1, 2, 3, 4] :: List.replicate 5 (.advance writer) ++ .read reader 3 :: List.replicate 5 (.advance reader)

def wrapped : State (Fin 2) := (System.exec step worn wornLabels).get (by decide +kernel)

theorem wrapped_run : (system (Fin 2)).Emits System.Free emit worn
    ([] ++ System.trace step emit worn wornLabels) wrapped := by
  have run : System.exec step worn wornLabels = some wrapped := by
    simp only [wrapped, Option.some_get]
  exact System.exec_emits wornLabels (fun _ _ _ => trivial) (.start worn_start) run

theorem pipe_is_fifo_wrapped : wrapped.lock = none ∧ wrapped.ring.nwrite = 2 ∧
    returned ([] ++ System.trace step emit worn wornLabels) = [1, 2, 3] ∧
    stored ([] ++ System.trace step emit worn wornLabels) =
      returned ([] ++ System.trace step emit worn wornLabels) ++ contents PIPESIZE wrapped.ring :=
  ⟨by decide, by decide, by decide,
    (pipe_is_fifo wrapped_run (by decide)).2.2⟩

end PipeFifo
