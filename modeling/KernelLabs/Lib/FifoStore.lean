import Mathlib.Logic.Function.Basic

/- A store that serves its clients one at a time, in the order in which they ask. What a
   client gets is settled when it asks: its own value if it puts one, else the last value that
   an earlier request puts at the place. -/
namespace FifoStore
variable {B K D : Type} [DecidableEq K]

structure Request (K D : Type) where
  place : K
  put : Option D

def serve (contents : K → D) (r : Request K D) : K → D :=
  match r.put with
  | some d => Function.update contents r.place d
  | none => contents

/-- `contents` has all that was asked for, `queue` what is not served yet, with the answers. -/
structure Store (B K D : Type) where
  contents : K → D
  queue : List (B × D)
  busy : Bool
  answer : B → Option D

def opened (contents : K → D) : Store B K D := ⟨contents, [], false, fun _ => none⟩

inductive Event (B K D : Type) where
  | asked (b : B) (r : Request K D)
  | started (b : B)
  | served (b : B)
  | taken (b : B) (d : D)

section Machine
variable [DecidableEq B] [DecidableEq D]

def Store.next (v : Store B K D) : Event B K D → Option (Store B K D)
  | .asked b r =>
    if b ∉ v.queue.map Prod.fst ∧ v.answer b = none then
      some { v with contents := serve v.contents r, queue := v.queue ++ [(b, serve v.contents r r.place)] }
    else none
  | .started b => if v.busy = false ∧ (v.queue.map Prod.fst).head? = some b then some { v with busy := true } else none
  | .served b =>
    match v.queue with
    | (c, d) :: rest =>
      if v.busy ∧ b = c then
        some { v with queue := rest, busy := false, answer := Function.update v.answer b (some d) }
      else none
    | [] => none
  | .taken b d => if v.answer b = some d then some { v with answer := Function.update v.answer b none } else none

end Machine

/-- Serving the queue in order gives its answers, and leads to `last`. -/
def Answers (request : B → Request K D) : (K → D) → List (B × D) → (K → D) → Prop
  | now, [], last => now = last
  | now, (b, d) :: rest, last =>
    d = serve now (request b) (request b).place ∧ Answers request (serve now (request b)) rest last

variable {request request' : B → Request K D} {now last : K → D} {queue : List (B × D)}

theorem answers_append (answers : Answers request now queue last) (b : B) :
    Answers request now (queue ++ [(b, serve last (request b) (request b).place)]) (serve last (request b)) := by
  induction queue generalizing now with
  | nil =>
    have same : now = last := answers
    rw [same]
    exact ⟨rfl,rfl⟩
  | cons head rest ih => exact ⟨answers.1, ih answers.2⟩

theorem answers_congr (answers : Answers request now queue last)
    (agree : ∀ b ∈ queue.map Prod.fst, request' b = request b) : Answers request' now queue last := by
  induction queue generalizing now with
  | nil => exact answers
  | cons head rest ih =>
    have same := agree head.1 (List.mem_map_of_mem List.mem_cons_self)
    have later := ih answers.2 fun b mem => agree b (List.mem_cons_of_mem _ mem)
    refine ⟨?_, ?_⟩
    · rw [same]
      exact answers.1
    · rw [same]
      exact later

/-- A client that puts a value gets it back. -/
theorem serve_put {r : Request K D} {d : D} (put : r.put = some d) (contents : K → D) : serve contents r r.place = d := by
  unfold serve
  rw [put]
  exact Function.update_self _ _ _

end FifoStore
