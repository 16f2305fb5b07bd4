import Mathlib.Logic.Basic

/-!
A cache that copies entries of a view of some state behind the back of the program that
changes the state. Entries may be copied whenever they are cacheable, and stay until an
effect of the program flushes them. A list of effects is orderly when every entry that it
changes while it could be cached is flushed before the list ends, with the exception of
its last effect, which may change entries at risk.
-/
namespace CacheFlush
variable {σ κ β ε : Type}

structure Device (σ κ β ε : Type) where
  view : σ → κ → β
  cacheable : β → Prop
  apply : ε → σ → σ
  flushes : ε → κ → Bool

namespace Device
variable (dev : Device σ κ β ε)

def replay (s : σ) (effects : List ε) : σ := effects.foldl (fun s e => dev.apply e s) s

def flush (e : ε) (cache : List (κ × β)) : List (κ × β) := cache.filter fun p => !dev.flushes e p.1

/-- Outside the stale keys the cache holds what the view shows. -/
def Coherent (stale : κ → Prop) (s : σ) (cache : List (κ × β)) : Prop :=
  ∀ p ∈ cache, ¬ stale p.1 → dev.cacheable p.2 ∧ dev.view s p.1 = p.2

/-- The effect does not change what may be cached at the key. -/
def Keeps (s : σ) (e : ε) (k : κ) : Prop :=
  dev.view (dev.apply e s) k = dev.view s k ∨ ¬ dev.cacheable (dev.view s k)

inductive Orderly (risk : κ → Prop) : (κ → Prop) → σ → List ε → Prop where
  | done {stale : κ → Prop} {s : σ} (none : ∀ k, ¬ stale k) : Orderly risk stale s []
  | last {stale : κ → Prop} {s : σ} {e : ε} (none : ∀ k, ¬ stale k)
      (keeps : ∀ k, ¬ risk k → dev.Keeps s e k) : Orderly risk stale s [e]
  | next {stale : κ → Prop} {s : σ} {e : ε} {rest : List ε} (later : κ → Prop)
      (keeps : ∀ k, ¬ later k → dev.flushes e k = true ∨ ¬ stale k ∧ dev.Keeps s e k)
      (more : Orderly risk later (dev.apply e s) rest) : Orderly risk stale s (e :: rest)

variable {dev}

theorem coherent_fill {stale : κ → Prop} {s : σ} {cache : List (κ × β)} {k : κ}
    (before : dev.Coherent stale s cache) (here : dev.cacheable (dev.view s k)) :
    dev.Coherent stale s ((k, dev.view s k) :: cache) := by
  intro p mem fresh
  rcases List.mem_cons.mp mem with rfl | mem
  · exact ⟨here,rfl⟩
  · exact before p mem fresh

theorem coherent_apply {stale later : κ → Prop} {s : σ} {e : ε} {cache : List (κ × β)}
    (before : dev.Coherent stale s cache)
    (keeps : ∀ p ∈ cache, ¬ later p.1 → dev.flushes e p.1 = true ∨ ¬ stale p.1 ∧ dev.Keeps s e p.1) :
    dev.Coherent later (dev.apply e s) (dev.flush e cache) := by
  intro p mem fresh
  simp only [flush, List.mem_filter, Bool.not_eq_true'] at mem
  rcases keeps p mem.1 fresh with gone | ⟨old,kept⟩
  · rw [mem.2] at gone
    simp at gone
  · obtain ⟨cached,shown⟩ := before p mem.1 old
    rcases kept with same | never
    · exact ⟨cached, same.trans shown⟩
    · rw [shown] at never
      exact absurd cached never

/-- One effect of an orderly list. If it is the last, the keys at risk must not be cached
    unless it keeps them. -/
theorem Orderly.step {risk stale : κ → Prop} {s : σ} {e : ε} {rest : List ε} {cache : List (κ × β)}
    (orderly : dev.Orderly risk stale s (e :: rest)) (before : dev.Coherent stale s cache)
    (careful : rest = [] → ∀ p ∈ cache, risk p.1 → dev.Keeps s e p.1) :
    ∃ later, dev.Orderly risk later (dev.apply e s) rest ∧
      dev.Coherent later (dev.apply e s) (dev.flush e cache) := by
  cases orderly with
  | last none keeps =>
    refine ⟨fun _ => False, .done (fun _ no => no), coherent_apply before fun p mem _ => Or.inr ⟨none p.1, ?_⟩⟩
    by_cases exposed : risk p.1
    · exact careful rfl p mem exposed
    · exact keeps p.1 exposed
  | next _ keeps more => exact ⟨_, more, coherent_apply before fun p _ => keeps p.1⟩

/-- Effects that keep every key, in front of an orderly list. -/
theorem Orderly.cons {risk stale : κ → Prop} {s : σ} {e : ε} {rest : List ε}
    (keeps : ∀ k, dev.Keeps s e k) (more : dev.Orderly risk stale (dev.apply e s) rest) :
    dev.Orderly risk stale s (e :: rest) :=
  .next _ (fun k fresh => Or.inr ⟨fresh, keeps k⟩) more

/-- Lists that leave nothing stale and expose no key may be put in front of another. -/
theorem Orderly.append {risk stale : κ → Prop} {s : σ} {first second : List ε}
    (orderly : dev.Orderly (fun _ => False) stale s first)
    (more : dev.Orderly risk (fun _ => False) (dev.replay s first) second) :
    dev.Orderly risk stale s (first ++ second) := by
  induction orderly with
  | done none =>
    have same : (fun _ => False) = ‹κ → Prop› := funext fun k => propext ⟨False.elim, none k⟩
    exact same ▸ more
  | last none keeps => exact .next _ (fun k _ => Or.inr ⟨none k, keeps k id⟩) more
  | next _ keeps _ ih => exact .next _ keeps (ih more)

end Device
end CacheFlush
