import Mathlib.Tactic.TypeStar
import Mathlib.Tactic.Lemma
import Mathlib.Data.Nat.Notation

/-!
Loops with a body that goes on or ends, and the rule for their total correctness.
-/

namespace Agentsmith.Lib.Loops

variable {σ ρ : Type*}

/-- At most `fuel` turns of a loop. A body without a result leaves the loop without one. -/
def loop (body : σ → Option (σ ⊕ ρ)) : ℕ → σ → Option ρ
  | 0, _ => none
  | fuel + 1, s =>
    match body s with
    | none => none
    | some (.inl s') => loop body fuel s'
    | some (.inr r) => some r

/-- **The loop rule**: an invariant that every turn keeps, and a measure that every turn lowers
until the loop ends. -/
theorem loop_rule {body : σ → Option (σ ⊕ ρ)} {P : σ → Prop} {Q : ρ → Prop} {m : σ → ℕ}
    (hbody : ∀ s, P s → (∃ s', body s = some (.inl s') ∧ P s' ∧ m s' < m s) ∨
      ∃ r, body s = some (.inr r) ∧ Q r) {s : σ} (h : P s) {fuel : ℕ} (hfuel : m s < fuel) :
    ∃ r, loop body fuel s = some r ∧ Q r := by
  induction fuel generalizing s with
  | zero => exact absurd hfuel (Nat.not_lt_zero _)
  | succ fuel ih =>
    rw [loop]
    obtain ⟨s', hs, h', hlt⟩ | ⟨r, hs, hr⟩ := hbody s h
    · rw [hs]
      exact ih h' (Nat.lt_of_lt_of_le hlt (Nat.le_of_lt_succ hfuel))
    · rw [hs]
      exact ⟨r, rfl, hr⟩

end Agentsmith.Lib.Loops
