import Mathlib.Data.List.Count
import Mathlib.Data.Nat.Notation
import Mathlib.Tactic.Lemma
import Mathlib.Tactic.TypeStar

/-!
Permits: a counter of free ones, and parties of which each holds one or none. A party takes a
free permit or gives its own back; parties may be many more than permits.
-/

namespace Agentsmith.Lib.Permits

variable {α : Type*} (holds : α → Bool)

/-- The free permits, and the parties. -/
structure Pool (α : Type*) where
  value : ℕ
  parties : List α

/-- The permits that parties hold. -/
def Pool.held (p : Pool α) : ℕ := p.parties.countP holds

def Pool.total (p : Pool α) : ℕ := p.value + p.held holds

/-- A party comes without a permit, takes one, gives one back, or goes on with what it has. -/
inductive Step (p : Pool α) : Pool α → Prop
  | rest : Step p p
  | join (b : α) (hb : holds b = false) : Step p ⟨p.value, p.parties ++ [b]⟩
  | acquire {i : ℕ} {a : α} (b : α) {v : ℕ} (hi : p.parties[i]? = some a) (ha : holds a = false)
      (hb : holds b = true) (hv : p.value = v + 1) : Step p ⟨v, p.parties.set i b⟩
  | release {i : ℕ} {a : α} (b : α) (hi : p.parties[i]? = some a) (ha : holds a = true)
      (hb : holds b = false) : Step p ⟨p.value + 1, p.parties.set i b⟩
  | keep {i : ℕ} {a : α} (b : α) (hi : p.parties[i]? = some a) (hab : holds b = holds a) :
      Step p ⟨p.value, p.parties.set i b⟩

lemma countP_replace {l : List α} {i : ℕ} {a : α} (b : α) (h : l[i]? = some a) :
    (l.set i b).countP holds + (if holds a then 1 else 0) =
      l.countP holds + if holds b then 1 else 0 := by
  obtain ⟨hi, rfl⟩ := List.getElem?_eq_some_iff.mp h
  have hle : (if holds l[i] then 1 else 0) ≤ l.countP holds := List.boole_getElem_le_countP hi
  rw [List.countP_set hi]
  omega

variable {holds} {p q : Pool α}

/-- **Conservation**: a step keeps the number of permits. -/
theorem total_step (h : Step holds p q) : q.total holds = p.total holds := by
  unfold Pool.total Pool.held
  cases h with
  | rest => rfl
  | join b hb => simp [List.countP_append, hb]
  | acquire b hi ha hb hv =>
    have hcount := countP_replace holds b hi
    simp only [ha, hb, Bool.false_eq_true, if_true, if_false] at hcount
    dsimp only
    omega
  | release b hi ha hb =>
    have hcount := countP_replace holds b hi
    simp only [ha, hb, Bool.false_eq_true, if_true, if_false] at hcount
    dsimp only
    omega
  | keep b hi hab =>
    have hcount := countP_replace holds b hi
    rw [hab] at hcount
    dsimp only
    omega

/-- Parties that hold a permit are not more than the permits. -/
lemma countP_le_total {f : α → Bool} (h : ∀ a ∈ p.parties, f a = true → holds a = true) :
    p.parties.countP f ≤ p.total holds :=
  Nat.le_trans (List.countP_mono_left h) (Nat.le_add_left ..)

end Agentsmith.Lib.Permits
