import Mathlib.Data.List.Count
import Mathlib.Tactic.Lemma
import Mathlib.Tactic.TypeStar
import Mathlib.Order.Nat

/-!
Lists whose entries take turns.
-/

namespace Agentsmith.Lib.Alternation

variable {β : Type*}

/-- The list is `a, b, a, b, …`, cut anywhere. -/
def Alternating (a b : β) : List β → Prop
  | [] => True
  | x :: l => x = a ∧ Alternating b a l

/-- Whose turn it is after `n` entries. -/
def turn (a b : β) (n : ℕ) : β := if n % 2 = 0 then a else b

lemma turn_succ (a b : β) (n : ℕ) : turn a b (n + 1) = turn b a n := by
  unfold turn
  rcases Nat.mod_two_eq_zero_or_one n with h | h
  · rw [if_neg (by omega), if_pos h]
  · rw [if_pos (by omega), if_neg (by omega)]

lemma alternating_snoc (a b : β) (l : List β) (x : β) :
    Alternating a b (l ++ [x]) ↔ Alternating a b l ∧ x = turn a b l.length := by
  induction l generalizing a b with
  | nil => simp [Alternating, turn]
  | cons y l ih =>
    have hturn : turn a b (y :: l).length = turn b a l.length := turn_succ a b l.length
    rw [List.cons_append, Alternating, ih, hturn, Alternating, and_assoc]

/-- **Counting**: the first one leads by one entry or by none. -/
theorem Alternating.count [BEq β] [LawfulBEq β] {a b : β} (hab : a ≠ b) {l : List β}
    (h : Alternating a b l) : l.count a = (l.length + 1) / 2 ∧ l.count b = l.length / 2 := by
  induction l generalizing a b with
  | nil => simp
  | cons x l ih =>
    obtain ⟨rfl, hl⟩ := h
    obtain ⟨hb, ha⟩ := ih hab.symm hl
    rw [List.count_cons_self, List.count_cons_of_ne hab, List.length_cons]
    omega

end Agentsmith.Lib.Alternation
