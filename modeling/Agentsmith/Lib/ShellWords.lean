import Mathlib.Data.Nat.Digits.Lemmas
import Mathlib.Tactic.Lemma

/-!
Command lines as the shell reads them, and numbers as `printf` writes them.

A text without a character that is special to the shell is one simple command: its words are
what stands between the blanks. Any other text is left open here, since the shell may find
operators, quotes or expansions in it.
-/

namespace Agentsmith.Lib.ShellWords

/-- Tab, newline, and the punctuation that quotes, expands, redirects or separates. -/
def special : List UInt8 :=
  [9, 10, 33, 34, 35, 36, 38, 39, 40, 41, 42, 59, 60, 61, 62, 63, 91, 92, 93, 94, 96, 123, 124,
    125, 126]

/-- The words that begin or end a compound command. -/
def reserved : List (List UInt8) :=
  ["if", "then", "else", "elif", "fi", "do", "done", "case", "esac", "while", "until", "for"].map
    fun s => s.toList.map fun c => c.toNat.toUInt8

/-- A word that stands for itself. -/
def Plain (w : List UInt8) : Prop := w ≠ [] ∧ ∀ c ∈ w, c ≠ 32 ∧ c ∉ special

instance (w : List UInt8) : Decidable (Plain w) :=
  have := List.decidableBAll (fun c => c ≠ 32 ∧ c ∉ special) w
  inferInstanceAs (Decidable (_ ∧ _))

/-- The words of the command, if the text is a simple command beyond doubt. -/
def simpleCommand (text : List UInt8) : Option (List (List UInt8)) :=
  if text.any fun c => special.contains c then none
  else
    let words := (text.splitOn 32).filter fun w => !w.isEmpty
    if words.head?.any fun w => reserved.contains w then none else some words

lemma plain_take {w : List UInt8} (h : Plain w) {n : ℕ} (hn : 0 < n) : Plain (w.take n) := by
  obtain ⟨hne, hw⟩ := h
  refine ⟨fun hnil => ?_, fun c hc => hw c (List.mem_of_mem_take hc)⟩
  rcases List.take_eq_nil_iff.mp hnil with h0 | hw0
  · omega
  · exact hne hw0

lemma mem_intercalate {sep c : UInt8} {ws : List (List UInt8)} (h : c ∈ [sep].intercalate ws) :
    c = sep ∨ ∃ w ∈ ws, c ∈ w := by
  induction ws with
  | nil => simp at h
  | cons w ws ih =>
    rcases ws with _ | ⟨v, ws⟩
    · exact Or.inr ⟨w, by simp, by simpa using h⟩
    · rw [List.intercalate_cons_cons, List.mem_append, List.mem_append] at h
      rcases h with (hw | hs) | hrest
      · exact Or.inr ⟨w, by simp, hw⟩
      · exact Or.inl (by simpa using hs)
      · rcases ih hrest with hs | ⟨u, hu, hc⟩
        · exact Or.inl hs
        · exact Or.inr ⟨u, List.mem_cons_of_mem _ hu, hc⟩

/-- **Words that stand for themselves** are read back as they are. -/
theorem simpleCommand_words {name : List UInt8} {args : List (List UInt8)}
    (hplain : ∀ w ∈ name :: args, Plain w) (hname : name ∉ reserved) :
    simpleCommand ([32].intercalate (name :: args)) = some (name :: args) := by
  have hspecial : ¬ ([32].intercalate (name :: args)).any (fun c => special.contains c) = true := by
    intro hany
    obtain ⟨c, hc, hs⟩ := List.any_eq_true.mp hany
    rcases mem_intercalate hc with rfl | ⟨w, hw, hcw⟩
    · exact absurd hs (by decide)
    · exact ((hplain w hw).2 c hcw).2 (by simpa using hs)
  have hsplit : ([32].intercalate (name :: args)).splitOn 32 = name :: args :=
    List.splitOn_intercalate 32 (fun w hw h32 => ((hplain w hw).2 32 h32).1 rfl) (by simp)
  have hfilter : (name :: args).filter (fun w => !w.isEmpty) = name :: args := by
    refine List.filter_eq_self.mpr fun w hw => ?_
    simpa using (hplain w hw).1
  unfold simpleCommand
  rw [if_neg hspecial, hsplit, hfilter]
  simp [hname]

/-! ### Decimal numbers -/

/-- `%i`. -/
def decimal (i : ℤ) : List UInt8 :=
  let digits := if i = 0 then [0] else (Nat.digits 10 i.natAbs).reverse
  (if i < 0 then [45] else []) ++ digits.map fun d => UInt8.ofNat (48 + d)

lemma plain_decimal (i : ℤ) : Plain (decimal i) := by
  have hdigit : ∀ d < 10, UInt8.ofNat (48 + d) ≠ 32 ∧ UInt8.ofNat (48 + d) ∉ special := by decide
  refine ⟨fun hnil => ?_, fun c hc => ?_⟩
  · have hmap := (List.append_eq_nil_iff.mp hnil).2
    split at hmap
    · simp at hmap
    · rename_i hi
      simp [Nat.digits_eq_nil_iff_eq_zero, hi] at hmap
  · rcases List.mem_append.mp hc with hsign | hdig
    · split at hsign
      · obtain rfl := List.mem_singleton.mp hsign
        decide
      · cases hsign
    · obtain ⟨d, hd, rfl⟩ := List.mem_map.mp hdig
      refine hdigit d ?_
      split at hd
      · obtain rfl := List.mem_singleton.mp hd
        decide
      · exact Nat.digits_lt_base (by decide) (List.mem_reverse.mp hd)

/-- A number of `k` digits, and its sign. -/
lemma decimal_length {i : ℤ} {k : ℕ} (hk : 0 < k) (hi : i.natAbs < 10 ^ k) :
    (decimal i).length ≤ k + 1 := by
  have hsign : (if i < 0 then [(45 : UInt8)] else []).length ≤ 1 := by
    split <;> simp
  have hdigits : (if i = 0 then [0] else (Nat.digits 10 i.natAbs).reverse).length ≤ k := by
    split
    · exact hk
    · rw [List.length_reverse]
      exact (Nat.digits_length_le_iff (by decide) _).mpr hi
  unfold decimal
  rw [List.length_append, List.length_map]
  omega

end Agentsmith.Lib.ShellWords
