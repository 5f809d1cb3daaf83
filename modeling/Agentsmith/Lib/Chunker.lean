import Mathlib.Data.List.Basic
import Mathlib.Data.List.Induction
import Mathlib.Data.Nat.Notation
import Mathlib.Tactic.TypeStar
import Mathlib.Tactic.Lemma

/-!
Cutting a stream into pieces, behind every delimiter and wherever a piece reaches its
largest length.

What has been given out and what is pending depend on the items of the stream alone, not on
how many of them arrive at a time.
-/

namespace Agentsmith.Lib.Chunker

variable {α : Type*} [DecidableEq α]

/-- One item more: the pieces given out, and the one pending. -/
def feed (n : ℕ) (delim : α) (s : List (List α) × List α) (c : α) : List (List α) × List α :=
  if (s.2 ++ [c]).length = n ∨ c = delim then (s.1 ++ [s.2 ++ [c]], []) else (s.1, s.2 ++ [c])

def cut (n : ℕ) (delim : α) (l : List α) : List (List α) × List α :=
  l.foldl (feed n delim) ([], [])

/-- It ends at its first delimiter, or where it has the largest length. -/
structure Piece (n : ℕ) (delim : α) (p : List α) : Prop where
  pos : 0 < p.length
  le : p.length ≤ n
  first : delim ∉ p.dropLast
  ends : p.getLast? = some delim ∨ p.length = n

variable {n : ℕ} (delim : α)

lemma cut_snoc (l : List α) (c : α) :
    cut n delim (l ++ [c]) = feed n delim (cut n delim l) c := by
  simp [cut, List.foldl_append]

/-- **Nothing is lost**: the pieces and what is pending are the stream. -/
theorem cut_flatten (l : List α) : (cut n delim l).1.flatten ++ (cut n delim l).2 = l := by
  induction l using List.reverseRecOn with
  | nil => rfl
  | append_singleton l c ih =>
    rw [cut_snoc, feed]
    split
    · rw [List.flatten_append, List.flatten_singleton, List.append_nil, ← List.append_assoc, ih]
    · rw [← List.append_assoc, ih]

/-- The pending piece is not full and holds no delimiter. -/
theorem cut_pending (hn : 0 < n) (l : List α) :
    (cut n delim l).2.length < n ∧ delim ∉ (cut n delim l).2 := by
  induction l using List.reverseRecOn with
  | nil => exact ⟨hn, List.not_mem_nil⟩
  | append_singleton l c ih =>
    obtain ⟨hlt, hmem⟩ := ih
    rw [cut_snoc, feed]
    split
    · exact ⟨hn, List.not_mem_nil⟩
    · rename_i h
      obtain ⟨hfull, hc⟩ := not_or.mp h
      rw [List.length_append, List.length_singleton] at hfull ⊢
      refine ⟨by omega, fun hd => ?_⟩
      rcases List.mem_append.mp hd with hd | hd
      · exact hmem hd
      · exact hc (List.mem_singleton.mp hd).symm

/-- **Every piece ends where it should.** -/
theorem cut_pieces (hn : 0 < n) (l : List α) : ∀ p ∈ (cut n delim l).1, Piece n delim p := by
  induction l using List.reverseRecOn with
  | nil => exact fun p hp => absurd hp List.not_mem_nil
  | append_singleton l c ih =>
    obtain ⟨hlt, hmem⟩ := cut_pending delim hn l
    rw [cut_snoc, feed]
    split
    · rename_i h
      intro p hp
      rcases List.mem_append.mp hp with hp | hp
      · exact ih p hp
      · obtain rfl := List.mem_singleton.mp hp
        rw [List.length_append, List.length_singleton] at h
        refine ⟨by simp, by simp; omega, by simpa using hmem, ?_⟩
        rcases h with h | rfl
        · exact Or.inr (by simpa using h)
        · exact Or.inl (by simp)
    · exact ih

/-- **Delimiter by delimiter**: what holds of the empty stream and of one without a delimiter, and
goes over to a stream with one segment more in front, holds of every stream. -/
theorem segment_induction {P : List α → Prop} (delim : α) (nil : P [])
    (last : ∀ l, l ≠ [] → delim ∉ l → P l)
    (segment : ∀ l r, delim ∉ l → P r → P (l ++ delim :: r)) (l : List α) : P l := by
  induction hn : l.length using Nat.strongRecOn generalizing l with
  | _ n ih =>
    rcases eq_or_ne l [] with rfl | hne
    · exact nil
    · by_cases hmem : delim ∈ l
      · obtain ⟨l, r, rfl, hl⟩ := List.eq_append_cons_of_mem hmem
        rw [List.length_append, List.length_cons] at hn
        exact segment l r hl (ih r.length (by omega) r rfl)
      · exact last l hne hmem

/-! ### One piece after another -/

/-- The pieces, and what is pending behind the last of them. -/
def pieces (n : ℕ) (delim : α) (l : List α) : List (List α) :=
  let c := cut n delim l
  if c.2 = [] then c.1 else c.1 ++ [c.2]

/-- The first piece of a stream, and what is left of the stream. -/
def first (n : ℕ) (delim : α) : List α → List α × List α
  | [] => ([], [])
  | c :: l =>
    if n ≤ 1 ∨ c = delim then ([c], l)
    else (c :: (first (n - 1) delim l).1, (first (n - 1) delim l).2)

variable {delim : α} {l p : List α}

lemma pieces_nil : pieces n delim [] = [] := rfl

/-- Where nothing is pending the stream can be taken apart. -/
lemma cut_append (hp : (cut n delim p).2 = []) (l : List α) :
    cut n delim (p ++ l) = ((cut n delim p).1 ++ (cut n delim l).1, (cut n delim l).2) := by
  induction l using List.reverseRecOn with
  | nil =>
    rw [List.append_nil]
    exact Prod.ext (List.append_nil _).symm hp
  | append_singleton l c ih =>
    rw [← List.append_assoc, cut_snoc, cut_snoc, ih, feed, feed]
    split
    · rw [List.append_assoc]
    · rfl

lemma pieces_append (hp : (cut n delim p).2 = []) (l : List α) :
    pieces n delim (p ++ l) = pieces n delim p ++ pieces n delim l := by
  unfold pieces
  rw [cut_append hp]
  dsimp only
  rw [if_pos hp]
  split
  · rfl
  · rw [List.append_assoc]

lemma cut_delim (l : List α) : (cut n delim (l ++ [delim])).2 = [] := by
  rw [cut_snoc, feed, if_pos (Or.inr rfl)]

lemma cut_short (hd : delim ∉ l) (hlt : l.length < n) : cut n delim l = ([], l) := by
  induction l using List.reverseRecOn with
  | nil => rfl
  | append_singleton l c ih =>
    rw [List.length_append, List.length_singleton] at hlt
    have hc : c ≠ delim := fun h => hd (by simp [h])
    have hopen : ¬ ((l ++ [c]).length = n ∨ c = delim) := by
      rw [List.length_append, List.length_singleton]
      exact not_or.mpr ⟨by omega, hc⟩
    rw [cut_snoc, ih (fun h => hd (List.mem_append_left _ h)) (by omega), feed, if_neg hopen]

lemma pieces_short (hne : l ≠ []) (hd : delim ∉ l) (hlt : l.length < n) :
    pieces n delim l = [l] := by
  unfold pieces
  rw [cut_short hd hlt]
  exact if_neg hne

lemma cut_piece (hp : Piece n delim p) : cut n delim p = ([p], []) := by
  have hne : p ≠ [] := List.length_pos_iff.mp hp.pos
  have hsplit := List.dropLast_append_getLast hne
  have hlen : p.dropLast.length < n := by
    have hle := hp.le
    have hpos := hp.pos
    rw [List.length_dropLast]
    omega
  have hends : p.length = n ∨ p.getLast hne = delim := by
    rcases hp.ends with h | h
    · rw [List.getLast?_eq_some_getLast hne] at h
      exact Or.inr (Option.some.inj h)
    · exact Or.inl h
  rw [← hsplit, cut_snoc, cut_short hp.first hlen, feed]
  dsimp only
  rw [hsplit, if_pos hends]
  rfl

/-- **A piece comes first** in a stream that begins with it. -/
lemma pieces_cons (hp : Piece n delim p) (l : List α) :
    pieces n delim (p ++ l) = p :: pieces n delim l := by
  have hcut := cut_piece hp
  rw [pieces_append (by rw [hcut]), pieces, hcut]
  rfl

lemma first_append (n : ℕ) (delim : α) (l : List α) :
    (first n delim l).1 ++ (first n delim l).2 = l := by
  induction l generalizing n with
  | nil => rfl
  | cons c l ih =>
    unfold first
    split
    · rfl
    · rw [List.cons_append, ih]

lemma first_lt (n : ℕ) (delim : α) (hne : l ≠ []) : (first n delim l).2.length < l.length := by
  obtain ⟨c, l, rfl⟩ := List.exists_cons_of_ne_nil hne
  unfold first
  split
  · simp
  · have hlen := congrArg List.length (first_append (n - 1) delim l)
    rw [List.length_append] at hlen
    show (first (n - 1) delim l).2.length < l.length + 1
    omega

lemma first_length (hn : 0 < n) (l : List α) : (first n delim l).1.length ≤ n := by
  induction l generalizing n with
  | nil => exact Nat.zero_le _
  | cons c l ih =>
    unfold first
    split
    · exact hn
    · rename_i h
      have hle := ih (n := n - 1) (by omega)
      rw [List.length_cons]
      omega

/-- The first piece is a piece, or all there is. -/
lemma first_spec (hn : 0 < n) (hne : l ≠ []) : Piece n delim (first n delim l).1 ∨
    ((first n delim l).2 = [] ∧ delim ∉ l ∧ l.length < n) := by
  induction l generalizing n with
  | nil => exact absurd rfl hne
  | cons c l ih =>
    unfold first
    split
    · rename_i h
      refine Or.inl ⟨Nat.one_pos, hn, List.not_mem_nil, ?_⟩
      rcases h with h | rfl
      · exact Or.inr (by rw [List.length_singleton]; omega)
      · exact Or.inl rfl
    · rename_i h
      obtain ⟨hlt, hc⟩ := not_or.mp h
      rcases l with _ | ⟨b, l⟩
      · exact Or.inr ⟨rfl, by simpa using fun h => hc h.symm, by simp; omega⟩
      · rcases ih (n := n - 1) (by omega) (List.cons_ne_nil b l) with hp | ⟨hnil, hd, hlen⟩
        · refine Or.inl ?_
          dsimp only
          generalize (first (n - 1) delim (b :: l)).1 = q at hp ⊢
          obtain ⟨hpos, hle, hfirst, hends⟩ := hp
          obtain ⟨d, q, rfl⟩ := List.exists_cons_of_length_pos hpos
          refine ⟨by simp, by simp at hle ⊢; omega, ?_, ?_⟩
          · rw [List.dropLast_cons_of_ne_nil (List.cons_ne_nil d q), List.mem_cons]
            exact not_or.mpr ⟨fun h => hc h.symm, hfirst⟩
          · rw [List.getLast?_cons_cons]
            exact hends.imp_right fun h => by simp at h ⊢; omega
        · refine Or.inr ⟨hnil, ?_, ?_⟩
          · rw [List.mem_cons]
            exact not_or.mpr ⟨fun h => hc h.symm, hd⟩
          · rw [List.length_cons]
            omega

/-- **The pieces come one after another.** -/
theorem pieces_first (hn : 0 < n) (hne : l ≠ []) :
    pieces n delim l = (first n delim l).1 :: pieces n delim (first n delim l).2 := by
  have happ := first_append n delim l
  obtain hp | ⟨hnil, hd, hlt⟩ : Piece n delim (first n delim l).1 ∨ _ := first_spec hn hne
  · rw [← pieces_cons hp, happ]
  · rw [hnil, List.append_nil] at happ
    rw [hnil, happ, pieces_short hne hd hlt, pieces_nil]

end Agentsmith.Lib.Chunker
