import Mathlib.Algebra.Order.BigOperators.Group.List
import Mathlib.Algebra.Order.Group.Nat
import Mathlib.Data.List.TakeDrop
import Agentsmith.ExcludeReload

/-!
The lines of the exclude file.

The reading thread takes the file in pieces of the size of its buffer, and treats every piece
as a line: a piece from the middle of a comment is added to the list, unless it happens to
begin like a comment itself.
-/

namespace Agentsmith.ExcludeFile

open Agentsmith.Lib.CStrings Agentsmith.Lib.Chunker
open Agentsmith.Globals Agentsmith.Exclude Agentsmith.ExcludeReload

variable {file l p r : List UInt8}

/-- The lines of a file, each with its newline. The last one may be without. -/
def fileLines : List UInt8 → List (List UInt8)
  | [] => []
  | c :: file =>
    if c = 10 then [10] :: fileLines file
    else
      match fileLines file with
      | [] => [[c]]
      | l :: ls => (c :: l) :: ls

/-- What is to be passed of a line: nothing of a comment, otherwise the line without its newline,
but for the empty line. -/
def wanted (l : List UInt8) : Option (List UInt8) :=
  if l.head? = some 35 then none
  else some (if l = [10] then l else l.takeWhile fun c => c ≠ 10)

/-- The strings passed to `exclude_add`. -/
def passed (ops : List Op) : List (List UInt8) :=
  ops.filterMap fun
    | .add _ line => some line.1
    | .clear => none

/-- The line is no longer than the buffer and has no NUL, or it is a comment and every piece of it
begins like one. -/
def Fits (l : List UInt8) : Prop :=
  if l.head? = some 35 then
    ∀ k c, l[(maxExcludeLineLength - 1) * k]? = some c → c = 35
  else 0 ∉ l ∧ l.length < maxExcludeLineLength

/-! ### Lines and pieces -/

lemma fileLines_newline (hl : 10 ∉ l) (r : List UInt8) :
    fileLines (l ++ 10 :: r) = (l ++ [10]) :: fileLines r := by
  induction l with
  | nil => rfl
  | cons c l ih =>
    obtain ⟨hc, hl⟩ := not_or.mp fun h => hl (List.mem_cons.mpr h)
    rw [List.cons_append, fileLines, if_neg fun h => hc h.symm, ih hl]
    rfl

lemma fileLines_last (hne : l ≠ []) (hl : 10 ∉ l) : fileLines l = [l] := by
  induction l with
  | nil => exact absurd rfl hne
  | cons c l ih =>
    obtain ⟨hc, hl⟩ := not_or.mp fun h => hl (List.mem_cons.mpr h)
    rw [fileLines, if_neg fun h => hc h.symm]
    rcases l with _ | ⟨b, l⟩
    · rfl
    · rw [ih (List.cons_ne_nil b l) hl]

/-- A line is not empty, and has a newline at its end only. -/
lemma fileLines_line : ∀ l ∈ fileLines file, l ≠ [] ∧ 10 ∉ l.dropLast := by
  induction file using segment_induction (10 : UInt8) with
  | nil => exact fun l hl => absurd hl List.not_mem_nil
  | last l hne hl =>
    rw [fileLines_last hne hl, List.forall_mem_singleton]
    exact ⟨hne, fun h => hl (List.dropLast_subset _ h)⟩
  | segment l r hl ih =>
    rw [fileLines_newline hl, List.forall_mem_cons]
    exact ⟨⟨by simp, by simpa using hl⟩, ih⟩

/-- **The pieces are those of the lines.** -/
lemma pieces_lines (n : ℕ) (file : List UInt8) :
    pieces n 10 file = (fileLines file).flatMap (pieces n 10) := by
  induction file using segment_induction (10 : UInt8) with
  | nil => rfl
  | last l hne hl => rw [fileLines_last hne hl, List.flatMap_singleton]
  | segment l r hl ih =>
    have hsplit : l ++ 10 :: r = (l ++ [10]) ++ r := by simp
    rw [fileLines_newline hl, List.flatMap_cons, ← ih, ← pieces_append (cut_delim l), hsplit]

/-- A line is cut wherever a piece is full. -/
lemma pieces_line {n : ℕ} (hn : 0 < n) (hne : l ≠ []) (hl : 10 ∉ l.dropLast) :
    pieces n 10 l = l.take n :: pieces n 10 (l.drop n) := by
  have hpos : 0 < (l.take n).length := by
    have := List.length_pos_iff.mpr hne
    rw [List.length_take]
    omega
  have hle : (l.take n).length ≤ n := List.length_take_le n l
  by_cases hends : (l.take n).getLast? = some 10 ∨ (l.take n).length = n
  · have hsub : (l.take n).dropLast ⊆ l.dropLast := by
      rw [List.dropLast_take_eq_take_dropLast]
      exact List.take_subset _ _
    rw [← pieces_cons ⟨hpos, hle, fun h => hl (hsub h), hends⟩, List.take_append_drop]
  · obtain ⟨hlast, hfull⟩ := not_or.mp hends
    -- all of the line is left, and it has no newline
    have hlen : l.length < n := by
      rw [List.length_take] at hfull
      omega
    rw [List.take_of_length_le hlen.le] at hlast ⊢
    rw [List.drop_of_length_le hlen.le, pieces_nil]
    refine pieces_short hne (fun h => ?_) hlen
    rw [← List.dropLast_append_getLast hne, List.mem_append, List.mem_singleton] at h
    rcases h with h | h
    · exact hl h
    · exact hlast (by rw [List.getLast?_eq_some_getLast hne, ← h])

/-! ### What is passed of a line -/

lemma excludeLine_none : excludeLine p = none ↔ p.head? = some 35 := by
  have hhead : (upToNul p).1.head? = some 35 ↔ p.head? = some 35 := by
    rcases p with _ | ⟨c, p⟩
    · rfl
    · by_cases hc : c = 0
      · simp [upToNul, hc]
      · simp [upToNul, hc]
  rw [← hhead]
  unfold excludeLine
  dsimp only
  split
  · rename_i h
    exact iff_of_true rfl h
  · rename_i h
    refine iff_of_false ?_ h
    split <;> exact Option.some_ne_none _

lemma excludeLine_length {s : CStr} (h : excludeLine p = some s) : s.1.length ≤ p.length := by
  have hle : (upToNul p).1.length ≤ p.length := (List.takeWhile_sublist _).length_le
  unfold excludeLine at h
  dsimp only at h
  split at h
  · cases h
  · split at h
    · rw [← Option.some.inj h]
      exact (List.length_take_le' _ _).trans hle
    · rw [← Option.some.inj h]
      exact hle

/-- What is wanted of a line that is no comment. -/
lemma wanted_line (hne : l ≠ []) (hl : 10 ∉ l.dropLast) (hc : l.head? ≠ some 35) :
    wanted l = some (if 1 < l.length ∧ l.getLast? = some 10 then l.dropLast else l) := by
  have hsplit := List.dropLast_append_getLast hne
  have hbefore : ∀ c ∈ l.dropLast, decide (c ≠ 10) = true := by
    intro c hc
    exact decide_eq_true fun h => hl (h ▸ hc)
  have hlast := List.getLast?_eq_some_getLast hne
  unfold wanted
  rw [if_neg hc, hlast]
  by_cases h10 : l.getLast hne = 10
  · have htake : (l.takeWhile fun c => c ≠ 10) = l.dropLast := by
      conv_lhs => rw [← hsplit, List.takeWhile_append_of_pos hbefore, h10]
      simp
    rw [htake]
    by_cases hlen : 1 < l.length
    · have hmore : l ≠ [10] := by
        rintro rfl
        exact absurd hlen (by decide)
      rw [if_neg hmore, if_pos ⟨hlen, by rw [h10]⟩]
    · obtain ⟨c, rfl⟩ := List.length_eq_one_iff.mp
        (Nat.le_antisymm (Nat.le_of_not_lt hlen) (List.length_pos_iff.mpr hne))
      obtain rfl : c = 10 := h10
      rfl
  · have htake : (l.takeWhile fun c => c ≠ 10) = l := by
      refine List.takeWhile_eq_self_iff.mpr fun c hmem => decide_eq_true fun h => ?_
      rw [← hsplit, List.mem_append, List.mem_singleton, h] at hmem
      exact hmem.elim hl fun h => h10 h.symm
    rw [htake, ite_self, if_neg fun h => h10 (Option.some.inj h.2)]

/-- A line of the file that the buffer holds is passed as it should be. -/
lemma excludeLine_line (hne : l ≠ []) (hl : 10 ∉ l.dropLast) (hc : l.head? ≠ some 35)
    (h0 : 0 ∉ l) : (excludeLine l).map Subtype.val = wanted l := by
  have hnul : (upToNul l).1 = l := upToNul_of_notMem h0
  rw [wanted_line hne hl hc]
  unfold excludeLine upTo
  dsimp only
  simp only [hnul]
  rw [if_neg hc]
  split
  · rw [Option.map_some, List.dropLast_eq_take]
  · rw [Option.map_some, hnul]

/-- The strings passed of one line. -/
def passedOf (l : List UInt8) : List (List UInt8) :=
  ((pieces (maxExcludeLineLength - 1) 10 l).filterMap excludeLine).map Subtype.val

/-- The bytes with which the pieces of a line begin: the first one, and those behind. -/
lemma heads_cons {n : ℕ} (hne : l ≠ []) :
    (∀ k c, l[n * k]? = some c → c = 35) ↔
      l.head? = some 35 ∧ ∀ k c, (l.drop n)[n * k]? = some c → c = 35 := by
  have hdrop : ∀ k, (l.drop n)[n * k]? = l[n * (k + 1)]? := by
    intro k
    rw [List.getElem?_drop, Nat.mul_succ, Nat.add_comm]
  simp only [hdrop]
  refine ⟨fun h => ⟨?_, fun k => h (k + 1)⟩, fun ⟨hhead, htail⟩ k c hk => ?_⟩
  · rw [List.head?_eq_some_head hne]
    refine congrArg some (h 0 _ ?_)
    rw [Nat.mul_zero, ← List.head?_eq_getElem?, List.head?_eq_some_head hne]
  · rcases k with _ | k
    · rw [Nat.mul_zero, ← List.head?_eq_getElem?, hhead] at hk
      exact (Option.some.inj hk).symm
    · exact htail k c hk

/-- What is left of a line behind a piece. -/
lemma drop_line (n : ℕ) (hl : 10 ∉ l.dropLast) : 10 ∉ (l.drop n).dropLast := by
  rw [List.dropLast_drop_eq_drop_dropLast]
  exact fun h => hl (List.mem_of_mem_drop h)

/-- A line is passed over just when all its pieces begin like a comment. -/
lemma pieces_heads {n : ℕ} (hn : 0 < n) (hl : 10 ∉ l.dropLast) :
    (∀ p ∈ pieces n 10 l, p.head? = some 35) ↔ ∀ k c, l[n * k]? = some c → c = 35 := by
  induction hm : l.length using Nat.strong_induction_on generalizing l with
  | _ m ih =>
    rcases eq_or_ne l [] with rfl | hne
    · simp [pieces_nil]
    · have hlt : (l.drop n).length < m := by
        have := List.length_pos_iff.mpr hne
        rw [List.length_drop]
        omega
      rw [heads_cons hne, pieces_line hn hne hl, List.forall_mem_cons,
        ih _ hlt (drop_line n hl) rfl, List.head?_take, if_neg (by omega)]

lemma passedOf_comment (hl : 10 ∉ l.dropLast) :
    passedOf l = [] ↔ ∀ k c, l[(maxExcludeLineLength - 1) * k]? = some c → c = 35 := by
  unfold passedOf
  rw [List.map_eq_nil_iff, List.filterMap_eq_nil_iff, ← pieces_heads (by decide) hl]
  simp only [excludeLine_none]

/-- Of a line that is no comment its beginning is passed, whatever comes behind. -/
lemma passedOf_cons (hne : l ≠ []) (hl : 10 ∉ l.dropLast) (hc : l.head? ≠ some 35) :
    ∃ s : CStr, passedOf l = s.1 :: passedOf (l.drop (maxExcludeLineLength - 1)) ∧
      s.1.length < maxExcludeLineLength := by
  have hhead : (l.take (maxExcludeLineLength - 1)).head? ≠ some 35 := by
    rw [List.head?_take, if_neg (by decide)]
    exact hc
  obtain ⟨s, hs⟩ := Option.ne_none_iff_exists'.mp fun h => hhead (excludeLine_none.mp h)
  refine ⟨s, ?_, ?_⟩
  · unfold passedOf
    rw [pieces_line (by decide) hne hl, List.filterMap_cons_some hs, List.map_cons]
  · have hle := (excludeLine_length hs).trans (List.length_take_le _ _)
    exact Nat.lt_of_le_of_lt hle (by decide)

lemma passedOf_iff (hne : l ≠ []) (hl : 10 ∉ l.dropLast) :
    passedOf l = (wanted l).toList ↔ Fits l := by
  unfold Fits
  split
  · rename_i hc
    rw [← passedOf_comment hl, wanted, if_pos hc]
    rfl
  · rename_i hc
    refine ⟨fun h => ?_, fun ⟨h0, hlen⟩ => ?_⟩
    · obtain ⟨s, hs, hlen⟩ := passedOf_cons hne hl hc
      rw [hs, wanted_line hne hl hc, Option.toList_some, List.cons.injEq] at h
      obtain ⟨hval, hrest⟩ := h
      have hheads := (passedOf_comment (drop_line _ hl)).mp hrest
      split at hval
      · rename_i hnl
        have hsplit := List.dropLast_append_getLast hne
        have hlast : l.getLast hne = 10 :=
          Option.some.inj ((List.getLast?_eq_some_getLast hne).symm.trans hnl.2)
        refine ⟨fun h => ?_, Nat.lt_of_not_le fun hge => ?_⟩
        · rw [← hsplit, List.mem_append, List.mem_singleton, hlast, ← hval] at h
          exact h.elim s.2 (by decide)
        · -- the newline would be a piece of its own
          have hlen' : l.length - 1 < maxExcludeLineLength := by
            rw [← List.length_dropLast, ← hval]
            exact hlen
          have hend : (l.drop (maxExcludeLineLength - 1))[(maxExcludeLineLength - 1) * 0]? =
              some 10 := by
            rw [List.getElem?_drop, ← hnl.2, List.getLast?_eq_getElem?]
            congr 1
            omega
          exact absurd (hheads 0 10 hend) (by decide)
      · rw [← hval]
        exact ⟨s.2, hlen⟩
    · have hline := excludeLine_line hne hl hc h0
      rw [wanted_line hne hl hc] at hline ⊢
      obtain ⟨s, hs, hval⟩ := Option.map_eq_some_iff.mp hline
      have hle : l.length ≤ maxExcludeLineLength - 1 := Nat.le_sub_one_of_lt hlen
      rw [passedOf, pieces_line (by decide) hne hl, List.take_of_length_le hle,
        List.drop_of_length_le hle, pieces_nil, List.filterMap_cons_some hs, List.filterMap_nil,
        List.map_singleton, hval, Option.toList_some]

/-! ### The file -/

lemma passed_eq (mem : ℕ → Bool) (file : List UInt8) :
    passed (excludeReadfileThread mem (some file)) = (fileLines file).flatMap passedOf := by
  have hadds : ∀ lines : List CStr,
      passed (.clear :: lines.mapIdx fun k line => .add (mem k) line) = lines.map Subtype.val := by
    intro lines
    show passed (lines.mapIdx _) = _
    induction lines using List.reverseRecOn with
    | nil => rfl
    | append_singleton lines line ih =>
      unfold passed at ih ⊢
      rw [List.mapIdx_append, List.filterMap_append, ih, List.map_append]
      rfl
  have hpieces : fgets maxExcludeLineLength file = pieces (maxExcludeLineLength - 1) 10 file := rfl
  unfold excludeReadfileThread
  dsimp only
  rw [hadds, hpieces, pieces_lines, List.filterMap_flatMap, List.map_flatMap]
  rfl

/-- Lists put together from parts, none of them shorter than another list's, are equal just when
the parts are. -/
lemma flatMap_eq_iff {α β : Type*} {f g : α → List β} {as : List α}
    (h : ∀ a ∈ as, (g a).length ≤ (f a).length) :
    as.flatMap f = as.flatMap g ↔ ∀ a ∈ as, f a = g a := by
  induction as with
  | nil => simp
  | cons a as ih =>
    obtain ⟨ha, has⟩ := List.forall_mem_cons.mp h
    rw [List.flatMap_cons, List.flatMap_cons, List.forall_mem_cons, ← ih has]
    refine ⟨fun heq => ?_, fun ⟨h1, h2⟩ => by rw [h1, h2]⟩
    have hrest : (as.flatMap g).length ≤ (as.flatMap f).length := by
      rw [List.length_flatMap, List.length_flatMap]
      exact List.sum_le_sum has
    have hlen := congrArg List.length heq
    rw [List.length_append, List.length_append] at hlen
    exact List.append_inj heq (by omega)

/-- **The exclude file is read line by line** just when every line fits. -/
theorem readfile_exact_iff (mem : ℕ → Bool) (file : List UInt8) :
    passed (excludeReadfileThread mem (some file)) = (fileLines file).filterMap wanted ↔
      ∀ l ∈ fileLines file, Fits l := by
  have hlines : ∀ l ∈ fileLines file, l ≠ [] ∧ 10 ∉ l.dropLast := fileLines_line
  have hmore : ∀ l ∈ fileLines file, (wanted l).toList.length ≤ (passedOf l).length := by
    intro l hl
    obtain ⟨hne, hnl⟩ := hlines l hl
    by_cases hc : l.head? = some 35
    · rw [wanted, if_pos hc]
      exact Nat.zero_le _
    · obtain ⟨s, hs, -⟩ := passedOf_cons hne hnl hc
      rw [hs, wanted_line hne hnl hc]
      simp
  rw [passed_eq, List.filterMap_eq_flatMap_toList, flatMap_eq_iff hmore]
  exact forall₂_congr fun l hl => passedOf_iff (hlines l hl).1 (hlines l hl).2

/-- A comment of 110 characters, and in it a network where the buffer is full. -/
def longComment : List UInt8 :=
  35 :: List.replicate 98 45 ++ (ascii "10.0.0.0/8\n").1

/-- **A part of a comment is passed**, and excludes a network that the file does not list. -/
theorem readfile_comment :
    passed (excludeReadfileThread (fun _ => true) (some longComment)) ≠
        (fileLines longComment).filterMap wanted ∧
      passed (excludeReadfileThread (fun _ => true) (some longComment)) =
        [(ascii "10.0.0.0/8").1] := by
  decide +kernel

end Agentsmith.ExcludeFile
