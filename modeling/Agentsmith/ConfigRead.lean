import Agentsmith.Config
import Agentsmith.ExcludeReload

/-!
The lines of the configuration file.

The loop asks for the end of the file before it reads, so at the end of most files it goes once
more over the line that is still in its buffer. That line has been cut at its first `=`, and
nothing is left in it that could be set.
-/

namespace Agentsmith.ConfigRead

open Agentsmith.Lib.CStrings Agentsmith.Lib.Chunker
open Agentsmith.Globals Agentsmith.Exclude Agentsmith.ExcludeLines Agentsmith.Config

variable {σ : Type*} {b : Build} {line : CStr} {file : List UInt8}

/-- What a line sets: it has two characters, is no comment, has a `=`, and something stands behind
the first one. -/
def chosen (line : CStr) : Option (CStr × CStr) :=
  let value := before 10 (behind 61 line)
  if 2 ≤ line.1.length ∧ line.1.head? ≠ some 35 ∧ 61 ∈ line.1 ∧ value.1 ≠ [] then
    some (before 61 line, value)
  else none

/-- What the chunks of a file set, one after another. Of a chunk with a NUL the string before it
counts. -/
def applied (file : List UInt8) : List (CStr × CStr) :=
  (ExcludeReload.fgets buffSize file).filterMap fun chunk => chosen (upToNul chunk)

/-! ### One line -/

lemma upTo_before {c : UInt8} {i : ℕ} (h : strchr line c = some i) :
    upTo i line = before c line := by
  obtain ⟨hline, hno⟩ := strchr_split h
  refine Subtype.ext ?_
  show (upTo i line).1 = line.1.takeWhile _
  have hbefore : ∀ d ∈ (upTo i line).1, decide (d ≠ c) = true :=
    fun d hd => decide_eq_true fun hdc => hno (hdc ▸ hd)
  rw [hline, List.takeWhile_append_of_pos hbefore]
  simp

lemma advance_behind {c : UInt8} {i : ℕ} (h : strchr line c = some i) :
    advance (i + 1) line = behind c line := by
  obtain ⟨hline, hno⟩ := strchr_split h
  refine Subtype.ext ?_
  show line.1.drop (i + 1) = (line.1.dropWhile _).tail
  have hbefore : ∀ d ∈ (upTo i line).1, decide (d ≠ c) = true :=
    fun d hd => decide_eq_true fun hdc => hno (hdc ▸ hd)
  conv_rhs => rw [hline, List.dropWhile_append_of_pos hbefore]
  simp

lemma upToNul_length (l : List UInt8) : (upToNul l).1.length ≤ l.length :=
  (List.takeWhile_sublist _).length_le

lemma cutNewline_eq (value : CStr) : cutNewline value = before 10 value := by
  unfold cutNewline
  split
  · rename_i i hi
    exact upTo_before hi
  · rename_i hnone
    exact (before_self (strchr_none.mp hnone)).symm

/-- **A line sets what it should**, with either splitter. -/
lemma configLine_chosen (b : Build) (hlen : line.1.length < buffSize) :
    (configLine b line).2 = chosen line := by
  unfold configLine chosen
  by_cases hshort : line.1.length < 2
  · rw [if_pos hshort, if_neg fun h => absurd h.1 (Nat.not_le_of_lt hshort)]
  rw [if_neg hshort]
  by_cases hcomment : line.1.head? = some 35
  · rw [if_pos hcomment, if_neg fun h => h.2.1 hcomment]
  rw [if_neg hcomment]
  unfold splitLine
  rcases hi : strchr line 61 with _ | i
  · -- no `=`
    have hno := strchr_none.mp hi
    cases b <;> simp [hno]
  · obtain ⟨hline, hno⟩ := strchr_split hi
    have hmem : 61 ∈ line.1 := by
      rw [hline]
      simp
    have htmp : (behind 61 line).1.length < buffSize :=
      Nat.lt_of_le_of_lt (behind_length 61 line) hlen
    have hpos : (before 61 line).1.length < buffSize :=
      Nat.lt_of_le_of_lt (before_length 61 line) hlen
    dsimp only
    rw [upTo_before hi, advance_behind hi, strncpy_str htmp, strncpy_str hpos, cutNewline_eq]
    simp only [Nat.le_of_not_lt hshort, hcomment, hmem, ne_eq, not_false_eq_true, true_and]
    by_cases hrest : (behind 61 line).1.length = 0
    · have hnil : (before 10 (behind 61 line)).1 = [] := by
        have := List.eq_nil_of_length_eq_zero hrest
        simp [before, this]
      rw [if_pos hrest, if_neg (not_not.mpr hnil)]
    · rw [if_neg hrest]
      by_cases hval : (before 10 (behind 61 line)).1 = []
      · rw [if_pos (by rw [hval]; rfl), if_neg (not_not.mpr hval)]
      · rw [if_neg fun h => hval (List.eq_nil_of_length_eq_zero h), if_pos hval]

/-- A line that sets nothing, whatever the splitter. -/
def Spent (line : CStr) : Prop := line.1.length < 2 ∨ line.1.head? = some 35 ∨ 61 ∉ line.1

lemma configLine_spent (b : Build) (h : Spent line) : (configLine b line).2 = none := by
  unfold configLine
  by_cases hshort : line.1.length < 2
  · rw [if_pos hshort]
  rw [if_neg hshort]
  by_cases hcomment : line.1.head? = some 35
  · rw [if_pos hcomment]
  rw [if_neg hcomment]
  have hnone := strchr_none.mpr ((h.resolve_left hshort).resolve_left hcomment)
  unfold splitLine
  rw [hnone]
  cases b <;> rfl

/-- **A line that has been looked at is spent.** -/
lemma spent_configLine (b : Build) (line : CStr) : Spent (configLine b line).1 := by
  unfold configLine
  by_cases hshort : line.1.length < 2
  · rw [if_pos hshort]
    exact Or.inl hshort
  rw [if_neg hshort]
  by_cases hcomment : line.1.head? = some 35
  · rw [if_pos hcomment]
    exact Or.inr (Or.inl hcomment)
  rw [if_neg hcomment]
  have hcut : Spent (splitLine b line).line := by
    refine Or.inr (Or.inr ?_)
    unfold splitLine
    split
    · rename_i i hi
      exact (strchr_split hi).2
    · rename_i hnone
      cases b <;> exact strchr_none.mp hnone
  dsimp only
  split
  · split
    · exact hcut
    · split <;> exact hcut
  · exact hcut

/-! ### The file -/

/-- Reading goes on behind a chunk unless the end has been met in it. -/
lemma fgets_read {rest : List UInt8} (hne : rest ≠ []) (old : Option CStr) :
    ∃ chunk rest' eof, fgets buffSize ⟨rest, false⟩ old = (⟨rest', eof⟩, some (upToNul chunk)) ∧
      (upToNul chunk).1.length < buffSize ∧ rest'.length < rest.length ∧
      (eof = true → rest' = []) ∧
      ExcludeReload.fgets buffSize rest = chunk :: ExcludeReload.fgets buffSize rest' := by
  have hpieces : ∀ l, ExcludeReload.fgets buffSize l = pieces (buffSize - 1) 10 l := fun _ => rfl
  have happ := first_append (buffSize - 1) 10 rest
  have hlt := first_lt (buffSize - 1) 10 hne
  refine ⟨(first (buffSize - 1) 10 rest).1, (first (buffSize - 1) 10 rest).2, _,
    if_neg hne, ?_, hlt, fun heof => ?_, ?_⟩
  · have hle : (first (buffSize - 1) 10 rest).1.length ≤ buffSize - 1 :=
      first_length (by decide) rest
    exact Nat.lt_of_le_of_lt ((upToNul_length _).trans hle) (by decide)
  · obtain ⟨hshort, hlast⟩ := of_decide_eq_true heof
    obtain hp | ⟨hnil, -⟩ : Piece (buffSize - 1) 10 (first (buffSize - 1) 10 rest).1 ∨ _ :=
      first_spec (by decide) hne
    · exact absurd hp.ends (not_or.mpr ⟨hlast, Nat.ne_of_lt hshort⟩)
    · exact hnil
  · rw [hpieces, hpieces, pieces_first (by decide) hne]

/-- At the end of the file the loop may go once more over a spent line, and sets nothing. -/
lemma loop_nil (b : Build) (set : σ → CStr → CStr → Option σ) (h : Spent line) (eof : Bool)
    (s : σ) : configLoop b set ⟨[], eof⟩ (some line) s = some s := by
  have hend : ∀ l, configLoop b set ⟨[], true⟩ l s = some s := by
    intro l
    rw [configLoop, if_pos rfl]
  cases eof with
  | true => exact hend _
  | false =>
    have hread : fgets buffSize ⟨[], false⟩ (some line) = (⟨[], true⟩, some line) := if_pos rfl
    rw [configLoop, if_neg Bool.false_ne_true, hread]
    dsimp only
    rw [configLine_spent b h]
    exact hend _

/-- **The loop over a file**: from any line in the buffer, what the chunks set. -/
lemma loop_applied (b : Build) (set : σ → CStr → CStr → Option σ) (hne : file ≠ [])
    (old : Option CStr) (s : σ) : configLoop b set ⟨file, false⟩ old s =
      (applied file).foldlM (fun s c => set s c.1 c.2) s := by
  induction hn : file.length using Nat.strong_induction_on generalizing file old s with
  | _ n ih =>
    obtain ⟨chunk, rest, eof, hread, hlen, hlt, heof, hchunks⟩ := fgets_read hne old
    -- the loop behind the chunk, whatever has been set
    have hrest : ∀ s, configLoop b set ⟨rest, eof⟩ (some (configLine b (upToNul chunk)).1) s =
        (applied rest).foldlM (fun s c => set s c.1 c.2) s := by
      intro s
      rcases eq_or_ne rest [] with rfl | hmore
      · exact loop_nil b set (spent_configLine b _) eof s
      · obtain rfl : eof = false := Bool.eq_false_iff.mpr fun h => hmore (heof h)
        exact ih rest.length (hn ▸ hlt) hmore _ s rfl
    have happlied : applied file = (chosen (upToNul chunk)).toList ++ applied rest := by
      unfold applied
      rw [hchunks, List.filterMap_cons]
      split <;> simp [*]
    rw [configLoop, if_neg Bool.false_ne_true, hread, happlied]
    dsimp only
    rw [configLine_chosen b hlen]
    rcases chosen (upToNul chunk) with _ | ⟨token, value⟩
    · exact hrest s
    · show (set s token value).bind _ = (set s token value).bind _
      congr 1
      funext s
      exact hrest s

/-- What every call keeps holds after the loop. -/
lemma loop_inv {P : σ → Prop} {set : σ → CStr → CStr → Option σ}
    (hset : ∀ s token value s', P s → set s token value = some s' → P s') {s s' : σ} (hs : P s)
    (h : configLoop b set ⟨file, false⟩ none s = some s') : P s' := by
  rcases eq_or_ne file [] with rfl | hne
  · have hread : fgets buffSize ⟨[], false⟩ none = (⟨[], true⟩, none) := if_pos rfl
    rw [configLoop, if_neg Bool.false_ne_true, hread] at h
    cases h
  · rw [loop_applied b set hne] at h
    generalize applied file = calls at h
    induction calls generalizing s with
    | nil => exact Option.some.inj h ▸ hs
    | cons c calls ih =>
      obtain ⟨s₁, hcall, hrest⟩ := Option.bind_eq_some_iff.mp h
      exact ih (hset s c.1 c.2 s₁ hs hcall) hrest

/-- **What is read is sane**: records only ever take over options that have been sanitized, or
their defaults. -/
theorem configRead_sane {α : Type*} {getaddrinfo : CStr → CStr → Option α}
    {access : CStr → Amode → Bool} {defaultPidfile : CStr} {cfg : ConfigT α}
    (h : configRead b getaddrinfo access defaultPidfile (some file) = some (.config cfg)) :
    cfg.toConfig.Sane := by
  obtain ⟨cfg', hloop, hrest⟩ := Option.bind_eq_some_iff.mp h
  have hsane : cfg'.toConfig.Sane := by
    refine loop_inv (P := fun cfg => cfg.toConfig.Sane) (fun s token value s' _ hset => ?_) ?_ hloop
    · obtain ⟨s₁, -, rfl⟩ := Option.map_eq_some_iff.mp hset
      exact sanitize_sane s₁
    · show (⟨3, 60, 3600⟩ : Globals.Config).Sane
      decide
  split at hrest
  · split at hrest
    · obtain ⟨cfg₁, hlisten, hcfg⟩ := Option.map_eq_some_iff.mp hrest
      obtain ⟨l, -, rfl⟩ := Option.map_eq_some_iff.mp hlisten
      exact Outcome.config.inj hcfg ▸ hsane
    · exact Outcome.config.inj (Option.some.inj hrest) ▸ hsane
  · cases Option.some.inj hrest

/-- The calls of `_set_config_option` that `config_read` makes. -/
def configCalls (b : Build) (file : List UInt8) : Option (List (CStr × CStr)) :=
  configLoop b (fun calls token value => some (calls ++ [(token, value)])) ⟨file, false⟩ none []

lemma foldlM_log (calls log : List (CStr × CStr)) :
    calls.foldlM (fun log c => some (log ++ [c])) log = some (log ++ calls) := by
  induction calls generalizing log with
  | nil => simp
  | cons c calls ih =>
    rw [List.foldlM_cons, Option.bind_eq_bind, Option.bind_some, ih, List.append_assoc,
      List.singleton_append]

/-- **Every chunk of the configuration file is applied once**: with either splitter the calls are
those for the chunks that set an option, in their order, whatever a call does. -/
theorem config_read_applied (b : Build) (file : List UInt8) (hne : file ≠ []) :
    configCalls b file = some (applied file) ∧
      ∀ (set : σ → CStr → CStr → Option σ) (s : σ), configLoop b set ⟨file, false⟩ none s =
        (applied file).foldlM (fun s c => set s c.1 c.2) s := by
  refine ⟨?_, fun set s => loop_applied b set hne none s⟩
  rw [configCalls, loop_applied b _ hne]
  exact foldlM_log _ []

/-- A comment, an option without a value, and a last line that does not end. -/
def sampleFile : List UInt8 :=
  (ascii "# agents\nexclude=\ninform=1\nregex=a=b\n\nlisten=127.0.0.1").1

/-- The calls for a file, of either build. -/
theorem config_read_applied_run :
    configCalls .strsep sampleFile = some [(ascii "inform", ascii "1"),
        (ascii "regex", ascii "a=b"), (ascii "listen", ascii "127.0.0.1")] ∧
      configCalls .strchr sampleFile = configCalls .strsep sampleFile := by
  have hne : sampleFile ≠ [] := by decide +kernel
  have happlied : applied sampleFile = [(ascii "inform", ascii "1"), (ascii "regex", ascii "a=b"),
      (ascii "listen", ascii "127.0.0.1")] := by decide +kernel
  obtain ⟨hcalls, -⟩ : _ ∧ ∀ (set : ℕ → CStr → CStr → Option ℕ) (s : ℕ), _ :=
    config_read_applied .strsep sampleFile hne
  obtain ⟨hcalls', -⟩ : _ ∧ ∀ (set : ℕ → CStr → CStr → Option ℕ) (s : ℕ), _ :=
    config_read_applied .strchr sampleFile hne
  exact ⟨hcalls.trans (congrArg some happlied), hcalls'.trans hcalls.symm⟩

end Agentsmith.ConfigRead
