import Agentsmith.ExcludeReload

/-!
The exclude list as a set of lines.

After a clear, what a lookup answers depends on which lines were accepted since, not on their
order, on repetitions or on lines that were rejected; and a line accepted only adds to what
is excluded.
-/

namespace Agentsmith.ExcludeSets

open Agentsmith.Lib.CStrings Agentsmith.Lib.Words
open Agentsmith.Globals Agentsmith.Exclude Agentsmith.ExcludeLines Agentsmith.ExcludeCidr
open Agentsmith.ExcludeReload

section

variable (pton : InetPton) (e : Endian)

/-- The vector after `exclude_clear` and then a call of `exclude_add` for each of the lines,
with or without memory for it. -/
def afterClear (v : Store) (lines : List (Bool × CStr)) : Option Store :=
  lines.foldl (fun u l => u.bind fun u => (excludeAdd pton e l.1 l.2 u).map Prod.fst)
    (some (excludeClear v).1)

/-- One of the calls accepts the line. -/
def Taken (lines : List (Bool × CStr)) (line : CStr) : Prop :=
  (true, line) ∈ lines ∧ ∃ net p, Accepts pton line net p

end

variable {pton : InetPton} {e : Endian} {line x : CStr} {lines : List (Bool × CStr)}

/-- The calls, as `excludeRun` makes them. -/
def calls (lines : List (Bool × CStr)) : List Op := .clear :: lines.map fun l => .add l.1 l.2

lemma calls_snoc (lines : List (Bool × CStr)) (l : Bool × CStr) :
    calls (lines ++ [l]) = calls lines ++ [.add l.1 l.2] := by
  simp [calls]

lemma afterClear_eq (v : Store) (lines : List (Bool × CStr)) :
    afterClear pton e v lines = (excludeRun pton e (calls lines)).map Prod.fst := by
  induction lines using List.reverseRecOn with
  | nil => rfl
  | append_singleton lines l ih =>
    have hsnoc : afterClear pton e v (lines ++ [l]) = (afterClear pton e v lines).bind fun u =>
        (excludeAdd pton e l.1 l.2 u).map Prod.fst := by
      simp [afterClear, List.foldl_append]
    rw [hsnoc, ih, calls_snoc, excludeRun_snoc]
    rcases excludeRun pton e (calls lines) with _ | s
    · rfl
    · simp only [Option.map_some, Option.bind_some, excludeStep, Option.map_map]
      rfl

lemma afterClear_holds {v u : Store} (h : afterClear pton e v lines = some u) :
    ∃ s, s.1 = u ∧ Holds pton e s ∧ ∀ line, line ∈ s.2 ↔ Taken pton lines line := by
  rw [afterClear_eq] at h
  obtain ⟨s, hs, hu⟩ := Option.map_eq_some_iff.mp h
  obtain ⟨hholds, hlines⟩ := (run_spec pton e _).2 s hs
  refine ⟨s, hu, hholds, fun line => ?_⟩
  have hadds : Op.clear ∉ lines.map fun l => Op.add l.1 l.2 := by simp
  rw [hlines, show calls lines = [] ++ .clear :: _ from rfl, listed_adds [] hadds]
  simp [Taken]

lemma afterClear_none {v : Store} : afterClear pton e v lines = none ↔
    ∃ line, Taken pton lines line ∧ WholeIpv4 pton line := by
  rw [afterClear_eq, Option.map_eq_none_iff, (run_spec pton e _).1]
  have hacc : ∀ line, WholeIpv4 pton line → ∃ net p, Accepts pton line net p :=
    fun line ⟨net, _, h⟩ => ⟨net, 0, h⟩
  refine ⟨fun ⟨line, hmem, hwhole⟩ => ⟨line, ⟨?_, hacc line hwhole⟩, hwhole⟩,
    fun ⟨line, ⟨hmem, _⟩, hwhole⟩ => ⟨line, ?_, hwhole⟩⟩
  · simpa [calls] using hmem
  · simpa [calls] using hmem

/-- Whether a lookup is defined depends on the string alone, and it has two answers. -/
lemma isexcluded_ext {v v' : Store}
    (h : excludeIsexcluded pton e x v = some retvalOk ↔
      excludeIsexcluded pton e x v' = some retvalOk) :
    excludeIsexcluded pton e x v = excludeIsexcluded pton e x v' := by
  have hne : retvalErr ≠ retvalOk := by decide
  unfold excludeIsexcluded excludeFind at h ⊢
  generalize excludeParseIp x = parsed at h ⊢
  rcases parsed with _ | ⟨ip, q, f⟩
  · rfl
  · dsimp only at h ⊢
    split
    · rename_i hwidth
      rw [if_pos hwidth, if_pos hwidth, Option.map_some, Option.map_some] at h
      rw [Option.map_some, Option.map_some]
      generalize (pton.addr f ip).bind _ = found at h ⊢
      generalize (pton.addr f ip).bind _ = found' at h ⊢
      cases found <;> cases found' <;> simp_all
    · rfl

/-- **The answers are those of a set of lines.** -/
lemma isexcluded_congr {s t : Exclude.St} (hs : Holds pton e s) (ht : Holds pton e t)
    (h : ∀ line, line ∈ s.2 ↔ line ∈ t.2) :
    excludeIsexcluded pton e x s.1 = excludeIsexcluded pton e x t.1 := by
  refine isexcluded_ext ?_
  rw [isexcluded_searched hs, isexcluded_searched ht]
  simp only [h]

/-- A line that is accepted covers no fewer addresses. -/
lemma isexcluded_mono {s t : Exclude.St} (hs : Holds pton e s) (ht : Holds pton e t)
    (h : ∀ line ∈ s.2, line ∈ t.2) (hx : excludeIsexcluded pton e x s.1 = some retvalOk) :
    excludeIsexcluded pton e x t.1 = some retvalOk := by
  obtain ⟨a, ha, line, hline, hcov⟩ := (isexcluded_searched hs).mp hx
  exact (isexcluded_searched ht).mpr ⟨a, ha, line, h line hline, hcov⟩

/-- What `exclude_add` returns. -/
lemma excludeAdd_result {mem : Bool} {u u' : Store} {r : ℤ}
    (h : excludeAdd pton e mem line u = some (u', r)) :
    (r = retvalOk ∨ r = retvalErr) ∧
      (r = retvalOk ↔ mem = true ∧ ∃ net p, Accepts pton line net p) := by
  rw [exists_accepts_iff]
  rw [excludeAdd_eq] at h
  rcases hn : numeric pton line with _ | ⟨net, q⟩
  · simp only [hn, Option.some.injEq, Prod.mk.injEq] at h
    obtain ⟨-, rfl⟩ := h
    exact ⟨Or.inr rfl, by simp [retvalOk, retvalErr]⟩
  · cases mem with
    | false =>
      simp only [hn, Bool.false_eq_true, if_false, Option.some.injEq, Prod.mk.injEq] at h
      obtain ⟨-, rfl⟩ := h
      exact ⟨Or.inr rfl, by simp [retvalOk, retvalErr]⟩
    | true =>
      simp only [hn, if_true, Option.map_eq_some_iff, Prod.mk.injEq] at h
      obtain ⟨_, -, -, rfl⟩ := h
      exact ⟨Or.inl rfl, by simp⟩

/-- **The exclude list is a set of lines**: sequences of lines that have the same lines
accepted give the same answers, whatever the vector was before the clear; a line that is
rejected changes no answer, and one that is accepted takes none back. -/
theorem excluded_by_set (pton : InetPton) (e : Endian) :
    (∀ v v' as bs, (∀ line, Taken pton as line ↔ Taken pton bs line) → ∀ x,
      (afterClear pton e v as).map (excludeIsexcluded pton e x) =
        (afterClear pton e v' bs).map (excludeIsexcluded pton e x)) ∧
    ∀ v as u mem line u' r, afterClear pton e v as = some u →
      excludeAdd pton e mem line u = some (u', r) →
        (r = retvalOk ∨ r = retvalErr) ∧
        (r = retvalOk ↔ mem = true ∧ ∃ net p, Accepts pton line net p) ∧
        (r = retvalErr → ∀ x, excludeIsexcluded pton e x u' = excludeIsexcluded pton e x u) ∧
        (r = retvalOk → ∀ x, excludeIsexcluded pton e x u = some retvalOk →
          excludeIsexcluded pton e x u' = some retvalOk) := by
  refine ⟨fun v v' as bs hset x => ?_, fun v as u mem line u' r hu hadd => ?_⟩
  · rcases has : afterClear pton e v as with _ | u
    · obtain ⟨line, htaken, hwhole⟩ := afterClear_none.mp has
      have hbs : afterClear pton e v' bs = none :=
        afterClear_none.mpr ⟨line, (hset line).mp htaken, hwhole⟩
      rw [hbs, Option.map_none]
    · rcases hbs : afterClear pton e v' bs with _ | u'
      · obtain ⟨line, htaken, hwhole⟩ := afterClear_none.mp hbs
        rw [afterClear_none.mpr ⟨line, (hset line).mpr htaken, hwhole⟩] at has
        cases has
      · obtain ⟨s, rfl, hs, hslines⟩ := afterClear_holds has
        obtain ⟨t, rfl, ht, htlines⟩ := afterClear_holds hbs
        rw [Option.map_some, Option.map_some, isexcluded_congr hs ht fun line => by
          rw [hslines, htlines, hset]]
  · obtain ⟨s, rfl, hs, -⟩ := afterClear_holds hu
    obtain ⟨hanswers, hiff⟩ := excludeAdd_result hadd
    have hstep : excludeStep pton e s (.add mem line) =
        some (u', if r = retvalOk then s.2 ++ [line] else s.2) := by
      rw [excludeStep, hadd, Option.map_some]
    obtain ⟨hs', -⟩ := step_holds hs hstep
    refine ⟨hanswers, hiff, fun hr x => ?_, fun hr x hx => ?_⟩
    · rw [if_neg (by rw [hr]; decide)] at hs'
      exact isexcluded_congr hs' hs fun _ => Iff.rfl
    · rw [if_pos hr] at hs'
      exact isexcluded_mono hs hs' (fun l hl => List.mem_append_left _ hl) hx

/-- Two networks in one order, and in the other with a repetition and lines rejected. -/
theorem excluded_by_set_run :
    (afterClear quadPton .little excludeInit [(true, ascii "10.0.0.0/8"),
        (true, ascii "192.168.0.0/16")]).map (excludeIsexcluded quadPton .little host) =
      (afterClear quadPton .little excludeInit [(true, ascii "192.168.0.0/16"),
        (false, ascii "172.16.0.0/12"), (true, ascii "10.0.0.0/33"), (true, ascii "10.0.0.0/8"),
        (true, ascii "192.168.0.0/16")]).map (excludeIsexcluded quadPton .little host) := by
  refine (excluded_by_set quadPton .little).1 _ _ _ _ (fun line => ?_) host
  have hbad : ¬ ∃ net p, Accepts quadPton (ascii "10.0.0.0/33") net p := by
    rw [exists_accepts_iff]
    decide +kernel
  unfold Taken
  refine and_congr_left fun hacc => ?_
  have hne : line ≠ ascii "10.0.0.0/33" := fun h => hbad (h ▸ hacc)
  simp only [List.mem_cons, Prod.mk.injEq, true_and, Bool.true_eq_false, false_and, hne,
    List.not_mem_nil, or_false, false_or]
  exact ⟨fun h => h.elim (fun h => Or.inr (Or.inl h)) Or.inl, fun h => h.elim Or.inr id⟩

end Agentsmith.ExcludeSets
