import Agentsmith.PerAddress

/-!
Records that other hosts report.

The worker takes only records that have reached their own threshold, so each of them should
be acted on here as well. Where the address is known already, its occurrences are added to
the reported ones, and the sum may leave the 32-bit counter.
-/

namespace Agentsmith.RemoteReport

open Agentsmith.Lib.CStrings Agentsmith.Lib.Slots Agentsmith.Lib.Runs
open Agentsmith.Globals Agentsmith.Records Agentsmith.RecordsMap Agentsmith.Daemon
open Agentsmith.PerAddress

variable {cfg : Config} {s : St} {x : CStr} {now : Int64} {mem : Bool} {hr r : HostRecord}

/-- The live record of `x` has been acted on, or is due and the next pass acts on it. -/
def Acted (cfg : Config) (s : St) (x : CStr) : Prop :=
  ∃ r, recordsGet s.2 x = some r ∧ (r.processed ≠ 0 ∨
    r.actionThreshold ≤ r.occurrences ∧ r.processed = 0 ∧ ∀ t, ⟨.new, r⟩ ∈ passCalls cfg s t)

/-- The occurrences of both records, and one more in the time interval. -/
def total (now : Int64) (hr old : HostRecord) : ℤ :=
  hr.occurrences.toInt + old.occurrences.toInt +
    if now - hr.firstseen ≤ hr.timeInterval then 1 else 0

/-- When a report has its effect: a new record needs memory; a known address has been acted
on before, or the sum is in the range of the counter and reaches the threshold. -/
def TakesEffect (now : Int64) (mem : Bool) (hr : HostRecord) : Option HostRecord → Prop
  | none => mem = true
  | some old => old.processed ≠ 0 ∨
      hr.actionThreshold.toInt ≤ total now hr old ∧ total now hr old ≤ 2 ^ 31 - 1

/-! ### The sum -/

lemma merge_occurrences (now : Int64) (hr old : HostRecord) :
    (merge now hr old).occurrences.toInt = (total now hr old).bmod (2 ^ 32) := by
  have hsum : (hr.occurrences.toUInt32 + old.occurrences.toUInt32).toInt32 =
      hr.occurrences + old.occurrences := rfl
  have hone : (1 : Int32).toInt = 1 := rfl
  rw [merge, bump_eq, total]
  dsimp only
  rw [hsum]
  split
  · rw [Int32.toInt_add, Int32.toInt_add, hone, Int.bmod_add_bmod]
  · rw [Int32.toInt_add, Int.add_zero]

/-- A sum that leaves the counter comes out negative. -/
lemma threshold_le_merge (now : Int64) (hr : HostRecord) (hthr : 1 ≤ hr.actionThreshold)
    (hocc : hr.actionThreshold ≤ hr.occurrences) (old : HostRecord) :
    hr.actionThreshold ≤ (merge now hr old).occurrences ↔
      hr.actionThreshold.toInt ≤ total now hr old ∧ total now hr old ≤ 2 ^ 31 - 1 := by
  have h1 := Int32.le_iff_toInt_le.mp hthr
  have h2 := Int32.le_iff_toInt_le.mp hocc
  have hone : (1 : Int32).toInt = 1 := rfl
  have ha := hr.occurrences.toInt_lt
  have hb := old.occurrences.toInt_lt
  have hb' := old.occurrences.le_toInt
  have htotal : total now hr old = hr.occurrences.toInt + old.occurrences.toInt ∨
      total now hr old = hr.occurrences.toInt + old.occurrences.toInt + 1 := by
    unfold total
    split <;> omega
  rw [Int32.le_iff_toInt_le, merge_occurrences, Int.bmod_eq_emod]
  split <;> omega

/-! ### The record after the call -/

/-- A record found is replaced by the merged one. -/
lemma get_merged (hr : HostRecord) {v : Store} {i : ℕ} (hf : recordsFind v hr.addr = some (i, r)) :
    recordsGet (recordsAddRecord now mem hr v).1 hr.addr = some (merge now hr r) := by
  have hset := find_set (b := merge now hr r) hf (by simp [merge_addr])
  unfold recordsGet recordsAddRecord
  rw [hf]
  unfold recordsFind
  dsimp only
  rw [List.take_set, hset, Option.map_some]

/-- A record that is new is the reported one. -/
lemma get_placed (hr : HostRecord) {v : Store} (h : Shape v) (hf : recordsFind v hr.addr = none) :
    recordsGet (recordsAddRecord now mem hr v).1 hr.addr = if mem then some hr else none := by
  have hat : At v hr.addr none := by
    have hnone : ∀ i q, slot v.vec i = some q → q.addr ≠ hr.addr := by
      intro i q hi
      rw [← h.slot_fill] at hi
      simpa using find_none.mp hf i q hi
    exact ⟨h, fun i j a b hi _ ha => absurd ha (hnone i a hi), find_none_get.mp hf⟩
  have hplaced : At (recordsAddRecord now mem hr v).1 hr.addr _ := hat.addRecord hr
  rw [hplaced.get, if_pos rfl]
  rfl

/-- A record that is due is called by the next pass. -/
lemma due_called (h : Shape s.2) (hr : recordsGet s.2 x = some r) (hd : Due r) (t : Int64) :
    ⟨.new, r⟩ ∈ passCalls cfg s t := by
  obtain ⟨⟨i, q⟩, hf, rfl⟩ := Option.map_eq_some_iff.mp hr
  have hlive : q ∈ live s.2.vec := mem_live.mpr ⟨i, (find_slot h hf).1⟩
  rw [passCalls_eq h, List.mem_flatMap]
  exact ⟨q, hlive, by simp [newCalls, hd]⟩

lemma acted_iff (h : Shape s.2) :
    Acted cfg s x ↔ ∃ r, recordsGet s.2 x = some r ∧
      (r.processed ≠ 0 ∨ r.actionThreshold ≤ r.occurrences) := by
  refine exists_congr fun r => and_congr_right fun hr => ?_
  by_cases hp : r.processed = 0
  · simp only [hp, ne_eq, not_true_eq_false, false_or, true_and, and_iff_left_iff_imp]
    exact fun hle t => due_called h hr ⟨hle, hp⟩ t
  · simp [hp]

/-- **A reported host is acted on** just when its record is new and gets its memory, or it
has been acted on already, or the occurrences add up within the counter to the threshold. -/
theorem report_acted_iff (cfg : Config) (evs : List Event) (now : Int64) (mem : Bool)
    (host : CStr) (hr : HostRecord) (hthr : 1 ≤ hr.actionThreshold)
    (hocc : hr.actionThreshold ≤ hr.occurrences) :
    Acted cfg (daemonStep cfg (daemon cfg evs) ⟨now, .report mem host hr⟩) hr.addr ↔
      TakesEffect now mem hr (recordsGet (daemon cfg evs).2 hr.addr) := by
  have hshape : Shape (daemon cfg evs).2 := shape_daemon cfg evs
  set v := (daemon cfg evs).2
  have hstep : (daemonStep cfg (daemon cfg evs) ⟨now, .report mem host hr⟩).2 =
      (recordsAddRecord now mem (workerRecord host hr) v).1 := rfl
  rw [acted_iff (shape_step hshape _), hstep]
  rcases hf : recordsFind v hr.addr with _ | ⟨i, old⟩
  · have hplaced : recordsGet (recordsAddRecord now mem (workerRecord host hr) v).1 hr.addr = _ :=
      get_placed (workerRecord host hr) hshape hf
    rw [find_none_get.mp hf, hplaced]
    cases mem with
    | false => simp [TakesEffect]
    | true =>
      have hle : (workerRecord host hr).actionThreshold ≤ (workerRecord host hr).occurrences := hocc
      simp [TakesEffect, hle]
  · have hmerge : recordsGet (recordsAddRecord now mem (workerRecord host hr) v).1 hr.addr = _ :=
      get_merged (workerRecord host hr) hf
    rw [find_get hf, hmerge]
    have hsum := threshold_le_merge now (workerRecord host hr) hthr hocc old
    have hmerged : (merge now (workerRecord host hr) old).actionThreshold = hr.actionThreshold ∧
        (merge now (workerRecord host hr) old).processed = old.processed := by
      rw [merge, bump_eq]
      exact ⟨rfl, rfl⟩
    simp only [Option.some.injEq, exists_eq_left', hmerged.1, hmerged.2, TakesEffect]
    exact or_congr Iff.rfl hsum

/-- A record of `192.0.2.7`, seen `n` times by the other host. -/
def reported (n : Int32) : HostRecord :=
  { fresh ⟨3, 60, 3600⟩ 100 (ascii "192.0.2.7") with occurrences := n }

/-- Two reports of three occurrences each. -/
theorem report_acted_iff_run :
    Acted ⟨3, 60, 3600⟩ (daemonStep ⟨3, 60, 3600⟩
        (daemon ⟨3, 60, 3600⟩ [⟨100, .report true (ascii "198.51.100.1") (reported 3)⟩])
        ⟨101, .report true (ascii "198.51.100.2") (reported 3)⟩) (reported 3).addr ↔
      TakesEffect 101 true (reported 3) (recordsGet (daemon ⟨3, 60, 3600⟩
        [⟨100, .report true (ascii "198.51.100.1") (reported 3)⟩]).2 (reported 3).addr) :=
  report_acted_iff _ _ 101 true _ (reported 3) (by decide) (by decide)

/-- **A reported host that is not acted on**: the first report has the largest count there
is, and with the second one the sum is negative. -/
theorem report_lost :
    let cfg : Config := ⟨3, 60, 3600⟩
    let s := daemon cfg [⟨100, .report true (ascii "198.51.100.1") (reported 2147483647)⟩]
    (reported 3).actionThreshold ≤ (reported 3).occurrences ∧ 1 ≤ (reported 3).actionThreshold ∧
      ¬ Acted cfg (daemonStep cfg s ⟨101, .report true (ascii "198.51.100.2") (reported 3)⟩)
        (reported 3).addr := by
  intro cfg s
  refine ⟨by decide, by decide, ?_⟩
  rintro ⟨r, hr, hacted⟩
  have hget : recordsGet (daemonStep cfg s
      ⟨101, .report true (ascii "198.51.100.2") (reported 3)⟩).2 (reported 3).addr =
        some { workerRecord (ascii "198.51.100.2") (reported (-2147483645)) with
          lastseen := 101 } := by decide +kernel
  rw [hget] at hr
  obtain rfl := Option.some.inj hr
  rcases hacted with hp | ⟨hle, -⟩
  · exact hp rfl
  · exact absurd hle (by decide)

end Agentsmith.RemoteReport
