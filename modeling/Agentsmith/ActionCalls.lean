import Agentsmith.Lib.Alternation
import Agentsmith.PerAddress

/-!
The actions called for an address: `NEW`, `REMOVE`, `NEW`, `REMOVE`, and so on, until the
shutdown closes what is still open.

The flag `processed` stands for the `NEW` that has not been answered. It is set by the
action thread with its call, kept by every update of the record, and lost only with the
record, whose last callback then makes the `REMOVE`.
-/

namespace Agentsmith.ActionCalls

open Agentsmith.Lib.CStrings Agentsmith.Lib.Runs Agentsmith.Lib.Alternation
open Agentsmith.Globals Agentsmith.Records Agentsmith.RecordsMap Agentsmith.Daemon
open Agentsmith.PerAddress

variable {cfg : Config} {x : CStr} {o o' : Option HostRecord} {log : List Call}

/-- The kinds of the calls for an address, in order. -/
def callsFor (x : CStr) (log : List Call) : List AcType :=
  (log.filter fun c => c.addr = x).map Call.type

/-- The action of the record has been called. -/
def Processed (o : Option HostRecord) : Prop := ∃ r, o = some r ∧ r.processed ≠ 0

/-- The calls take turns, and a `NEW` is unanswered just while there is a processed record. -/
structure Matched (o : Option HostRecord) (log : List Call) : Prop where
  turns : Alternating .new .remove (log.map Call.type)
  pending : log.length % 2 = 1 ↔ Processed o

lemma not_processed_none : ¬ Processed none := by
  rintro ⟨r, hr, -⟩
  cases hr

lemma processed_some {r : HostRecord} : Processed (some r) ↔ r.processed ≠ 0 := by
  simp [Processed]

lemma matched_nil : Matched none [] :=
  ⟨trivial, by simp [not_processed_none]⟩

/-- A step without a call that keeps the flag. -/
lemma Matched.keep (h : Matched o log) (ho : Processed o' ↔ Processed o) : Matched o' log :=
  ⟨h.turns, h.pending.trans ho.symm⟩

/-- One more call, of the kind whose turn it is. -/
lemma Matched.call (h : Matched o log) (c : Call) (hc : c.type = turn .new .remove log.length)
    (ho : Processed o' ↔ ¬ Processed o) : Matched o' (log ++ [c]) := by
  refine ⟨?_, ?_⟩
  · rw [List.map_append, List.map_cons, List.map_nil, alternating_snoc, List.length_map]
    exact ⟨h.turns, hc⟩
  · rw [List.length_append, List.length_singleton, ho, ← h.pending]
    omega

/-! ### One step -/

lemma processed_addIp (now : Int64) (mem : Bool) (o : Option HostRecord) :
    Processed (addIpAt cfg now mem x o) ↔ Processed o := by
  rcases o with _ | r
  · cases mem with
    | false => rfl
    | true => simp [addIpAt, Processed, fresh]
  · simp [addIpAt, Processed, seen, bump_eq]

lemma processed_addRecord (now : Int64) (mem : Bool) (host : CStr) (hr : HostRecord)
    (o : Option HostRecord) :
    Processed (addRecordAt now mem (workerRecord host hr) o) ↔ Processed o := by
  rcases o with _ | r
  · cases mem with
    | false => rfl
    | true => simp [addRecordAt, Processed, workerRecord]
  · simp [addRecordAt, Processed, merge, bump_eq]

lemma Matched.pass (h : Matched o log) (now : Int64) :
    Matched (o.map (passed now)) (log ++ o.toList.flatMap newCalls) := by
  rcases o with _ | r
  · simpa using h
  · by_cases hd : Due r
    · -- not processed so far, hence no `NEW` is open
      have hp : ¬ Processed (some r) := fun hp => processed_some.mp hp hd.2
      have heven : log.length % 2 = 0 := by
        have := mt h.pending.mp hp
        omega
      have hset : Processed (some (passed now r)) ↔ ¬ Processed (some r) := by
        simp [processed_some, passed, hd, hd.2]
      have hcall := h.call ⟨.new, r⟩ (by rw [turn, if_pos heven]) hset
      simpa [newCalls, hd] using hcall
    · have hsame : (passed now r).processed = r.processed := by
        unfold passed
        rw [if_neg hd]
        split <;> rfl
      have hkeep : Processed (some (passed now r)) ↔ Processed (some r) := by
        rw [processed_some, processed_some, hsame]
      simpa [newCalls, hd] using h.keep hkeep

/-- A record that is freed takes its flag with it, and answers it with a `REMOVE`. -/
lemma Matched.free {r : HostRecord} (h : Matched (some r) log) :
    Matched none (log ++ removalCalls r) := by
  by_cases hp : r.processed = 0
  · have hkeep : Processed none ↔ Processed (some r) := by
      simp [not_processed_none, processed_some, hp]
    simpa [removalCalls, hp] using h.keep hkeep
  · have hodd : log.length % 2 = 1 := h.pending.mpr (processed_some.mpr hp)
    have hlost : Processed none ↔ ¬ Processed (some r) := by
      simp [not_processed_none, processed_some, hp]
    have hcall := h.call ⟨.remove, r⟩ (by rw [turn, if_neg (by omega)]) hlost
    simpa [removalCalls, hp] using hcall

lemma Matched.sweep (h : Matched o log) :
    Matched (o.filter fun r => !decide (r.remove ≠ 0)) (log ++ o.toList.flatMap sweptCalls) := by
  rcases o with _ | r
  · simpa using h
  · by_cases hr : r.remove = 0
    · simpa [Option.filter, sweptCalls, hr] using h
    · simpa [Option.filter, sweptCalls, hr] using h.free

lemma matched_step {w : View} (h : Matched w.1 w.2) (e : Event) :
    Matched (viewStep cfg x w e).1 (viewStep cfg x w e).2 := by
  obtain ⟨o, log⟩ := w
  obtain ⟨now, act⟩ := e
  cases act with
  | sighting mem y =>
    simp only [viewStep]
    split
    · exact h.keep (processed_addIp now mem o)
    · exact h
  | report mem host hr =>
    simp only [viewStep]
    split
    · exact h.keep (processed_addRecord now mem host hr o)
    · exact h
  | actionPass => exact h.pass now
  | maintenance => exact h.sweep
  | purgeAll =>
    have hkeep : Processed (o.map marked) ↔ Processed o := by
      cases o <;> simp [Processed, marked]
    exact h.keep hkeep

lemma matched_view (evs : List Event) : Matched (view cfg x evs).1 (view cfg x evs).2 :=
  run_hist (P := fun _ (w : View) => Matched w.1 w.2) matched_nil
    (fun _ _ h => matched_step h _) evs

/-- Every record is freed at the shutdown, so what is open is closed. -/
lemma Matched.close (h : Matched o log) : Matched none (log ++ o.toList.flatMap removalCalls) := by
  rcases o with _ | r
  · simpa using h
  · simpa using h.free

lemma Matched.balance (h : Matched none log) :
    (log.map Call.type).count .new = (log.map Call.type).count .remove := by
  have heven := mt h.pending.mp not_processed_none
  obtain ⟨hn, hr⟩ := h.turns.count (by decide)
  rw [hn, hr, List.length_map]
  omega

/-- **The calls alternate and balance**: in every run the actions of an address take turns,
and after the shutdown there are as many of one kind as of the other. -/
theorem calls_alternate_and_balance (cfg : Config) (evs : List Event)
    (hevs : ∀ e ∈ evs, e.Fits) (x : CStr) :
    Alternating .new .remove (callsFor x (daemon cfg evs).1) ∧
      Alternating .new .remove (callsFor x (shutdown (daemon cfg evs))) ∧
      (callsFor x (shutdown (daemon cfg evs))).count .new =
        (callsFor x (shutdown (daemon cfg evs))).count .remove := by
  have hsees : Sees x (daemon cfg evs) (view cfg x evs) := sees_fits hevs x List.prefix_rfl
  have hopen : Matched (view cfg x evs).1 (view cfg x evs).2 := matched_view evs
  unfold callsFor
  rw [hsees.calls, sees_shutdown hsees]
  exact ⟨hopen.turns, hopen.close.turns, hopen.close.balance⟩

/-- An address acted on at its first sighting, and closed by the shutdown. -/
theorem calls_alternate_and_balance_run :
    Alternating .new .remove (callsFor localhost (daemon ⟨1, 60, 3600⟩
        [⟨5, .sighting true localhost⟩, ⟨6, .actionPass⟩, ⟨7, .maintenance⟩]).1) ∧
      Alternating .new .remove (callsFor localhost (shutdown (daemon ⟨1, 60, 3600⟩
        [⟨5, .sighting true localhost⟩, ⟨6, .actionPass⟩, ⟨7, .maintenance⟩]))) ∧
      (callsFor localhost (shutdown (daemon ⟨1, 60, 3600⟩
        [⟨5, .sighting true localhost⟩, ⟨6, .actionPass⟩, ⟨7, .maintenance⟩]))).count .new =
      (callsFor localhost (shutdown (daemon ⟨1, 60, 3600⟩
        [⟨5, .sighting true localhost⟩, ⟨6, .actionPass⟩, ⟨7, .maintenance⟩]))).count .remove :=
  calls_alternate_and_balance _ _ (by decide) _

end Agentsmith.ActionCalls
