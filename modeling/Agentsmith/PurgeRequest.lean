import Agentsmith.Stored

/-!
A purge on request: `SIGUSR2`.

The enumeration flags every record, and the maintenance thread frees by the flag alone, some
time later. What other threads do to a record in between leaves the flag alone, with one
exception: a received record is copied over the one in place, flag and all.
-/

namespace Agentsmith.PurgeRequest

open Agentsmith.Lib Agentsmith.Lib.CStrings Agentsmith.Lib.Slots Agentsmith.Lib.Runs
open Agentsmith.Globals Agentsmith.Records Agentsmith.RecordsMap Agentsmith.Daemon
open Agentsmith.PerAddress Agentsmith.Stored

variable {cfg : Config} {s : St} {e : Event} {i : ℕ} {r : HostRecord}

/-- A report finds the record in slot `i`, and copies the received one over it. -/
def Overwrites (i : ℕ) (s : St) (e : Event) : Prop :=
  ∃ mem host hr r, e.act = .report mem host hr ∧ recordsFind s.2 hr.addr = some (i, r)

/-- The record in slot `i` is flagged: by another request, or by a pass that finds it stale. -/
def Flags (i : ℕ) (s : St) (e : Event) : Prop :=
  e.act = .purgeAll ∨
    (e.act = .actionPass ∧ ∃ r, slot s.2.vec i = some r ∧ ¬ Due r ∧ Stale e.time r)

/-- A report has copied a record over the one in slot `i`, and nothing has flagged it since. -/
def Spared (cfg : Config) (i : ℕ) (s : St) (mid : List Event) : Prop :=
  Since (daemonStep cfg) (Overwrites i) (Flags i) s mid

/-- A maintenance run frees the record in slot `i`, and calls the action for it if it has been
processed. -/
def Purges (cfg : Config) (s : St) (now : Int64) (i : ℕ) : Prop :=
  let s' := daemonStep cfg s ⟨now, .maintenance⟩
  slot s'.2.vec i = none ∧
    ∀ r, slot s.2.vec i = some r → r.processed ≠ 0 → ⟨.remove, r⟩ ∈ s'.1.drop s.1.length

/-! ### One step -/

lemma not_overwrites (he : ∀ mem host hr, e.act ≠ .report mem host hr) : ¬ Overwrites i s e :=
  fun ⟨mem, host, hr, _, hact, _⟩ => he mem host hr hact

lemma not_flags (he : e.act ≠ .purgeAll ∧ e.act ≠ .actionPass) : ¬ Flags i s e :=
  fun h => h.elim he.1 fun hpass => he.2 hpass.1

/-- A record stays in its slot when another one is inserted. -/
lemma slot_placed {v : Store} (h : Shape v) (hi : slot v.vec i = some r) (mem : Bool)
    (q : HostRecord) : slot (recordsPlace mem q (recordsSlot v)).1.vec i = some r := by
  obtain ⟨j, hj, hset⟩ := Chunks.place_slot h mem q
  have hij : i ≠ j := by
    rintro rfl
    rw [hj] at hi
    cases hi
  refine (hset i).trans ?_
  rw [if_neg fun h => hij h.1, hi]

/-- A record found is overwritten in its slot, and the others stay. -/
lemma slot_found {v : Store} {j : ℕ} {o : HostRecord} (hj : slot v.vec j = some o)
    (hi : slot v.vec i = some r) (q : HostRecord) :
    slot (v.vec.set j (some q)) i = some (if i = j then q else r) := by
  rw [slot_set (slot_lt hj)]
  split
  · rfl
  · exact hi

/-- A sighting leaves the flag of every record alone. -/
lemma slot_sighted {v : Store} (h : Shape v) (hi : slot v.vec i = some r) (now : Int64)
    (mem : Bool) (x : CStr) :
    ∃ q, slot (recordsAddIp cfg now mem x v).1.vec i = some q ∧ q.remove = r.remove := by
  unfold recordsAddIp
  rcases hf : recordsFind v x with _ | ⟨j, o⟩
  · exact ⟨r, slot_placed h hi mem _, rfl⟩
  · obtain ⟨hj, -⟩ := find_slot h hf
    refine ⟨_, slot_found hj hi _, ?_⟩
    split
    · rename_i hij
      obtain rfl : r = o := Option.some.inj ((hij ▸ hi).symm.trans hj)
      rw [seen, bump_eq]
    · rfl

/-- A report takes the flag of the record it is copied over. -/
lemma slot_reported {v : Store} (h : Shape v) (hi : slot v.vec i = some r) (now : Int64)
    (mem : Bool) (host : CStr) (hr : HostRecord) :
    ∃ q, slot (recordsAddRecord now mem (workerRecord host hr) v).1.vec i = some q ∧
      (q.remove = 0 ↔ (∃ o, recordsFind v hr.addr = some (i, o)) ∨ r.remove = 0) := by
  have haddr : (workerRecord host hr).addr = hr.addr := rfl
  unfold recordsAddRecord
  rw [haddr]
  rcases hf : recordsFind v hr.addr with _ | ⟨j, o⟩
  · exact ⟨r, slot_placed h hi mem _, by simp⟩
  · obtain ⟨hj, -⟩ := find_slot h hf
    refine ⟨_, slot_found hj hi _, ?_⟩
    split
    · rename_i hij
      have hzero : (merge now (workerRecord host hr) o).remove = 0 := by
        rw [merge, bump_eq]
        rfl
      exact ⟨fun _ => Or.inl ⟨o, by rw [hij]⟩, fun _ => hzero⟩
    · rename_i hij
      refine ⟨Or.inr, fun hor => hor.resolve_left ?_⟩
      rintro ⟨o', ho'⟩
      exact hij (congrArg Prod.fst (Option.some.inj ho')).symm

lemma overwrites_report {now : Int64} {mem : Bool} {host : CStr} {hr : HostRecord} :
    Overwrites i s ⟨now, .report mem host hr⟩ ↔ ∃ o, recordsFind s.2 hr.addr = some (i, o) := by
  refine ⟨?_, fun ⟨o, hf⟩ => ⟨mem, host, hr, o, rfl, hf⟩⟩
  rintro ⟨_, _, _, o, hact, hf⟩
  obtain ⟨rfl, rfl, rfl⟩ := Act.report.inj hact
  exact ⟨o, hf⟩

lemma flags_pass (hi : slot s.2.vec i = some r) {now : Int64} :
    Flags i s ⟨now, .actionPass⟩ ↔ ¬ Due r ∧ Stale now r := by
  refine ⟨fun hf => ?_, fun hd => Or.inr ⟨rfl, r, hi, hd⟩⟩
  rcases hf with hact | ⟨-, q, hq, hd⟩
  · cases hact
  · obtain rfl : r = q := Option.some.inj (hi.symm.trans hq)
    exact hd

/-- **The flag, step by step**: a record stays in its slot until the next maintenance run. It is
not flagged afterwards if it has been overwritten, or was not before and is not flagged now. -/
theorem flag_step (h : Shape s.2) (hi : slot s.2.vec i = some r) (he : e.act ≠ .maintenance) :
    ∃ q, slot (daemonStep cfg s e).2.vec i = some q ∧
      (q.remove = 0 ↔ Overwrites i s e ∨ (r.remove = 0 ∧ ¬ Flags i s e)) := by
  obtain ⟨now, act⟩ := e
  cases act with
  | sighting mem x =>
    have hover : ¬ Overwrites i s ⟨now, .sighting mem x⟩ := not_overwrites fun _ _ _ h => by cases h
    have hkeep : ¬ Flags i s ⟨now, .sighting mem x⟩ :=
      not_flags ⟨fun h => (by cases h), fun h => (by cases h)⟩
    obtain ⟨q, hq, hremove⟩ := slot_sighted h hi now mem x
    refine ⟨q, hq, ?_⟩
    rw [hremove]
    simp only [hover, hkeep, false_or, not_false_eq_true, and_true]
  | report mem host hr =>
    have hkeep : ¬ Flags i s ⟨now, .report mem host hr⟩ :=
      not_flags ⟨fun h => (by cases h), fun h => (by cases h)⟩
    obtain ⟨q, hq, hremove⟩ := slot_reported h hi now mem host hr
    refine ⟨q, hq, ?_⟩
    rw [hremove]
    simp only [hkeep, overwrites_report, not_false_eq_true, and_true]
  | actionPass =>
    refine ⟨passed now r, by rw [pass_slot h, hi, Option.map_some], ?_⟩
    have hover : ¬ Overwrites i s ⟨now, .actionPass⟩ := not_overwrites fun _ _ _ h => by cases h
    simp only [hover, flags_pass hi, false_or]
    unfold passed
    by_cases hd : Due r
    · simp [hd]
    · by_cases hs : Stale now r
      · simp [hd, hs]
      · simp [hd, hs]
  | maintenance => exact absurd rfl he
  | purgeAll =>
    refine ⟨marked r, by rw [marked_slot h, hi, Option.map_some], ?_⟩
    have hover : ¬ Overwrites i s ⟨now, .purgeAll⟩ := not_overwrites fun _ _ _ h => by cases h
    have hflag : Flags i s ⟨now, .purgeAll⟩ := Or.inl rfl
    simp [hover, hflag, marked]

/-- A maintenance run purges a slot just when its record is flagged. -/
lemma purges_iff (h : Shape s.2) (hi : slot s.2.vec i = some r) (now : Int64) :
    Purges cfg s now i ↔ r.remove ≠ 0 := by
  have hslot : slot (daemonStep cfg s ⟨now, .maintenance⟩).2.vec i =
      (slot s.2.vec i).filter fun r => !decide (r.remove ≠ 0) :=
    maintenance_slot h (some (threadsRecordsCallbackActionRemoval logCall)) s.1 i
  unfold Purges
  dsimp only
  rw [hslot, hi, swept_env h, List.drop_left]
  by_cases hflag : r.remove = 0
  · simp [hflag]
  · simp only [Option.filter_some, hflag, ne_eq, not_false_eq_true, decide_true, Bool.not_true,
      Bool.false_eq_true, if_false, true_and, iff_true]
    rintro q hq hproc
    obtain rfl := Option.some.inj hq
    refine List.mem_flatMap.mpr ⟨r, mem_live.mpr ⟨i, hi⟩, ?_⟩
    rw [sweptCalls, if_pos hflag]
    exact mem_removalCalls.mpr ⟨rfl, rfl, hproc⟩

/-! ### From the request to the maintenance run -/

/-- After the request a record is flagged unless it is spared. -/
lemma flag_run {s : St} (h : Shape s.2) (hi : slot s.2.vec i = some r) (hr : r.remove ≠ 0)
    {mid : List Event} (hmid : ∀ e ∈ mid, e.act ≠ .maintenance) :
    Shape (run (daemonStep cfg) s mid).2 ∧ ∃ q, slot (run (daemonStep cfg) s mid).2.vec i = some q ∧
      (q.remove = 0 ↔ Spared cfg i s mid) := by
  induction mid using List.reverseRecOn with
  | nil => exact ⟨h, r, hi, fun h0 => absurd h0 hr, fun hs => absurd hs not_since_nil⟩
  | append_singleton mid e ih =>
    obtain ⟨hshape, q, hq, hiff⟩ := ih fun f hf => hmid f (List.mem_append_left _ hf)
    rw [run_snoc]
    have he := hmid e (by simp)
    obtain ⟨p, hp, hflag⟩ : ∃ p, slot (daemonStep cfg _ e).2.vec i = some p ∧ _ :=
      flag_step hshape hq he
    refine ⟨shape_step hshape e, p, hp, ?_⟩
    unfold Spared at hiff ⊢
    rw [hflag, hiff, since_snoc]

/-- **A purge request is honoured** for a record that is live at the enumeration just when it is
not spared: no report has found it and copied another record over it, or it has been flagged
again since. -/
theorem purge_honoured_iff (cfg : Config) (evs mid : List Event) (t now : Int64)
    (hmid : ∀ e ∈ mid, e.act ≠ .maintenance) (i : ℕ) (r : HostRecord)
    (hlive : slot (daemon cfg evs).2.vec i = some r) :
    let s := daemonStep cfg (daemon cfg evs) ⟨t, .purgeAll⟩
    Purges cfg (run (daemonStep cfg) s mid) now i ↔ ¬ Spared cfg i s mid := by
  intro s
  have hshape : Shape (daemon cfg evs).2 := shape_daemon cfg evs
  have hmarked : slot s.2.vec i = some (marked r) := by
    rw [marked_slot hshape, hlive, Option.map_some]
  have hset : (marked r).remove ≠ 0 := (by decide : (1 : Int32) ≠ 0)
  obtain ⟨hshape', q, hq, hiff⟩ := flag_run (shape_step hshape _) hmarked hset hmid
  rw [purges_iff hshape' hq, ne_eq, hiff]

/-- Three sightings of an address, and the pass that acts on it. -/
def acted : List Event :=
  [⟨100, .sighting true (ascii "192.0.2.7")⟩, ⟨101, .sighting true (ascii "192.0.2.7")⟩,
    ⟨102, .sighting true (ascii "192.0.2.7")⟩, ⟨103, .actionPass⟩]

/-- The request, and two steps of other threads. -/
def requested (e : Event) : St :=
  run (daemonStep ⟨3, 60, 3600⟩)
    (daemonStep ⟨3, 60, 3600⟩ (daemon ⟨3, 60, 3600⟩ acted) ⟨110, .purgeAll⟩)
    [⟨111, .actionPass⟩, e]

/-- The address is seen once more, and purged. -/
theorem purge_honoured_iff_run :
    Purges ⟨3, 60, 3600⟩ (requested ⟨112, .sighting true (ascii "192.0.2.7")⟩) 120 0 := by
  have hsome : (slot (daemon ⟨3, 60, 3600⟩ acted).2.vec 0).isSome := by decide +kernel
  obtain ⟨r, hr⟩ := Option.isSome_iff_exists.mp hsome
  refine (purge_honoured_iff ⟨3, 60, 3600⟩ acted
    [⟨111, .actionPass⟩, ⟨112, .sighting true (ascii "192.0.2.7")⟩] 110 120 (by decide) 0 r
    hr).mpr ?_
  rintro ⟨pre, e, post, hmid, ⟨mem, host, hr, q, hact, -⟩, -⟩
  have he : e ∈ [⟨111, .actionPass⟩, ⟨112, .sighting true (ascii "192.0.2.7")⟩] := by
    rw [hmid]
    simp
  simp only [List.mem_cons, List.not_mem_nil, or_false] at he
  rcases he with rfl | rfl <;> cases hact

/-- What another host has about the address. -/
def reported : HostRecord :=
  { fresh ⟨3, 60, 3600⟩ 105 (ascii "192.0.2.7") with occurrences := 3, lastseen := 108 }

/-- **A request that is lost**: a report about the address comes in before the maintenance run,
which leaves the record in place. -/
theorem purge_lost :
    (slot (daemon ⟨3, 60, 3600⟩ acted).2.vec 0).isSome ∧
      ¬ Purges ⟨3, 60, 3600⟩ (requested ⟨112, .report true (ascii "198.51.100.1") reported⟩) 120
        0 := by
  refine ⟨by decide +kernel, fun h => ?_⟩
  have hstays : (slot (daemonStep ⟨3, 60, 3600⟩
      (requested ⟨112, .report true (ascii "198.51.100.1") reported⟩)
      ⟨120, .maintenance⟩).2.vec 0).isSome := by decide +kernel
  rw [h.1] at hstays
  cases hstays

end Agentsmith.PurgeRequest
