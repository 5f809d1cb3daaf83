import Agentsmith.PerAddress

/-!
What the occurrences of a record stand for in a daemon that works alone: sightings of the
address, all within the time interval of the first one.

The record remembers in `firstseen` when it was made. So the history of the run splits at
the sighting that made it, and the occurrences never exceed the sightings counted from
there on.
-/

namespace Agentsmith.Occurrences

open Agentsmith.Lib.CStrings Agentsmith.Lib.Runs Agentsmith.Globals Agentsmith.Records
open Agentsmith.RecordsMap Agentsmith.Daemon Agentsmith.PerAddress

variable {cfg : Config} {x : CStr} {evs : List Event} {e : Event} {r q : HostRecord}

/-- The number of sightings of `x` that are at most `d` seconds from `t`. -/
def sightingsWithin (x : CStr) (t d : Int64) (evs : List Event) : ℕ :=
  evs.countP fun e => e.Sights x ∧ e.time.toInt - t.toInt ≤ d.toInt

lemma sightingsWithin_snoc (t d : Int64) (evs : List Event) (e : Event) :
    sightingsWithin x t d (evs ++ [e]) = sightingsWithin x t d evs +
      if e.Sights x ∧ e.time.toInt - t.toInt ≤ d.toInt then 1 else 0 := by
  rw [sightingsWithin, List.countP_append, List.countP_singleton, ← sightingsWithin]
  simp only [decide_eq_true_eq]

/-- `e` is the sighting after `pre` that makes the record `x` has ever since. -/
structure Makes (present : List Event → Prop) (x : CStr) (pre : List Event) (e : Event)
    (post : List Event) : Prop where
  sights : e.Sights x
  absent : ¬ present pre
  since : ∀ p, p <+: post → present (pre ++ e :: p)

/-- The record, with the history of the run since it was made. -/
def Counted (cfg : Config) (x : CStr) (evs : List Event) (r : HostRecord) : Prop :=
  ∃ pre e post, evs = pre ++ e :: post ∧
    Makes (fun es => (view cfg x es).1.isSome) x pre e post ∧
    r.firstseen = e.time ∧ r.actionThreshold = cfg.actionThreshold ∧
    r.timeInterval = cfg.timeInterval ∧
    r.occurrences.toInt ≤ sightingsWithin x e.time cfg.timeInterval (e :: post)

lemma Makes.snoc {present : List Event → Prop} {pre post : List Event} {e e' : Event}
    (h : Makes present x pre e post) (hp : present (pre ++ e :: post ++ [e'])) :
    Makes present x pre e (post ++ [e']) := by
  refine ⟨h.sights, h.absent, fun p hpre => ?_⟩
  rcases List.prefix_concat_iff.mp hpre with rfl | hpre
  · simpa using hp
  · exact h.since p hpre

/-- One more event, after which the record is still there, its occurrences raised by one at
most and only for a sighting in the interval. -/
lemma Counted.snoc (h : Counted cfg x evs r) (hq : (view cfg x (evs ++ [e])).1 = some q)
    (hsame : q.firstseen = r.firstseen ∧ q.actionThreshold = r.actionThreshold ∧
      q.timeInterval = r.timeInterval)
    (hocc : q.occurrences.toInt ≤ r.occurrences.toInt +
      if e.Sights x ∧ e.time.toInt - r.firstseen.toInt ≤ r.timeInterval.toInt then 1 else 0) :
    Counted cfg x (evs ++ [e]) q := by
  obtain ⟨pre, e₀, post, rfl, hmakes, hfirst, hthr, hint, hcount⟩ := h
  have hthere : (view cfg x (pre ++ e₀ :: post ++ [e])).1.isSome := by rw [hq]; rfl
  refine ⟨pre, e₀, post ++ [e], by simp, hmakes.snoc hthere, hsame.1.trans hfirst,
    hsame.2.1.trans hthr, hsame.2.2.trans hint, ?_⟩
  rw [hfirst, hint] at hocc
  rw [← List.cons_append, sightingsWithin_snoc]
  split at hocc <;> rename_i hs
  · rw [if_pos hs]; omega
  · rw [if_neg hs]; omega

/-- The record a sighting makes. -/
lemma counted_fresh (hsane : cfg.Sane) (hs : e.Sights x) (hnone : (view cfg x evs).1 = none)
    (hq : (view cfg x (evs ++ [e])).1 = some (fresh cfg e.time x)) :
    Counted cfg x (evs ++ [e]) (fresh cfg e.time x) := by
  refine ⟨evs, e, [], rfl, ⟨hs, by simp [hnone], fun p hp => ?_⟩, rfl, rfl, rfl, ?_⟩
  · rw [List.prefix_nil.mp hp, hq]; rfl
  · have hpos : (0 : ℤ) ≤ cfg.timeInterval.toInt := by
      have := Int64.le_iff_toInt_le.mp hsane.timeInterval
      have hone : (1 : Int64).toInt = 1 := rfl
      omega
    have hone : (fresh cfg e.time x).occurrences.toInt = 1 := rfl
    rw [hone, ← List.nil_append [e], sightingsWithin_snoc, if_pos ⟨hs, by omega⟩]
    omega

/-- **The occurrences are sightings**, in every run of a daemon that works alone. -/
theorem counted_view (hsane : cfg.Sane) (hclock : Clocked evs) (hloc : ∀ e ∈ evs, e.Local)
    (hr : (view cfg x evs).1 = some r) : Counted cfg x evs r := by
  induction evs using List.reverseRecOn generalizing r with
  | nil => cases hr
  | append_singleton evs e ih =>
    have hview := hr
    rw [view_snoc] at hr
    have ih := fun o => ih (r := o) (clocked_left hclock)
      fun e he => hloc e (List.mem_append_left _ he)
    rcases record_cases (hloc e (by simp)) hr with
      ⟨hnone, hs, rfl⟩ | ⟨o, ho, hs, rfl⟩ | ⟨o, p, m, ho, hs, rfl, -⟩
    · exact counted_fresh hsane hs hnone hview
    · have ih := ih o ho
      have hnow : 0 ≤ e.time := hclock.1 e (by simp)
      have hfirst : 0 ≤ o.firstseen := by
        obtain ⟨pre, e₀, post, rfl, -, hf, -⟩ := ih
        rw [hf]
        exact hclock.1 e₀ (by simp)
      refine ih.snoc hview ?_ ?_
      · rw [seen, bump_eq]
        exact ⟨rfl, rfl, rfl⟩
      · have hocc : (seen e.time o).occurrences =
            if e.time - o.firstseen ≤ o.timeInterval then o.occurrences + 1
            else o.occurrences := by rw [seen, bump_eq]
        simp only [hocc, sub_le_clock hnow hfirst, hs, true_and]
        split
        · exact toInt_succ_le _
        · omega
    · refine (ih o ho).snoc hview ⟨rfl, rfl, rfl⟩ ?_
      rw [if_neg fun h => hs h.1]
      exact Int.le_of_eq (Int.add_zero _).symm

/-- **No false block**: when a pass calls the action for an address, its record was made by
a sighting since which there have been as many sightings as the threshold asks for, all
within the time interval of that one. -/
theorem no_false_block (cfg : Config) (hsane : cfg.Sane) (evs : List Event)
    (hclock : Clocked evs) (hloc : ∀ e ∈ evs, e.Local) (hfits : ∀ e ∈ evs, e.Fits)
    (now : Int64) (x : CStr) (r : HostRecord)
    (hc : ⟨.new, r⟩ ∈ passCalls cfg (daemon cfg evs) now) (hx : r.addr = x) :
    ∃ pre e post, evs = pre ++ e :: post ∧
      Makes (fun es => (recordsGet (daemon cfg es).2 x).isSome) x pre e post ∧
      cfg.actionThreshold.toInt ≤ sightingsWithin x e.time cfg.timeInterval (e :: post) := by
  have hsees : ∀ es, es <+: evs → Sees x (daemon cfg es) (view cfg x es) := fun es hes =>
    sees_fits hfits x hes
  obtain ⟨q, hq, hdue, -⟩ :=
    (mem_passCalls cfg (hsees evs List.prefix_rfl) now ⟨.new, r⟩).mp ⟨hc, hx⟩
  obtain ⟨pre, e, post, rfl, hmakes, -, hthr, -, hcount⟩ := counted_view hsane hclock hloc hq
  refine ⟨pre, e, post, rfl, ⟨hmakes.sights, ?_, fun p hp => ?_⟩, ?_⟩
  · rw [(hsees pre (List.prefix_append _ _)).record.get]
    exact hmakes.absent
  · have hpre : pre ++ e :: p <+: pre ++ e :: post :=
      (List.prefix_append_right_inj pre).mpr ((List.prefix_cons_inj e).mpr hp)
    rw [(hsees _ hpre).record.get]
    exact hmakes.since p hp
  · have hle := Int32.le_iff_toInt_le.mp hdue.1
    rw [hthr] at hle
    omega

/-- Three sightings in a minute, and the call they lead to. -/
theorem no_false_block_run :
    let cfg : Config := ⟨3, 60, 3600⟩
    let evs : List Event := [⟨5, .sighting true localhost⟩, ⟨9, .sighting true localhost⟩,
      ⟨65, .sighting true localhost⟩]
    ∃ pre e post, evs = pre ++ e :: post ∧
      Makes (fun es => (recordsGet (daemon cfg es).2 localhost).isSome) localhost pre e post ∧
      cfg.actionThreshold.toInt ≤
        sightingsWithin localhost e.time cfg.timeInterval (e :: post) :=
  no_false_block _ (by decide) _ (by decide) (by decide) (by decide) 66 localhost
    { fresh ⟨3, 60, 3600⟩ 5 localhost with lastseen := 65, occurrences := 3 }
    (by decide +kernel) (by decide)

end Agentsmith.Occurrences
