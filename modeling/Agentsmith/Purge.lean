import Agentsmith.PerAddress

/-!
The promise of the manual: a host is purged when it has no more occurrences for `purge_after`
seconds.

The action thread flags a record that is stale, and the maintenance thread frees it by the
flag alone, up to a minute later. A sighting in between gives the record a new time stamp and
leaves the flag. So the promise holds in the runs in which every sighting finds the record of
its address without the flag.
-/

namespace Agentsmith.Purge

open Agentsmith.Lib.CStrings Agentsmith.Lib.Runs Agentsmith.Globals Agentsmith.Records
open Agentsmith.RecordsMap Agentsmith.Daemon Agentsmith.PerAddress

variable {cfg : Config} {x : CStr} {evs : List Event} {r : HostRecord}

/-- A sighting of `x` finds no record of it that is flagged. -/
def FindsUnflagged (x : CStr) (s : St) (e : Event) : Prop :=
  e.Sights x → ∀ r, recordsGet s.2 x = some r → r.remove = 0

instance (x : CStr) (s : St) (e : Event) : Decidable (FindsUnflagged x s e) :=
  match h : recordsGet s.2 x with
  | none => isTrue fun _ r hr => by rw [h] at hr; cases hr
  | some r => decidable_of_iff (e.Sights x → r.remove = 0) (by simp [FindsUnflagged, h])

/-- The step frees the record of `x`. -/
def Frees (cfg : Config) (x : CStr) (s : St) (e : Event) : Prop :=
  e.act = .maintenance ∧ (recordsGet s.2 x).isSome ∧ recordsGet (daemonStep cfg s e).2 x = none

instance (cfg : Config) (x : CStr) (s : St) (e : Event) : Decidable (Frees cfg x s e) :=
  inferInstanceAs (Decidable (_ ∧ _))

/-- What the times of a record say about the run so far. -/
structure Dated (cfg : Config) (x : CStr) (evs : List Event) (r : HostRecord) : Prop where
  purgeAfter : r.purgeAfter = cfg.purgeAfter
  firstseen : 0 ≤ r.firstseen
  stamp : 0 ≤ stamp r
  sighted : ∀ e ∈ evs, e.Sights x → e.time.toInt ≤ (Daemon.stamp r).toInt
  flagged : r.remove ≠ 0 →
    ∃ e ∈ evs, cfg.purgeAfter.toInt < e.time.toInt - (Daemon.stamp r).toInt

/-! ### One step -/

lemma clocked_le {e : Event} (h : Clocked (evs ++ [e])) :
    0 ≤ e.time ∧ ∀ f ∈ evs, f.time.toInt ≤ e.time.toInt := by
  refine ⟨h.1 e (by simp), fun f hf => ?_⟩
  exact Int64.le_iff_toInt_le.mp
    ((List.pairwise_append.mp h.2).2.2 f hf e (List.mem_singleton_self e))

/-- The first sighting of an address. -/
lemma dated_fresh {e : Event} (h : Clocked (evs ++ [e])) :
    Dated cfg x (evs ++ [e]) (fresh cfg e.time x) := by
  obtain ⟨hnow, hle⟩ := clocked_le h
  refine ⟨rfl, hnow, hnow, fun f hf _ => ?_, fun hflag => absurd rfl hflag⟩
  rcases List.mem_append.mp hf with hold | hnew
  · exact hle f hold
  · rw [List.mem_singleton.mp hnew]
    exact Int.le_refl _

/-- Another sighting, of a record that is not flagged. -/
lemma Dated.seen {e : Event} (hr : Dated cfg x evs r) (h : Clocked (evs ++ [e]))
    (hflag : r.remove = 0) : Dated cfg x (evs ++ [e]) (Records.seen e.time r) := by
  obtain ⟨hnow, hle⟩ := clocked_le h
  have hstamp : e.time.toInt ≤ (Daemon.stamp (Records.seen e.time r)).toInt := by
    rw [Records.seen, bump_eq]
    unfold Daemon.stamp
    by_cases h0 : e.time = 0
    · -- the clock stands at the Epoch, and the first stamp counts
      rw [if_pos h0, h0]
      exact Int64.le_iff_toInt_le.mp hr.firstseen
    · rw [if_neg h0]
  have hold : (Records.seen e.time r).purgeAfter = r.purgeAfter ∧
      (Records.seen e.time r).firstseen = r.firstseen ∧
      (Records.seen e.time r).remove = r.remove := by
    rw [Records.seen, bump_eq]
    exact ⟨rfl, rfl, rfl⟩
  refine ⟨hold.1.trans hr.purgeAfter, by rw [hold.2.1]; exact hr.firstseen, ?_, fun f hf _ => ?_,
    fun hr' => absurd (hold.2.2.trans hflag) hr'⟩
  · have h0 := Int64.le_iff_toInt_le.mp hnow
    exact Int64.le_iff_toInt_le.mpr (by omega)
  · rcases List.mem_append.mp hf with hmem | hnew
    · exact Int.le_trans (hle f hmem) hstamp
    · rw [List.mem_singleton.mp hnew]
      exact hstamp

/-- A step that is no sighting of `x`, and leaves the times as they are. -/
lemma Dated.keep {e : Event} (hr : Dated cfg x evs r) (he : ¬ e.Sights x) (p m : Int32)
    (hflag : m ≠ 0 → r.remove = 0 → cfg.purgeAfter.toInt < e.time.toInt - (Daemon.stamp r).toInt) :
    Dated cfg x (evs ++ [e]) { r with processed := p, remove := m } := by
  refine ⟨hr.purgeAfter, hr.firstseen, hr.stamp, fun f hf hs => ?_, fun hm => ?_⟩
  · rcases List.mem_append.mp hf with hold | hnew
    · exact hr.sighted f hold hs
    · rw [List.mem_singleton.mp hnew] at hs
      exact absurd hs he
  · by_cases hold : r.remove = 0
    · exact ⟨e, by simp, hflag hm hold⟩
    · obtain ⟨f, hf, hlt⟩ := hr.flagged hold
      exact ⟨f, List.mem_append_left _ hf, hlt⟩

lemma dated_step {w : View} {e : Event} (hw : ∀ r, w.1 = some r → Dated cfg x evs r)
    (h : Clocked (evs ++ [e])) (hplain : e.Plain)
    (hflag : e.Sights x → ∀ r, w.1 = some r → r.remove = 0)
    (hr : (viewStep cfg x w e).1 = some r) : Dated cfg x (evs ++ [e]) r := by
  obtain ⟨o, log⟩ := w
  have hnow := (clocked_le h).1
  rcases record_cases hplain.1 hr with
    ⟨-, -, rfl⟩ | ⟨q, hq, hsights, rfl⟩ | ⟨q, p, m, hq, hsights, rfl, -⟩
  · exact dated_fresh h
  · exact (hw q hq).seen h (hflag hsights q hq)
  · refine (hw q hq).keep hsights p m fun hm hq0 => ?_
    -- only a pass that finds the record stale sets the flag
    have hsame : ∀ {o' : Option HostRecord}, o' = o →
        o' = some { q with processed := p, remove := m } → False := by
      intro o' ho ho'
      obtain rfl : o = some q := hq
      rw [ho] at ho'
      exact hm (by rw [← hq0, Option.some.inj ho'])
    obtain ⟨t, act⟩ := e
    cases act with
    | sighting mem y =>
      have hy : y ≠ x := hsights
      exact (hsame rfl (by simpa [viewStep, hy] using hr)).elim
    | report mem host hr' => exact absurd hplain.1 id
    | actionPass =>
      obtain ⟨q', hq', hpass⟩ := Option.map_eq_some_iff.mp hr
      obtain rfl : q' = q := Option.some.inj (hq'.symm.trans hq)
      unfold passed at hpass
      split at hpass
      · have hremove := congrArg HostRecord.remove hpass
        exact absurd (hremove.symm.trans hq0) hm
      · split at hpass
        · rename_i hstale
          have hdated := hw q' hq'
          have hlt := (lt_sub_clock hnow hdated.stamp q'.purgeAfter).mp hstale
          rwa [hdated.purgeAfter] at hlt
        · have hremove := congrArg HostRecord.remove hpass
          exact absurd (hremove.symm.trans hq0) hm
    | maintenance => exact (hsame rfl (Option.filter_eq_some_iff.mp hr).1).elim
    | purgeAll => exact absurd rfl hplain.2

/-! ### Runs -/

lemma dated_view (hclock : Clocked evs) (hplain : ∀ e ∈ evs, e.Plain ∧ e.Fits)
    (hflag : ∀ pre e post, evs = pre ++ e :: post → FindsUnflagged x (daemon cfg pre) e) :
    ∀ r, (view cfg x evs).1 = some r → Dated cfg x evs r := by
  induction evs using List.reverseRecOn with
  | nil => exact fun r hr => by cases hr
  | append_singleton evs e ih =>
    intro r hr
    have hold : ∀ f ∈ evs, f.Plain ∧ f.Fits := fun f hf => hplain f (List.mem_append_left _ hf)
    rw [view_snoc] at hr
    refine dated_step (ih (clocked_left hclock) hold fun pre f post hsplit =>
      hflag pre f (post ++ [e]) (by rw [hsplit]; simp)) hclock (hplain e (by simp)).1 ?_ hr
    intro hs q hq
    refine hflag evs e [] rfl hs q ?_
    rw [get_view (fun f hf => (hold f hf).2) x]
    exact hq

/-- **No purge of a host just seen**, in every run of a daemon that works alone in which no
sighting finds the record of the address flagged: when a maintenance run frees the record,
every sighting before it is more than `purge_after` seconds old. -/
theorem purged_unseen (cfg : Config) (x : CStr) (evs : List Event) (hclock : Clocked evs)
    (hplain : ∀ e ∈ evs, e.Plain ∧ e.Fits)
    (hflag : ∀ pre e post, evs = pre ++ e :: post → FindsUnflagged x (daemon cfg pre) e)
    (pre : List Event) (m : Event) (post : List Event) (hsplit : evs = pre ++ m :: post)
    (hfree : Frees cfg x (daemon cfg pre) m) :
    ∀ e ∈ pre, e.Sights x → cfg.purgeAfter.toInt < m.time.toInt - e.time.toInt := by
  obtain ⟨hact, hsome, hnone⟩ := hfree
  have hsplit' : evs = (pre ++ [m]) ++ post := by rw [hsplit]; simp
  have hclockm : Clocked (pre ++ [m]) := clocked_left (hsplit' ▸ hclock)
  have hfits : ∀ e ∈ pre ++ [m], e.Plain ∧ e.Fits := fun e he =>
    hplain e (hsplit' ▸ List.mem_append_left post he)
  have hpre : ∀ e ∈ pre, e.Plain ∧ e.Fits := fun e he => hfits e (List.mem_append_left _ he)
  have hstep : daemonStep cfg (daemon cfg pre) m = daemon cfg (pre ++ [m]) :=
    (daemon_snoc pre m).symm
  rw [get_view (fun e he => (hpre e he).2) x] at hsome
  rw [hstep, get_view (fun e he => (hfits e he).2) x, view_snoc] at hnone
  obtain ⟨r, hr⟩ := Option.isSome_iff_exists.mp hsome
  have hdated : Dated cfg x pre r :=
    dated_view (clocked_left hclockm) hpre (fun a f b hb =>
      hflag a f (b ++ m :: post) (by rw [hsplit, hb]; simp)) r hr
  have hflagged : r.remove ≠ 0 := by
    unfold viewStep at hnone
    rw [hact] at hnone
    dsimp only at hnone
    rw [hr, Option.filter_some] at hnone
    intro h0
    simp [h0] at hnone
  obtain ⟨p, hp, hlt⟩ := hdated.flagged hflagged
  intro e he hs
  have hlast := hdated.sighted e he hs
  have hpm := (clocked_le hclockm).2 p hp
  omega

/-- Two sightings, a pass an hour after the second one, and a maintenance run. -/
def staleRun : List Event :=
  [⟨100, .sighting true (ascii "192.0.2.7")⟩, ⟨160, .sighting true (ascii "192.0.2.7")⟩,
    ⟨3761, .actionPass⟩, ⟨3790, .maintenance⟩]

theorem purged_unseen_run :
    Frees ⟨3, 60, 3600⟩ (ascii "192.0.2.7") (daemon ⟨3, 60, 3600⟩ (staleRun.take 3))
      ⟨3790, .maintenance⟩ ∧
    ∀ e ∈ staleRun.take 3, e.Sights (ascii "192.0.2.7") →
      (3600 : Int64).toInt < (3790 : Int64).toInt - e.time.toInt := by
  have hfrees : Frees ⟨3, 60, 3600⟩ (ascii "192.0.2.7")
      (daemon ⟨3, 60, 3600⟩ (staleRun.take 3)) ⟨3790, .maintenance⟩ := by decide +kernel
  refine ⟨hfrees, purged_unseen ⟨3, 60, 3600⟩ (ascii "192.0.2.7") staleRun (by decide) (by decide)
    ?_ (staleRun.take 3) ⟨3790, .maintenance⟩ [] rfl hfrees⟩
  unfold staleRun
  simp only [forall_split_cons]
  refine ⟨?_, ?_, ?_, ?_, fun pre e post h => by simp at h⟩ <;> decide +kernel

/-- **A host purged at once**: it is seen again when its record is flagged, and the record is
freed a second later. -/
theorem purged_just_seen :
    let cfg : Config := ⟨3, 60, 3600⟩
    let x := ascii "192.0.2.7"
    let pre := [⟨100, .sighting true x⟩, ⟨3701, .actionPass⟩, ⟨3702, .sighting true x⟩]
    let m : Event := ⟨3703, .maintenance⟩
    Clocked (pre ++ [m]) ∧ (∀ e ∈ pre ++ [m], e.Plain ∧ e.Fits) ∧
      Frees cfg x (daemon cfg pre) m ∧
      ∃ e ∈ pre, e.Sights x ∧ ¬ cfg.purgeAfter.toInt < m.time.toInt - e.time.toInt := by
  refine ⟨by decide, by decide, by decide +kernel, ⟨3702, .sighting true (ascii "192.0.2.7")⟩, ?_⟩
  exact ⟨by simp, rfl, by decide⟩

end Agentsmith.Purge
