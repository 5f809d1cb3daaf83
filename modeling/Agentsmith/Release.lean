import Agentsmith.ActionCalls
import Agentsmith.Maintenance

/-!
No host is blocked for good.

When an address is seen no more, its record goes through three phases: a pass calls an action that
is due, a later pass finds the record stale and flags it, and a maintenance run frees it and takes
the action back. Nothing that happens to other addresses brings it back to an earlier phase. When
there are no sightings at all, the vector ends as it has begun.
-/

namespace Agentsmith.Release

open Agentsmith.Lib.CStrings Agentsmith.Lib.Slots Agentsmith.Lib.Runs Agentsmith.Lib.Alternation
open Agentsmith.Globals Agentsmith.Records Agentsmith.RecordsMap Agentsmith.Daemon
open Agentsmith.PerAddress Agentsmith.ActionCalls Agentsmith.Maintenance

variable {cfg : Config} {x : CStr} {T : Int64} {evs : List Event} {w : View} {e : Event}
  {r : HostRecord}

/-- The address is not seen, and no record comes from another host. -/
def Unseen (x : CStr) (e : Event) : Prop := e.Local ∧ ¬ e.Sights x

instance (x : CStr) (e : Event) : Decidable (Unseen x e) := inferInstanceAs (Decidable (_ ∧ _))

lemma flag_ne_zero : (1 : Int32) ≠ 0 := by decide

/-! ### The phases -/

/-- The stamps of the record are not later than `T`. -/
structure Old (cfg : Config) (T : Int64) (r : HostRecord) : Prop where
  purgeAfter : r.purgeAfter = cfg.purgeAfter
  firstseen : 0 ≤ r.firstseen ∧ r.firstseen ≤ T
  lastseen : 0 ≤ r.lastseen ∧ r.lastseen ≤ T

/-- The record differs in its flags at most, and neither of them is taken back. -/
structure Flagged (q r : HostRecord) : Prop where
  same : ∃ p m, r = { q with processed := p, remove := m }
  processed : q.processed ≠ 0 → r.processed ≠ 0
  remove : q.remove ≠ 0 → r.remove ≠ 0

/-- What holds of the record of the address, if there is one. -/
def Has (P : HostRecord → Prop) (w : View) : Prop := ∀ r, w.1 = some r → P r

/-- An event that does not concern the address: the record keeps its data. -/
lemma flagged_step (he : Unseen x e) (hr : (viewStep cfg x w e).1 = some r) :
    ∃ q, w.1 = some q ∧ Flagged q r := by
  obtain ⟨o, log⟩ := w
  obtain ⟨now, act⟩ := e
  cases act with
  | sighting mem y =>
    have hy : y ≠ x := he.2
    exact ⟨r, by simpa [viewStep, hy] using hr, ⟨_, _, rfl⟩, id, id⟩
  | report mem host hr' => exact absurd he.1 id
  | actionPass =>
    obtain ⟨q, hq, rfl⟩ := Option.map_eq_some_iff.mp hr
    obtain ⟨p, m, hpm, hp⟩ := passed_frame now q
    refine ⟨q, hq, ⟨p, m, hpm⟩, fun hproc h0 => ?_, fun hrem => ?_⟩
    · rw [hpm] at h0
      exact hproc (hp h0)
    · unfold passed
      split
      · exact hrem
      · split
        · exact flag_ne_zero
        · exact hrem
  | maintenance =>
    exact ⟨r, (Option.filter_eq_some_iff.mp hr).1, ⟨_, _, rfl⟩, id, id⟩
  | purgeAll =>
    obtain ⟨q, hq, rfl⟩ := Option.map_eq_some_iff.mp hr
    exact ⟨q, hq, ⟨_, 1, rfl⟩, id, fun _ => flag_ne_zero⟩

/-- What the flags do not take away stays, as long as the address is not seen. -/
lemma Has.run {P : HostRecord → Prop} (hP : ∀ q r, Flagged q r → P q → P r) (h : Has P w)
    (hevs : ∀ e ∈ evs, Unseen x e) : Has P (run (viewStep cfg x) w evs) := by
  refine run_inv h (fun w e h he r hr => ?_) hevs
  obtain ⟨q, hq, hflags⟩ := flagged_step he hr
  exact hP q r hflags (h q hq)

lemma Flagged.old {q : HostRecord} (h : Flagged q r) (hq : Old cfg T q) : Old cfg T r := by
  obtain ⟨p, m, rfl⟩ := h.same
  exact ⟨hq.purgeAfter, hq.firstseen, hq.lastseen⟩

lemma Flagged.not_due {q : HostRecord} (h : Flagged q r) (hq : ¬ Due q) : ¬ Due r := by
  obtain ⟨p, m, rfl⟩ := h.same
  intro hd
  refine hq ⟨hd.1, ?_⟩
  by_contra hproc
  exact h.processed hproc hd.2

/-- After a pass no action is due. -/
lemma not_due_passed (now : Int64) (q : HostRecord) : ¬ Due (passed now q) := by
  unfold passed
  split
  · exact fun h => flag_ne_zero h.2
  · rename_i hd
    split
    · exact hd
    · exact hd

/-- A record that has not been seen for long enough is stale. -/
lemma Old.stale {u : Int64} (h : Old cfg T r) (hu : 0 ≤ u)
    (hlong : cfg.purgeAfter.toInt < u.toInt - T.toInt) : Stale u r := by
  have hstamp : 0 ≤ stamp r ∧ stamp r ≤ T := by
    unfold stamp
    split
    · exact h.firstseen
    · exact h.lastseen
  have hle := Int64.le_iff_toInt_le.mp hstamp.2
  refine (lt_sub_clock hu hstamp.1 _).mpr ?_
  rw [h.purgeAfter]
  omega

/-- The stamps are times of sightings. -/
lemma old_view (hclock : Clocked evs) (hloc : ∀ e ∈ evs, e.Local) (hT : 0 ≤ T)
    (hlast : ∀ e ∈ evs, e.Sights x → e.time ≤ T) : Has (Old cfg T) (view cfg x evs) := by
  induction evs using List.reverseRecOn with
  | nil => exact fun r hr => by cases hr
  | append_singleton evs e ih =>
    have ih := ih (clocked_left hclock) (fun f hf => hloc f (List.mem_append_left _ hf))
      fun f hf => hlast f (List.mem_append_left _ hf)
    have hnow := hclock.1 e (by simp)
    intro r hr
    rw [view_snoc] at hr
    rcases record_cases (hloc e (by simp)) hr with
      ⟨-, hs, rfl⟩ | ⟨q, hq, hs, rfl⟩ | ⟨q, p, m, hq, -, rfl, -⟩
    · exact ⟨rfl, ⟨hnow, hlast e (by simp) hs⟩, Int64.le_refl 0, hT⟩
    · have hold := ih q hq
      rw [seen, bump_eq]
      exact ⟨hold.purgeAfter, hold.firstseen, hnow, hlast e (by simp) hs⟩
    · exact ⟨(ih q hq).purgeAfter, (ih q hq).firstseen, (ih q hq).lastseen⟩

/-! ### The end of a record -/

/-- **The three phases**, from a record that has not been seen since `T`. -/
lemma released_view {a b c d : List Event} {t u v : Int64} (h : Has (Old cfg T) w) (hu : 0 ≤ u)
    (hlong : cfg.purgeAfter.toInt < u.toInt - T.toInt)
    (hevs : ∀ e ∈ a ++ ⟨t, .actionPass⟩ :: (b ++ ⟨u, .actionPass⟩ :: (c ++ ⟨v, .maintenance⟩ :: d)),
      Unseen x e) :
    (run (viewStep cfg x) w
      (a ++ ⟨t, .actionPass⟩ :: (b ++ ⟨u, .actionPass⟩ :: (c ++ ⟨v, .maintenance⟩ :: d)))).1 =
        none := by
  simp only [List.mem_append, List.mem_cons] at hevs
  have hin : ∀ e, e ∈ a ∨ e ∈ b ∨ e ∈ c ∨ e ∈ d → Unseen x e := fun e he =>
    hevs e (by tauto)
  simp only [run_append, run_cons]
  -- the first pass calls what is due
  have hfirst : Has (fun r => Old cfg T r ∧ ¬ Due r)
      (viewStep cfg x (run (viewStep cfg x) w a) ⟨t, .actionPass⟩) := by
    intro r hr
    have hold : Has (Old cfg T) (run (viewStep cfg x) w a) :=
      h.run (fun q r hf hq => hf.old hq) fun e he => hin e (Or.inl he)
    obtain ⟨q, hq, hf⟩ := flagged_step (hevs _ (Or.inr (Or.inl rfl))) hr
    obtain ⟨q', -, rfl⟩ := Option.map_eq_some_iff.mp hr
    exact ⟨hf.old (hold q hq), not_due_passed t q'⟩
  generalize viewStep cfg x (run (viewStep cfg x) w a) ⟨t, .actionPass⟩ = w₁ at hfirst ⊢
  -- the second one finds the record stale
  have hsecond : Has (fun r => r.remove ≠ 0)
      (viewStep cfg x (run (viewStep cfg x) w₁ b) ⟨u, .actionPass⟩) := by
    intro r hr
    have hold : Has (fun r => Old cfg T r ∧ ¬ Due r) (run (viewStep cfg x) w₁ b) :=
      hfirst.run (fun q r hf hq => ⟨hf.old hq.1, hf.not_due hq.2⟩)
        fun e he => hin e (Or.inr (Or.inl he))
    obtain ⟨q, hq, rfl⟩ := Option.map_eq_some_iff.mp hr
    obtain ⟨hq', hdue⟩ := hold q hq
    rw [passed, if_neg hdue, if_pos (hq'.stale hu hlong)]
    exact flag_ne_zero
  generalize viewStep cfg x (run (viewStep cfg x) w₁ b) ⟨u, .actionPass⟩ = w₂ at hsecond ⊢
  -- and maintenance frees it
  have hthird : Has (fun _ => False)
      (viewStep cfg x (run (viewStep cfg x) w₂ c) ⟨v, .maintenance⟩) := by
    intro r hr
    have hold : Has (fun r => r.remove ≠ 0) (run (viewStep cfg x) w₂ c) :=
      hsecond.run (fun q r hf hq => hf.remove hq)
        fun e he => hin e (Or.inr (Or.inr (Or.inl he)))
    obtain ⟨hq, hrem⟩ := Option.filter_eq_some_iff.mp hr
    simp [hold r hq] at hrem
  have hend : Has (fun _ => False)
      (run (viewStep cfg x) (viewStep cfg x (run (viewStep cfg x) w₂ c) ⟨v, .maintenance⟩) d) :=
    hthird.run (fun _ _ _ h => h) fun e he => hin e (Or.inr (Or.inr (Or.inr he)))
  exact Option.eq_none_iff_forall_ne_some.mpr fun r hr => hend r hr

/-- An address without a record has had all its actions taken back. -/
lemma gone_closed (hfits : ∀ e ∈ evs, e.Fits) (hgone : (view cfg x evs).1 = none) :
    recordsGet (daemon cfg evs).2 x = none ∧
      Alternating .new .remove (callsFor x (daemon cfg evs).1) ∧
      (callsFor x (daemon cfg evs).1).count .new =
        (callsFor x (daemon cfg evs).1).count .remove := by
  have hsees : Sees x (daemon cfg evs) (view cfg x evs) := sees_fits hfits x List.prefix_rfl
  have hmatched : Matched (view cfg x evs).1 (view cfg x evs).2 := matched_view _
  rw [hgone] at hmatched
  unfold callsFor
  rw [hsees.calls]
  exact ⟨hsees.record.get.trans hgone, hmatched.turns, hmatched.balance⟩

/-- **Every host is let go**: in a run of a daemon that works alone, an address last seen at `T`
has no record any more once there have been two passes, the second one more than `purge_after`
seconds after `T`, and then a maintenance run; and every action called for it has been taken back.
Whatever is seen of other addresses meanwhile makes no difference. -/
theorem host_released (cfg : Config) (x : CStr) (pre a b c d : List Event) (t u v T : Int64)
    (hT : 0 ≤ T) (hlast : ∀ e ∈ pre, e.Sights x → e.time ≤ T)
    (hlong : cfg.purgeAfter.toInt < u.toInt - T.toInt) :
    let rest :=
      a ++ ⟨t, .actionPass⟩ :: (b ++ ⟨u, .actionPass⟩ :: (c ++ ⟨v, .maintenance⟩ :: d))
    Clocked (pre ++ rest) → (∀ e ∈ pre ++ rest, e.Local ∧ e.Fits) → (∀ e ∈ rest, ¬ e.Sights x) →
      recordsGet (daemon cfg (pre ++ rest)).2 x = none ∧
      Alternating .new .remove (callsFor x (daemon cfg (pre ++ rest)).1) ∧
      (callsFor x (daemon cfg (pre ++ rest)).1).count .new =
        (callsFor x (daemon cfg (pre ++ rest)).1).count .remove := by
  intro rest hclock hevs hquiet
  have hfits : ∀ e ∈ pre ++ rest, e.Fits := fun e he => (hevs e he).2
  have hold : Has (Old cfg T) (view cfg x pre) :=
    old_view (clocked_left hclock) (fun e he => (hevs e (List.mem_append_left _ he)).1) hT hlast
  have hu : 0 ≤ u := hclock.1 ⟨u, .actionPass⟩ (by simp [rest])
  have hgone : (view cfg x (pre ++ rest)).1 = none := by
    unfold view
    rw [run_append]
    exact released_view hold hu hlong fun e he =>
      ⟨(hevs e (List.mem_append_right _ he)).1, hquiet e he⟩
  exact gone_closed hfits hgone

/-- Three sightings lead to an action, which is taken back although another address is seen. -/
theorem host_released_run :
    let x := ascii "192.0.2.7"
    let y := ascii "192.0.2.8"
    let pre : List Event :=
      [⟨100, .sighting true x⟩, ⟨101, .sighting true x⟩, ⟨102, .sighting true x⟩]
    let rest : List Event := [⟨103, .actionPass⟩, ⟨200, .sighting true y⟩, ⟨4000, .actionPass⟩,
      ⟨4001, .sighting true y⟩, ⟨4002, .maintenance⟩, ⟨4003, .sighting true y⟩]
    callsFor x (daemon ⟨3, 60, 3600⟩ (pre ++ rest)).1 = [.new, .remove] ∧
      recordsGet (daemon ⟨3, 60, 3600⟩ (pre ++ rest)).2 x = none := by
  intro x y pre rest
  have hgone := host_released ⟨3, 60, 3600⟩ x pre [] [⟨200, .sighting true y⟩]
    [⟨4001, .sighting true y⟩] [⟨4003, .sighting true y⟩] 103 4000 4002 102 (by decide) (by decide)
    (by decide) (by decide) (by decide) (by decide)
  exact ⟨by decide +kernel, hgone.1⟩

/-! ### The end of all records -/

/-- A vector in shape and tight that has no records is the one `records_init` makes. -/
lemma eq_init {v : Store} (h : Shape v) (ht : Tight v) (hnone : ∀ i, slot v.vec i = none) :
    v = recordsInit := by
  have hfill : v.fill = 0 := Nat.le_zero.mp (ht.fill.2 fun i r hi => by
    rw [hnone] at hi
    cases hi)
  have hsize : v.size = chunksize := by
    refine Nat.le_antisymm (ht.size.2 ⟨by decide, Nat.dvd_refl _, by omega⟩) ?_
    exact Nat.le_of_dvd h.pos h.dvd
  have hvec : v.vec = List.replicate chunksize none := by
    refine List.ext_getElem (by rw [h.len, hsize, List.length_replicate]) fun i hi _ => ?_
    have hslot := hnone i
    rw [slot, List.getElem?_eq_getElem hi, Option.join_some] at hslot
    rw [hslot, List.getElem_replicate]
  obtain ⟨vec, size, fill⟩ := v
  obtain rfl : fill = 0 := hfill
  obtain rfl : size = chunksize := hsize
  obtain rfl : vec = List.replicate chunksize none := hvec
  rfl

/-- A maintenance run that leaves no record leaves that vector. -/
lemma emptied {σ : Type*} {v : Store} (h : Shape v) (cb : Option (σ → HostRecord → σ)) (e : σ)
    (hnone : ∀ i, slot (recordsMaintenance cb e v).2.1.vec i = none) :
    (recordsMaintenance cb e v).2.1 = recordsInit :=
  eq_init (maintenance_shape h cb e) (maintenance_tight h cb e) hnone

/-- No address has a record: the slots are free. -/
lemma slots_none {v : Store} (h : ∀ x, At v x none) (i : ℕ) : slot v.vec i = none := by
  rcases hi : slot v.vec i with _ | r
  · rfl
  · exact absurd rfl (lookup_none.mp (h r.addr).lookup i r hi)

/-- Nothing is sighted, and no record comes from another host. -/
def Still (e : Event) : Prop := e.Local ∧ ∀ x, ¬ e.Sights x

lemma Still.unseen (h : Still e) (x : CStr) : Unseen x e := ⟨h.1, h.2 x⟩

lemma Still.fits (h : Still e) : e.Fits := by
  obtain ⟨now, act⟩ := e
  cases act with
  | sighting mem y => exact absurd rfl (h.2 y)
  | report mem host hr => exact absurd h.1 id
  | actionPass => trivial
  | maintenance => trivial
  | purgeAll => trivial

/-- The vector stays as `records_init` has made it. -/
lemma init_step (s : St) (he : Still e) (h : s.2 = recordsInit) :
    (daemonStep cfg s e).2 = recordsInit := by
  obtain ⟨log, v⟩ := s
  obtain rfl : v = recordsInit := h
  obtain ⟨now, act⟩ := e
  cases act with
  | sighting mem y => exact absurd rfl (he.2 y)
  | report mem host hr => exact absurd he.1 id
  | actionPass => rfl
  | maintenance =>
    refine emptied shape_init _ _ fun i => ?_
    rw [maintenance_slot shape_init, slots_none at_init, Option.filter_none]
  | purgeAll => rfl

end Agentsmith.Release
