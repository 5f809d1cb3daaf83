import Agentsmith.Daemon
import Agentsmith.RecordsMap

/-!
The daemon as one address sees it.

What the vector holds for an address, and the actions called for it, depend on the events
of that address and on the passes over all records only. The state of one address is
therefore an automaton of its own, and the daemon projects to it.
-/

namespace Agentsmith.PerAddress

open Agentsmith.Lib.CStrings Agentsmith.Lib.Slots Agentsmith.Lib.Runs
open Agentsmith.Globals Agentsmith.Records Agentsmith.RecordsMap Agentsmith.Daemon

variable {cfg : Config} {k : CStr} {s : St} {evs : List Event}

/-- The record of the address, and the calls of `_do_action` for it. -/
abbrev View := Option HostRecord × List Call

def viewStep (cfg : Config) (k : CStr) (w : View) (e : Event) : View :=
  match e.act with
  | .sighting mem x => if x = k then (addIpAt cfg e.time mem x w.1, w.2) else w
  | .report mem host hr =>
    if hr.addr = k then (addRecordAt e.time mem (workerRecord host hr) w.1, w.2) else w
  | .actionPass => (w.1.map (passed e.time), w.2 ++ w.1.toList.flatMap newCalls)
  | .maintenance =>
    (w.1.filter fun r => !decide (r.remove ≠ 0), w.2 ++ w.1.toList.flatMap sweptCalls)
  | .purgeAll => (w.1.map marked, w.2)

def view (cfg : Config) (k : CStr) (evs : List Event) : View :=
  run (viewStep cfg k) (none, []) evs

lemma daemon_snoc (evs : List Event) (e : Event) :
    daemon cfg (evs ++ [e]) = daemonStep cfg (daemon cfg evs) e := run_snoc evs e

lemma view_snoc (evs : List Event) (e : Event) :
    view cfg k (evs ++ [e]) = viewStep cfg k (view cfg k evs) e := run_snoc evs e

lemma shape_step (h : Shape s.2) (e : Event) : Shape (daemonStep cfg s e).2 := h.step cfg e.op

lemma shape_daemon (cfg : Config) (evs : List Event) : Shape (daemon cfg evs).2 :=
  run_hist (P := fun _ (s : St) => Shape s.2) shape_init (fun _ _ h => shape_step h _) evs

/-- The daemon's state, seen from the address. -/
structure Sees (k : CStr) (s : St) (w : View) : Prop where
  record : At s.2 k w.1
  calls : s.1.filter (fun c => c.addr = k) = w.2

/-- The key stored for the address of an event is `k` for the address `k` only. -/
def EventKeyed (k : CStr) (e : Event) : Prop :=
  match e.act with
  | .sighting _ x => Keyed x k
  | _ => True

lemma eventKeyed_of_fits {e : Event} (h : e.Fits) (k : CStr) : EventKeyed k e := by
  unfold EventKeyed
  unfold Event.Fits at h
  split
  · rename_i he; rw [he] at h; exact keyed_of_lt h k
  · trivial

/-- A fold that only appends to the log. -/
lemma foldl_log (f : HostRecord → List Call) (log : List Call) (l : List HostRecord) :
    l.foldl (fun log r => log ++ f r) log = log ++ l.flatMap f := by
  induction l generalizing log with
  | nil => simp
  | cons r l ih => rw [List.foldl_cons, ih]; simp

/-- A pass appends what it calls for every record. -/
lemma pass_env (h : Shape s.2) (now : Int64) :
    (daemonStep cfg s ⟨now, .actionPass⟩).1 = s.1 ++ (live s.2.vec).flatMap newCalls := by
  show (recordsEnumerate _ _ _).1 = _
  rw [enumerate_env h fun e r => by rw [actionNew_eq], ← foldl_log]
  congr 1
  funext log r
  rw [actionNew_eq]

lemma passCalls_eq (h : Shape s.2) (now : Int64) :
    passCalls cfg s now = (live s.2.vec).flatMap newCalls := by
  rw [passCalls, pass_env h, List.drop_left]

/-- A maintenance run appends what it calls for the flagged records. -/
lemma swept_env (h : Shape s.2) (now : Int64) :
    (daemonStep cfg s ⟨now, .maintenance⟩).1 = s.1 ++ (live s.2.vec).flatMap sweptCalls := by
  show (recordsMaintenance _ _ _).1 = _
  rw [maintenance_env h, flatMap_sweptCalls, ← foldl_log]
  congr 1
  funext log r
  exact removal_eq log r

lemma marked_env (h : Shape s.2) (now : Int64) :
    (daemonStep cfg s ⟨now, .purgeAll⟩).1 = s.1 := by
  show (recordsEnumerate _ _ _).1 = _
  rw [enumerate_env h fun _ _ => rfl]
  exact List.foldl_fixed (live s.2.vec)

/-- The shutdown appends what is called for every record. -/
lemma shutdown_env (h : Shape s.2) :
    shutdown s = s.1 ++ (live s.2.vec).flatMap removalCalls := by
  unfold shutdown
  rw [destroy_env h, ← foldl_log]
  congr 1
  funext log r
  exact removal_eq log r

lemma sees_passed {w : View} (h : Sees k s w) (now : Int64) :
    Sees k (daemonStep cfg s ⟨now, .actionPass⟩)
      (w.1.map (passed now), w.2 ++ w.1.toList.flatMap newCalls) where
  record := h.record.enumerate_map (fun e r => by rw [actionNew_eq])
    (fun e r => by rw [actionNew_eq]) (passed_addr now)
  calls := by
    rw [pass_env h.record.shape, List.filter_append, h.calls,
      filter_emit newCalls_addr h.record.only, h.record.lookup]

/-- What a pass calls for the address. -/
lemma passCalls_filter (cfg : Config) {w : View} (h : Sees k s w) (now : Int64) :
    (passCalls cfg s now).filter (fun c => c.addr = k) = w.1.toList.flatMap newCalls := by
  rw [passCalls_eq h.record.shape, filter_emit newCalls_addr h.record.only, h.record.lookup]

lemma mem_passCalls (cfg : Config) {w : View} (h : Sees k s w) (now : Int64) (c : Call) :
    c ∈ passCalls cfg s now ∧ c.addr = k ↔ ∃ r, w.1 = some r ∧ Due r ∧ c = ⟨.new, r⟩ := by
  have hmem : c ∈ passCalls cfg s now ∧ c.addr = k ↔ c ∈ w.1.toList.flatMap newCalls := by
    rw [← passCalls_filter cfg h now, List.mem_filter]
    simp
  rw [hmem]
  rcases w.1 with _ | r
  · simp
  · by_cases hd : Due r <;> simp [newCalls, hd]

lemma sees_swept {w : View} (h : Sees k s w) :
    Sees k (step cfg s (.maintenance (some (threadsRecordsCallbackActionRemoval logCall))))
      (w.1.filter fun r => !decide (r.remove ≠ 0), w.2 ++ w.1.toList.flatMap sweptCalls) where
  record := h.record.maintenance _ _
  calls := by
    have henv : (step cfg s
        (.maintenance (some (threadsRecordsCallbackActionRemoval logCall)))).1 = _ :=
      swept_env h.record.shape 0
    rw [henv, List.filter_append, h.calls, filter_emit sweptCalls_addr h.record.only,
      h.record.lookup]

lemma sees_marked {w : View} (h : Sees k s w) :
    Sees k (step cfg s (.enumerate recordsCallbackRemoveAll)) (w.1.map marked, w.2) where
  record := h.record.enumerate_map (fun _ _ => rfl) (fun _ _ => rfl) fun _ => rfl
  calls := by
    have henv : (step cfg s (.enumerate recordsCallbackRemoveAll)).1 = s.1 :=
      marked_env h.record.shape 0
    rw [henv, h.calls]

lemma sees_step {w : View} (h : Sees k s w) {e : Event} (he : EventKeyed k e) :
    Sees k (daemonStep cfg s e) (viewStep cfg k w e) := by
  obtain ⟨now, act⟩ := e
  cases act with
  | sighting mem x =>
    have hv : viewStep cfg k w ⟨now, .sighting mem x⟩ =
        (if x = k then addIpAt cfg now mem x w.1 else w.1, w.2) := by
      simp only [viewStep]; split <;> rfl
    rw [hv]
    exact ⟨h.record.addIp he, h.calls⟩
  | report mem host hr =>
    have hv : viewStep cfg k w ⟨now, .report mem host hr⟩ =
        (if hr.addr = k then addRecordAt now mem (workerRecord host hr) w.1 else w.1, w.2) := by
      simp only [viewStep]; split <;> rfl
    rw [hv]
    exact ⟨h.record.addRecord (workerRecord host hr), h.calls⟩
  | actionPass => exact sees_passed h now
  | maintenance => exact sees_swept h
  | purgeAll => exact sees_marked h

/-- **The projection**: the daemon does to an address what its automaton does. -/
theorem sees_daemon (hevs : ∀ e ∈ evs, EventKeyed k e) :
    Sees k (daemon cfg evs) (view cfg k evs) := by
  unfold daemon view
  refine run_sim (R := Sees k) ⟨at_init k, rfl⟩ ?_ hevs
  exact fun _ _ _ h he => sees_step h he

/-- The projection of a run in which every address fits, and of each of its beginnings. -/
lemma sees_fits {as : List Event} (hfits : ∀ e ∈ evs, e.Fits) (k : CStr) (has : as <+: evs) :
    Sees k (daemon cfg as) (view cfg k as) :=
  sees_daemon fun e he => eventKeyed_of_fits (hfits e (has.subset he)) k

lemma get_view (hfits : ∀ e ∈ evs, e.Fits) (k : CStr) :
    recordsGet (daemon cfg evs).2 k = (view cfg k evs).1 :=
  (sees_fits hfits k List.prefix_rfl).record.get

/-- Where the record of the address comes from, in a daemon that works alone: a first
sighting, another one, or a step that changes the two flags at most. -/
lemma record_cases {w : View} {e : Event} {r : HostRecord} (hloc : e.Local)
    (hr : (viewStep cfg k w e).1 = some r) :
    (w.1 = none ∧ e.Sights k ∧ r = fresh cfg e.time k) ∨
      (∃ o, w.1 = some o ∧ e.Sights k ∧ r = seen e.time o) ∨
      ∃ o p m, w.1 = some o ∧ ¬ e.Sights k ∧ r = { o with processed := p, remove := m } ∧
        (p = 0 → o.processed = 0) := by
  obtain ⟨o, log⟩ := w
  obtain ⟨now, act⟩ := e
  cases act with
  | sighting mem x =>
    by_cases hx : x = k
    · subst hx
      rcases o with _ | o
      · cases mem with
        | false => simp [viewStep, addIpAt] at hr
        | true => exact Or.inl ⟨rfl, rfl, by simpa [viewStep, addIpAt] using hr.symm⟩
      · exact Or.inr (Or.inl ⟨o, rfl, rfl, by simpa [viewStep, addIpAt] using hr.symm⟩)
    · have ho : o = some r := by simpa [viewStep, hx] using hr
      exact Or.inr (Or.inr ⟨r, _, _, ho, hx, rfl, id⟩)
  | report mem host hr' => exact absurd hloc id
  | actionPass =>
    obtain ⟨o, rfl, rfl⟩ := Option.map_eq_some_iff.mp hr
    obtain ⟨p, m, hpm, hp⟩ := passed_frame now o
    exact Or.inr (Or.inr ⟨o, p, m, rfl, id, hpm, hp⟩)
  | maintenance =>
    have ho : o = some r := (Option.filter_eq_some_iff.mp hr).1
    exact Or.inr (Or.inr ⟨r, _, _, ho, id, rfl, id⟩)
  | purgeAll =>
    obtain ⟨o, rfl, rfl⟩ := Option.map_eq_some_iff.mp hr
    exact Or.inr (Or.inr ⟨o, _, _, rfl, id, rfl, id⟩)

/-- The calls at the shutdown, seen from the address. -/
lemma sees_shutdown {w : View} (h : Sees k s w) :
    (shutdown s).filter (fun c => c.addr = k) = w.2 ++ w.1.toList.flatMap removalCalls := by
  rw [shutdown_env h.record.shape, List.filter_append, h.calls,
    filter_emit removalCalls_addr h.record.only, h.record.lookup]

end Agentsmith.PerAddress
