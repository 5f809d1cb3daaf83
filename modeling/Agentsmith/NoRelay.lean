import Agentsmith.Informer
import Agentsmith.Lib.Networks

/-!
Agents that inform each other do not pass on what they have been told.

A record has this host as its origin only while `records_add_ip` is the last function that has
inserted it or written its origin, and such a record owes one report until it is processed. So
a report can be put down to a creation of the record at the agent itself, and no creation
answers for two of them, whatever the topology is and whatever else arrives.
-/

namespace Agentsmith.NoRelay

open Agentsmith.Lib.CStrings Agentsmith.Lib.Slots Agentsmith.Lib.Words Agentsmith.Lib.Runs
open Agentsmith.Lib.Networks
open Agentsmith.Globals Agentsmith.Records Agentsmith.RecordsMap Agentsmith.NetShared
open Agentsmith.Daemon Agentsmith.PerAddress Agentsmith.Intake Agentsmith.DoAction
open Agentsmith.Informer
open Agentsmith.Client (clientStep clientQueueFlush clientQueueRecord clientQueueFlushed
  clientQueueTake)
open Agentsmith.Exclude (InetPton)
open Agentsmith.ExcludeCidr (quadPton)

/-! ### The network -/

/-- What a delivery depends on at the receiver. -/
structure Delivery where
  time : Int64
  list : Exclude.Store
  mem : Bool

/-- The agents of a network: which agents each informs, and the string that `getnameinfo`
gives to the server worker of the second for a connection of the first. -/
structure Agents (ι : Type*) where
  options : ι → Options
  peers : ι → List ι
  host : ι → ι → CStr
  pton : ι → InetPton
  endian : ι → Endian
  informAgents_eq : ∀ i, (options i).informAgents = (peers i).length

/-- The commands of a batch that the worker of queue `k` takes. -/
def batch {ι : Type*} (peers : List ι) (s : Informer.St) (x : Turn) :
    List (ι × Field remoteCommandSize) :=
  match x with
  | .take k =>
    match s.client.pc, s.client.queues[k]?, peers[k]? with
    | .aborted, _, _ => []
    | _, some q, some j => q.head.map fun r => (j, frame addCommand r)
    | _, _, _ => []
  | _ => []

/-- A connection is served while no pass is on. -/
def protocol {ι : Type*} (A : Agents ι) :
    Protocol ι Informer.St Turn (Field remoteCommandSize) Delivery where
  init := fun _ => informerInit
  step := fun i => informerStep (A.options i) (A.pton i) (A.endian i)
  sends := fun i s x => batch (A.peers i) s x
  arrival := fun i j buff d => .moment ⟨d.time, d.list, .command d.mem (A.host i j) buff⟩
  ready := fun _ s => !decide (Locked s) && decide (s.client.pc ≠ .aborted)

/-- A captured string fits into the field with its NUL. -/
def LineFits (x : Turn) : Prop :=
  match x with
  | .moment ⟨_, _, .line _ y⟩ => y.1.length < ipaddrSize
  | _ => True

instance (x : Turn) : Decidable (LineFits x) :=
  match x with
  | .moment ⟨_, _, .line _ y⟩ => inferInstanceAs (Decidable (y.1.length < ipaddrSize))
  | .moment ⟨_, _, .command _ _ _⟩ | .moment ⟨_, _, .actionPass⟩ | .moment ⟨_, _, .maintenance⟩
  | .moment ⟨_, _, .purgeAll⟩ | .start | .go _ | .take _ => isTrue trivial

/-! ### What is noted about an address -/

/-- The address that is noted. -/
def about : Entry → CStr
  | .created x => x
  | .copied x => x
  | .queued r => r.addr

/-- What has been noted last about an address. -/
def last (x : CStr) (log : List Entry) : Option Entry := (log.filter fun n => about n = x).getLast?

/-- Each report comes from a creation: nothing has been noted about the address since, neither
another report nor a record received. -/
def Accounted (log : List Entry) : Prop :=
  ∀ pre r post, log = pre ++ .queued r :: post → last r.addr pre = some (.created r.addr)

/-- The reports for an address, and the creations of a record for it. -/
def reports (x : CStr) (log : List Entry) : ℕ :=
  log.countP fun n => match n with
    | .queued r => r.addr = x
    | _ => false

def creations (x : CStr) (log : List Entry) : ℕ := log.count (.created x)

lemma last_snoc (x : CStr) (log : List Entry) (n : Entry) :
    last x (log ++ [n]) = if about n = x then some n else last x log := by
  unfold last
  rw [List.filter_append]
  by_cases hn : about n = x
  · rw [if_pos hn]
    simp [hn]
  · rw [if_neg hn]
    simp [hn]

lemma accounted_snoc {log : List Entry} {n : Entry} (h : Accounted log)
    (hn : ∀ r, n = .queued r → last r.addr log = some (.created r.addr)) :
    Accounted (log ++ [n]) := by
  intro pre r post hlog
  rcases List.eq_nil_or_concat' post with rfl | ⟨post, m, rfl⟩
  · obtain ⟨rfl, heq⟩ := List.append_inj' hlog rfl
    exact hn r (List.singleton_inj.mp heq)
  · rw [← List.cons_append, ← List.append_assoc] at hlog
    obtain ⟨rfl, -⟩ := List.append_inj' hlog rfl
    exact h pre r post rfl

/-- A report may be owed for a creation that nothing has been noted after. -/
def due (x : CStr) (log : List Entry) : ℕ := if last x log = some (.created x) then 1 else 0

lemma due_snoc (x : CStr) (log : List Entry) (n : Entry) :
    due x (log ++ [n]) = if about n = x then (if n = .created x then 1 else 0) else due x log := by
  unfold due
  rw [last_snoc]
  by_cases hn : about n = x <;> simp [hn]

lemma reports_snoc (x : CStr) (log : List Entry) (n : Entry) :
    reports x (log ++ [n]) = reports x log + reports x [n] := List.countP_append

lemma creations_snoc (x : CStr) (log : List Entry) (n : Entry) :
    creations x (log ++ [n]) = creations x log + creations x [n] := List.count_append

/-- An entry about another address counts for nothing. -/
lemma counts_other {x : CStr} {n : Entry} (hn : about n ≠ x) :
    reports x [n] = 0 ∧ creations x [n] = 0 := by
  unfold reports creations
  cases n with
  | created y => exact ⟨rfl, List.count_eq_zero.mpr fun h => hn (by simp at h; exact h.symm)⟩
  | copied y => exact ⟨rfl, List.count_eq_zero.mpr fun h => by simp at h⟩
  | queued r =>
    have hr : r.addr ≠ x := hn
    exact ⟨by simp [hr], List.count_eq_zero.mpr fun h => by simp at h⟩

/-- One report for each creation at most, and the last creation may have none yet. -/
lemma Accounted.count {log : List Entry} (h : Accounted log) (x : CStr) :
    reports x log + due x log ≤ creations x log := by
  induction log using List.reverseRecOn with
  | nil => exact Nat.le_refl 0
  | append_singleton log n ih =>
    have hlog : Accounted log := fun pre r post hl => h pre r (post ++ [n]) (by rw [hl]; simp)
    have hold := ih hlog
    rw [reports_snoc, creations_snoc, due_snoc]
    by_cases hn : about n = x
    · rw [if_pos hn]
      cases n with
      | created y =>
        obtain rfl : y = x := hn
        have hone : creations y [.created y] = 1 := List.count_singleton_self
        have hnone : reports y [.created y] = 0 := rfl
        rw [if_pos rfl]
        omega
      | copied y =>
        have hnone : reports x [.copied y] = 0 := rfl
        rw [if_neg Entry.noConfusion]
        omega
      | queued r =>
        have hr : r.addr = x := hn
        have hdue : due x log = 1 := if_pos (hr ▸ h log r [] rfl)
        have hone : reports x [.queued r] = 1 := by simp [reports, hr]
        rw [if_neg Entry.noConfusion]
        omega
    · obtain ⟨hreports, hcreations⟩ := counts_other hn
      rw [if_neg hn]
      omega

/-! ### What the client accepts -/

/-- The record a call gives to the client. -/
def given : Client.Move → List HostRecord
  | .record r => [r]
  | _ => []

variable {c : Client.St}

lemma forced_idle (hpc : c.pc = .idle) : forced c = none := by rw [forced, hpc]

lemma flush_accepts (hpc : c.pc = .idle) (back : Option HostRecord) :
    (clientQueueFlush back c).accepted = c.accepted ∧
      (forced (clientQueueFlush back c)).toList.Sublist back.toList := by
  unfold clientQueueFlush
  split
  · rw [forced_idle hpc]
    exact ⟨rfl, List.nil_sublist _⟩
  · split
    · rw [forced_idle hpc]
      exact ⟨rfl, List.nil_sublist _⟩
    · exact ⟨rfl, List.Sublist.refl _⟩

lemma record_accepts (hpc : c.pc = .idle) (hr : HostRecord) :
    ∃ new, (clientQueueRecord hr c).accepted = c.accepted ++ new ∧
      (new ++ (forced (clientQueueRecord hr c)).toList).Sublist [hr] := by
  unfold clientQueueRecord
  split
  · exact ⟨[], by simp, by simp [forced]⟩
  · split
    · exact ⟨[], by simp, by simp [forced_idle hpc]⟩
    · split
      · obtain ⟨hacc, hsub⟩ := flush_accepts hpc (some hr)
        exact ⟨[], by rw [hacc, List.append_nil], hsub⟩
      · refine ⟨[hr], rfl, ?_⟩
        have hnone : forced { c with
            vector := Function.update c.vector c.fill (some hr)
            fill := c.fill + 1
            accepted := c.accepted ++ [hr] } = none := forced_idle hpc
        rw [hnone]
        exact List.Sublist.refl _

lemma flushed_accepts (back : Option HostRecord) :
    ∃ new, (clientQueueFlushed back c).accepted = c.accepted ++ new ∧
      (new ++ (forced (clientQueueFlushed back c)).toList).Sublist back.toList := by
  unfold clientQueueFlushed
  rcases back with _ | hr
  · exact ⟨[], by simp, by simp [forced]⟩
  · exact record_accepts rfl hr

/-- **The client accepts** what it is called with, and the record of a forced flush, once. -/
lemma clientStep_accepts (c : Client.St) (m : Client.Move) :
    ∃ new, (clientStep c m).accepted = c.accepted ++ new ∧
      (new ++ (forced (clientStep c m)).toList).Sublist ((forced c).toList ++ given m) := by
  have hstay : ∃ new, c.accepted = c.accepted ++ new ∧
      (new ++ (forced c).toList).Sublist ((forced c).toList ++ given m) :=
    ⟨[], by simp, List.sublist_append_left _ _⟩
  unfold clientStep
  rcases hpc : c.pc with _ | ⟨i, back⟩ | _ <;> cases m
  case idle.record hr =>
    obtain ⟨new, hacc, hsub⟩ := record_accepts hpc hr
    exact ⟨new, hacc, hsub.trans (List.sublist_append_right _ _)⟩
  case idle.flush =>
    obtain ⟨hacc, hsub⟩ := flush_accepts hpc none
    refine ⟨[], by rw [hacc, List.append_nil], hsub.trans (List.nil_sublist _)⟩
  case flushing.next =>
    have hback : forced c = back := by rw [forced, hpc]
    rw [hback]
    dsimp only
    split
    · exact ⟨[], by simp, by simp [forced, given]⟩
    · obtain ⟨new, hacc, hsub⟩ := flushed_accepts (c := c) back
      exact ⟨new, hacc, hsub.trans (List.sublist_append_left _ _)⟩
  case idle.take i | flushing.take i =>
    have hforced : forced { c with queues := c.queues.modify i clientQueueTake } = forced c := rfl
    rw [hpc] at hforced
    obtain ⟨new, hacc, hsub⟩ := hstay
    exact ⟨new, hacc, by rw [hforced]; exact hsub⟩
  all_goals exact hstay

/-! ### What is owed for an address -/

/-- The record comes from this host, and has not been acted on. -/
def Armed (r : HostRecord) : Prop := r.processed = 0 ∧ r.origin.str = localhost

instance (r : HostRecord) : Decidable (Armed r) := inferInstanceAs (Decidable (_ ∧ _))

def armed (w : Option HostRecord) : ℕ := w.toList.countP fun r => Armed r

/-- The reports that may still come of the record of an address, of a call for it, and of a
flush forced for it. -/
def owed (o : Options) (x : CStr) (w : Option HostRecord) (s : Informer.St) : ℕ :=
  armed w + ((calls s).countP (fun c => c.addr = x ∧ Distributed o c) +
    (forced s.client).toList.countP fun r => r.addr = x)

structure Sourced (o : Options) (s : Informer.St) : Prop where
  log : Accounted s.log
  source : ∀ x, ∃ w, Sees x s.daemon w ∧ owed o x w.1 s ≤ due x s.log

variable {o : Options} {pton : InetPton} {e : Endian} {s : Informer.St}

lemma sourced_init (o : Options) : Sourced o informerInit where
  log := fun pre r post h => by simp [informerInit] at h
  source := fun x => ⟨(none, []), ⟨at_init x, rfl⟩, Nat.zero_le _⟩

/-- A call of the client with what is owed. -/
lemma Sourced.clientDo {m : Client.Move} (hlog : Accounted s.log)
    (hone : ((forced s.client).toList ++ given m).length ≤ 1)
    (hsource : ∀ x, ∃ w, Sees x s.daemon w ∧
      owed o x w.1 s + (given m).countP (fun r => r.addr = x) ≤ due x s.log) :
    Sourced o (clientDo s m) := by
  obtain ⟨new, hacc, hsub⟩ := clientStep_accepts s.client m
  have hnew : (Informer.clientDo s m).log = s.log ++ new.map .queued := by
    simp [Informer.clientDo, hacc]
  have howed : ∀ x w, owed o x w (Informer.clientDo s m) + new.countP (fun r => r.addr = x) ≤
      owed o x w s + (given m).countP fun r => r.addr = x := by
    intro x w
    have hcount := hsub.countP_le (p := fun r => r.addr = x)
    rw [List.countP_append, List.countP_append] at hcount
    show armed w +
      ((calls s).countP (fun c => c.addr = x ∧ Distributed o c) +
        (forced (clientStep s.client m)).toList.countP fun r => r.addr = x) + _ ≤ _
    unfold owed
    omega
  have hlen := hsub.length_le
  rcases new with _ | ⟨r, _ | ⟨r', rest⟩⟩
  · -- nothing is accepted
    rw [List.map_nil, List.append_nil] at hnew
    refine ⟨hnew ▸ hlog, fun x => ?_⟩
    obtain ⟨w, hw, hle⟩ := hsource x
    exact ⟨w, hw, by rw [hnew]; exact Nat.le_trans (howed x w.1) hle⟩
  · -- one report
    rw [List.map_singleton] at hnew
    have hsame : ∀ x w, owed o x w (Informer.clientDo s m) + (if r.addr = x then 1 else 0) ≤
        owed o x w s + (given m).countP fun r => r.addr = x := by
      intro x w
      simpa [List.countP_cons] using howed x w
    refine ⟨?_, fun x => ?_⟩
    · rw [hnew]
      refine accounted_snoc hlog fun q hq => ?_
      obtain rfl := Entry.queued.inj hq
      obtain ⟨w, -, hle⟩ := hsource r.addr
      have hpos := hsame r.addr w.1
      rw [if_pos rfl] at hpos
      by_contra hlast
      rw [due, if_neg hlast] at hle
      omega
    · obtain ⟨w, hw, hle⟩ := hsource x
      refine ⟨w, hw, ?_⟩
      have hx := hsame x w.1
      rw [hnew, due_snoc]
      by_cases hr : r.addr = x
      · have hdue : due x s.log ≤ 1 := by
          unfold due
          split <;> omega
        rw [if_pos hr] at hx
        omega
      · have hne : about (.queued r) ≠ x := hr
        rw [if_neg hr] at hx
        rw [if_neg hne]
        omega
  · exfalso
    simp only [List.length_append, List.length_cons] at hlen hone
    omega

/-- A call that is made gives what it owes. -/
lemma owed_call {x : CStr} {w : Option HostRecord} {c : Call} {rest : List Job}
    (htodo : s.todo = .call c :: rest) :
    owed o x w s = owed o x w { s with todo := rest } +
      if c.addr = x ∧ Distributed o c then 1 else 0 := by
  have hcalls : calls s = c :: calls { s with todo := rest } := by
    unfold calls
    rw [htodo]
    rfl
  unfold owed
  rw [hcalls, List.countP_cons]
  simp only [decide_eq_true_eq]
  omega

lemma owed_flush {x : CStr} {w : Option HostRecord} {rest : List Job}
    (htodo : s.todo = .flush :: rest) : owed o x w { s with todo := rest } = owed o x w s := by
  have hcalls : calls s = calls { s with todo := rest } := by
    unfold calls
    rw [htodo]
    rfl
  unfold owed
  rw [hcalls]

/-- While no pass is on, only the record owes. -/
lemma owed_unlocked {x : CStr} {w : Option HostRecord} (h : ¬ Locked s) :
    owed o x w s = armed w := by
  have hcalls : calls s = [] := not_not.mp (not_or.mp h).1
  have hforced : forced s.client = none := not_not.mp (not_or.mp h).2
  unfold owed
  rw [hcalls, hforced]
  simp

/-- After a step at the vector, the record and the calls of a pass owe. -/
lemma owed_vectorStep {x : CStr} {w : Option HostRecord} (h : ¬ Locked s) (ev : Event) :
    owed o x w (vectorStep o s ev) = armed w +
      (if ev.act = .actionPass then passCalls o.toConfig s.daemon ev.time else []).countP
        fun c => c.addr = x ∧ Distributed o c := by
  have hcalls : calls s = [] := not_not.mp (not_or.mp h).1
  have hforced : forced (vectorStep o s ev).client = none := not_not.mp (not_or.mp h).2
  unfold owed
  rw [calls_vectorStep, hcalls, hforced, List.nil_append, Option.toList_none, List.countP_nil,
    Nat.add_zero]

lemma entries_cases (d : Daemon.St) (ev : Event) :
    entries d ev = [] ∨ ∃ n, entries d ev = [n] ∧ ∀ r, n ≠ .queued r := by
  unfold entries
  split
  · split
    · exact Or.inr ⟨_, rfl, fun r h => by cases h⟩
    · exact Or.inl rfl
  · split
    · exact Or.inl rfl
    · exact Or.inr ⟨_, rfl, fun r h => by cases h⟩
  · exact Or.inl rfl

lemma armed_some (r : HostRecord) : armed (some r) = if Armed r then 1 else 0 := by
  by_cases hr : Armed r <;> simp [armed, hr]

lemma armed_le_one (w : Option HostRecord) : armed w ≤ 1 := by
  rcases w with _ | r
  · exact Nat.zero_le 1
  · rw [armed_some]
    split <;> omega

/-- What becomes of a record that is changed owes no more than the record if `h` holds. -/
lemma armed_le {r q : HostRecord} (h : Armed r → Armed q) : armed (some r) ≤ armed (some q) := by
  rw [armed_some, armed_some]
  split
  · rename_i hr
    rw [if_pos (h hr)]
  · exact Nat.zero_le _

/-- A record received has another origin. -/
lemma armed_received {r : HostRecord} {host : CStr} (hhost : host ≠ localhost)
    (hr : r.origin = copyCut ipaddrSize host) : armed (some r) = 0 := by
  rw [armed_some, if_neg]
  rintro ⟨-, horigin⟩
  rw [hr] at horigin
  exact hhost (localhost_of_cut horigin)

lemma armed_reported {host : CStr} (hhost : host ≠ localhost) (t : Int64) (mem : Bool)
    (hr : HostRecord) (w : Option HostRecord) :
    armed (addRecordAt t mem (workerRecord host hr) w) = 0 := by
  rcases w with _ | r
  · cases mem with
    | false => rfl
    | true => exact armed_received hhost rfl
  · refine armed_received hhost ?_
    rw [merge, bump_eq]
    rfl

/-- A record that is freed owes nothing any more. -/
lemma armed_filter (p : HostRecord → Bool) (w : Option HostRecord) :
    armed (w.filter p) ≤ armed w := by
  rcases w with _ | r
  · exact Nat.le_refl _
  · rw [Option.filter_some]
    split
    · exact Nat.le_refl _
    · exact Nat.zero_le _

lemma armed_marked (w : Option HostRecord) : armed (w.map marked) ≤ armed w := by
  rcases w with _ | r
  · exact Nat.le_refl _
  · exact armed_le id

/-- A pass moves a debt from the record to a call. -/
lemma owed_pass (o : Options) (t : Int64) (w : Option HostRecord) :
    armed (w.map (passed t)) + (w.toList.flatMap newCalls).countP (fun c => Distributed o c) ≤
      armed w := by
  rcases w with _ | r
  · exact Nat.le_refl _
  · rw [Option.map_some, Option.toList_some, List.flatMap_singleton]
    by_cases hd : Due r
    · have hnot : ¬ Armed (passed t r) := by
        rw [passed, if_pos hd]
        exact fun h => absurd (show (1 : Int32) = 0 from h.1) (by decide)
      rw [armed_some, if_neg hnot, newCalls, if_pos hd, List.countP_singleton, Nat.zero_add]
      split
      · rename_i hdist
        rw [armed_some, if_pos ⟨hd.2, (of_decide_eq_true hdist).2.2.2⟩]
      · exact Nat.zero_le _
    · obtain ⟨p, m, hp, hproc⟩ := passed_frame t r
      rw [newCalls, if_neg hd, List.countP_nil, Nat.add_zero, hp]
      exact armed_le fun h => ⟨hproc h.1, h.2⟩

/-- Outside a pass the record of an address owes what has been noted. -/
lemma armed_step {cfg : Config} {d : Daemon.St} {x : CStr} {w : View} {log : List Entry}
    {ev : Event} (hw : Sees x d w) (hle : armed w.1 ≤ due x log) (hact : ev.act ≠ .actionPass)
    (hhost : ∀ mem host hr, ev.act = .report mem host hr → host ≠ localhost) :
    armed (viewStep cfg x w ev).1 ≤ due x (log ++ entries d ev) := by
  have hget : recordsGet d.2 x = w.1 := hw.record.get
  obtain ⟨o, acts⟩ := w
  obtain ⟨t, act⟩ := ev
  cases act with
  | sighting mem y =>
    by_cases hy : y = x
    · subst hy
      simp only [viewStep, if_true, entries, hget]
      rcases o with _ | r
      · cases mem with
        | false => exact Nat.zero_le _
        | true =>
          have hself : about (.created y) = y := rfl
          rw [if_pos ⟨rfl, rfl⟩, due_snoc, if_pos rfl, if_pos hself]
          exact armed_le_one _
      · rw [if_neg (by simp), List.append_nil]
        refine Nat.le_trans (armed_le fun h => ?_) hle
        rw [seen, bump_eq] at h
        exact h
    · have hother : about (.created y) ≠ x := hy
      simp only [viewStep, if_neg hy, entries]
      split
      · rwa [due_snoc, if_neg hother]
      · rwa [List.append_nil]
  | report mem host hr =>
    by_cases hx : hr.addr = x
    · simp only [viewStep, if_pos hx]
      rw [armed_reported (hhost mem host hr rfl)]
      exact Nat.zero_le _
    · have hother : about (.copied hr.addr) ≠ x := hx
      simp only [viewStep, if_neg hx, entries]
      split
      · rwa [List.append_nil]
      · rwa [due_snoc, if_neg hother]
  | actionPass => exact absurd rfl hact
  | maintenance =>
    simp only [viewStep, entries, List.append_nil]
    exact (armed_filter _ o).trans hle
  | purgeAll =>
    simp only [viewStep, entries, List.append_nil]
    exact (armed_marked o).trans hle

/-- A step at the vector: a debt comes with a creation only, and a record received pays it. -/
lemma Sourced.vector (h : Sourced o s) (hlock : ¬ Locked s) {ev : Event}
    (hkeyed : ∀ x, EventKeyed x ev)
    (hhost : ∀ mem host hr, ev.act = .report mem host hr → host ≠ localhost) :
    Sourced o (vectorStep o s ev) where
  log := by
    show Accounted (s.log ++ entries s.daemon ev)
    rcases entries_cases s.daemon ev with hnone | ⟨n, hn, hq⟩
    · rw [hnone, List.append_nil]
      exact h.log
    · rw [hn]
      exact accounted_snoc h.log fun r hr => absurd hr (hq r)
  source := by
    intro x
    obtain ⟨w, hw, hle⟩ := h.source x
    refine ⟨_, sees_step hw (hkeyed x), ?_⟩
    rw [owed_unlocked hlock] at hle
    rw [owed_vectorStep hlock]
    show _ ≤ due x (s.log ++ entries s.daemon ev)
    by_cases hact : ev.act = .actionPass
    · obtain ⟨t, act⟩ := ev
      obtain rfl : act = .actionPass := hact
      have hcalls : (passCalls o.toConfig s.daemon t).countP
          (fun c => c.addr = x ∧ Distributed o c) =
          (w.1.toList.flatMap newCalls).countP fun c => Distributed o c := by
        rw [← passCalls_filter o.toConfig hw t, List.countP_filter]
        refine List.countP_congr fun c _ => ?_
        simp [and_comm]
      rw [if_pos rfl, hcalls]
      simp only [viewStep, entries, List.append_nil]
      exact Nat.le_trans (owed_pass o t w.1) hle
    · rw [if_neg hact, List.countP_nil, Nat.add_zero]
      exact armed_step hw hle hact hhost

lemma keyed_of_line {m : Moment} (hfits : LineFits (.moment m)) {ev : Event}
    (hev : m.event o pton e = some ev) (x : CStr) : EventKeyed x ev := by
  obtain ⟨hact, -⟩ := event_eq.mp hev
  obtain ⟨t, act⟩ := ev
  cases act with
  | sighting mem y =>
    obtain ⟨hline, -⟩ := line_of_sighting hact
    obtain ⟨t', list, input⟩ := m
    obtain rfl : input = .line mem y := hline
    exact keyed_of_lt hfits x
  | _ => trivial

/-- A client without a forced flush owes less. -/
lemma Sourced.client (h : Sourced o s) {c : Client.St} (hc : forced c = none) :
    Sourced o { s with client := c } := by
  refine ⟨h.log, fun x => ?_⟩
  obtain ⟨w, hw, hle⟩ := h.source x
  refine ⟨w, hw, Nat.le_trans ?_ hle⟩
  unfold owed
  rw [hc]
  exact Nat.add_le_add_left (Nat.add_le_add_left (Nat.zero_le _) _) _

/-- A call of the client that gives it no record. -/
lemma Sourced.goesOn (h : Sourced o s) {m : Client.Move} (hm : given m = []) :
    Sourced o (Informer.clientDo s m) := by
  refine .clientDo h.log ?_ fun x => ?_
  · rw [hm, List.append_nil]
    exact Option.length_toList_le
  · obtain ⟨w, hw, hle⟩ := h.source x
    exact ⟨w, hw, by rw [hm]; exact hle⟩

lemma sourced_step (h : Sourced o s) {x : Turn} (hhost : HostNumeric x) (hfits : LineFits x) :
    Sourced o (informerStep o pton e s x) := by
  have hgo : Goes o pton e s x (informerStep o pton e s x) := goes_step s x
  generalize informerStep o pton e s x = s' at hgo ⊢
  cases hgo with
  | stay => exact h
  | abort => exact h.client rfl
  | vector m ev hev hlock =>
    exact h.vector hlock (keyed_of_line hfits hev) fun _ _ _ hact => host_of_report hhost hev hact
  | start => exact h.client rfl
  | skip access c rest htodo =>
    refine ⟨h.log, fun y => ?_⟩
    obtain ⟨w, hw, hle⟩ := h.source y
    rw [owed_call htodo] at hle
    exact ⟨w, hw, Nat.le_trans (Nat.le_add_right _ _) hle⟩
  | record access c rest htodo hpc hdist =>
    refine .clientDo h.log ?_ fun y => ?_
    · show ((forced s.client).toList ++ [c.ptr]).length ≤ 1
      rw [forced_idle hpc]
      exact Nat.le_refl _
    · obtain ⟨w, hw, hle⟩ := h.source y
      refine ⟨w, hw, ?_⟩
      rw [owed_call htodo] at hle
      have hgiven : (given (.record c.ptr)).countP (fun r => r.addr = y) =
          if c.addr = y ∧ Distributed o c then 1 else 0 := by
        show List.countP _ [c.ptr] = _
        rw [List.countP_singleton]
        simp [hdist, Call.addr]
      rw [hgiven]
      exact hle
  | flush access rest htodo =>
    have hrest : Sourced o { s with todo := rest } := by
      refine ⟨h.log, fun y => ?_⟩
      obtain ⟨w, hw, hle⟩ := h.source y
      exact ⟨w, hw, by rw [owed_flush htodo]; exact hle⟩
    exact hrest.goesOn rfl
  | next access => exact h.goesOn rfl
  | take k => exact h.goesOn rfl

/-! ### The network of agents -/

variable {ι : Type*} [DecidableEq ι]

/-- What the action thread and the workers of an agent have in their hands. -/
def outgoing (s : Informer.St) :
    List Job × List Client.Queue × (ℕ → Option HostRecord) × List HostRecord :=
  (s.todo, s.client.queues, s.client.vector, s.client.accepted)

/-- A command that comes in gives the agent nothing to send. -/
lemma outgoing_command (s : Informer.St) {m : Moment} {mem : Bool} {host : CStr}
    {buff : Field remoteCommandSize} (hm : m.input = .command mem host buff) :
    outgoing (informerStep o pton e s (.moment m)) = outgoing s := by
  have hgo : Goes o pton e s (.moment m) (informerStep o pton e s (.moment m)) := goes_step s _
  generalize informerStep o pton e s (.moment m) = s' at hgo ⊢
  cases hgo with
  | stay => rfl
  | abort => rfl
  | vector m ev hev =>
    obtain ⟨hact, -⟩ := event_eq.mp hev
    obtain ⟨hr, hcall, -⟩ := worker_call (act_command hm hact)
    have hjobs : jobs o s.daemon ev = [] := by rw [jobs, hcall]
    show (s.todo ++ jobs o s.daemon ev, _) = _
    rw [hjobs, List.append_nil]
    rfl

/-- **No relay**: at every agent of a network each report comes from a creation of a record by
`records_add_ip` at this agent, after which nothing else has been noted about the address: no
other report, and no record received. So there are at most as many reports for an address as
creations of a record for it. A delivery sends nothing, and leaves every agent with what it
had to send. -/
theorem no_relay (A : Agents ι) (moves : List (Move ι Turn Delivery))
    (hhost : ∀ i j, A.host i j ≠ localhost)
    (hown : ∀ i x, .own i x ∈ moves → HostNumeric x ∧ LineFits x) :
    (∀ i, Accounted ((network (protocol A) moves).state i).log) ∧
      (∀ i x, reports x ((network (protocol A) moves).state i).log ≤
        creations x ((network (protocol A) moves).state i).log) ∧
      ∀ k d,
        (netStep (protocol A) (network (protocol A) moves) (.deliver k d)).flight.Sublist
          (network (protocol A) moves).flight ∧
        ∀ i, outgoing ((netStep (protocol A) (network (protocol A) moves) (.deliver k d)).state i) =
          outgoing ((network (protocol A) moves).state i) := by
  have hinit : ∀ i, Sourced (A.options i) ((protocol A).init i) := fun i => sourced_init _
  have hstep : ∀ i s x, Sourced (A.options i) s → HostNumeric x ∧ LineFits x →
      Sourced (A.options i) ((protocol A).step i s x) := fun i s x h hx => sourced_step h hx.1 hx.2
  have harrival : ∀ j i msg d, HostNumeric ((protocol A).arrival j i msg d) ∧
      LineFits ((protocol A).arrival j i msg d) := fun j i msg d => ⟨hhost j i, trivial⟩
  have hsourced : ∀ i, Sourced (A.options i) ((network (protocol A) moves).state i) :=
    network_inv hinit hstep harrival hown
  refine ⟨fun i => (hsourced i).log, fun i x => ?_, fun k d => ⟨?_, fun i => ?_⟩⟩
  · exact Nat.le_trans (Nat.le_add_right _ _) ((hsourced i).log.count x)
  · exact deliver_flight (fun j i msg d s => rfl) _ k d
  · rcases netStep_state (P := protocol A) (network (protocol A) moves) (.deliver k d) i with
      hsame | ⟨x, hx, hnew⟩
    · rw [hsame]
    · rw [hnew]
      rcases hx with hown | ⟨j, msg, d', rfl⟩
      · cases hown
      · exact outgoing_command _ rfl

/-- Two agents that inform each other. -/
def pair : Agents Bool where
  options := fun _ => informs
  peers := fun i => [!i]
  host := fun _ _ => ascii "198.51.100.1"
  pton := fun _ => quadPton
  endian := fun i => if i then .big else .little
  informAgents_eq := fun _ => rfl

/-- Both start their clients, one has three sightings and sends its report, and both make a
pass when the report has come in. -/
def circle : List (Move Bool Turn Delivery) :=
  [.own false .start, .own true .start,
    .own false (.moment ⟨100, Exclude.excludeInit, .line true (ascii "192.0.2.7")⟩),
    .own false (.moment ⟨101, Exclude.excludeInit, .line true (ascii "192.0.2.7")⟩),
    .own false (.moment ⟨102, Exclude.excludeInit, .line true (ascii "192.0.2.7")⟩),
    .own false (.moment ⟨102, Exclude.excludeInit, .actionPass⟩), .own false (.go true),
    .own false (.go true), .own false (.go true), .own false (.go true), .own false (.take 0),
    .deliver 0 ⟨103, Exclude.excludeInit, true⟩,
    .own true (.moment ⟨104, Exclude.excludeInit, .actionPass⟩), .own true (.go true),
    .own true (.go true)]

/-- The report goes round no circle. -/
theorem no_relay_run :
    let n := network (protocol pair) circle
    reports (ascii "192.0.2.7") (n.state false).log = 1 ∧ n.flight = [] ∧
      ((n.state true).daemon.1.map Call.addr) = [ascii "192.0.2.7"] ∧
      ∀ i x, reports x (n.state i).log ≤ creations x (n.state i).log := by
  refine ⟨by decide +kernel, by decide +kernel, by decide +kernel, ?_⟩
  have hhost : ascii "198.51.100.1" ≠ localhost := by decide
  refine (no_relay pair circle (fun _ _ => hhost) fun i x hx => ?_).2.1
  simp only [circle, List.mem_cons, List.not_mem_nil, or_false, Move.own.injEq, reduceCtorEq,
    false_or] at hx
  rcases hx with ⟨-, rfl⟩ | ⟨-, rfl⟩ | ⟨-, rfl⟩ | ⟨-, rfl⟩ | ⟨-, rfl⟩ | ⟨-, rfl⟩ | ⟨-, rfl⟩ |
    ⟨-, rfl⟩ | ⟨-, rfl⟩ | ⟨-, rfl⟩ | ⟨-, rfl⟩ | ⟨-, rfl⟩ | ⟨-, rfl⟩ | ⟨-, rfl⟩
  all_goals exact ⟨by decide, by decide⟩

end Agentsmith.NoRelay
