import Agentsmith.Lib.Runs
import Agentsmith.Records

/-!
The threads that work on the host record vector: the follower that reports sightings, the
server workers that report received records, the action thread, the maintenance thread,
and the enumeration started by `SIGUSR2`.

Each of them calls into the vector under its mutex, so a run of the daemon is a list of
such calls with the time of each. What `_do_action` is called with is recorded in order.
-/

namespace Agentsmith.Daemon

open Agentsmith.Lib.CStrings Agentsmith.Lib.Slots Agentsmith.Lib.Runs
open Agentsmith.Globals Agentsmith.Records

variable {σ : Type*}

/-- `ac_type_t`. -/
inductive AcType | new | remove
  deriving DecidableEq

/-- A call of `_do_action`. -/
structure Call where
  type : AcType
  ptr : HostRecord
  deriving DecidableEq

def Call.addr (c : Call) : CStr := c.ptr.addr

section Callbacks

variable (doAction : HostRecord → AcType → σ → σ)

/-- The callback of the action thread; `doAction` is what `_do_action` does. -/
def recordsCallbackActionNew (now : Int64) (e : σ) (ptr : HostRecord) : σ × HostRecord × ℤ :=
  if ptr.occurrences ≥ ptr.actionThreshold ∧ ptr.processed = 0 then
    (doAction ptr .new e, { ptr with processed := 1 }, 0)
  else if ptr.lastseen = 0 then
    if now - ptr.firstseen > ptr.purgeAfter then (e, { ptr with remove := 1 }, 0)
    else (e, ptr, 0)
  else if now - ptr.lastseen > ptr.purgeAfter then (e, { ptr with remove := 1 }, 0)
  else (e, ptr, 0)

/-- The callback of the maintenance thread and of the shutdown. -/
def threadsRecordsCallbackActionRemoval (e : σ) (ptr : HostRecord) : σ :=
  if ptr.processed ≠ 0 then doAction ptr .remove e else e

/-- The callback of the `SIGUSR2` enumeration. -/
def recordsCallbackRemoveAll (e : σ) (ptr : HostRecord) : σ × HostRecord × ℤ :=
  (e, { ptr with remove := 1 }, 0)

end Callbacks

/-- `_do_action`, of which only the call is recorded. -/
def logCall (ptr : HostRecord) (t : AcType) (log : List Call) : List Call := log ++ [⟨t, ptr⟩]

/-- What a server worker makes of a record received from `host`. -/
def workerRecord (host : CStr) (hr : HostRecord) : HostRecord :=
  { hr with remove := 0, processed := 0, origin := copyCut ipaddrSize host }

/-- A step of one of the threads; `mem` says whether `malloc` gives memory. -/
inductive Act
  | sighting (mem : Bool) (x : CStr)
  | report (mem : Bool) (host : CStr) (hr : HostRecord)
  | actionPass
  | maintenance
  | purgeAll
  deriving DecidableEq

structure Event where
  time : Int64
  act : Act
  deriving DecidableEq

/-- The call into the vector. -/
def Event.op (e : Event) : Op (List Call) :=
  match e.act with
  | .sighting mem x => .addIp e.time mem x
  | .report mem host hr => .addRecord e.time mem (workerRecord host hr)
  | .actionPass => .enumerate (recordsCallbackActionNew logCall e.time)
  | .maintenance => .maintenance (some (threadsRecordsCallbackActionRemoval logCall))
  | .purgeAll => .enumerate recordsCallbackRemoveAll

/-- The calls of `_do_action` so far, and the vector. -/
abbrev St := List Call × Store

def daemonStep (cfg : Config) (s : St) (e : Event) : St := step cfg s e.op

def daemon (cfg : Config) (evs : List Event) : St := run (daemonStep cfg) ([], recordsInit) evs

/-- The calls of `_do_action` when the daemon goes down. -/
def shutdown (s : St) : List Call :=
  recordsDestroy (some (threadsRecordsCallbackActionRemoval logCall)) s.1 s.2

/-- What one pass of the action thread calls. -/
def passCalls (cfg : Config) (s : St) (now : Int64) : List Call :=
  (daemonStep cfg s ⟨now, .actionPass⟩).1.drop s.1.length

/-- The clock starts at the Epoch or later and does not go back. -/
def Clocked (evs : List Event) : Prop :=
  (∀ e ∈ evs, 0 ≤ e.time) ∧ evs.Pairwise fun a b => a.time ≤ b.time

/-- No record comes from another host. -/
def Event.Local (e : Event) : Prop :=
  match e.act with
  | .report _ _ _ => False
  | _ => True

/-- Nor does anyone ask for all records to be removed. -/
def Event.Plain (e : Event) : Prop := e.Local ∧ e.act ≠ .purgeAll

/-- The address fits into the field with its NUL. -/
def Event.Fits (e : Event) : Prop :=
  match e.act with
  | .sighting _ x => x.1.length < ipaddrSize
  | .report _ _ hr => hr.ipaddr.Terminated
  | _ => True

instance (evs : List Event) : Decidable (Clocked evs) :=
  inferInstanceAs (Decidable (_ ∧ _))

instance (e : Event) : Decidable e.Local := by
  unfold Event.Local
  split <;> infer_instance

instance (e : Event) : Decidable e.Plain := inferInstanceAs (Decidable (_ ∧ _))

instance (e : Event) : Decidable e.Fits := by
  unfold Event.Fits
  split <;> infer_instance

/-- A call `records_add_ip(x)`. -/
def Event.Sights (x : CStr) (e : Event) : Prop :=
  match e.act with
  | .sighting _ y => y = x
  | _ => False

instance (x : CStr) (e : Event) : Decidable (e.Sights x) := by
  unfold Event.Sights
  split <;> infer_instance

lemma clocked_left {as bs : List Event} (h : Clocked (as ++ bs)) : Clocked as :=
  ⟨fun e he => h.1 e (List.mem_append_left bs he), (List.pairwise_append.mp h.2).1⟩

/-! ### The action callback, branch by branch -/

/-- The action is due. -/
def Due (r : HostRecord) : Prop := r.actionThreshold ≤ r.occurrences ∧ r.processed = 0

/-- The stamp the expiry counts from: a record seen once has only the first one. -/
def stamp (r : HostRecord) : Int64 := if r.lastseen = 0 then r.firstseen else r.lastseen

def Stale (now : Int64) (r : HostRecord) : Prop := now - stamp r > r.purgeAfter

instance (r : HostRecord) : Decidable (Due r) := inferInstanceAs (Decidable (_ ∧ _))
instance (now : Int64) (r : HostRecord) : Decidable (Stale now r) :=
  inferInstanceAs (Decidable (_ > _))

/-- The record after the action thread has passed it. -/
def passed (now : Int64) (r : HostRecord) : HostRecord :=
  if Due r then { r with processed := 1 } else if Stale now r then { r with remove := 1 } else r

def marked (r : HostRecord) : HostRecord := { r with remove := 1 }

/-- The calls the action thread makes for a record. -/
def newCalls (r : HostRecord) : List Call := if Due r then [⟨.new, r⟩] else []

/-- The calls made for a record that is freed. -/
def removalCalls (r : HostRecord) : List Call := if r.processed ≠ 0 then [⟨.remove, r⟩] else []

/-- The calls the maintenance thread makes for a record. -/
def sweptCalls (r : HostRecord) : List Call := if r.remove ≠ 0 then removalCalls r else []

/-- The callback of the action thread, whatever `_do_action` does. -/
lemma actionNew_run (doAction : HostRecord → AcType → σ → σ) (now : Int64) (e : σ)
    (r : HostRecord) :
    recordsCallbackActionNew doAction now e r =
      ((newCalls r).foldl (fun e c => doAction c.ptr c.type e) e, passed now r, 0) := by
  have hdue : (r.occurrences ≥ r.actionThreshold ∧ r.processed = 0) ↔ Due r := Iff.rfl
  by_cases hd : Due r
  · simp only [recordsCallbackActionNew, hdue, newCalls, passed, if_pos hd, List.foldl_cons,
      List.foldl_nil]
  · simp only [recordsCallbackActionNew, hdue, newCalls, passed, if_neg hd, List.foldl_nil]
    by_cases hl : r.lastseen = 0
    · have hst : Stale now r ↔ now - r.firstseen > r.purgeAfter := by
        rw [Stale, stamp, if_pos hl]
      simp only [if_pos hl, hst]
      split <;> rfl
    · have hst : Stale now r ↔ now - r.lastseen > r.purgeAfter := by
        rw [Stale, stamp, if_neg hl]
      simp only [if_neg hl, hst]
      split <;> rfl

lemma removal_run (doAction : HostRecord → AcType → σ → σ) (e : σ) (r : HostRecord) :
    threadsRecordsCallbackActionRemoval doAction e r =
      (removalCalls r).foldl (fun e c => doAction c.ptr c.type e) e := by
  unfold threadsRecordsCallbackActionRemoval removalCalls
  split <;> rfl

lemma foldl_logCall (log calls : List Call) :
    calls.foldl (fun log c => logCall c.ptr c.type log) log = log ++ calls := by
  induction calls generalizing log with
  | nil => rw [List.foldl_nil, List.append_nil]
  | cons c calls ih =>
    rw [List.foldl_cons, ih, logCall, List.append_assoc]
    rfl

lemma actionNew_eq (now : Int64) (log : List Call) (r : HostRecord) :
    recordsCallbackActionNew logCall now log r = (log ++ newCalls r, passed now r, 0) := by
  rw [actionNew_run, foldl_logCall]

lemma removal_eq (log : List Call) (r : HostRecord) :
    threadsRecordsCallbackActionRemoval logCall log r = log ++ removalCalls r := by
  rw [removal_run, foldl_logCall]

/-- A pass changes the two flags at most, and does not take `processed` back. -/
lemma passed_frame (now : Int64) (r : HostRecord) :
    ∃ p m, passed now r = { r with processed := p, remove := m } ∧ (p = 0 → r.processed = 0) := by
  unfold passed
  split
  · exact ⟨1, _, rfl, fun h => absurd h (by decide)⟩
  · split
    · exact ⟨_, 1, rfl, id⟩
    · exact ⟨_, _, rfl, id⟩

lemma passed_addr (now : Int64) (r : HostRecord) : (passed now r).addr = r.addr := by
  obtain ⟨p, m, h, -⟩ := passed_frame now r
  rw [h]
  rfl

lemma newCalls_addr (r : HostRecord) : ∀ c ∈ newCalls r, c.addr = r.addr := by
  intro c hc
  unfold newCalls at hc
  split at hc <;> simp at hc
  rw [hc]; rfl

lemma removalCalls_addr (r : HostRecord) : ∀ c ∈ removalCalls r, c.addr = r.addr := by
  intro c hc
  unfold removalCalls at hc
  split at hc <;> simp at hc
  rw [hc]; rfl

lemma sweptCalls_addr (r : HostRecord) : ∀ c ∈ sweptCalls r, c.addr = r.addr := by
  intro c hc
  unfold sweptCalls at hc
  split at hc
  · exact removalCalls_addr r c hc
  · cases hc

lemma flatMap_sweptCalls (l : List HostRecord) :
    l.flatMap sweptCalls = (l.filter fun r => r.remove ≠ 0).flatMap removalCalls := by
  induction l with
  | nil => rfl
  | cons r l ih =>
    rw [List.flatMap_cons, List.filter_cons, ih]
    unfold sweptCalls
    by_cases hr : r.remove ≠ 0
    · rw [if_pos hr, if_pos (by simpa using hr), List.flatMap_cons]
    · rw [if_neg hr, if_neg (by simpa using hr), List.nil_append]

end Agentsmith.Daemon
