import Agentsmith.ExcludeCidr
import Agentsmith.NetShared
import Agentsmith.Stored

/-!
What comes into the daemon: the strings `regex_do` captures from the log file, and the
commands other hosts send to a server worker.

Both check the exclude list first. What passes is a call into the vector, so a run of the
agent is a run of the daemon over the calls let through. Where an assertion fails or the
behaviour is undefined the run has no state.
-/

namespace Agentsmith.Intake

open Agentsmith.Lib.CStrings Agentsmith.Lib.Words Agentsmith.Lib.Runs Agentsmith.Globals
open Agentsmith.NetShared Agentsmith.Daemon Agentsmith.Stored
open Agentsmith.Exclude (InetPton excludeIsexcluded)

/-! ### The two ways in -/

/-- `RemoteAgentSmithCommands`. -/
def addCommand : UInt32 := 0
def removeCommand : UInt32 := 1
def informationCommand : UInt32 := 2

/-- What a server worker does with a command. -/
inductive Outcome
  | call (a : Act)
  | ignored
  | hangUp
  deriving DecidableEq

section

variable (o : Options) (pton : InetPton) (e : Endian)

/-- `regex_do`, from the match on. `mem` says whether `malloc` gives memory for a record. -/
def regexDo (list : Exclude.Store) (mem : Bool) (m : CStr) : Option (Option Act) :=
  (excludeIsexcluded pton e m list).map fun r =>
    if r ≠ retvalOk then some (.sighting mem m) else none

/-- The exclude list as a server worker asks it. -/
def workerExcluded (list : Exclude.Store) (hr : HostRecord) : Option Bool :=
  if o.remoteAuthoritative = 0 then
    (excludeIsexcluded pton e hr.addr list).map fun r => decide (r = retvalOk)
  else some false

/-- The loop body of `network_server_worker`, for a buffer read from `host`. -/
def networkServerWorker (list : Exclude.Store) (mem : Bool) (host : CStr) (buff : List UInt8) :
    Option Outcome :=
  let (rcommand, hr) := (netBuffToCommand e buff).1
  if rcommand = addCommand then
    match workerExcluded o pton e list hr with
    | none => none
    | some true => some .ignored
    | some false =>
      -- the assertion on what an honest sender makes sure of
      if hr.occurrences ≥ hr.actionThreshold then some (.call (.report mem host hr)) else none
  else if rcommand = removeCommand ∨ rcommand = informationCommand then some .ignored
  else some .hangUp

end

/-- A command on its way, as its sender writes it. -/
def frame (command : UInt32) (hr : HostRecord) : Field remoteCommandSize :=
  ⟨(wire command hr).flatten, wire_length command hr⟩

/-! ### Runs -/

inductive Input
  | line (mem : Bool) (m : CStr)
  | command (mem : Bool) (host : CStr) (buff : Field remoteCommandSize)
  | actionPass
  | maintenance
  | purgeAll

/-- A step of one of the threads, and the exclude list it finds. -/
structure Moment where
  time : Int64
  list : Exclude.Store
  input : Input

section

variable (o : Options) (pton : InetPton) (e : Endian)

/-- The call into the vector, if there is one. -/
def Moment.act (m : Moment) : Option (Option Act) :=
  match m.input with
  | .line mem s => regexDo pton e m.list mem s
  | .command mem host buff => (networkServerWorker o pton e m.list mem host buff.1).map fun r =>
    match r with
    | .call a => some a
    | _ => none
  | .actionPass => some (some .actionPass)
  | .maintenance => some (some .maintenance)
  | .purgeAll => some (some .purgeAll)

def agentStep (s : Option St) (m : Moment) : Option St :=
  match s, m.act o pton e with
  | some s, some (some a) => some (daemonStep o.toConfig s ⟨m.time, a⟩)
  | some s, some none => some s
  | _, _ => none

def agent (ms : List Moment) : Option St :=
  run (agentStep o pton e) (some ([], Records.recordsInit)) ms

/-- The call let through, at its time. -/
def Moment.event (m : Moment) : Option Event :=
  match m.act o pton e with
  | some (some a) => some ⟨m.time, a⟩
  | _ => none

def admitted (ms : List Moment) : List Event := ms.filterMap (Moment.event o pton e)

variable {o pton e}

lemma event_eq {m : Moment} {ev : Event} :
    m.event o pton e = some ev ↔ m.act o pton e = some (some ev.act) ∧ m.time = ev.time := by
  obtain ⟨t, a⟩ := ev
  unfold Moment.event
  rcases m.act o pton e with _ | _ | b <;> simp [and_comm]

lemma mem_admitted {ms : List Moment} {ev : Event} (h : ev ∈ admitted o pton e ms) :
    ∃ m ∈ ms, m.act o pton e = some (some ev.act) ∧ m.time = ev.time := by
  obtain ⟨m, hm, hev⟩ := List.mem_filterMap.mp h
  exact ⟨m, hm, event_eq.mp hev⟩

/-- A record let through has come with an `ADD`, is not excluded, and has the counts that the
worker asserts. -/
lemma worker_call {list : Exclude.Store} {mem : Bool} {host : CStr} {buff : List UInt8} {a : Act}
    (h : networkServerWorker o pton e list mem host buff = some (.call a)) :
    ∃ hr, a = .report mem host hr ∧ (netBuffToCommand e buff).1 = (addCommand, hr) ∧
      workerExcluded o pton e list hr = some false ∧ hr.actionThreshold ≤ hr.occurrences := by
  unfold networkServerWorker at h
  dsimp only at h
  split at h
  · rename_i hadd
    split at h
    · cases h
    · cases h
    · rename_i hex
      split at h
      · rename_i hle
        cases h
        exact ⟨_, rfl, Prod.ext hadd rfl, hex, hle⟩
      · cases h
  · split at h <;> cases h

lemma act_command {m : Moment} {mem : Bool} {host : CStr} {buff : Field remoteCommandSize} {a : Act}
    (hi : m.input = .command mem host buff) (h : m.act o pton e = some (some a)) :
    networkServerWorker o pton e m.list mem host buff.1 = some (.call a) := by
  unfold Moment.act at h
  rw [hi] at h
  obtain ⟨r, hr, hcall⟩ := Option.map_eq_some_iff.mp h
  rcases r with b | _ | _
  · rw [hr, Option.some.inj hcall]
  · cases hcall
  · cases hcall

lemma act_line {m : Moment} {mem : Bool} {x : CStr} {a : Act} (hi : m.input = .line mem x)
    (h : m.act o pton e = some (some a)) :
    a = .sighting mem x ∧ ∃ r, excludeIsexcluded pton e x m.list = some r ∧ r ≠ retvalOk := by
  unfold Moment.act at h
  rw [hi] at h
  obtain ⟨r, hr, hcall⟩ := Option.map_eq_some_iff.mp h
  split at hcall
  · rename_i hne
    exact ⟨(Option.some.inj hcall).symm, r, hr, hne⟩
  · cases hcall

/-- A sighting let through is of a captured string, and not of an excluded one. -/
lemma line_of_sighting {m : Moment} {mem : Bool} {x : CStr}
    (h : m.act o pton e = some (some (.sighting mem x))) :
    m.input = .line mem x ∧ ∃ r, excludeIsexcluded pton e x m.list = some r ∧ r ≠ retvalOk := by
  rcases hi : m.input with ⟨mem', y⟩ | ⟨mem', host, buff⟩ | _ | _ | _
  · obtain ⟨ha, hex⟩ := act_line hi h
    obtain ⟨rfl, rfl⟩ := Act.sighting.inj ha
    exact ⟨rfl, hex⟩
  · obtain ⟨hr, ha, -⟩ := worker_call (act_command hi h)
    cases ha
  all_goals
    unfold Moment.act at h
    rw [hi] at h
    cases h

lemma command_of_report {m : Moment} {mem : Bool} {host : CStr} {hr : HostRecord}
    (h : m.act o pton e = some (some (.report mem host hr))) :
    ∃ buff, m.input = .command mem host buff ∧
      (netBuffToCommand e buff.1).1 = (addCommand, hr) ∧
      workerExcluded o pton e m.list hr = some false ∧ hr.actionThreshold ≤ hr.occurrences := by
  rcases hi : m.input with ⟨mem', y⟩ | ⟨mem', host', buff⟩ | _ | _ | _
  · obtain ⟨ha, -⟩ := act_line hi h
    cases ha
  · obtain ⟨hr', ha, hrest⟩ := worker_call (act_command hi h)
    obtain ⟨rfl, rfl, rfl⟩ := Act.report.inj ha
    exact ⟨buff, rfl, hrest⟩
  all_goals
    unfold Moment.act at h
    rw [hi] at h
    cases h

/-- One moment: nothing, or a step of the daemon. -/
lemma agentStep_some {s s' : St} {m : Moment} (h : agentStep o pton e (some s) m = some s') :
    s' = run (daemonStep o.toConfig) s (m.event o pton e).toList := by
  unfold agentStep at h
  unfold Moment.event
  generalize m.act o pton e = act at h ⊢
  rcases act with _ | _ | a
  · cases h
  · exact (Option.some.inj h).symm
  · exact (Option.some.inj h).symm

/-- **The agent is the daemon** over the calls let through. -/
theorem agent_eq (ms : List Moment) {s : St} (h : agent o pton e ms = some s) :
    s = daemon o.toConfig (admitted o pton e ms) := by
  refine run_some_hist (P := fun ms s => s = daemon o.toConfig (admitted o pton e ms))
    (fun _ => rfl) (fun s hs => ?_) (fun ms m s s' hs hstep => ?_) h
  · exact (Option.some.inj hs).symm
  · rw [agentStep_some hstep, hs]
    unfold daemon admitted
    rw [List.filterMap_append, run_append]
    rcases hev : m.event o pton e with _ | ev <;> simp [hev]

variable (o pton e) in
/-- The strings that an input brings into the vector. -/
inductive Brought (m : Moment) : Field ipaddrSize → Field ipaddrSize → Prop
  | line {mem : Bool} {x : CStr} (hi : m.input = .line mem x)
      (hex : excludeIsexcluded pton e x m.list ≠ some retvalOk) :
      Brought m (copyCut ipaddrSize localhost) (copyCut ipaddrSize x)
  | command {mem : Bool} {host : CStr} {buff : Field remoteCommandSize} {hr : HostRecord}
      (hi : m.input = .command mem host buff)
      (hcmd : (netBuffToCommand e buff.1).1 = (addCommand, hr))
      (hex : workerExcluded o pton e m.list hr = some false)
      (hle : hr.actionThreshold ≤ hr.occurrences) :
      Brought m (copyCut ipaddrSize host) hr.ipaddr

lemma brought_of_strings {m : Moment} {ev : Event} (h : m.act o pton e = some (some ev.act))
    {f g : Field ipaddrSize} (hs : strings ev = some (f, g)) : Brought o pton e m f g := by
  obtain ⟨t, act⟩ := ev
  cases act with
  | sighting mem x =>
    obtain ⟨hi, r, hr, hne⟩ := line_of_sighting h
    obtain ⟨rfl, rfl⟩ := Prod.mk.inj (Option.some.inj hs)
    exact .line hi fun hex => hne (Option.some.inj (hr.symm.trans hex))
  | report mem host hr =>
    obtain ⟨buff, hi, hcmd, hex, hle⟩ := command_of_report h
    obtain ⟨rfl, rfl⟩ := Prod.mk.inj (Option.some.inj hs)
    exact .command hi hcmd hex hle
  | actionPass => cases hs
  | maintenance => cases hs
  | purgeAll => cases hs

/-- **The rule of the strings let through**: what holds of them holds of the strings of every
record that is ever stored or called with. -/
theorem agent_strings {P : Field ipaddrSize → Field ipaddrSize → Prop} {ms : List Moment}
    (h : ∀ m ∈ ms, ∀ f g, Brought o pton e m f g → P f g) {s : St}
    (hs : agent o pton e ms = some s) :
    All (fun r => P r.origin r.ipaddr) s ∧ ∀ c ∈ shutdown s, P c.ptr.origin c.ptr.ipaddr := by
  have hev : ∀ ev ∈ admitted o pton e ms, Brings P ev := by
    intro ev hev f g hfg
    obtain ⟨m, hm, hact, -⟩ := mem_admitted hev
    exact h m hm f g (brought_of_strings hact hfg)
  rw [agent_eq ms hs]
  exact all_strings o.toConfig hev

end

end Agentsmith.Intake
