import Agentsmith.Client
import Agentsmith.DoAction
import Agentsmith.Intake

/-!
An agent that informs others: the threads around the vector, and the action thread on its way
through `_do_action` and the client.

A pass leaves the action thread with calls of `_do_action` to make, one after the other, and
a flush to do behind them. It holds the mutex of the vector until the last call is over, so
the other threads wait for that long, but the workers of the queues do not.
-/

namespace Agentsmith.Informer

open Agentsmith.Lib.CStrings Agentsmith.Lib.Words Agentsmith.Lib.Runs Agentsmith.Globals
open Agentsmith.Records Agentsmith.Daemon Agentsmith.Intake Agentsmith.DoAction
open Agentsmith.Client (Pc Move clientStart clientStep)
open Agentsmith.Exclude (InetPton)

/-- What the action thread has still to do in its turn. -/
inductive Job
  | call (c : Call)
  | flush
  deriving DecidableEq

def Job.call? : Job → Option Call
  | .call c => some c
  | .flush => none

/-- What is noted: the address of a record that `records_add_ip` inserts, that of one that
`records_add_record` inserts or overwrites, and a record for which `client_queue_record`
returns `RETVAL_OK`. -/
inductive Entry
  | created (x : CStr)
  | copied (x : CStr)
  | queued (r : HostRecord)
  deriving DecidableEq

structure St where
  daemon : Daemon.St
  todo : List Job
  client : Client.St
  log : List Entry

/-- The threads are started before the client is. -/
def informerInit : St where
  daemon := ([], recordsInit)
  todo := []
  client := ⟨false, [], fun _ => none, 0, .idle, []⟩
  log := []

/-- The calls of `_do_action` left of a pass. -/
def calls (s : St) : List Call := s.todo.filterMap Job.call?

/-- The record for which a flush was forced. -/
def forced (c : Client.St) : Option HostRecord :=
  match c.pc with
  | .flushing _ back => back
  | _ => none

/-- The action thread is in a pass. -/
def Locked (s : St) : Prop := calls s ≠ [] ∨ forced s.client ≠ none

instance (s : St) : Decidable (Locked s) := inferInstanceAs (Decidable (_ ∨ _))

/-- What a call into the vector notes. -/
def entries (d : Daemon.St) (ev : Event) : List Entry :=
  match ev.act with
  | .sighting mem x => if recordsGet d.2 x = none ∧ mem = true then [.created x] else []
  | .report mem _ hr =>
    if recordsGet d.2 hr.addr = none ∧ mem = false then [] else [.copied hr.addr]
  | _ => []

section

variable (o : Options)

/-- What a pass leaves to do. -/
def jobs (d : Daemon.St) (ev : Event) : List Job :=
  match ev.act with
  | .actionPass => (passCalls o.toConfig d ev.time).map .call ++
      if o.inform = 1 ∧ o.informAgents ≠ 0 then [.flush] else []
  | _ => []

def vectorStep (s : St) (ev : Event) : St := { s with
  daemon := daemonStep o.toConfig s.daemon ev
  todo := s.todo ++ jobs o s.daemon ev
  log := s.log ++ entries s.daemon ev }

/-- A failed assertion. -/
def abort (s : St) : St := { s with client := { s.client with pc := .aborted } }

def clientDo (s : St) (m : Move) : St :=
  let c := clientStep s.client m
  { s with
    client := c
    log := s.log ++ (c.accepted.drop s.client.accepted.length).map .queued }

/-- The action thread goes on. `access` is the answer to the next call of `_do_action`. -/
def goOn (access : Bool) (s : St) : St :=
  match s.client.pc, s.todo with
  | .flushing _ _, _ => clientDo s .next
  | .idle, .call c :: rest =>
    match doAction o access c with
    | none => abort s
    | some ⟨none, _⟩ => { s with todo := rest }
    | some ⟨some r, _⟩ => clientDo { s with todo := rest } (.record r)
  | .idle, .flush :: rest => clientDo { s with todo := rest } .flush
  | _, _ => s

/-- A step of a thread at the vector, of `main`, of the action thread, or of a worker. -/
inductive Turn
  | moment (m : Moment)
  | start
  | go (access : Bool)
  | take (k : ℕ)

variable (pton : InetPton) (e : Endian)

def informerStep (s : St) (x : Turn) : St :=
  if s.client.pc = .aborted then s
  else match x with
    | .moment m =>
      if Locked s then s
      else match m.act o pton e with
        | none => abort s
        | some none => s
        | some (some a) =>
          -- the action thread makes one pass after the other
          if a = .actionPass ∧ (s.todo ≠ [] ∨ s.client.pc ≠ .idle) then s
          else vectorStep o s ⟨m.time, a⟩
    | .start =>
      if s.client.started = false ∧ o.inform = 1 ∧ o.informAgents ≠ 0 then
        { s with client := clientStart o.informAgents }
      else s
    | .go access => goOn o access s
    | .take k => clientDo s (.take k)

def informer (xs : List Turn) : St := run (informerStep o pton e) informerInit xs

end

/-- `getnameinfo` gives a server worker an address in numbers, and so another string than
`localhost`. -/
def HostNumeric (x : Turn) : Prop :=
  match x with
  | .moment ⟨_, _, .command _ host _⟩ => host ≠ localhost
  | _ => True

instance (x : Turn) : Decidable (HostNumeric x) :=
  match x with
  | .moment ⟨_, _, .command _ host _⟩ => inferInstanceAs (Decidable (host ≠ localhost))
  | .moment ⟨_, _, .line _ _⟩ | .moment ⟨_, _, .actionPass⟩ | .moment ⟨_, _, .maintenance⟩
  | .moment ⟨_, _, .purgeAll⟩ | .start | .go _ | .take _ => isTrue trivial

/-- The copy of another string is not cut to `localhost`. -/
lemma localhost_of_cut {host : CStr} (h : (copyCut ipaddrSize host).str = localhost) :
    host = localhost := by
  have hcut : host.1.take (ipaddrSize - 1) = localhost.1 := by
    rw [← copyCut_str (by decide), h]
  have hlen := congrArg List.length hcut
  rw [List.length_take] at hlen
  have hloc : localhost.1.length = 9 := by decide
  have hshort : host.1.length ≤ ipaddrSize - 1 := by
    unfold ipaddrSize at hlen ⊢
    omega
  exact Subtype.ext (by rw [← hcut, List.take_of_length_le hshort])

/-! ### What a step can do -/

variable {o : Options} {pton : InetPton} {e : Endian} {s : St} {x : Turn}

/-- The steps of an informer. -/
inductive Goes (o : Options) (pton : InetPton) (e : Endian) (s : St) : Turn → St → Prop
  | stay (x : Turn) : Goes o pton e s x s
  | abort (x : Turn) : Goes o pton e s x (abort s)
  | vector (m : Moment) (ev : Event) : m.event o pton e = some ev → ¬ Locked s →
      (ev.act = .actionPass → s.todo = []) → Goes o pton e s (.moment m) (vectorStep o s ev)
  | start : s.client.started = false →
      Goes o pton e s .start { s with client := clientStart o.informAgents }
  | skip (access : Bool) (c : Call) (rest : List Job) : s.todo = .call c :: rest →
      Goes o pton e s (.go access) { s with todo := rest }
  | record (access : Bool) (c : Call) (rest : List Job) : s.todo = .call c :: rest →
      s.client.pc = .idle → Distributed o c →
      Goes o pton e s (.go access) (clientDo { s with todo := rest } (.record c.ptr))
  | flush (access : Bool) (rest : List Job) : s.todo = .flush :: rest →
      Goes o pton e s (.go access) (clientDo { s with todo := rest } .flush)
  | next (access : Bool) : Goes o pton e s (.go access) (clientDo s .next)
  | take (k : ℕ) : Goes o pton e s (.take k) (clientDo s (.take k))

lemma goes_goOn (access : Bool) : Goes o pton e s (.go access) (goOn o access s) := by
  unfold goOn
  split
  · exact .next access
  · rename_i c rest hpc htodo
    split
    · exact .abort _
    · exact .skip access c rest htodo
    · rename_i r t hd
      obtain ⟨rfl, hdist⟩ := doAction_queue hd rfl
      exact .record access c rest htodo hpc hdist
  · rename_i rest hpc htodo
    exact .flush access rest htodo
  · exact .stay _

/-- **The steps** are all the steps there are. -/
theorem goes_step (s : St) (x : Turn) : Goes o pton e s x (informerStep o pton e s x) := by
  unfold informerStep
  split
  · exact .stay x
  · cases x with
    | moment m =>
      dsimp only
      split
      · exact .stay _
      · rename_i hlock
        split
        · exact .abort _
        · exact .stay _
        · rename_i a hact
          split
          · exact .stay _
          · rename_i hfree
            refine .vector m ⟨m.time, a⟩ (event_eq.mpr ⟨hact, rfl⟩) hlock fun ha => ?_
            by_contra htodo
            exact hfree ⟨ha, Or.inl htodo⟩
    | start =>
      dsimp only
      split
      · rename_i h
        exact .start h.1
      · exact .stay _
    | go access => exact goes_goOn access
    | take k => exact .take k

/-- A pass leaves its calls. -/
lemma calls_vectorStep (ev : Event) : calls (vectorStep o s ev) = calls s ++
    if ev.act = .actionPass then passCalls o.toConfig s.daemon ev.time else [] := by
  show (s.todo ++ jobs o s.daemon ev).filterMap Job.call? = _
  rw [List.filterMap_append]
  congr 1
  unfold jobs
  split
  · rename_i hact
    rw [if_pos hact, List.filterMap_append, List.filterMap_map]
    have hid : (Job.call? ∘ Job.call) = some := rfl
    rw [hid, List.filterMap_some]
    split <;> simp [Job.call?]
  · rename_i hact
    rw [if_neg hact]
    rfl

/-! ### The daemon inside -/

/-- What holds of the calls into the vector that an input makes. -/
def Admits (o : Options) (pton : InetPton) (e : Endian) (ok : Event → Prop) (x : Turn) : Prop :=
  ∀ m ev, x = .moment m → m.event o pton e = some ev → ok ev

lemma host_of_report {m : Moment} {ev : Event} (hm : HostNumeric (.moment m))
    (hev : m.event o pton e = some ev) {mem : Bool} {host : CStr} {hr : HostRecord}
    (hact : ev.act = .report mem host hr) : host ≠ localhost := by
  obtain ⟨hm', -⟩ := event_eq.mp hev
  rw [hact] at hm'
  obtain ⟨buff, hinput, -⟩ := command_of_report hm'
  obtain ⟨t, list, input⟩ := m
  obtain rfl : input = .command mem host buff := hinput
  exact hm

/-- **The informer has a daemon inside**, which takes the calls that are let through. -/
theorem informer_daemon {ok : Event → Prop} {xs : List Turn}
    (h : ∀ x ∈ xs, Admits o pton e ok x) :
    ∃ evs : List Event, (∀ ev ∈ evs, ok ev) ∧
      (informer o pton e xs).daemon = daemon o.toConfig evs := by
  refine run_inv (P := fun s : St => ∃ evs : List Event, (∀ ev ∈ evs, ok ev) ∧
    s.daemon = daemon o.toConfig evs) ⟨[], by simp, rfl⟩ ?_ h
  rintro s x ⟨evs, hevs, hs⟩ hx
  have hgo : Goes o pton e s x (informerStep o pton e s x) := goes_step s x
  generalize informerStep o pton e s x = s' at hgo
  cases hgo with
  | vector m ev hev =>
    refine ⟨evs ++ [ev], fun f hf => ?_, ?_⟩
    · rcases List.mem_append.mp hf with hold | hnew
      · exact hevs f hold
      · rw [List.mem_singleton.mp hnew]
        exact hx m ev rfl hev
    · show daemonStep o.toConfig s.daemon ev = _
      rw [hs]
      exact (run_snoc evs ev).symm
  | _ => exact ⟨evs, hevs, hs⟩

/-- An agent that informs another one. -/
def informs : Options := { initConfig with inform := 1, informAgents := 1 }

end Agentsmith.Informer
