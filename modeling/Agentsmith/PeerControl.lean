import Agentsmith.Intake

/-!
What a peer controls of the records it reports.

An `ADD` carries all fields of a record. The worker writes three of them itself before it hands
the record on, and a record in place keeps its processing state. So whatever a peer sends in
these three fields makes no difference.
-/

namespace Agentsmith.PeerControl

open Agentsmith.Lib Agentsmith.Lib.CStrings Agentsmith.Lib.Slots Agentsmith.Lib.Words
open Agentsmith.Globals Agentsmith.Records Agentsmith.RecordsMap Agentsmith.NetShared
open Agentsmith.Daemon Agentsmith.Intake
open Agentsmith.Exclude (InetPton)
open Agentsmith.ExcludeCidr (quadPton)

variable {o : Options} {pton : InetPton} {e : Endian} {s : St} {host : CStr} {mem : Bool}
variable {now : Int64} {hr : HostRecord}

/-- The buffers differ in the bytes of `origin`, `remove` and `processed` at most. -/
def SameButControl (b c : Field remoteCommandSize) : Prop :=
  ∀ i, i < 4 ∨ (50 ≤ i ∧ i < 136) → b.1[i]? = c.1[i]?

instance (b c : Field remoteCommandSize) : Decidable (SameButControl b c) :=
  decidable_of_iff (∀ i ∈ List.range 136, (i < 4 ∨ 50 ≤ i) → b.1[i]? = c.1[i]?)
    ⟨fun h i hi => h i (List.mem_range.mpr (by omega)) (by omega), fun h i hi hor =>
      h i (by have := List.mem_range.mp hi; omega)⟩

/-- What a peer says about `origin`, `remove` and `processed`. -/
def controlled (hr : HostRecord) (origin : Field ipaddrSize) (remove processed : Int32) :
    HostRecord :=
  { hr with origin := origin, remove := remove, processed := processed }

/-- The worker takes a command, and calls into the vector if it lets it through. -/
def takeCommand (o : Options) (pton : InetPton) (e : Endian) (list : Exclude.Store) (mem : Bool)
    (host : CStr) (now : Int64) (buff : Field remoteCommandSize) (s : St) : Option St :=
  agentStep o pton e (some s) ⟨now, list, .command mem host buff⟩

/-- The worker lets the record through: it is not excluded, and has the counts of an honest one. -/
def LetThrough (o : Options) (pton : InetPton) (e : Endian) (list : Exclude.Store)
    (buff : Field remoteCommandSize) : Prop :=
  let (command, hr) := (netBuffToCommand e buff.1).1
  command = addCommand ∧ workerExcluded o pton e list hr = some false ∧
    hr.occurrences ≥ hr.actionThreshold

instance (o : Options) (pton : InetPton) (e : Endian) (list : Exclude.Store)
    (buff : Field remoteCommandSize) : Decidable (LetThrough o pton e list buff) :=
  inferInstanceAs (Decidable (_ ∧ _))

/-! ### Decoding -/

lemma peek_congr {l l' : List UInt8} {pos n : ℕ} (h : ∀ i, pos ≤ i → i < pos + n → l[i]? = l'[i]?) :
    peek l pos n = peek l' pos n := by
  refine List.ext_getElem? fun i => ?_
  unfold peek
  rw [List.getElem?_take, List.getElem?_take]
  split
  · rw [List.getElem?_drop, List.getElem?_drop]
    exact h (pos + i) (by omega) (by omega)
  · rfl

/-- The commands are the same, and the records up to the three fields. -/
lemma decode_same {b c : Field remoteCommandSize} (h : SameButControl b c) :
    ∃ command hr origin remove processed, (netBuffToCommand e b.1).1 = (command, hr) ∧
      (netBuffToCommand e c.1).1 = (command, controlled hr origin remove processed) := by
  have hpeek : ∀ pos n, pos + n ≤ 4 ∨ (50 ≤ pos ∧ pos + n ≤ 136) →
      peek c.1 pos n = peek b.1 pos n := fun pos n hpos =>
    peek_congr fun i h1 h2 => (h i (by omega)).symm
  rw [netBuffToCommand_eq e b.2, netBuffToCommand_eq e c.2]
  refine ⟨_, _, (unwire c.1).2.origin, (unwire c.1).2.remove, (unwire c.1).2.processed, rfl, ?_⟩
  unfold unwire controlled
  dsimp only
  rw [hpeek 0 4 (by omega), hpeek 50 46 (by omega), hpeek 96 8 (by omega), hpeek 104 8 (by omega),
    hpeek 112 8 (by omega), hpeek 120 8 (by omega), hpeek 128 4 (by omega), hpeek 132 4 (by omega)]

/-! ### The worker -/

/-- What becomes of a command, once it is decoded. -/
lemma takeCommand_eq {list : Exclude.Store} {b : Field remoteCommandSize} {command : UInt32}
    (h : (netBuffToCommand e b.1).1 = (command, hr)) :
    takeCommand o pton e list mem host now b s =
      if command = addCommand then
        (workerExcluded o pton e list hr).bind fun excluded =>
          if excluded then some s
          else if hr.occurrences ≥ hr.actionThreshold then
            some (daemonStep o.toConfig s ⟨now, .report mem host hr⟩)
          else none
      else some s := by
  unfold takeCommand agentStep Moment.act networkServerWorker
  simp only [h]
  by_cases hadd : command = addCommand
  · simp only [if_pos hadd]
    rcases workerExcluded o pton e list hr with _ | _ | _
    · rfl
    · by_cases hle : hr.occurrences ≥ hr.actionThreshold <;> simp [hle]
    · rfl
  · by_cases hother : command = removeCommand ∨ command = informationCommand <;>
      simp [hadd, hother]

/-- **The three fields make no difference**: the same state, or the same failed assertion. -/
theorem takeCommand_same {b c : Field remoteCommandSize} (h : SameButControl b c)
    (list : Exclude.Store) : takeCommand o pton e list mem host now c s =
      takeCommand o pton e list mem host now b s := by
  obtain ⟨command, hr, origin, remove, processed, hb, hc⟩ := decode_same h
  rw [takeCommand_eq hb, takeCommand_eq hc]
  -- neither the checks nor what the worker hands on look at the three fields
  rfl

/-! ### The record that results -/

/-- What the vector holds after a record has been let through: the one in place is overwritten and
keeps its processing state, or the record is new. -/
inductive Reported (host : CStr) (mem : Bool) (hr : HostRecord) (v v' : Store) : Prop
  | merged (i : ℕ) (old q : HostRecord) (hfind : recordsFind v hr.addr = some (i, old))
      (hslot : ∀ j, slot v'.vec j = if j = i then some q else slot v.vec j)
      (horigin : q.origin = copyCut ipaddrSize host) (hremove : q.remove = 0)
      (hprocessed : q.processed = old.processed)
  | inserted (i : ℕ) (q : HostRecord) (hfind : recordsFind v hr.addr = none)
      (hfree : slot v.vec i = none)
      (hslot : ∀ j, slot v'.vec j = if j = i ∧ mem = true then some q else slot v.vec j)
      (horigin : q.origin = copyCut ipaddrSize host) (hremove : q.remove = 0)
      (hprocessed : q.processed = 0)

lemma merge_control (now : Int64) (host : CStr) (hr old : HostRecord) :
    (merge now (workerRecord host hr) old).origin = copyCut ipaddrSize host ∧
      (merge now (workerRecord host hr) old).remove = 0 ∧
      (merge now (workerRecord host hr) old).processed = old.processed := by
  rw [merge, bump_eq]
  exact ⟨rfl, rfl, rfl⟩

/-- **What a report leaves**, in both cases. -/
theorem report_stored (h : Shape s.2) :
    Reported host mem hr s.2
      (daemonStep o.toConfig s ⟨now, .report mem host hr⟩).2 := by
  have hstep : (daemonStep o.toConfig s ⟨now, .report mem host hr⟩).2 =
      (recordsAddRecord now mem (workerRecord host hr) s.2).1 := rfl
  rw [hstep, recordsAddRecord]
  have haddr : (workerRecord host hr).addr = hr.addr := rfl
  rw [haddr]
  rcases hf : recordsFind s.2 hr.addr with _ | ⟨i, old⟩
  · obtain ⟨i, hi, hset⟩ := Chunks.place_slot h mem (workerRecord host hr)
    exact .inserted i (workerRecord host hr) hf hi hset rfl rfl rfl
  · obtain ⟨hi, -⟩ := find_slot h hf
    obtain ⟨horigin, hremove, hprocessed⟩ := merge_control now host hr old
    exact .merged i old _ hf (slot_set (slot_lt hi) _) horigin hremove hprocessed

/-- **A peer controls neither origin, removal nor processing state**: of two buffers that differ
in these fields only, the worker leaves the same state, and what it stores has the peer's address
as its origin, is not flagged, and has the processing state of the record in place, or none. -/
theorem peer_controls_nothing (o : Options) (pton : InetPton) (e : Endian) (list : Exclude.Store)
    (mem : Bool) (host : CStr) (now : Int64) (s : St) (hshape : Shape s.2)
    (b c : Field remoteCommandSize) (h : SameButControl b c) :
    takeCommand o pton e list mem host now c s = takeCommand o pton e list mem host now b s ∧
      ∀ s', takeCommand o pton e list mem host now b s = some s' →
        if LetThrough o pton e list b then
          Reported host mem (netBuffToCommand e b.1).1.2 s.2 s'.2
        else s' = s := by
  refine ⟨takeCommand_same h list, fun s' hs' => ?_⟩
  rw [takeCommand_eq (Prod.eta (netBuffToCommand e b.1).1).symm] at hs'
  split at hs'
  · rename_i hadd
    obtain ⟨excluded, hex, hrest⟩ := Option.bind_eq_some_iff.mp hs'
    cases excluded with
    | true =>
      rw [if_neg fun hlet => by cases hex.symm.trans hlet.2.1]
      exact (Option.some.inj hrest).symm
    | false =>
      rw [if_neg Bool.false_ne_true] at hrest
      split at hrest
      · rename_i hle
        rw [if_pos ⟨hadd, hex, hle⟩, ← Option.some.inj hrest]
        exact report_stored hshape
      · cases hrest
  · rename_i hadd
    rw [if_neg fun hlet => hadd hlet.1]
    exact (Option.some.inj hs').symm

/-- A record of `192.0.2.7`, and the same one with other words about it. -/
def honest : HostRecord :=
  { fresh initConfig.toConfig 90 (ascii "192.0.2.7") with occurrences := 3 }

def forged : HostRecord := controlled honest (copyCut ipaddrSize localhost) 7 1

/-- Both buffers leave the same record of a new address, and it has the name of the peer. -/
theorem peer_controls_nothing_run :
    takeCommand initConfig quadPton .little Exclude.excludeInit true (ascii "198.51.100.1") 100
        (frame addCommand forged) ([], recordsInit) =
      takeCommand initConfig quadPton .little Exclude.excludeInit true (ascii "198.51.100.1") 100
        (frame addCommand honest) ([], recordsInit) ∧
      ∀ s', takeCommand initConfig quadPton .little Exclude.excludeInit true
          (ascii "198.51.100.1") 100 (frame addCommand honest) ([], recordsInit) = some s' →
        if LetThrough initConfig quadPton .little Exclude.excludeInit (frame addCommand honest) then
          Reported (ascii "198.51.100.1") true
            (netBuffToCommand .little (frame addCommand honest).1).1.2 recordsInit s'.2
        else s' = ([], recordsInit) :=
  peer_controls_nothing initConfig quadPton .little Exclude.excludeInit true
    (ascii "198.51.100.1") 100 ([], recordsInit) shape_init (frame addCommand honest)
    (frame addCommand forged) (by decide +kernel)

end Agentsmith.PeerControl
