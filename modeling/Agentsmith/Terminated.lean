import Agentsmith.Intake

/-!
Strings that end within their fields.

A captured string is copied into its field with a NUL behind it, and so is the address of the
host that sends a record. The address in a received record is taken from the wire as it is.
-/

namespace Agentsmith.Terminated

open Agentsmith.Lib.CStrings Agentsmith.Lib.Slots Agentsmith.Lib.Words Agentsmith.Lib.Runs
open Agentsmith.Globals Agentsmith.Records Agentsmith.NetShared Agentsmith.Daemon
open Agentsmith.Stored Agentsmith.Intake
open Agentsmith.Exclude (InetPton)
open Agentsmith.ExcludeCidr (quadPton)

variable {o : Options} {pton : InetPton} {e : Endian} {ms : List Moment} {s : St}

/-- The received address that string functions run on: the exclude list is asked for it, or,
past the assertion, the vector is searched for it. -/
def lookedUp (o : Options) (e : Endian) (m : Moment) : Option (Field ipaddrSize) :=
  match m.input with
  | .command _ _ buff =>
    let cmd := (netBuffToCommand e buff.1).1
    if cmd.1 = addCommand ∧
        (o.remoteAuthoritative = 0 ∨ cmd.2.occurrences ≥ cmd.2.actionThreshold) then
      some cmd.2.ipaddr
    else none
  | _ => none

/-- The fields of records that string functions run on in a step: a search compares every
address it comes by (here it goes on behind the match), an action formats both strings. -/
def reads (o : Options) (e : Endian) (s : St) (m : Moment) : List (Field ipaddrSize) :=
  match m.input with
  | .line _ _ => (live s.2.vec).map HostRecord.ipaddr
  | .command _ _ _ => match lookedUp o e m with
    | some f => f :: (live s.2.vec).map HostRecord.ipaddr
    | none => []
  | .actionPass =>
    ((live s.2.vec).filter fun r => Due r).flatMap fun r => [r.origin, r.ipaddr]
  | .maintenance =>
    ((live s.2.vec).filter fun r => r.remove ≠ 0 ∧ r.processed ≠ 0).flatMap fun r =>
      [r.origin, r.ipaddr]
  | .purgeAll => []

/-- Both strings of a record end in their fields. -/
def Ends (r : HostRecord) : Prop := r.origin.Terminated ∧ r.ipaddr.Terminated

/-- In every state reached both strings of every live record end in their fields, and so does
every field that the next step reads. -/
def StaysInside (o : Options) (pton : InetPton) (e : Endian) (ms : List Moment) : Prop :=
  ∀ pre post, ms = pre ++ post → ∀ s, agent o pton e pre = some s →
    (∀ r ∈ live s.2.vec, Ends r) ∧ ∀ m ∈ post.head?, ∀ f ∈ reads o e s m, f.Terminated

/-! ### The writers -/

lemma copyCut_terminated (x : CStr) : (copyCut ipaddrSize x).Terminated := by
  have hlen : ipaddrSize - 1 < (strncpy x ipaddrSize).length := by
    simp [strncpy, ipaddrSize]
    omega
  exact List.mem_set hlen 0

/-- What is let through ends in its fields, if the received address does. -/
lemma brought_ends {m : Moment} (hm : ∀ f ∈ lookedUp o e m, f.Terminated) {f g : Field ipaddrSize}
    (h : Brought o pton e m f g) : f.Terminated ∧ g.Terminated := by
  cases h with
  | line hi hex => exact ⟨copyCut_terminated localhost, copyCut_terminated _⟩
  | @command mem host buff hr hi hcmd hex hle =>
    have hread : lookedUp o e m = some hr.ipaddr := by
      unfold lookedUp
      rw [hi]
      dsimp only
      rw [hcmd]
      exact if_pos ⟨rfl, Or.inr hle⟩
    exact ⟨copyCut_terminated host, hm _ hread⟩

lemma live_ends (hms : ∀ m ∈ ms, ∀ f ∈ lookedUp o e m, f.Terminated)
    (hs : agent o pton e ms = some s) : ∀ r ∈ live s.2.vec, Ends r :=
  (agent_strings (fun m hm _ _ h => brought_ends (hms m hm) h) hs).1.live

lemma reads_end (hlive : ∀ r ∈ live s.2.vec, Ends r) {m : Moment}
    (hm : ∀ f ∈ lookedUp o e m, f.Terminated) : ∀ f ∈ reads o e s m, f.Terminated := by
  have hboth : ∀ p : HostRecord → Bool,
      ∀ f ∈ ((live s.2.vec).filter p).flatMap fun r => [r.origin, r.ipaddr], f.Terminated := by
    intro p f hf
    obtain ⟨r, hr, hf⟩ := List.mem_flatMap.mp hf
    have hends := hlive r (List.mem_of_mem_filter hr)
    rcases List.mem_cons.mp hf with rfl | hf
    · exact hends.1
    · obtain rfl := List.mem_singleton.mp hf
      exact hends.2
  have haddr : ∀ f ∈ (live s.2.vec).map HostRecord.ipaddr, f.Terminated := by
    intro f hf
    obtain ⟨r, hr, rfl⟩ := List.mem_map.mp hf
    exact (hlive r hr).2
  unfold reads
  rcases m.input with _ | _ | _ | _ | _
  · exact haddr
  · rcases hl : lookedUp o e m with _ | g
    · exact fun f hf => absurd hf List.not_mem_nil
    · intro f hf
      rcases List.mem_cons.mp hf with rfl | hf
      · exact hm _ hl
      · exact haddr f hf
  · exact hboth _
  · exact hboth _
  · exact fun f hf => absurd hf List.not_mem_nil

/-! ### Runs -/

/-- **Strings end in their fields** throughout a run just when every received address does
that string functions run on. -/
theorem stays_inside_iff (o : Options) (pton : InetPton) (e : Endian) (ms : List Moment) :
    StaysInside o pton e ms ↔
      ∀ pre m post, ms = pre ++ m :: post → (agent o pton e pre).isSome →
        ∀ f ∈ lookedUp o e m, f.Terminated := by
  refine ⟨fun h pre m post hms hpre f hf => ?_, fun h pre post hms s hs => ?_⟩
  · obtain ⟨s, hs⟩ := Option.isSome_iff_exists.mp hpre
    refine (h pre (m :: post) hms s hs).2 m rfl f ?_
    unfold reads
    unfold lookedUp at hf
    rcases hi : m.input with _ | _ | _ | _ | _ <;> rw [hi] at hf
    · cases hf
    · have hf' : lookedUp o e m = some f := by
        unfold lookedUp
        rw [hi]
        exact hf
      rw [hf']
      exact List.mem_cons_self
    · cases hf
    · cases hf
    · cases hf
  · have hends : ∀ m ∈ pre, ∀ f ∈ lookedUp o e m, f.Terminated := by
      intro m hm
      obtain ⟨a, b, rfl⟩ := List.append_of_mem hm
      have hrun : (agent o pton e (a ++ m :: b)).isSome := by rw [hs]; rfl
      exact h a m (b ++ post) (by rw [hms]; simp) (run_isSome_left (fun _ => rfl) hrun)
    have hlive := live_ends hends hs
    refine ⟨hlive, fun m hm => reads_end hlive ?_⟩
    obtain ⟨rest, rfl⟩ := List.head?_eq_some_iff.mp hm
    exact h pre m rest hms (by rw [hs]; rfl)

/-- A record with 46 bytes in `ipaddr`, none of them NUL. -/
def unended : HostRecord :=
  { fresh initConfig.toConfig 100 localhost with
    ipaddr := ⟨List.replicate 46 65, by decide⟩
    occurrences := 3 }

/-- An `ADD` of it. -/
def overlong : Moment :=
  ⟨100, Exclude.excludeInit, .command true (ascii "198.51.100.1") (frame addCommand unended)⟩

/-- **A string without an end**: the exclude list is asked for it, and it is stored. -/
theorem stays_inside_lost :
    ¬ StaysInside initConfig quadPton .little [overlong] ∧
      ∃ s, agent initConfig quadPton .little [overlong] = some s ∧
        ∃ r ∈ live s.2.vec, ¬ Ends r := by
  refine ⟨fun h => ?_, ?_⟩
  · have hread := (h [] [overlong] rfl _ rfl).2 overlong rfl unended.ipaddr (by decide +kernel)
    exact absurd hread (by decide)
  · have hlive : workerRecord (ascii "198.51.100.1") unended ∈
        live ((agent initConfig quadPton .little [overlong]).getD ([], recordsInit)).2.vec := by
      decide +kernel
    have hsome : (agent initConfig quadPton .little [overlong]).isSome := by decide +kernel
    obtain ⟨s, hs⟩ := Option.isSome_iff_exists.mp hsome
    rw [hs] at hlive
    exact ⟨s, hs, _, hlive, fun hends => absurd hends.2 (by decide)⟩

end Agentsmith.Terminated
