import Agentsmith.Intake

/-!
Excluded hosts are never acted on, and not remembered.

Each of the two ways in asks for the very string it stores. As long as the list stays as it
is, no record under an excluded address can therefore come into being, and updates keep the
address of a record.
-/

namespace Agentsmith.Whitelist

open Agentsmith.Lib.CStrings Agentsmith.Lib.Slots Agentsmith.Lib.Words Agentsmith.Globals
open Agentsmith.Records Agentsmith.NetShared Agentsmith.Daemon Agentsmith.Stored
open Agentsmith.Intake
open Agentsmith.Exclude (InetPton excludeIsexcluded)
open Agentsmith.ExcludeCidr (quadPton)

variable {o : Options} {pton : InetPton} {e : Endian} {list : Exclude.Store} {ms : List Moment}

/-- The address that comes in has its NUL within the field. -/
def Fits (e : Endian) (m : Moment) : Prop :=
  match m.input with
  | .line _ x => x.1.length < ipaddrSize
  | .command _ _ buff => (netBuffToCommand e buff.1).1.1 = addCommand →
      (netBuffToCommand e buff.1).1.2.ipaddr.Terminated
  | _ => True

instance (e : Endian) (m : Moment) : Decidable (Fits e m) :=
  match h : m.input with
  | .line _ x => decidable_of_iff (x.1.length < ipaddrSize) (by rw [Fits, h])
  | .command _ _ buff => decidable_of_iff
      ((netBuffToCommand e buff.1).1.1 = addCommand →
        (netBuffToCommand e buff.1).1.2.ipaddr.Terminated) (by rw [Fits, h])
  | .actionPass | .maintenance | .purgeAll => isTrue (by rw [Fits, h]; trivial)

/-- What is stored has been looked up, and is not excluded. -/
lemma brought_not_excluded (hauth : o.remoteAuthoritative = 0) {m : Moment} (hm : Fits e m)
    {f g : Field ipaddrSize} (h : Brought o pton e m f g) :
    excludeIsexcluded pton e g.str m.list ≠ some retvalOk := by
  unfold Fits at hm
  cases h with
  | line hi hex =>
    rw [hi] at hm
    rwa [copyCut_str_of_lt hm]
  | command hi hcmd hex hle =>
    unfold workerExcluded at hex
    rw [if_pos hauth] at hex
    obtain ⟨r, hr, hne⟩ := Option.map_eq_some_iff.mp hex
    intro heq
    exact of_decide_eq_false hne (Option.some.inj (hr.symm.trans heq))

/-- **Excluded hosts are never acted on**: under an exclude list that does not change there is
neither a live record nor a call of `_do_action` for an address on it. -/
theorem excluded_never_acted (hauth : o.remoteAuthoritative = 0)
    (hlist : ∀ m ∈ ms, m.list = list) (hfits : ∀ m ∈ ms, Fits e m) {s : St}
    (hs : agent o pton e ms = some s) {a : CStr}
    (ha : excludeIsexcluded pton e a list = some retvalOk) :
    (∀ r ∈ live s.2.vec, r.addr ≠ a) ∧ (∀ c ∈ s.1, c.addr ≠ a) ∧ ∀ c ∈ shutdown s, c.addr ≠ a := by
  have hbrought : ∀ m ∈ ms, ∀ f g, Brought o pton e m f g → g.str ≠ a := by
    intro m hm f g hfg heq
    have hnot := brought_not_excluded hauth (hfits m hm) hfg
    rw [hlist m hm, heq] at hnot
    exact hnot ha
  obtain ⟨hall, hdown⟩ := agent_strings hbrought hs
  exact ⟨hall.live, hall.calls, hdown⟩

/-- The list of one line, `192.168.4.0/22`. -/
def network : Exclude.Store :=
  ((Exclude.excludeRun quadPton .little [.add true (ascii "192.168.4.0/22")]).map Prod.fst).getD
    Exclude.excludeInit

/-- A record of `address`, seen three times. -/
def seenAt (address : String) : HostRecord :=
  { fresh initConfig.toConfig 90 (ascii address) with occurrences := 3 }

/-- Two hosts captured and two reported, one of each excluded. -/
def visits : List Moment :=
  [⟨100, network, .line true (ascii "192.168.7.1")⟩, ⟨101, network, .line true (ascii "10.1.2.3")⟩,
    ⟨102, network, .command true (ascii "198.51.100.1") (frame addCommand (seenAt "192.168.5.5"))⟩,
    ⟨103, network, .command true (ascii "198.51.100.1") (frame addCommand (seenAt "10.9.8.7"))⟩,
    ⟨104, network, .actionPass⟩, ⟨105, network, .purgeAll⟩, ⟨106, network, .maintenance⟩]

/-- Of the four hosts only one is acted on. -/
theorem excluded_never_acted_run :
    let s := (agent initConfig quadPton .little visits).getD ([], recordsInit)
    (∀ r ∈ live s.2.vec, r.addr ≠ ascii "192.168.7.1") ∧
      (∀ c ∈ s.1, c.addr ≠ ascii "192.168.7.1") ∧
      ∀ c ∈ shutdown s, c.addr ≠ ascii "192.168.7.1" := by
  have hsome : (agent initConfig quadPton .little visits).isSome := by decide +kernel
  have hs : agent initConfig quadPton .little visits =
      some ((agent initConfig quadPton .little visits).getD ([], recordsInit)) := by
    rw [Option.getD_of_ne_none (Option.isSome_iff_ne_none.mp hsome)]
  have hlist : ∀ m ∈ visits, m.list = network := by simp [visits]
  have hfits : ∀ m ∈ visits, Fits .little m := by decide +kernel
  exact excluded_never_acted rfl hlist hfits hs (by decide +kernel)

end Agentsmith.Whitelist
