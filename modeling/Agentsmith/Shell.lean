import Agentsmith.DoAction
import Agentsmith.Intake

/-!
What reaches the shell.

`_do_action` formats the stored address into a command line as it stands. A string is stored
if the exclude list does not answer that it is excluded, and that is also the answer for a
string that is no address at all.
-/

namespace Agentsmith.Shell

open Agentsmith.Lib.CStrings Agentsmith.Lib.Slots Agentsmith.Lib.Words Agentsmith.Lib.ShellWords
open Agentsmith.Globals Agentsmith.Records Agentsmith.NetShared Agentsmith.Daemon
open Agentsmith.Stored Agentsmith.Intake Agentsmith.DoAction
open Agentsmith.Exclude (InetPton excludeIsexcluded)
open Agentsmith.ExcludeCidr (quadPton)

variable {o : Options} {pton : InetPton} {e : Endian} {ms : List Moment}

/-- A hexadecimal digit, a colon or a dot. -/
def AddrChar (c : UInt8) : Prop :=
  (48 ≤ c ∧ c ≤ 58) ∨ (65 ≤ c ∧ c ≤ 70) ∨ (97 ≤ c ∧ c ≤ 102) ∨ c = 46

instance (c : UInt8) : Decidable (AddrChar c) := inferInstanceAs (Decidable (_ ∨ _))

/-- A string of such characters. -/
def Address (s : List UInt8) : Prop := s ≠ [] ∧ ∀ c ∈ s, AddrChar c

instance (s : List UInt8) : Decidable (Address s) :=
  have := List.decidableBAll AddrChar s
  inferInstanceAs (Decidable (_ ∧ _))

/-- A call of `_do_action` gives the shell an address, and one simple command with the four
arguments if the action is named by a plain word. -/
def ShellSafe (o : Options) (c : Call) : Prop :=
  ∀ access d t, doAction o access c = some d → d.system = some t →
    (∀ b ∈ c.addr.1, AddrChar b) ∧ (Plain o.action.1 → simpleCommand t = some (arguments o c))

/-- What the input stores, if anything, is an address. -/
def BringsAddress (o : Options) (pton : InetPton) (e : Endian) (m : Moment) : Prop :=
  match m.input with
  | .line _ x => excludeIsexcluded pton e x m.list = some retvalOk ∨
      Address (x.1.take (ipaddrSize - 1))
  | .command _ _ buff =>
    let cmd := (netBuffToCommand e buff.1).1
    cmd.1 = addCommand → workerExcluded o pton e m.list cmd.2 = some true ∨
      (cmd.2.ipaddr.Terminated ∧ Address cmd.2.addr.1)
  | _ => True

/-- `getnameinfo` gives the worker a numeric address, perhaps with the name of an interface. -/
def HostNumeric (m : Moment) : Prop :=
  match m.input with
  | .command _ host _ => Plain host.1
  | _ => True

lemma plain_of_address {s : List UInt8} (h : Address s) : Plain s := by
  have hall : ∀ n < 256, AddrChar (UInt8.ofNat n) →
      UInt8.ofNat n ≠ 32 ∧ UInt8.ofNat n ∉ special := by decide +kernel
  refine ⟨h.1, fun c hc => ?_⟩
  have hchar := hall c.toNat c.toNat_lt
  rw [UInt8.ofNat_toNat] at hchar
  exact hchar (h.2 c hc)

/-- The strings let through are plain, and the address is one. -/
lemma brought_address {m : Moment} (hhost : HostNumeric m) (hm : BringsAddress o pton e m)
    {f g : Field ipaddrSize} (h : Brought o pton e m f g) : Plain f.str.1 ∧ Address g.str.1 := by
  unfold HostNumeric at hhost
  unfold BringsAddress at hm
  cases h with
  | line hi hex =>
    rw [hi] at hm
    refine ⟨?_, ?_⟩
    · rw [copyCut_str_of_lt (by decide)]
      decide
    · rw [copyCut_str (by decide)]
      exact hm.resolve_left hex
  | command hi hcmd hex hle =>
    rw [hi] at hhost hm
    dsimp only at hm
    rw [hcmd] at hm
    refine ⟨?_, ?_⟩
    · rw [copyCut_str (by decide)]
      exact plain_take hhost (by decide)
    · rcases hm rfl with hex' | ⟨-, haddr⟩
      · rw [hex] at hex'
        cases hex'
      · exact haddr

lemma shellSafe_of_strings (hname : o.action.1 ∉ reserved) {c : Call}
    (h : Plain c.ptr.origin.str.1 ∧ Address c.ptr.ipaddr.str.1) : ShellSafe o c := by
  intro access d t hd ht
  refine ⟨h.2.2, fun hact => ?_⟩
  rw [doAction_system hd ht]
  exact command_words hact hname (plain_of_address h.2) h.1

/-- A record that another host has for the string. -/
def recordOf (x : CStr) : HostRecord :=
  { fresh initConfig.toConfig 90 x with occurrences := 3 }

/-- The record reported, and the action thread after it. -/
def reportOf (x : CStr) : List Moment :=
  [⟨100, Exclude.excludeInit, .command true (ascii "198.51.100.1") (frame addCommand (recordOf x))⟩,
    ⟨101, Exclude.excludeInit, .actionPass⟩]

/-- The reported string ends one command of the shell and begins the next. -/
def Injects (authoritative : Int32) (x : CStr) : Prop :=
  let o := { initConfig with remoteAuthoritative := authoritative }
  ∃ s, agent o quadPton .little (reportOf x) = some s ∧
    ∃ c ∈ s.1, ¬ ShellSafe o c ∧ simpleCommand (command o c) = none

lemma injects {authoritative : Int32} (h : authoritative = 0 ∨ authoritative = 1) :
    Injects authoritative (ascii "1;reboot") := by
  have hboth : ((agent { initConfig with remoteAuthoritative := authoritative } quadPton .little
      (reportOf (ascii "1;reboot"))).map Prod.fst) =
        some [⟨.new, workerRecord (ascii "198.51.100.1") (recordOf (ascii "1;reboot"))⟩] := by
    rcases h with rfl | rfl
    · decide +kernel
    · decide +kernel
  obtain ⟨s, hs, hcalls⟩ := Option.map_eq_some_iff.mp hboth
  refine ⟨s, hs, _, by rw [hcalls]; exact List.mem_singleton_self _, fun hsafe => ?_, ?_⟩
  · have hact : doAction { initConfig with remoteAuthoritative := authoritative } true
        ⟨.new, workerRecord (ascii "198.51.100.1") (recordOf (ascii "1;reboot"))⟩ =
          some ⟨none, some _⟩ := rfl
    have hsemi := (hsafe true _ _ hact rfl).1 59 (by decide +kernel)
    exact absurd hsemi (by decide)
  · show simpleCommand (command initConfig _) = none
    decide +kernel

end Agentsmith.Shell
