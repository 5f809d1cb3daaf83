import Agentsmith.Daemon
import Agentsmith.Lib.ShellWords

/-!
`_do_action`: the record queued for the other agents, and the command given to the shell.
-/

namespace Agentsmith.DoAction

open Agentsmith.Lib.CStrings Agentsmith.Lib.ShellWords Agentsmith.Globals Agentsmith.Daemon

/-- `AC_TYPE_NEW_STR` and `AC_TYPE_REMOVE_STR`. -/
def typeStr : AcType → CStr
  | .new => ascii "new"
  | .remove => ascii "remove"

/-- `ACTION_BUFFER_SIZE`. -/
def actionBufferSize : ℕ := 2048

/-- What `snprintf` leaves in a buffer of `size` bytes, up to the NUL. -/
def snprintf (size : ℕ) (text : List UInt8) : List UInt8 := text.take (size - 1)

/-- The words of `"%s %s %i %s %s"`. -/
def arguments (o : Options) (c : Call) : List (List UInt8) :=
  [o.action.1, c.addr.1, decimal c.ptr.occurrences.toInt, (typeStr c.type).1, c.ptr.origin.str.1]

def command (o : Options) (c : Call) : List UInt8 :=
  snprintf actionBufferSize ([32].intercalate (arguments o c))

/-- What a call of `_do_action` leaves behind. -/
structure Effect where
  queue : Option HostRecord
  system : Option (List UInt8)
  deriving DecidableEq

/-- The record is to be distributed: `inform` is on, there are agents, and the record does not
come from one of them. -/
def Distributed (o : Options) (c : Call) : Prop :=
  c.type = .new ∧ o.inform = 1 ∧ o.informAgents ≠ 0 ∧ c.ptr.origin.str = localhost

instance (o : Options) (c : Call) : Decidable (Distributed o c) :=
  inferInstanceAs (Decidable (_ ∧ _))

/-- `access` says whether the action can be run. A distributed record whose address has fewer
than three characters fails an assertion. -/
def doAction (o : Options) (access : Bool) (c : Call) : Option Effect :=
  if !access then some ⟨none, none⟩
  else if Distributed o c then
    if c.addr.1.length > 2 then some ⟨some c.ptr, some (command o c)⟩ else none
  else some ⟨none, some (command o c)⟩

variable {o : Options} {c : Call}

/-- What a call that does not stop the agent leaves behind: nothing, or the command and maybe
the record. -/
lemma doAction_cases {access : Bool} {d : Effect} (h : doAction o access c = some d) :
    (access = false ∧ d = ⟨none, none⟩) ∨
      (access = true ∧ Distributed o c ∧ d = ⟨some c.ptr, some (command o c)⟩) ∨
      (access = true ∧ ¬ Distributed o c ∧ d = ⟨none, some (command o c)⟩) := by
  unfold doAction at h
  cases access with
  | false => exact Or.inl ⟨rfl, (Option.some.inj h).symm⟩
  | true =>
    rw [if_neg (by decide)] at h
    by_cases hd : Distributed o c
    · rw [if_pos hd] at h
      split at h
      · exact Or.inr (Or.inl ⟨rfl, hd, (Option.some.inj h).symm⟩)
      · cases h
    · rw [if_neg hd] at h
      exact Or.inr (Or.inr ⟨rfl, hd, (Option.some.inj h).symm⟩)

lemma doAction_system {access : Bool} {d : Effect} (h : doAction o access c = some d)
    {t : List UInt8} (ht : d.system = some t) : t = command o c := by
  rcases doAction_cases h with ⟨-, rfl⟩ | ⟨-, -, rfl⟩ | ⟨-, -, rfl⟩
  · cases ht
  · exact (Option.some.inj ht).symm
  · exact (Option.some.inj ht).symm

/-- The command is passed on just when the action can be run. -/
lemma doAction_passed {access : Bool} {d : Effect} (h : doAction o access c = some d) :
    d.system = some (command o c) ↔ access = true := by
  rcases doAction_cases h with ⟨rfl, rfl⟩ | ⟨rfl, -, rfl⟩ | ⟨rfl, -, rfl⟩
  · exact ⟨fun hnone => absurd hnone (by simp), fun hfalse => absurd hfalse (by decide)⟩
  · exact ⟨fun _ => rfl, fun _ => rfl⟩
  · exact ⟨fun _ => rfl, fun _ => rfl⟩

lemma doAction_queue {access : Bool} {d : Effect} (h : doAction o access c = some d)
    {r : HostRecord} (hr : d.queue = some r) : r = c.ptr ∧ Distributed o c := by
  rcases doAction_cases h with ⟨-, rfl⟩ | ⟨-, hd, rfl⟩ | ⟨-, -, rfl⟩
  · cases hr
  · exact ⟨(Option.some.inj hr).symm, hd⟩
  · cases hr

/-! ### The command -/

lemma str_length_le {n : ℕ} (f : Field n) : f.str.1.length ≤ n := by
  calc f.str.1.length ≤ f.1.length := (List.takeWhile_sublist _).length_le
    _ = n := f.2

/-- The buffer is large enough for every command. -/
lemma command_eq (o : Options) (c : Call) : command o c = [32].intercalate (arguments o c) := by
  have hact := o.action_lt
  have haddr : c.addr.1.length ≤ 46 := str_length_le c.ptr.ipaddr
  have horigin := str_length_le c.ptr.origin
  have hocc : (decimal c.ptr.occurrences.toInt).length ≤ 10 + 1 := by
    refine decimal_length (by decide) ?_
    have h1 := c.ptr.occurrences.toInt_lt
    have h2 := c.ptr.occurrences.le_toInt
    omega
  have htype : (typeStr c.type).1.length ≤ 6 := by
    cases c.type <;> decide
  unfold buffSize at hact
  unfold ipaddrSize at horigin
  unfold command snprintf
  refine List.take_of_length_le ?_
  simp only [arguments, List.intercalate_cons_cons, List.intercalate_singleton,
    List.length_append, List.length_singleton, actionBufferSize]
  omega

/-- **What the shell sees**: one simple command, if all strings in it stand for themselves. -/
theorem command_words (hact : Plain o.action.1) (hname : o.action.1 ∉ reserved)
    (haddr : Plain c.addr.1) (horigin : Plain c.ptr.origin.str.1) :
    simpleCommand (command o c) = some (arguments o c) := by
  rw [command_eq]
  refine simpleCommand_words (fun w hw => ?_) hname
  have htype : Plain (typeStr c.type).1 := by
    cases c.type <;> decide
  simp only [List.mem_cons, List.not_mem_nil, or_false] at hw
  rcases hw with rfl | rfl | rfl | rfl | rfl
  · exact hact
  · exact haddr
  · exact plain_decimal _
  · exact htype
  · exact horigin

end Agentsmith.DoAction
