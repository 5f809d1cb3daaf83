import Mathlib.Algebra.Order.Ring.Int
import Agentsmith.Lib.CStrings

/-!
The host record shared by every part of the program, and the constants and configuration
values that decide over it.
-/

namespace Agentsmith.Globals

open Agentsmith.Lib.CStrings

def retvalOk : ℤ := 0
def retvalErr : ℤ := -1

abbrev buffSize : ℕ := 1024
abbrev ipaddrSize : ℕ := 46
abbrev remoteCommandSize : ℕ := 144

/-- `LOCALHOST`. -/
def localhost : CStr := ascii "localhost"

structure HostRecord where
  origin : Field ipaddrSize
  ipaddr : Field ipaddrSize
  firstseen : Int64
  lastseen : Int64
  purgeAfter : Int64
  timeInterval : Int64
  occurrences : Int32
  actionThreshold : Int32
  remove : Int32
  processed : Int32
  deriving DecidableEq

/-- The address a record is about. -/
def HostRecord.addr (r : HostRecord) : CStr := r.ipaddr.str

/-- The options of `CONFIG` a new record takes over. -/
structure Config where
  actionThreshold : Int32
  timeInterval : Int64
  purgeAfter : Int64
  deriving DecidableEq

/-- What `_config_sanitize` leaves behind after every option. -/
structure Config.Sane (cfg : Config) : Prop where
  actionThreshold : 1 ≤ cfg.actionThreshold
  timeInterval : 1 ≤ cfg.timeInterval
  purgeAfter : 1 ≤ cfg.purgeAfter

instance (cfg : Config) : Decidable cfg.Sane :=
  decidable_of_iff
    (1 ≤ cfg.actionThreshold ∧ 1 ≤ cfg.timeInterval ∧ 1 ≤ cfg.purgeAfter)
    ⟨fun ⟨a, b, c⟩ => ⟨a, b, c⟩, fun ⟨a, b, c⟩ => ⟨a, b, c⟩⟩

/-- The options of `CONFIG` that decide what becomes of a record. A line of the
configuration file has fewer than `BUFFSIZE` bytes, and `action` has a default. -/
structure Options extends Config where
  action : CStr
  remoteAuthoritative : Int32
  inform : Int32
  /-- The length of the list `inform_agents`. -/
  informAgents : ℕ
  action_lt : action.1.length < buffSize
  action_ne : action.1 ≠ []

/-- `_init_config`. -/
def initConfig : Options where
  actionThreshold := 3
  timeInterval := 60
  purgeAfter := 3600
  action := ascii "/bin/true"
  remoteAuthoritative := 0
  inform := 0
  informAgents := 0
  action_lt := by decide
  action_ne := by decide

/-! ### Time differences -/

/-- Between clock readings the 64-bit subtraction is exact. -/
lemma toInt_sub_clock {a b : Int64} (ha : 0 ≤ a) (hb : 0 ≤ b) :
    (a - b).toInt = a.toInt - b.toInt := by
  have ha' : 0 ≤ a.toInt := by simpa using Int64.le_iff_toInt_le.mp ha
  have hb' : 0 ≤ b.toInt := by simpa using Int64.le_iff_toInt_le.mp hb
  have := a.toInt_lt
  have := b.toInt_lt
  rw [Int64.toInt_sub, Int.bmod_eq_of_le] <;> omega

lemma sub_le_clock {a b : Int64} (ha : 0 ≤ a) (hb : 0 ≤ b) (d : Int64) :
    a - b ≤ d ↔ a.toInt - b.toInt ≤ d.toInt := by
  rw [Int64.le_iff_toInt_le, toInt_sub_clock ha hb]

lemma lt_sub_clock {a b : Int64} (ha : 0 ≤ a) (hb : 0 ≤ b) (d : Int64) :
    d < a - b ↔ d.toInt < a.toInt - b.toInt := by
  rw [Int64.lt_iff_toInt_lt, toInt_sub_clock ha hb]

/-! ### The counter -/

lemma toInt_succ {n : Int32} (h : n ≠ Int32.maxValue) : (n + 1).toInt = n.toInt + 1 := by
  have hle := n.le_toInt
  have hlt := n.toInt_lt
  have hmax : n.toInt ≠ 2 ^ 31 - 1 := fun he => h (Int32.toInt_inj.mp he)
  have hone : (1 : Int32).toInt = 1 := rfl
  rw [Int32.toInt_add, hone, Int.bmod_eq_of_le] <;> omega

/-- Adding one never gives more than one more. -/
lemma toInt_succ_le (n : Int32) : (n + 1).toInt ≤ n.toInt + 1 := by
  by_cases h : n = Int32.maxValue
  · rw [h]
    decide
  · exact Int.le_of_eq (toInt_succ h)

end Agentsmith.Globals
