import Mathlib.Data.List.TakeWhile
import Mathlib.Order.Nat
import Mathlib.Tactic.Lemma

/-!
C strings, and the fixed-size character fields that hold them.

A string is its bytes before the terminating NUL. A field has a fixed number of bytes, any
of which may be NUL; the string in it is what stands before the first one.
-/

namespace Agentsmith.Lib.CStrings

/-- A C string: bytes, none of them NUL. -/
abbrev CStr := {l : List UInt8 // (0 : UInt8) ∉ l}

/-- The string at the start of a piece of memory. -/
def upToNul (l : List UInt8) : CStr :=
  ⟨l.takeWhile (· ≠ 0), fun h => by simpa using List.mem_takeWhile_imp h⟩

/-- A string literal of ASCII characters. -/
def ascii (s : String) : CStr := upToNul (s.toList.map fun c => c.toNat.toUInt8)

/-- The first `n` bytes of a string. -/
def upTo (n : ℕ) (s : CStr) : CStr := ⟨s.1.take n, fun h => s.2 (List.mem_of_mem_take h)⟩

/-- `s + n`, for an `n` inside the string. -/
def advance (n : ℕ) (s : CStr) : CStr := ⟨s.1.drop n, fun h => s.2 (List.mem_of_mem_drop h)⟩

/-- What stands before the first `c`, all of the string if there is none. -/
def before (c : UInt8) (s : CStr) : CStr :=
  ⟨s.1.takeWhile (· ≠ c), fun h => s.2 ((List.takeWhile_sublist _).subset h)⟩

/-- What stands behind the first `c`. -/
def behind (c : UInt8) (s : CStr) : CStr :=
  ⟨(s.1.dropWhile (· ≠ c)).tail,
    fun h => s.2 ((List.dropWhile_sublist _).subset (List.mem_of_mem_tail h))⟩

/-- A character field of `n` bytes. -/
abbrev Field (n : ℕ) := {l : List UInt8 // l.length = n}

variable {n : ℕ}

def Field.str (f : Field n) : CStr := upToNul f.1

/-- `f[i] = c`. -/
def Field.set (f : Field n) (i : ℕ) (c : UInt8) : Field n :=
  ⟨f.1.set i c, by rw [List.length_set, f.2]⟩

/-- The field holds a NUL, so string functions stay inside it. -/
def Field.Terminated (f : Field n) : Prop := (0 : UInt8) ∈ f.1

instance (f : Field n) : Decidable f.Terminated :=
  inferInstanceAs (Decidable ((0 : UInt8) ∈ f.1))

/-- `strncpy`: at most `n` bytes, and NULs up to `n` behind a shorter string. -/
def strncpy (s : CStr) (n : ℕ) : List UInt8 :=
  s.1.take n ++ List.replicate (n - s.1.length) 0

/-- `strncpy(field, s, n)`. -/
def copyField (n : ℕ) (s : CStr) : Field n := ⟨strncpy s n, by simp [strncpy]; omega⟩

/-- `strncpy(field, s, n); field[n - 1] = 0`. -/
def copyCut (n : ℕ) (s : CStr) : Field n :=
  ⟨(strncpy s n).set (n - 1) 0, by simp [strncpy]; omega⟩

/-- `memcpy(field, p, n)` from memory that holds `l`. Past its end the copy reads NULs, where a
program reads what stands there. -/
def Field.copy (n : ℕ) (l : List UInt8) : Field n :=
  ⟨l.take n ++ List.replicate (n - l.length) 0, by simp; omega⟩

lemma Field.copy_val {l : List UInt8} (h : l.length = n) : (Field.copy n l).1 = l := by
  simp [Field.copy, ← h]

lemma Field.copy_self (f : Field n) : Field.copy n f.1 = f := Subtype.ext (Field.copy_val f.2)

/-- A string ends at the first NUL, whatever stands behind it. -/
lemma upToNul_zero (a r : List UInt8) : upToNul (a ++ 0 :: r) = upToNul a := by
  apply Subtype.ext
  show (a ++ 0 :: r).takeWhile (· ≠ 0) = a.takeWhile (· ≠ 0)
  induction a with
  | nil => simp
  | cons c a ih =>
    by_cases hc : c = 0
    · simp [hc]
    · rw [List.cons_append, List.takeWhile_cons, List.takeWhile_cons, ih]

lemma upToNul_of_notMem {a : List UInt8} (h : (0 : UInt8) ∉ a) : (upToNul a).1 = a := by
  unfold upToNul
  refine List.takeWhile_eq_self_iff.mpr fun x hx => ?_
  simpa using fun h0 : x = 0 => h (h0 ▸ hx)

lemma upToNul_append {a : List UInt8} (h : (0 : UInt8) ∉ a) (m : ℕ) (r : List UInt8) :
    (upToNul (a ++ (List.replicate m 0 ++ 0 :: r))).1 = a := by
  have hzero : ∃ r', List.replicate m (0 : UInt8) ++ 0 :: r = 0 :: r' := by
    cases m with
    | zero => exact ⟨r, rfl⟩
    | succ m => exact ⟨List.replicate m 0 ++ 0 :: r, by simp [List.replicate_succ]⟩
  obtain ⟨r', hr'⟩ := hzero
  rw [hr', upToNul_zero, upToNul_of_notMem h]

/-- A copy into a buffer that has room for the string. -/
lemma strncpy_str {s : CStr} (h : s.1.length < n) : upToNul (strncpy s n) = s := by
  obtain ⟨m, hm⟩ : ∃ m, n - s.1.length = m + 1 := ⟨n - s.1.length - 1, by omega⟩
  refine Subtype.ext ?_
  rw [strncpy, List.take_of_length_le h.le, hm, List.replicate_succ, upToNul_zero]
  exact upToNul_of_notMem s.2

lemma upTo_append {s a : CStr} {r : List UInt8} (h : s.1 = a.1 ++ r) : upTo a.1.length s = a := by
  refine Subtype.ext ?_
  show s.1.take _ = _
  rw [h, List.take_left]

lemma upTo_self (s : CStr) : upTo s.1.length s = s := upTo_append (List.append_nil s.1).symm

lemma advance_append {s r : CStr} {l : List UInt8} (h : s.1 = l ++ r.1) :
    advance l.length s = r := by
  refine Subtype.ext ?_
  show s.1.drop _ = _
  rw [h, List.drop_left]

lemma before_length (c : UInt8) (s : CStr) : (before c s).1.length ≤ s.1.length :=
  (List.takeWhile_sublist _).length_le

lemma behind_length (c : UInt8) (s : CStr) : (behind c s).1.length ≤ s.1.length :=
  ((List.tail_sublist _).trans (List.dropWhile_sublist _)).length_le

lemma before_self {c : UInt8} {s : CStr} (h : c ∉ s.1) : before c s = s :=
  Subtype.ext (List.takeWhile_eq_self_iff.mpr fun _ hd => decide_eq_true fun hdc => h (hdc ▸ hd))

lemma Field.set_take {f : Field n} {i : ℕ} (hi : i < n) (c : UInt8) :
    (f.set i c).1.take (i + 1) = f.1.take i ++ [c] := by
  have hlen : i < (f.1.set i c).length := by rw [List.length_set, f.2]; exact hi
  show (f.1.set i c).take (i + 1) = _
  rw [List.take_succ_eq_append_getElem hlen, List.getElem_set_self, List.take_set_of_le le_rfl]

/-- A string ended by hand. -/
lemma Field.set_str {f : Field n} {i : ℕ} (hi : i < n) :
    (f.set i 0).str = upToNul (f.1.take i) := by
  show upToNul (f.1.set i 0) = _
  rw [List.set_eq_take_append_cons_drop, if_pos (by rw [f.2]; exact hi), upToNul_zero]

/-- A string that ends in its field is shorter than the field. -/
lemma Field.str_length_lt {f : Field n} (h : f.Terminated) : f.str.1.length < n := by
  have hle : f.str.1.length ≤ n := by
    calc f.str.1.length ≤ f.1.length := (List.takeWhile_sublist _).length_le
      _ = n := f.2
  refine Nat.lt_of_le_of_ne hle fun heq => ?_
  have hall : f.str.1 = f.1 := (List.takeWhile_prefix _).eq_of_length (heq.trans f.2.symm)
  exact f.str.2 (hall ▸ h)

/-- What a bounded copy leaves in the field: the string, cut to one byte less. -/
theorem copyCut_str (hn : 0 < n) (s : CStr) : (copyCut n s).str.1 = s.1.take (n - 1) := by
  have hlen : n - 1 < (strncpy s n).length := by simp [strncpy]; omega
  have hmem : (0 : UInt8) ∉ s.1.take (n - 1) := fun h => s.2 (List.mem_of_mem_take h)
  have htake : (strncpy s n).take (n - 1) =
      s.1.take (n - 1) ++ List.replicate (n - 1 - s.1.length) 0 := by
    unfold strncpy
    rw [List.take_append, List.take_take, List.take_replicate, List.length_take]
    congr 2 <;> omega
  show (upToNul ((strncpy s n).set (n - 1) 0)).1 = _
  rw [List.set_eq_take_append_cons_drop, if_pos hlen, htake, List.append_assoc]
  exact upToNul_append hmem _ _

lemma copyCut_str_of_lt {s : CStr} (h : s.1.length < n) : (copyCut n s).str = s := by
  apply Subtype.ext
  rw [copyCut_str (by omega), List.take_of_length_le (by omega)]

end Agentsmith.Lib.CStrings
