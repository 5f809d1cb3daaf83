import Mathlib.Algebra.Order.Ring.Int
import Mathlib.Data.List.Basic
import Mathlib.Data.Nat.Notation
import Mathlib.Tactic.Lemma

/-!
Words in the memory of a host, for either byte order, and the copying of bytes into and out
of a buffer at a running position.
-/

namespace Agentsmith.Lib.Words

inductive Endian | little | big
  deriving DecidableEq

/-- The low `n` bytes of a number, the least significant one first. -/
def leBytes : ℕ → ℕ → List UInt8
  | 0, _ => []
  | n + 1, x => UInt8.ofNat x :: leBytes n (x / 256)

def leVal : List UInt8 → ℕ
  | [] => 0
  | b :: l => b.toNat + 256 * leVal l

/-- The `n` bytes of a word on a host. -/
def store : Endian → ℕ → ℕ → List UInt8
  | .little, n, x => leBytes n x
  | .big, n, x => (leBytes n x).reverse

/-- The word in some bytes of a host. -/
def load : Endian → List UInt8 → ℕ
  | .little, l => leVal l
  | .big, l => leVal l.reverse

/-- `n` bytes of a buffer at `pos`. -/
def peek (buff : List UInt8) (pos n : ℕ) : List UInt8 := (buff.drop pos).take n

/-- `memcpy(buff + pos, src, n); pos += n`. -/
def put (s : List UInt8 × ℕ) (src : List UInt8) : List UInt8 × ℕ :=
  (s.1.take s.2 ++ src ++ s.1.drop (s.2 + src.length), s.2 + src.length)

/-- `for (i = 0; i < n; i++) sb[i] = sa[n - 1 - i]`. -/
def swapLoop (n : ℕ) (sa sb : List UInt8) : List UInt8 :=
  (List.range n).foldl (fun sb i => sb.set i (sa.getD (n - 1 - i) 0)) sb

/-! ### Words -/

lemma leBytes_length (n x : ℕ) : (leBytes n x).length = n := by
  induction n generalizing x with
  | zero => rfl
  | succ n ih => simp [leBytes, ih]

lemma leVal_leBytes (n x : ℕ) : leVal (leBytes n x) = x % 256 ^ n := by
  induction n generalizing x with
  | zero => simp [leBytes, leVal, Nat.mod_one]
  | succ n ih =>
    have hbyte : (UInt8.ofNat x).toNat = x % 256 := by simp
    rw [leBytes, leVal, ih, hbyte, Nat.pow_succ, Nat.mul_comm (256 ^ n) 256, Nat.mod_mul]

lemma leBytes_leVal (l : List UInt8) : leBytes l.length (leVal l) = l := by
  induction l with
  | nil => rfl
  | cons b l ih =>
    have hb := b.toNat_lt
    have hdiv : (b.toNat + 256 * leVal l) / 256 = leVal l := by omega
    have hbyte : UInt8.ofNat (b.toNat + 256 * leVal l) = b := by
      apply UInt8.toNat_inj.mp
      rw [UInt8.toNat_ofNat']
      omega
    rw [List.length_cons, leVal, leBytes, hdiv, hbyte, ih]

lemma leVal_lt (l : List UInt8) : leVal l < 256 ^ l.length := by
  induction l with
  | nil => decide
  | cons b l ih =>
    have hb := b.toNat_lt
    rw [leVal, List.length_cons, Nat.pow_succ]
    omega

@[simp] lemma store_length (e : Endian) (n x : ℕ) : (store e n x).length = n := by
  cases e <;> simp [store, leBytes_length]

lemma load_store (e : Endian) (n x : ℕ) : load e (store e n x) = x % 256 ^ n := by
  cases e <;> simp [store, load, leVal_leBytes]

lemma store_load (e : Endian) (l : List UInt8) : store e l.length (load e l) = l := by
  cases e with
  | little => exact leBytes_leVal l
  | big =>
    have h := leBytes_leVal l.reverse
    rw [List.length_reverse] at h
    rw [store, load, h, List.reverse_reverse]

lemma load_lt (e : Endian) (l : List UInt8) : load e l < 256 ^ l.length := by
  cases e with
  | little => exact leVal_lt l
  | big =>
    have h := leVal_lt l.reverse
    rw [List.length_reverse] at h
    exact h

/-- The other byte order reads the bytes from the other end. -/
lemma load_little_reverse (l : List UInt8) : load .little l.reverse = load .big l := rfl

lemma store_little_reverse (n x : ℕ) : (store .little n x).reverse = store .big n x := rfl

/-! ### Fixed widths, and network byte order -/

/-- A word in the memory of a host, and back. -/
def bytes32 (e : Endian) (a : UInt32) : List UInt8 := store e 4 a.toNat
def bytes64 (e : Endian) (a : UInt64) : List UInt8 := store e 8 a.toNat
def word32 (e : Endian) (l : List UInt8) : UInt32 := UInt32.ofNat (load e l)
def word64 (e : Endian) (l : List UInt8) : UInt64 := UInt64.ofNat (load e l)

/-- The word whose bytes on the host are those of `a` in network order. -/
def htonl (e : Endian) (a : UInt32) : UInt32 := word32 e (bytes32 .big a)

def ntohl (e : Endian) (a : UInt32) : UInt32 := word32 .big (bytes32 e a)

lemma bytes32_length (e : Endian) (a : UInt32) : (bytes32 e a).length = 4 := store_length _ _ _
lemma bytes64_length (e : Endian) (a : UInt64) : (bytes64 e a).length = 8 := store_length _ _ _

lemma word32_bytes32 (e : Endian) (a : UInt32) : word32 e (bytes32 e a) = a := by
  apply UInt32.toNat_inj.mp
  have ha := a.toNat_lt
  rw [word32, bytes32, load_store, UInt32.toNat_ofNat']
  omega

lemma word64_bytes64 (e : Endian) (a : UInt64) : word64 e (bytes64 e a) = a := by
  apply UInt64.toNat_inj.mp
  have ha := a.toNat_lt
  rw [word64, bytes64, load_store, UInt64.toNat_ofNat']
  omega

lemma bytes32_word32 (e : Endian) {l : List UInt8} (h : l.length = 4) :
    bytes32 e (word32 e l) = l := by
  have hlt := load_lt e l
  have hload := store_load e l
  rw [h] at hlt hload
  rw [bytes32, word32, UInt32.toNat_ofNat', Nat.mod_eq_of_lt (by omega), hload]

lemma bytes64_word64 (e : Endian) {l : List UInt8} (h : l.length = 8) :
    bytes64 e (word64 e l) = l := by
  have hlt := load_lt e l
  have hload := store_load e l
  rw [h] at hlt hload
  rw [bytes64, word64, UInt64.toNat_ofNat', Nat.mod_eq_of_lt (by omega), hload]

/-- The bytes sent are those of network order, on every host. -/
lemma bytes32_htonl (e : Endian) (a : UInt32) : bytes32 e (htonl e a) = bytes32 .big a :=
  bytes32_word32 e (bytes32_length _ _)

/-- The word received is the one that stands there in network order, on every host. -/
lemma ntohl_word32 (e : Endian) {l : List UInt8} (h : l.length = 4) :
    ntohl e (word32 e l) = word32 .big l := by
  rw [ntohl, bytes32_word32 e h]

/-! ### The swapping loop -/

lemma swapLoop_upTo {n : ℕ} {sa sb : List UInt8} (ha : sa.length = n) (hb : sb.length = n)
    {m : ℕ} (hm : m ≤ n) :
    (List.range m).foldl (fun sb i => sb.set i (sa.getD (n - 1 - i) 0)) sb =
      sa.reverse.take m ++ sb.drop m := by
  induction m with
  | zero => simp
  | succ m ih =>
    have hlt : m < sb.length := by omega
    have hlen : (sa.reverse.take m).length = m := by simp; omega
    have hmr : m < sa.reverse.length := by rw [List.length_reverse]; omega
    have hget : sa.getD (n - 1 - m) 0 = sa.reverse[m] := by
      rw [List.getD_eq_getElem?_getD, List.getElem?_eq_getElem (by omega), Option.getD_some,
        List.getElem_reverse]
      congr 1
      omega
    rw [List.range_succ, List.foldl_append, ih (by omega), List.foldl_cons, List.foldl_nil,
      List.set_append_right _ _ (by omega), hlen, Nat.sub_self, List.drop_eq_getElem_cons hlt,
      List.set_cons_zero, hget, List.take_add_one,
      List.getElem?_eq_getElem (by simp; omega)]
    simp

/-- **The loop reverses the bytes.** -/
theorem swapLoop_eq {n : ℕ} {sa sb : List UInt8} (ha : sa.length = n) (hb : sb.length = n) :
    swapLoop n sa sb = sa.reverse := by
  unfold swapLoop
  rw [swapLoop_upTo ha hb (Nat.le_refl n), List.drop_of_length_le (by omega), List.append_nil,
    List.take_of_length_le (by simp; omega)]

/-! ### Buffers -/

lemma put_append (a src r : List UInt8) :
    put (a ++ r, a.length) src = (a ++ src ++ r.drop src.length, (a ++ src).length) := by
  unfold put
  rw [List.take_left, List.length_append, ← List.drop_drop, List.drop_left]

/-- Pieces copied one behind the other. -/
theorem foldl_put (srcs : List (List UInt8)) (a r : List UInt8) :
    srcs.foldl put (a ++ r, a.length) =
      (a ++ srcs.flatten ++ r.drop srcs.flatten.length, a.length + srcs.flatten.length) := by
  induction srcs generalizing a r with
  | nil => simp
  | cons src srcs ih =>
    rw [List.foldl_cons, put_append, ih (a ++ src), List.drop_drop]
    simp [Nat.add_assoc]

/-- The piece that begins where the ones before it end. -/
theorem peek_flatten {srcs : List (List UInt8)} {i p n : ℕ} {src : List UInt8}
    (hi : srcs[i]? = some src) (hp : (srcs.take i).flatten.length = p) (hn : src.length = n) :
    peek srcs.flatten p n = src := by
  obtain ⟨hlt, hsrc⟩ := List.getElem?_eq_some_iff.mp hi
  have hsplit : srcs.flatten = (srcs.take i).flatten ++ (src ++ (srcs.drop (i + 1)).flatten) := by
    rw [← List.flatten_cons, ← hsrc, ← List.drop_eq_getElem_cons hlt, ← List.flatten_append,
      List.take_append_drop]
  rw [hsplit, peek, ← hp, ← hn, List.drop_left, List.take_left]

lemma peek_append (buff : List UInt8) (pos n m : ℕ) :
    peek buff pos n ++ peek buff (pos + n) m = peek buff pos (n + m) := by
  unfold peek
  rw [List.take_add, List.drop_drop]

lemma peek_length {buff : List UInt8} {pos n : ℕ} (h : pos + n ≤ buff.length) :
    (peek buff pos n).length = n := by
  unfold peek
  rw [List.length_take, List.length_drop]
  omega

lemma peek_all (buff : List UInt8) : peek buff 0 buff.length = buff := by
  unfold peek
  rw [List.drop_zero, List.take_length]

end Agentsmith.Lib.Words
