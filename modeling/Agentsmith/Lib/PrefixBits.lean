import Mathlib.Data.Nat.Bitwise
import Agentsmith.Lib.Words

/-!
Bits of an address in network order, and the masks that select its first ones.

Bit `0` is the highest bit of the first byte. Two addresses compared under a mask are equal
just when they agree on every bit the mask has set, whether the comparison is made byte by
byte or on one word, and whatever the byte order of the host is.
-/

namespace Agentsmith.Lib.PrefixBits

open Agentsmith.Lib.Words

def bit (l : List UInt8) (j : ℕ) : Bool := (l.getD (j / 8) 0).toNat.testBit (7 - j % 8)

/-- The first `p` bits are the same. -/
def AgreeOn (p : ℕ) (a b : List UInt8) : Prop := ∀ j < p, bit a j = bit b j

instance (p : ℕ) (a b : List UInt8) : Decidable (AgreeOn p a b) :=
  inferInstanceAs (Decidable (∀ j < p, _))

/-- What a mask selects, byte by byte. -/
def masked (a m : List UInt8) : List UInt8 := List.zipWith (· &&& ·) a m

/-- The mask of the first `p` bits. -/
def Masks (p : ℕ) (m : List UInt8) : Prop := ∀ j < 8 * m.length, bit m j = decide (j < p)

/-! ### Bytes -/

lemma byte_eq_iff (x y : UInt8) : x = y ↔ ∀ k < 8, x.toNat.testBit k = y.toNat.testBit k := by
  refine ⟨fun h k _ => by rw [h], fun h => UInt8.toNat_inj.mp ?_⟩
  have hbits : ∀ z : UInt8, ∀ k, 8 ≤ k → z.toNat.testBit k = false := fun z k hk =>
    Nat.testBit_lt_two_pow (Nat.lt_of_lt_of_le z.toNat_lt (Nat.pow_le_pow_right (by decide) hk))
  refine Nat.eq_of_testBit_eq fun k => ?_
  by_cases hk : k < 8
  · exact h k hk
  · rw [hbits x k (by omega), hbits y k (by omega)]

lemma masked_length {a m : List UInt8} (h : a.length = m.length) :
    (masked a m).length = m.length := by
  rw [masked, List.length_zipWith, h, Nat.min_self]

lemma masked_getD {a m : List UInt8} (h : a.length = m.length) (i : ℕ) :
    (masked a m).getD i 0 = a.getD i 0 &&& m.getD i 0 := by
  unfold masked
  rw [List.getD_eq_getElem?_getD, List.getD_eq_getElem?_getD, List.getD_eq_getElem?_getD,
    List.getElem?_zipWith]
  by_cases hi : i < m.length
  · rw [List.getElem?_eq_getElem hi, List.getElem?_eq_getElem (h ▸ hi)]
    rfl
  · rw [List.getElem?_eq_none (by omega), List.getElem?_eq_none (by omega)]
    rfl

lemma bit_masked {a m : List UInt8} (h : a.length = m.length) (j : ℕ) :
    bit (masked a m) j = (bit a j && bit m j) := by
  rw [bit, masked_getD h, UInt8.toNat_and, Nat.testBit_and]
  rfl

/-- Lists of bytes are equal when their bits are. -/
lemma eq_of_bits {a b : List UInt8} (h : a.length = b.length)
    (hbits : ∀ j < 8 * a.length, bit a j = bit b j) : a = b := by
  refine List.ext_getElem h fun i hi hi' => (byte_eq_iff _ _).mpr fun k hk => ?_
  have hj := hbits (8 * i + (7 - k)) (by omega)
  unfold bit at hj
  have hdiv : (8 * i + (7 - k)) / 8 = i := by omega
  have hmod : 7 - (8 * i + (7 - k)) % 8 = k := by omega
  rw [hdiv, hmod, List.getD_eq_getElem?_getD, List.getD_eq_getElem?_getD,
    List.getElem?_eq_getElem hi, List.getElem?_eq_getElem hi'] at hj
  exact hj

/-- **Comparison under a mask** is agreement on the bits it stands for. -/
theorem masked_eq_iff {a b m : List UInt8} {p : ℕ} (ha : a.length = m.length)
    (hb : b.length = m.length) (hm : Masks p m) (hp : p ≤ 8 * m.length) :
    masked a m = masked b m ↔ AgreeOn p a b := by
  refine ⟨fun h j hj => ?_, fun h => ?_⟩
  · have hbit : bit (masked a m) j = bit (masked b m) j := by rw [h]
    rw [bit_masked ha, bit_masked hb, hm j (by omega), decide_eq_true hj] at hbit
    simpa using hbit
  · refine eq_of_bits (by rw [masked_length ha, masked_length hb]) fun j hj => ?_
    rw [masked_length ha] at hj
    rw [bit_masked ha, bit_masked hb, hm j hj]
    by_cases hjp : j < p
    · rw [h j hjp]
    · rw [decide_eq_false hjp, Bool.and_false, Bool.and_false]

/-- The comparison as a loop makes it, byte by byte. -/
lemma masked_eq_iff_getD {a b m : List UInt8} (ha : a.length = m.length)
    (hb : b.length = m.length) :
    masked a m = masked b m ↔
      ∀ i < m.length, a.getD i 0 &&& m.getD i 0 = b.getD i 0 &&& m.getD i 0 := by
  refine ⟨fun h i _ => by rw [← masked_getD ha, ← masked_getD hb, h], fun h => ?_⟩
  refine List.ext_getElem (by rw [masked_length ha, masked_length hb]) fun i hi hi' => ?_
  have hget := h i (by rw [masked_length ha] at hi; exact hi)
  rw [← masked_getD ha, ← masked_getD hb] at hget
  rwa [List.getD_eq_getElem _ _ hi, List.getD_eq_getElem _ _ hi'] at hget

/-! ### Words -/

lemma leVal_masked {a m : List UInt8} (h : a.length = m.length) :
    leVal (masked a m) = leVal a &&& leVal m := by
  induction a generalizing m with
  | nil => simp [masked, leVal]
  | cons x a ih =>
    cases m with
    | nil => simp at h
    | cons y m =>
      have ih := ih (m := m) (by simpa using h)
      have hx := x.toNat_lt
      have hy := y.toNat_lt
      unfold masked at ih ⊢
      rw [List.zipWith_cons_cons, leVal, leVal, leVal, ih, UInt8.toNat_and]
      refine Nat.eq_of_testBit_eq fun k => ?_
      have hsplit : ∀ u v, u < 256 → (u + 256 * v).testBit k =
          if k < 8 then u.testBit k else v.testBit (k - 8) := by
        intro u v hu
        rw [Nat.add_comm]
        exact Nat.testBit_two_pow_mul_add v (i := 8) hu k
      rw [Nat.testBit_and, hsplit _ _ (Nat.lt_of_le_of_lt Nat.and_le_left hx), hsplit _ _ hx,
        hsplit _ _ hy]
      split <;> rw [Nat.testBit_and]

lemma load_masked (e : Endian) {a m : List UInt8} (h : a.length = m.length) :
    load e (masked a m) = load e a &&& load e m := by
  cases e with
  | little => exact leVal_masked h
  | big =>
    have hrev : (masked a m).reverse = masked a.reverse m.reverse := List.reverse_zipWith h
    rw [load, hrev, leVal_masked (by simpa using h), load, load]

/-- The `and` of two words is the word of the masked bytes. -/
lemma word32_and (e : Endian) {a m : List UInt8} (ha : a.length = 4) (hm : m.length = 4) :
    word32 e a &&& word32 e m = word32 e (masked a m) := by
  have hlt : ∀ l : List UInt8, l.length = 4 → load e l < 2 ^ 32 := by
    intro l hl
    have h := load_lt e l
    rw [hl] at h
    exact h
  apply UInt32.toNat_inj.mp
  unfold word32
  rw [load_masked e (ha.trans hm.symm), UInt32.toNat_and, UInt32.toNat_ofNat',
    UInt32.toNat_ofNat', UInt32.toNat_ofNat', Nat.mod_eq_of_lt (hlt a ha),
    Nat.mod_eq_of_lt (hlt m hm), Nat.mod_eq_of_lt]
  exact Nat.lt_of_le_of_lt Nat.and_le_left (hlt a ha)

/-- **Comparison of words under a mask**, for either byte order. -/
theorem word32_masked_eq_iff (e : Endian) {a b m : List UInt8} (ha : a.length = 4)
    (hb : b.length = 4) (hm : m.length = 4) :
    word32 e a &&& word32 e m = word32 e b &&& word32 e m ↔ masked a m = masked b m := by
  have hlen : ∀ {l : List UInt8}, l.length = 4 → (masked l m).length = 4 := fun h =>
    (masked_length (h.trans hm.symm)).trans hm
  rw [word32_and e ha hm, word32_and e hb hm]
  refine ⟨fun h => ?_, fun h => by rw [h]⟩
  rw [← bytes32_word32 e (hlen ha), h, bytes32_word32 e (hlen hb)]

/-- The bits of a number written in network order. -/
lemma bit_store_big (n x : ℕ) {j : ℕ} (hj : j < 8 * n) :
    bit (store .big n x) j = x.testBit (8 * n - 1 - j) := by
  have hbyte : ∀ n x i, i < n → (leBytes n x)[i]? = some (UInt8.ofNat (x / 256 ^ i)) := by
    intro n
    induction n with
    | zero => intro x i hi; omega
    | succ n ih =>
      intro x i hi
      cases i with
      | zero => simp [leBytes]
      | succ i =>
        rw [leBytes, List.getElem?_cons_succ, ih _ _ (by omega), Nat.div_div_eq_div_mul,
          Nat.pow_succ, Nat.mul_comm]
  have hget : (store .big n x).getD (j / 8) 0 = UInt8.ofNat (x / 256 ^ (n - 1 - j / 8)) := by
    rw [store, List.getD_eq_getElem?_getD, List.getElem?_reverse (by rw [leBytes_length]; omega),
      leBytes_length, hbyte _ _ _ (by omega)]
    rfl
  have hpow : (256 : ℕ) ^ (n - 1 - j / 8) = 2 ^ (8 * (n - 1 - j / 8)) := by
    rw [Nat.pow_mul]
  rw [bit, hget, UInt8.toNat_ofNat', Nat.testBit_mod_two_pow, hpow, Nat.testBit_div_two_pow,
    decide_eq_true (by omega), Bool.true_and]
  congr 1
  omega

end Agentsmith.Lib.PrefixBits
