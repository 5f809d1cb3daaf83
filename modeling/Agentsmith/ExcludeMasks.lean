import Agentsmith.Lib.PrefixBits
import Agentsmith.ExcludeLines

/-!
The masks of the exclude list, and the test of one record.

For IPv4 the mask is a shifted number in network order, for IPv6 it is written byte by byte.
Either way it selects the first bits of an address, so the test is whether two addresses
agree on them.
-/

namespace Agentsmith.ExcludeMasks

open Agentsmith.Lib.CStrings Agentsmith.Lib.Words Agentsmith.Lib.PrefixBits
open Agentsmith.Globals Agentsmith.Exclude Agentsmith.ExcludeLines

variable {e : Endian} {net a : Addr}

/-- An address of the same family, with the same first `p` bits. -/
def Covers (p : ℕ) (net a : Addr) : Prop := af net = af a ∧ AgreeOn p (octets net) (octets a)

/-! ### Masks -/

/-- The shift is defined for every length of a prefix but `0`. -/
lemma shl32_iff {q m : UInt32} (hq : q.toNat ≤ 32) :
    shl32 0xffffffff (32 - q) = some m ↔ q ≠ 0 ∧ m = 0xffffffff <<< (32 - q) := by
  have hsub : (32 - q).toNat = 32 - q.toNat := UInt32.toNat_sub_of_le _ _ hq
  have hlt : 32 - q < 32 ↔ q ≠ 0 := by
    rw [UInt32.lt_iff_toNat_lt, hsub, ne_eq, ← UInt32.toNat_inj]
    show 32 - q.toNat < 32 ↔ ¬ q.toNat = 0
    omega
  unfold shl32
  by_cases h0 : q ≠ 0
  · rw [if_pos (hlt.mpr h0)]
    simp [h0, eq_comm]
  · rw [if_neg (by rw [hlt]; exact h0)]
    simp [h0]

lemma masks_ipv4 {q : UInt32} (hq : q.toNat ≤ 32) (h0 : q ≠ 0) :
    Masks q.toNat (bytes32 .big (0xffffffff <<< (32 - q))) := by
  intro j hj
  rw [bytes32_length] at hj
  have hpos : q.toNat ≠ 0 := fun h => h0 (UInt32.toNat_inj.mp h)
  have hsub : (32 - q).toNat = 32 - q.toNat := UInt32.toNat_sub_of_le _ _ hq
  have hones : (0xffffffff : UInt32).toNat = 2 ^ 32 - 1 := rfl
  unfold bytes32
  rw [bit_store_big 4 _ hj, UInt32.toNat_shiftLeft, hsub, hones, Nat.testBit_mod_two_pow,
    Nat.testBit_shiftLeft, Nat.testBit_two_pow_sub_one]
  rw [Nat.mod_eq_of_lt (by omega)]
  simp only [← Bool.decide_and, decide_eq_decide]
  omega

lemma zeros_cons {n : ℕ} (hn : n < 16) :
    List.replicate (16 - n) (0 : UInt8) = 0 :: List.replicate (15 - n) 0 := by
  rw [← List.replicate_succ]
  congr 1
  omega

lemma maskLoop {n : ℕ} (hn : n ≤ 16) :
    (List.range n).foldl (fun mask i => mask.set i 0xff) (List.replicate 16 (0 : UInt8)) =
      List.replicate n 0xff ++ List.replicate (16 - n) 0 := by
  induction n with
  | zero => rfl
  | succ n ih =>
    have hrest : 16 - (n + 1) = 15 - n := by omega
    rw [List.range_succ, List.foldl_append, ih (by omega), List.foldl_cons, List.foldl_nil,
      List.set_append_right _ _ (by simp), List.length_replicate, Nat.sub_self,
      zeros_cons (by omega), hrest, List.set_cons_zero, List.replicate_succ', List.append_assoc,
      List.singleton_append]

/-- The byte of the mask in which the prefix ends. -/
def partByte (m : ℕ) : UInt8 := if m = 0 then 0 else 0xff <<< UInt8.ofNat (8 - m)

lemma partByte_bit : ∀ m < 8, ∀ k < 8, (partByte m).toNat.testBit (7 - k) = decide (k < m) := by
  decide

lemma prefixToIpv6Mask_eq {q : UInt32} (hq : q.toNat ≤ 128) :
    excludePrefixToIpv6Mask q =
      (List.replicate (q.toNat / 8) 0xff ++
        partByte (q.toNat % 8) :: List.replicate (15 - q.toNat / 8) 0).take 16 := by
  have hdiv : (q / 8).toNat = q.toNat / 8 := UInt32.toNat_div q 8
  have hmod : (q % 8).toNat = q.toNat % 8 := UInt32.toNat_mod q 8
  unfold excludePrefixToIpv6Mask
  rw [hdiv, hmod]
  dsimp only
  rw [maskLoop (by omega)]
  by_cases hm : q.toNat % 8 = 0
  · rw [if_pos hm, hm]
    by_cases h16 : q.toNat / 8 = 16
    · simp [h16]
    · rw [zeros_cons (by omega), List.take_of_length_le (by simp; omega)]
      rfl
  · rw [if_neg hm, List.take_of_length_le (by simp; omega), zeros_cons (by omega)]
    simp [partByte, hm]

lemma prefixToIpv6Mask_length {q : UInt32} (hq : q.toNat ≤ 128) :
    (excludePrefixToIpv6Mask q).length = 16 := by
  rw [prefixToIpv6Mask_eq hq]
  simp
  omega

lemma masks_ipv6 {q : UInt32} (hq : q.toNat ≤ 128) :
    Masks q.toNat (excludePrefixToIpv6Mask q) := by
  intro j hj
  rw [prefixToIpv6Mask_length hq] at hj
  have hbyte : (excludePrefixToIpv6Mask q).getD (j / 8) 0 =
      if j / 8 < q.toNat / 8 then 0xff
      else if j / 8 = q.toNat / 8 then partByte (q.toNat % 8) else 0 := by
    rw [prefixToIpv6Mask_eq hq, List.getD_eq_getElem?_getD, List.getElem?_take,
      if_pos (by omega), List.getElem?_append, List.length_replicate]
    split
    · rw [List.getElem?_replicate, if_pos (by omega)]
      rfl
    · rw [List.getElem?_cons]
      by_cases heq : j / 8 = q.toNat / 8
      · rw [if_pos (by omega), if_pos heq]
        rfl
      · rw [if_neg (by omega), if_neg heq, List.getElem?_replicate, if_pos (by omega)]
        rfl
  have hones : ∀ k < 8, (0xff : UInt8).toNat.testBit k = true := by decide
  unfold bit
  rw [hbyte]
  split
  · rw [hones _ (by omega), decide_eq_true (by omega)]
  · split
    · rw [partByte_bit _ (by omega) _ (by omega)]
      simp only [decide_eq_decide]
      omega
    · rw [decide_eq_false (by omega)]
      exact Nat.zero_testBit _

/-! ### Records -/

lemma ipv4InNet_iff {n m i : UInt32} :
    excludeIpv4InNet n m i ≠ retvalErr ↔ n &&& m = i &&& m := by
  unfold excludeIpv4InNet
  split
  · rename_i h
    exact ⟨fun _ => h, fun _ => by decide⟩
  · rename_i h
    exact ⟨fun hne => absurd rfl hne, fun heq => absurd heq h⟩

lemma ipv6InNet_iff {n m i : List UInt8} (hn : n.length = 16) (hm : m.length = 16)
    (hi : i.length = 16) :
    excludeIpv6InNet n m i ≠ retvalErr ↔ masked n m = masked i m := by
  rw [masked_eq_iff_getD (hn.trans hm.symm) (hi.trans hm.symm), hm]
  unfold excludeIpv6InNet
  split
  · rename_i hany
    obtain ⟨j, hj, hne⟩ := List.any_eq_true.mp hany
    refine ⟨fun h => absurd rfl h, fun h => ?_⟩
    exact absurd (h j (List.mem_range.mp hj)) (of_decide_eq_true hne)
  · rename_i hany
    refine ⟨fun _ j hj => ?_, fun _ => by decide⟩
    by_contra hne
    exact hany (List.any_eq_true.mpr ⟨j, List.mem_range.mpr hj, decide_eq_true hne⟩)

/-- A record is computed but for the prefix of length `0` in IPv4. -/
lemma record_none {q : UInt32} (hq : q.toNat ≤ bits (af net)) :
    excludeRecord e net q = none ↔ af net = .inet ∧ q = 0 := by
  cases net with
  | inet n =>
    have hshl := fun m => shl32_iff (m := m) hq
    show (shl32 _ _).map _ = none ↔ _
    rw [Option.map_eq_none_iff]
    by_cases h0 : q = 0
    · refine ⟨fun _ => ⟨rfl, h0⟩, fun _ => ?_⟩
      rcases hs : shl32 0xffffffff (32 - q) with _ | m
      · rfl
      · exact absurd h0 ((hshl m).mp hs).1
    · rw [(hshl _).mpr ⟨h0, rfl⟩]
      simp [h0]
  | inet6 n =>
    show (some _ : Option ExcludeRecord) = none ↔ _
    simp [af]

/-- **The test of a record** is membership in its network. -/
theorem fits_iff {q : UInt32} {r : ExcludeRecord} (hq : q.toNat ≤ bits (af net))
    (hr : excludeRecord e net q = some r) :
    excludeFits e a r = true ↔ Covers q.toNat net a := by
  unfold Covers
  cases net with
  | inet n =>
    obtain ⟨m, hm, rfl⟩ := Option.map_eq_some_iff.mp hr
    obtain ⟨h0, rfl⟩ := (shl32_iff hq).mp hm
    cases a with
    | inet6 _ => simp [excludeFits, af]
    | inet b =>
      have hlen := bytes32_length .big (0xffffffff <<< (32 - q))
      have hmask := masks_ipv4 hq h0
      generalize (0xffffffff : UInt32) <<< (32 - q) = mask at hlen hmask
      rw [excludeFits, decide_eq_true_iff, af, af, and_iff_right rfl, octets, octets]
      calc excludeIpv4InNet (word32 e n.1) (htonl e mask) (word32 e b.1) ≠ retvalErr
          ↔ word32 e n.1 &&& htonl e mask = word32 e b.1 &&& htonl e mask := ipv4InNet_iff
        _ ↔ masked n.1 (bytes32 .big mask) = masked b.1 (bytes32 .big mask) :=
            word32_masked_eq_iff e n.2 b.2 hlen
        _ ↔ AgreeOn q.toNat n.1 b.1 :=
            masked_eq_iff (n.2.trans hlen.symm) (b.2.trans hlen.symm) hmask (by rw [hlen]; exact hq)
  | inet6 n =>
    obtain rfl := Option.some.inj hr
    cases a with
    | inet _ => simp [excludeFits, af]
    | inet6 b =>
      have hlen := prefixToIpv6Mask_length hq
      have hmask := masks_ipv6 hq
      generalize excludePrefixToIpv6Mask q = mask at hlen hmask
      rw [excludeFits, decide_eq_true_iff, af, af, and_iff_right rfl, octets, octets]
      calc excludeIpv6InNet n.1 mask b.1 ≠ retvalErr
          ↔ masked n.1 mask = masked b.1 mask := ipv6InNet_iff n.2 hlen b.2
        _ ↔ AgreeOn q.toNat n.1 b.1 :=
            masked_eq_iff (n.2.trans hlen.symm) (b.2.trans hlen.symm) hmask (by rw [hlen]; exact hq)

/-! ### The masks of IPv6 as they are written -/

/-- A write into the sixteen bytes of an address. -/
def writeByte (mask : List UInt8) (i : ℕ) (c : UInt8) : Option (List UInt8) :=
  if i < 16 then some (mask.set i c) else none

/-- `_exclude_prefix_to_ipv6_mask` with every write checked: one outside the address has no
result. -/
def checkedMask (prefixLen : UInt32) : Option (List UInt8) :=
  let mask := List.replicate 16 0
  let n := (prefixLen / 8).toNat
  ((List.range n).foldlM (fun mask i => writeByte mask i 0xff) mask).bind fun mask =>
    let m := (prefixLen % 8).toNat
    if m = 0 then some mask
    else
      (writeByte mask n 0xff).bind fun mask =>
        writeByte mask n (mask.getD n 0 <<< UInt8.ofNat (8 - m))

lemma writeByte_eq {i : ℕ} (hi : i < 16) (mask : List UInt8) (c : UInt8) :
    writeByte mask i c = some (mask.set i c) := if_pos hi

lemma checkedLoop {is : List ℕ} (h : ∀ i ∈ is, i < 16) (mask : List UInt8) :
    is.foldlM (fun mask i => writeByte mask i 0xff) mask =
      some (is.foldl (fun mask i => mask.set i 0xff) mask) := by
  induction is generalizing mask with
  | nil => rfl
  | cons i is ih =>
    rw [List.foldlM_cons, writeByte_eq (h i List.mem_cons_self), Option.bind_eq_bind,
      Option.bind_some, ih fun j hj => h j (List.mem_cons_of_mem _ hj), List.foldl_cons]

/-- No write falls outside. Only the early return keeps the last one from the byte behind. -/
lemma checkedMask_eq {q : UInt32} (hq : q.toNat ≤ 128) :
    checkedMask q = some (excludePrefixToIpv6Mask q) := by
  have hdiv : (q / 8).toNat = q.toNat / 8 := UInt32.toNat_div q 8
  have hmod : (q % 8).toNat = q.toNat % 8 := UInt32.toNat_mod q 8
  have hloop : ∀ i ∈ List.range (q.toNat / 8), i < 16 := by
    intro i hi
    have hlt := List.mem_range.mp hi
    omega
  unfold checkedMask excludePrefixToIpv6Mask
  rw [hdiv, hmod]
  dsimp only
  rw [checkedLoop hloop, Option.bind_some]
  split
  · rfl
  · rename_i hm
    have hlast : q.toNat / 8 < 16 := by omega
    rw [writeByte_eq hlast, Option.bind_some, writeByte_eq hlast]

lemma ipv6InNet_agree {q : UInt32} (hq : q.toNat ≤ 128) (net ip : Field 16) :
    excludeIpv6InNet net.1 (excludePrefixToIpv6Mask q) ip.1 = retvalOk ↔
      AgreeOn q.toNat net.1 ip.1 := by
  have hlen := prefixToIpv6Mask_length hq
  have hok : excludeIpv6InNet net.1 (excludePrefixToIpv6Mask q) ip.1 = retvalOk ↔
      excludeIpv6InNet net.1 (excludePrefixToIpv6Mask q) ip.1 ≠ retvalErr := by
    unfold excludeIpv6InNet
    split
    · decide
    · decide
  rw [hok, ipv6InNet_iff net.2 hlen ip.2]
  exact masked_eq_iff (net.2.trans hlen.symm) (ip.2.trans hlen.symm) (masks_ipv6 hq)
    (by rw [hlen]; exact hq)

/-- **IPv6 masks**: a mask is written inside its address, it selects the bits of the prefix, and
what is in a network is in every one with a shorter prefix. -/
theorem ipv6_masks_select (p : UInt32) (hp : p ≤ 128) :
    checkedMask p = some (excludePrefixToIpv6Mask p) ∧
      ∀ net ip : Field 16,
        (excludeIpv6InNet net.1 (excludePrefixToIpv6Mask p) ip.1 = retvalOk ↔
          AgreeOn p.toNat net.1 ip.1) ∧
        ∀ q : UInt32, p ≤ q → q ≤ 128 →
          excludeIpv6InNet net.1 (excludePrefixToIpv6Mask q) ip.1 = retvalOk →
          excludeIpv6InNet net.1 (excludePrefixToIpv6Mask p) ip.1 = retvalOk := by
  have hnat : ∀ q : UInt32, q ≤ 128 → q.toNat ≤ 128 := fun q hq => UInt32.le_iff_toNat_le.mp hq
  refine ⟨checkedMask_eq (hnat p hp), fun net ip => ⟨ipv6InNet_agree (hnat p hp) net ip, ?_⟩⟩
  intro q hpq hq hin
  have hagree := (ipv6InNet_agree (hnat q hq) net ip).mp hin
  refine (ipv6InNet_agree (hnat p hp) net ip).mpr fun j hj => hagree j ?_
  exact Nat.lt_of_lt_of_le hj (UInt32.le_iff_toNat_le.mp hpq)

/-- The network `2001:1:2:8::/61`, and its last address. -/
def net61 : Field 16 :=
  ⟨[0x20, 0x01, 0, 1, 0, 2, 0, 8] ++ List.replicate 8 0, rfl⟩

def last61 : Field 16 :=
  ⟨[0x20, 0x01, 0, 1, 0, 2, 0, 0xf] ++ List.replicate 8 0xff, rfl⟩

theorem ipv6_masks_select_run :
    excludeIpv6InNet net61.1 (excludePrefixToIpv6Mask 61) last61.1 = retvalOk ∧
      excludeIpv6InNet net61.1 (excludePrefixToIpv6Mask 62) last61.1 ≠ retvalOk ∧
      excludeIpv6InNet net61.1 (excludePrefixToIpv6Mask 48) last61.1 = retvalOk := by
  obtain ⟨-, h61⟩ := ipv6_masks_select 61 (by decide)
  obtain ⟨-, h62⟩ := ipv6_masks_select 62 (by decide)
  obtain ⟨-, h48⟩ := ipv6_masks_select 48 (by decide)
  have hin := (h61 net61 last61).1.mpr (by decide +kernel)
  refine ⟨hin, fun h => ?_, (h48 net61 last61).2 61 (by decide) (by decide) hin⟩
  exact absurd ((h62 net61 last61).1.mp h) (by decide +kernel)

end Agentsmith.ExcludeMasks
