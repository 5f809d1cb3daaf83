import Mathlib.Data.List.DropRight
import Agentsmith.Exclude

/-!
The lines of the exclude list.

A line denotes a network: an address, and how many of its first bits count. The parser works
on the characters of the line; what it hands to the list is the network the line denotes.
-/

namespace Agentsmith.ExcludeLines

open Agentsmith.Lib.CStrings Agentsmith.Globals Agentsmith.Exclude

variable {pton : InetPton} {line : CStr} {net : Addr} {p : ℕ}

def bits : Af → ℕ
  | .inet => 32
  | .inet6 => 128

def af : Addr → Af
  | .inet _ => .inet
  | .inet6 _ => .inet6

def octets : Addr → List UInt8
  | .inet a => a.1
  | .inet6 a => a.1

/-- A line with a colon is of IPv6. -/
def family (line : CStr) : Af := if 58 ∈ line.1 then .inet6 else .inet

/-- The line without a newline at its end. -/
def chomp (line : CStr) : CStr :=
  if line.1.getLast? = some 10 then
    ⟨line.1.dropLast, fun h => line.2 (List.dropLast_subset _ h)⟩
  else line

/-- The network of a line, and the length of its prefix, as `atoi` reads it behind the first
slash. -/
inductive Denotes (pton : InetPton) (line : CStr) : Addr → ℕ → Prop
  | host (net : Addr) : 47 ∉ line.1 → pton.addr (family line) (chomp line) = some net →
      Denotes pton line net (bits (family line))
  | cidr (ip : CStr) (rest : List UInt8) (net : Addr) (p : ℕ) : line.1 = ip.1 ++ 47 :: rest →
      47 ∉ ip.1 → pton.addr (family line) ip = some net → (atoi rest).toInt = p →
      p ≤ bits (family line) → Denotes pton line net p

/-- The line is taken into the list: it is not too short to be looked at. -/
def Accepts (pton : InetPton) (line : CStr) (net : Addr) (p : ℕ) : Prop :=
  3 ≤ line.1.length ∧ Denotes pton line net p

/-- How an addition begins: the line parsed, and the address converted. -/
def numeric (pton : InetPton) (line : CStr) : Option (Addr × UInt32) :=
  (excludeParseIp line).bind fun ⟨ip, prefixLen, af⟩ => (pton.addr af ip).map (·, prefixLen)

/-! ### The parser -/

lemma af_of_addr {f : Af} {ip : CStr} (h : pton.addr f ip = some net) : af net = f := by
  cases f with
  | inet =>
    obtain ⟨b, -, rfl⟩ := Option.map_eq_some_iff.mp h
    rfl
  | inet6 =>
    obtain ⟨b, -, rfl⟩ := Option.map_eq_some_iff.mp h
    rfl

lemma family_eq (line : CStr) :
    (if (strchr line 58).isSome then Af.inet6 else Af.inet) = family line := by
  have hiff : (strchr line 58).isSome ↔ 58 ∈ line.1 := by
    unfold strchr
    rw [List.findIdx?_isSome]
    simp
  unfold family
  rw [if_congr hiff rfl rfl]

lemma chomp_eq (line : CStr) :
    (if line.1.getLast? = some 10 then upTo (line.1.length - 1) line else line) = chomp line := by
  unfold chomp upTo
  split
  · exact Subtype.ext List.dropLast_eq_take.symm
  · rfl

lemma chomp_self (hnl : 10 ∉ line.1) : chomp line = line := by
  unfold chomp
  rw [if_neg fun h => hnl (List.mem_of_getLast? h)]

/-- The conversion to `unsigned int` sends every negative length above the width. -/
lemma toUInt32_le (i : Int32) {w q : ℕ} (hw : w ≤ 128) :
    i.toUInt32.toNat = q ∧ q ≤ w ↔ i.toInt = q ∧ q ≤ w := by
  have hint : i.toInt = if 2 * i.toUInt32.toNat < 2 ^ 32 then (i.toUInt32.toNat : ℤ)
      else i.toUInt32.toNat - 2 ^ 32 := by
    show i.toBitVec.toInt = _
    rw [BitVec.toInt_eq_toNat_cond]
    rfl
  have hlt := i.toUInt32.toNat_lt
  rw [hint]
  split <;> omega

lemma strchr_split {c : UInt8} {i : ℕ} (h : strchr line c = some i) :
    line.1 = (upTo i line).1 ++ c :: line.1.drop (i + 1) ∧ c ∉ (upTo i line).1 := by
  obtain ⟨hi, hc, hbefore⟩ := List.findIdx?_eq_some_iff_getElem.mp h
  refine ⟨?_, fun hmem => ?_⟩
  · have hget : line.1[i] = c := by simpa using hc
    show line.1 = line.1.take i ++ _
    rw [← hget, ← List.drop_eq_getElem_cons hi, List.take_append_drop]
  · obtain ⟨j, hj, hjc⟩ := List.mem_iff_getElem.mp hmem
    have hji : j < i := by
      have : (upTo i line).1.length = min i line.1.length := List.length_take
      omega
    have := hbefore j hji
    simp only [upTo, List.getElem_take] at hjc
    simp [hjc] at this

lemma strchr_append {c : UInt8} {s : List UInt8} {rest : List UInt8}
    (h : line.1 = s ++ c :: rest) (hs : c ∉ s) : strchr line c = some s.length := by
  have hlen : s.length < line.1.length := by rw [h]; simp
  refine List.findIdx?_eq_some_iff_getElem.mpr ⟨hlen, ?_, fun j hj => ?_⟩
  · simp [h]
  · have hne : s[j] ≠ c := fun heq => hs (heq ▸ List.getElem_mem hj)
    simpa [h, List.getElem_append_left hj] using hne

/-- A line has one part before the first `c`, and one behind it. -/
lemma split_unique {c : UInt8} {s s' rest rest' : List UInt8} (h : line.1 = s ++ c :: rest)
    (h' : line.1 = s' ++ c :: rest') (hs : c ∉ s) (hs' : c ∉ s') : s = s' ∧ rest = rest' := by
  have hlen : s.length = s'.length :=
    Option.some.inj ((strchr_append h hs).symm.trans (strchr_append h' hs'))
  obtain ⟨hfirst, hrest⟩ := List.append_inj (h.symm.trans h') hlen
  exact ⟨hfirst, (List.cons.inj hrest).2⟩

lemma strchr_none {c : UInt8} : strchr line c = none ↔ c ∉ line.1 := by
  unfold strchr
  rw [List.findIdx?_eq_none_iff]
  refine ⟨fun h hc => by simpa using h c hc, fun h b hb => ?_⟩
  simpa using fun hbc : b = c => h (hbc ▸ hb)

/-- The check on the number behind the slash: it is a prefix length of the family. -/
lemma parse_cidr {i : ℕ} (hlen : 3 ≤ line.1.length) (hi : strchr line 47 = some i) :
    excludeParseIp line =
      if (atoi (line.1.drop (i + 1))).toUInt32.toNat ≤ bits (family line) then
        some (upTo i line, (atoi (line.1.drop (i + 1))).toUInt32, family line)
      else none := by
  unfold excludeParseIp
  rw [if_neg (by omega)]
  simp only [family_eq, hi]
  have hle : ∀ q w : UInt32, q > w ↔ ¬ q.toNat ≤ w.toNat := by
    intro q w
    rw [Nat.not_le]
    exact UInt32.lt_iff_toNat_lt
  generalize (atoi (line.1.drop (i + 1))).toUInt32 = q
  simp only [hle q]
  cases family line with
  | inet =>
    by_cases hq : q.toNat ≤ 32
    · simp [bits, hq]
    · simp [bits, hq]
  | inet6 =>
    by_cases hq : q.toNat ≤ 128
    · simp [bits, hq]
    · simp [bits, hq]

lemma parse_host (hlen : 3 ≤ line.1.length) (hi : strchr line 47 = none) :
    excludeParseIp line =
      some (chomp line, if family line = .inet6 then 128 else 32, family line) := by
  unfold excludeParseIp
  rw [if_neg (by omega)]
  simp only [family_eq, chomp_eq, hi]

lemma hostBits (f : Af) : (if f = .inet6 then 128 else 32 : UInt32).toNat = bits f := by
  cases f <;> rfl

/-- **The parser reads what the line denotes**, and takes the length of the prefix only if
the address has so many bits. -/
theorem numeric_iff {q : UInt32} : numeric pton line = some (net, q) ↔
    Accepts pton line net q.toNat := by
  unfold numeric Accepts
  by_cases hlen : 3 ≤ line.1.length
  swap
  · have hshort : excludeParseIp line = none := by
      unfold excludeParseIp
      rw [if_pos (by omega)]
    rw [hshort]
    simp [hlen]
  rcases hi : strchr line 47 with _ | i
  · rw [parse_host hlen hi, Option.bind_some, Option.map_eq_some_iff]
    have hslash := strchr_none.mp hi
    refine ⟨?_, ?_⟩
    · rintro ⟨a, ha, heq⟩
      obtain ⟨rfl, rfl⟩ := Prod.mk.inj heq
      rw [hostBits]
      exact ⟨hlen, .host a hslash ha⟩
    · rintro ⟨-, hd⟩
      generalize hp : q.toNat = p at hd
      cases hd with
      | host _ _ ha =>
        refine ⟨net, ha, ?_⟩
        rw [UInt32.toNat_inj.mp (hp.trans (hostBits _).symm)]
      | cidr ip rest _ _ hline => exact absurd (by rw [hline]; simp) hslash
  · obtain ⟨hline, hslash⟩ := strchr_split hi
    rw [parse_cidr hlen hi]
    have hconv := fun q => toUInt32_le (atoi (line.1.drop (i + 1))) (w := bits (family line))
      (q := q) (by cases family line <;> decide)
    refine ⟨fun h => ?_, ?_⟩
    · split at h
      · rename_i hle
        obtain ⟨a, ha, heq⟩ := Option.map_eq_some_iff.mp h
        obtain ⟨rfl, rfl⟩ := Prod.mk.inj heq
        obtain ⟨hint, hq⟩ := (hconv _).mp ⟨rfl, hle⟩
        exact ⟨hlen, .cidr (upTo i line) _ a _ hline hslash ha hint hq⟩
      · cases h
    · rintro ⟨-, hd⟩
      generalize hp : q.toNat = p at hd
      cases hd with
      | host _ hno _ => exact absurd (by rw [hline]; simp) hno
      | cidr ip rest _ _ hline' hslash' ha hint hq =>
        have hlast : i = ip.1.length := by
          rw [strchr_append hline' hslash'] at hi
          simpa using hi.symm
        have hip : upTo i line = ip := Subtype.ext (by
          show line.1.take i = ip.1
          rw [hline', hlast, List.take_left])
        have hrest : line.1.drop (i + 1) = rest := by
          rw [hline', hlast, List.drop_append]
          simp
        rw [hrest] at hconv ⊢
        obtain ⟨htoNat, hle⟩ := (hconv p).mpr ⟨hint, hq⟩
        rw [if_pos (by omega), hip, UInt32.toNat_inj.mp (htoNat.trans hp.symm)]
        show (pton.addr (family line) ip).map (·, q) = some (net, q)
        rw [ha, Option.map_some]

lemma accepts_le (h : Accepts pton line net p) : p ≤ bits (af net) := by
  obtain ⟨-, hd⟩ := h
  cases hd with
  | host _ _ ha => rw [af_of_addr ha]
  | cidr ip rest _ _ _ _ ha _ hp => rw [af_of_addr ha]; exact hp

lemma numeric_of_accepts (h : Accepts pton line net p) :
    ∃ q : UInt32, q.toNat = p ∧ numeric pton line = some (net, q) := by
  have hp : p ≤ 128 := (accepts_le h).trans (by cases af net <;> decide)
  have hq : (UInt32.ofNat p).toNat = p := by
    rw [UInt32.toNat_ofNat']
    omega
  exact ⟨_, hq, numeric_iff.mpr (by rw [hq]; exact h)⟩

end Agentsmith.ExcludeLines
