import Agentsmith.ExcludeCidr

/-!
The grammar of a line of the exclude list: an address, or an address, a slash and a decimal
number that is at most the number of bits.

What stands behind the slash goes through `atoi`, which reads a number from any string.
-/

namespace Agentsmith.ExcludeGrammar

open Agentsmith.Lib.CStrings Agentsmith.Lib.Chunks Agentsmith.Lib.Words
open Agentsmith.Globals Agentsmith.Exclude Agentsmith.ExcludeLines Agentsmith.ExcludeMasks
open Agentsmith.ExcludeCidr

variable {pton : InetPton} {e : Endian} {line : CStr} {net : Addr} {p : ℕ} {v : Store}

def decimal (digits : List UInt8) : ℕ :=
  digits.foldl (fun n c => 10 * n + (c.toNat - 48)) 0

/-- The text is a number in decimal. -/
structure Number (text : List UInt8) (p : ℕ) : Prop where
  pos : text ≠ []
  digits : ∀ c ∈ text, 48 ≤ c ∧ c ≤ 57
  value : decimal text = p

instance (text : List UInt8) (p : ℕ) : Decidable (Number text p) :=
  have hall : (text.all fun c => 48 ≤ c ∧ c ≤ 57) ↔ ∀ c ∈ text, 48 ≤ c ∧ c ≤ 57 := by
    simp only [List.all_eq_true, decide_eq_true_iff]
  decidable_of_iff (text ≠ [] ∧ (text.all fun c => 48 ≤ c ∧ c ≤ 57) ∧ decimal text = p)
    ⟨fun ⟨hpos, hdigits, hval⟩ => ⟨hpos, hall.mp hdigits, hval⟩,
      fun ⟨hpos, hdigits, hval⟩ => ⟨hpos, hall.mpr hdigits, hval⟩⟩

/-- The lines of the grammar, with the address and the length of the prefix. -/
inductive Grammar (pton : InetPton) (line : CStr) : Addr → ℕ → Prop
  | host (net : Addr) : pton.addr (af net) line = some net → Grammar pton line net (bits (af net))
  | cidr (ip : CStr) (text : List UInt8) (net : Addr) (p : ℕ) : line.1 = ip.1 ++ 47 :: text →
      pton.addr (af net) ip = some net → Number text p → p ≤ bits (af net) →
      Grammar pton line net p

/-- The call returns `RETVAL_OK` for a line of the grammar and for no other, and stores the network
with the prefix of that length. -/
def Meets (pton : InetPton) (e : Endian) (line : CStr) (v : Store) : Prop :=
  ∃ v' r, excludeAdd pton e true line v = some (v', r) ∧
    (r = retvalOk ↔ ∃ net p, Grammar pton line net p) ∧
    ∀ net p, Grammar pton line net p → ∃ q rec, q.toNat = p ∧ excludeRecord e net q = some rec ∧
      v' = place true rec (excludeSlot v)

/-- A line that is too short to be looked at is not of the grammar. What stands behind an address
and a slash is a number, and not `0` for IPv4, if `atoi` reads a length of a prefix from it. -/
structure Clean (pton : InetPton) (line : CStr) : Prop where
  short : line.1.length < 3 → ∀ net p, ¬ Grammar pton line net p
  text : 3 ≤ line.1.length → ∀ ip text net (p : ℕ), line.1 = ip.1 ++ 47 :: text → 47 ∉ ip.1 →
    pton.addr (family line) ip = some net → (atoi text).toInt = p → p ≤ bits (family line) →
    Number text p ∧ ¬ (family line = .inet ∧ p = 0)

/-! ### The number behind the slash -/

/-- `atoi` reads the value of a number that is not too large. -/
lemma atoi_number {text : List UInt8} (h : Number text p) (hp : p ≤ 128) :
    (atoi text).toInt = p := by
  obtain ⟨hpos, hdigits, hval⟩ := h
  obtain ⟨c, rest, rfl⟩ := List.exists_cons_of_ne_nil hpos
  have hc := hdigits c List.mem_cons_self
  have hne : ∀ d : UInt8, d < 48 → c ≠ d := by
    rintro d hd rfl
    exact absurd hd (UInt8.not_lt.mpr hc.1)
  have hspace : (c :: rest).dropWhile (fun c => c = 32 ∨ (9 ≤ c ∧ c ≤ 13)) = c :: rest := by
    refine List.dropWhile_cons_of_neg ?_
    rw [decide_eq_true_iff]
    rintro (h32 | ⟨-, h13⟩)
    · exact hne 32 (by decide) h32
    · exact absurd (UInt8.le_trans hc.1 h13) (by decide)
  have hall : (c :: rest).takeWhile (fun c => 48 ≤ c ∧ c ≤ 57) = c :: rest :=
    List.takeWhile_eq_self_iff.mpr fun d hd => decide_eq_true (hdigits d hd)
  have hsign : ¬ ((c :: rest).head? = some 45 ∨ (c :: rest).head? = some 43) := by
    rw [List.head?_cons, Option.some.injEq, Option.some.injEq]
    exact not_or.mpr ⟨hne 45 (by decide), hne 43 (by decide)⟩
  unfold atoi
  dsimp only
  rw [hspace, if_neg hsign, if_neg fun h => hsign (Or.inl h), hall]
  unfold decimal at hval
  rw [hval, min_eq_right (by omega), Int32.toInt_ofInt, Int32.size]
  exact Int.bmod_eq_of_le (by omega) (by omega)

/-! ### The grammar and the parser -/

lemma bits_le (f : Af) : bits f ≤ 128 := by cases f <;> decide

/-- A line of the grammar denotes what it should. -/
lemma grammar_denotes (hnl : 10 ∉ line.1) (h : Grammar pton line net p) :
    Denotes pton line net p := by
  cases h with
  | host _ ha =>
    obtain ⟨hslash, -, hf⟩ := numeric_chars ha
    rw [← hf] at ha ⊢
    exact .host net hslash (by rw [chomp_self hnl]; exact ha)
  | cidr ip text _ _ hline ha hnum hp =>
    obtain ⟨hslash, -, hf⟩ := numeric_chars ha
    have hfam : family line = family ip := by
      have hcolon : 58 ∉ text := fun h => absurd (hnum.digits 58 h).2 (by decide)
      unfold family
      rw [hline]
      simp [hcolon]
    refine .cidr ip text net p hline hslash ?_ (atoi_number hnum (hp.trans (bits_le _))) ?_
    · rw [hfam, hf, ha]
    · rw [hfam, hf]
      exact hp

/-- A line denotes one network. -/
lemma accepts_unique {net' : Addr} {p' : ℕ} (h : Accepts pton line net p)
    (h' : Accepts pton line net' p') : net = net' ∧ p = p' := by
  obtain ⟨q, rfl, hq⟩ := numeric_of_accepts h
  obtain ⟨q', rfl, hq'⟩ := numeric_of_accepts h'
  obtain ⟨rfl, rfl⟩ := Prod.mk.inj (Option.some.inj (hq.symm.trans hq'))
  exact ⟨rfl, rfl⟩

/-- A clean line that is accepted is of the grammar. -/
lemma clean_grammar (hnl : 10 ∉ line.1) (hclean : Clean pton line) (h : Accepts pton line net p) :
    Grammar pton line net p ∧ ¬ (af net = .inet ∧ p = 0) := by
  obtain ⟨hlen, hd⟩ := h
  cases hd with
  | host _ hslash ha =>
    have hf := af_of_addr ha
    rw [chomp_self hnl] at ha
    rw [← hf] at ha ⊢
    refine ⟨.host net ha, fun ⟨_, h0⟩ => ?_⟩
    cases hn : af net <;> rw [hn] at h0 <;> cases h0
  | cidr ip text _ _ hline hslash ha hint hp =>
    have hf := af_of_addr ha
    obtain ⟨hnum, hzero⟩ := hclean.text hlen ip text net p hline hslash ha hint hp
    rw [← hf] at ha hp hzero
    exact ⟨.cidr ip text net p hline ha hnum hp, hzero⟩

/-- What is accepted of the grammar is clean behind the slash. -/
lemma grammar_clean {ip : CStr} {text : List UInt8} (h : Grammar pton line net p)
    (hline : line.1 = ip.1 ++ 47 :: text) (hslash : 47 ∉ ip.1) : Number text p := by
  cases h with
  | host _ ha =>
    obtain ⟨hno, -, -⟩ := numeric_chars ha
    exact absurd (by rw [hline]; simp) hno
  | cidr ip' text' _ _ hline' ha hnum hp =>
    obtain ⟨hslash', -, -⟩ := numeric_chars ha
    obtain ⟨-, rfl⟩ := split_unique hline hline' hslash hslash'
    exact hnum

/-! ### The call -/

lemma clean_of_meets (hnl : 10 ∉ line.1) (h : Meets pton e line v) : Clean pton line := by
  obtain ⟨v', r, hadd, hok, hstored⟩ := h
  rw [excludeAdd_eq] at hadd
  refine ⟨fun hshort net p hg => ?_, fun hlen ip text net p hline hslash ha hint hp => ?_⟩
  · have hnone : numeric pton line = none := by
      refine Option.eq_none_iff_forall_ne_some.mpr fun ⟨net, q⟩ hn => ?_
      exact absurd (numeric_iff.mp hn).1 (Nat.not_le_of_lt hshort)
    rw [hnone] at hadd
    obtain ⟨-, rfl⟩ := Prod.mk.inj (Option.some.inj hadd)
    exact absurd (hok.mpr ⟨net, p, hg⟩) (by decide)
  · have hacc : Accepts pton line net p := ⟨hlen, .cidr ip text net p hline hslash ha hint hp⟩
    obtain ⟨q, rfl, hn⟩ := numeric_of_accepts hacc
    simp only [hn, if_true, Option.map_eq_some_iff, Prod.mk.injEq] at hadd
    obtain ⟨rec, hrec, -, rfl⟩ := hadd
    obtain ⟨net', p', hg⟩ := hok.mp rfl
    obtain ⟨rfl, rfl⟩ := accepts_unique hacc ⟨hlen, grammar_denotes hnl hg⟩
    refine ⟨grammar_clean hg hline hslash, fun ⟨hf, h0⟩ => ?_⟩
    have hnone := (record_none (e := e) (accepts_le hacc)).mpr
      ⟨(af_of_addr ha).trans hf, UInt32.toNat_inj.mp h0⟩
    rw [hnone] at hrec
    cases hrec

lemma meets_of_clean (hnl : 10 ∉ line.1) (h : Clean pton line) : Meets pton e line v := by
  unfold Meets
  rw [excludeAdd_eq]
  rcases hn : numeric pton line with _ | ⟨net, q⟩
  · -- the line is not accepted, and not of the grammar
    have hno : ∀ net p, ¬ Grammar pton line net p := by
      intro net p hg
      by_cases hlen : 3 ≤ line.1.length
      · obtain ⟨q, -, hq⟩ := numeric_of_accepts ⟨hlen, grammar_denotes hnl hg⟩
        rw [hn] at hq
        cases hq
      · exact h.short (Nat.lt_of_not_le hlen) net p hg
    exact ⟨v, retvalErr, rfl, ⟨fun h => absurd h (by decide), fun ⟨net, p, hg⟩ => absurd hg
      (hno net p)⟩, fun net p hg => absurd hg (hno net p)⟩
  · have hacc := numeric_iff.mp hn
    obtain ⟨hg, hzero⟩ := clean_grammar hnl h hacc
    obtain ⟨rec, hrec⟩ : ∃ rec, excludeRecord e net q = some rec := by
      refine Option.ne_none_iff_exists'.mp fun hnone => hzero ?_
      obtain ⟨hf, rfl⟩ := (record_none (accepts_le hacc)).mp hnone
      exact ⟨hf, rfl⟩
    dsimp only
    rw [if_pos rfl, hrec]
    refine ⟨_, _, rfl, ⟨fun _ => ⟨net, _, hg⟩, fun _ => rfl⟩, fun net' p' hg' => ?_⟩
    obtain ⟨rfl, rfl⟩ := accepts_unique hacc ⟨hacc.1, grammar_denotes hnl hg'⟩
    exact ⟨q, rec, rfl, hrec, rfl⟩

/-- **`exclude_add` accepts its grammar** just when the line is clean. -/
theorem accepts_grammar_iff (pton : InetPton) (e : Endian) (v : Store) (line : CStr)
    (hnl : 10 ∉ line.1) : Meets pton e line v ↔ Clean pton line :=
  ⟨clean_of_meets hnl, meets_of_clean hnl⟩

/-- A network with a number behind the slash. -/
theorem accepts_grammar_iff_run : Meets quadPton .little (ascii "10.0.0.0/8") excludeInit := by
  refine (accepts_grammar_iff quadPton .little excludeInit (ascii "10.0.0.0/8")
    (by decide +kernel)).mpr ⟨fun h => absurd h (by decide +kernel), ?_⟩
  intro _ ip text net p hline hslash _ hint _
  have hfirst : (ascii "10.0.0.0/8").1 = (ascii "10.0.0.0").1 ++ 47 :: (ascii "8").1 := by
    decide +kernel
  obtain ⟨-, rfl⟩ := split_unique hline hfirst hslash (by decide +kernel)
  have h8 : (atoi (ascii "8").1).toInt = 8 := by decide +kernel
  obtain rfl : p = 8 := by omega
  exact ⟨by decide +kernel, fun h => absurd h.2 (by decide)⟩

/-- What is behind the slash is accepted, and is no number. -/
lemma not_meets (ip : CStr) (text : List UInt8) (net : Addr) (p : ℕ)
    (h : 10 ∉ line.1 ∧ 3 ≤ line.1.length ∧ line.1 = ip.1 ++ 47 :: text ∧ 47 ∉ ip.1 ∧
      pton.addr (family line) ip = some net ∧ (atoi text).toInt = p ∧ p ≤ bits (family line) ∧
      ¬ Number text p) : ¬ Meets pton e line v := by
  obtain ⟨hnl, hlen, hline, hslash, ha, hint, hp, hbad⟩ := h
  exact fun hm => hbad ((clean_of_meets hnl hm).text hlen ip text net p hline hslash ha hint hp).1

/-- `10.0.0.0`, and the unspecified address of IPv6. -/
def ten : Addr := .inet ⟨[10, 0, 0, 0], rfl⟩

def unspecified : Addr := .inet6 ⟨[0, 0, 0, 0, 0, 0, 0, 0, 0, 0, 0, 0, 0, 0, 0, 0], rfl⟩

/-- **Lines out of the grammar that are accepted**, and an address that is rejected: nothing
behind the slash, which stands for all addresses, a sign, text behind the number, a number that is
too large, and an address of two characters. -/
theorem accepts_grammar_fails :
    ¬ Meets quadPton .little (ascii "::/") excludeInit ∧
      ¬ Meets quadPton .little (ascii "::/+8") excludeInit ∧
      ¬ Meets quadPton .little (ascii "10.0.0.0/8 # local") excludeInit ∧
      ¬ Meets quadPton .little (ascii "10.0.0.0/4294967304") excludeInit ∧
      ¬ Meets quadPton .little (ascii "::") excludeInit := by
  refine ⟨not_meets (ascii "::") [] unspecified 0 ?_,
    not_meets (ascii "::") (ascii "+8").1 unspecified 8 ?_,
    not_meets (ascii "10.0.0.0") (ascii "8 # local").1 ten 8 ?_,
    not_meets (ascii "10.0.0.0") (ascii "4294967304").1 ten 8 ?_, fun h => ?_⟩
  · decide +kernel
  · decide +kernel
  · decide +kernel
  · decide +kernel
  · have hg : Grammar quadPton (ascii "::") unspecified 128 := .host unspecified (by decide +kernel)
    exact (clean_of_meets (by decide +kernel) h).short (by decide +kernel) unspecified 128 hg

end Agentsmith.ExcludeGrammar
