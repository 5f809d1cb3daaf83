import Agentsmith.Lib.Runs
import Agentsmith.ExcludeMasks

/-!
The exclude list decides membership in networks.

After any sequence of additions and clears the vector holds a record for each line accepted
since the last clear, and nothing else, so a lookup answers whether one of these lines
denotes a network around the address.
-/

namespace Agentsmith.ExcludeCidr

open Agentsmith.Lib Agentsmith.Lib.CStrings Agentsmith.Lib.Slots Agentsmith.Lib.Chunks
open Agentsmith.Lib.Words Agentsmith.Lib.Runs
open Agentsmith.Globals Agentsmith.Exclude Agentsmith.ExcludeLines Agentsmith.ExcludeMasks

variable {pton : InetPton} {e : Endian} {line x : CStr} {net a : Addr}

/-- The line denotes a network around the address. -/
def CoversLine (pton : InetPton) (a : Addr) (line : CStr) : Prop :=
  ∃ net p, Denotes pton line net p ∧ Covers p net a

/-- `x` is the address `a` in a form that `inet_pton` accepts. -/
def Numeric (pton : InetPton) (x : CStr) (a : Addr) : Prop := pton.addr (af a) x = some a

instance (pton : InetPton) (x : CStr) (a : Addr) : Decidable (Numeric pton x a) :=
  inferInstanceAs (Decidable (pton.addr (af a) x = some a))

/-! ### The vector -/

/-- **The list in memory**: a slot for every line, and nothing else. -/
structure Holds (pton : InetPton) (e : Endian) (s : St) : Prop where
  shape : Shape chunksize s.1
  recs : ∀ r, (∃ i, slot s.1.vec i = some r) ↔
    ∃ line ∈ s.2, ∃ net q, numeric pton line = some (net, q) ∧ excludeRecord e net q = some r
  lines : ∀ line ∈ s.2, ∃ net q r,
    numeric pton line = some (net, q) ∧ excludeRecord e net q = some r

lemma holds_init (pton : InetPton) (e : Endian) : Holds pton e (excludeInit, []) where
  shape := shape_init (by decide) (by decide)
  recs := by
    intro r
    refine ⟨fun ⟨i, hi⟩ => ?_, fun ⟨line, hline, _⟩ => absurd hline List.not_mem_nil⟩
    rw [excludeInit, slot_init] at hi
    cases hi
  lines := fun line hline => absurd hline List.not_mem_nil

/-- What an addition does: nothing for a line it does not read, and otherwise an entry in a
slot that was free. -/
lemma excludeAdd_eq (pton : InetPton) (e : Endian) (mem : Bool) (line : CStr) (v : Store) :
    excludeAdd pton e mem line v =
      match numeric pton line with
      | none => some (v, retvalErr)
      | some (net, q) =>
        if mem then
          (excludeRecord e net q).map fun r => (place true r (newSlot chunksize v), retvalOk)
        else some (place false (.inet 0 0) (newSlot chunksize v), retvalErr) := by
  unfold excludeAdd numeric
  rcases excludeParseIp line with _ | ⟨ip, q, f⟩
  · rfl
  · rw [Option.bind_some]
    dsimp only
    rcases pton.addr f ip with _ | net <;> rfl

/-- An entry more, or the same entries when there is no memory for it. -/
lemma holds_place {s : St} (h : Holds pton e s) {q : UInt32} {r : ExcludeRecord}
    (hn : numeric pton line = some (net, q)) (hr : excludeRecord e net q = some r) :
    Holds pton e (place true r (newSlot chunksize s.1), s.2 ++ [line]) where
  shape := place_shape h.shape true r
  recs := by
    intro r'
    obtain ⟨i, hi, hset⟩ := place_slot h.shape true r
    have hold := h.recs r'
    simp only [hset, and_true, List.mem_append, List.mem_singleton]
    refine ⟨fun ⟨j, hj⟩ => ?_, ?_⟩
    · split at hj
      · exact ⟨line, Or.inr rfl, net, q, hn, hr.trans hj⟩
      · obtain ⟨line', hline', hrest⟩ := hold.mp ⟨j, hj⟩
        exact ⟨line', Or.inl hline', hrest⟩
    · rintro ⟨line', hline' | rfl, net', q', hn', hr'⟩
      · obtain ⟨j, hj⟩ := hold.mpr ⟨line', hline', net', q', hn', hr'⟩
        have hji : j ≠ i := by
          rintro rfl
          rw [hi] at hj
          cases hj
        exact ⟨j, by rw [if_neg hji, hj]⟩
      · obtain ⟨rfl, rfl⟩ := Prod.mk.inj (Option.some.inj (hn.symm.trans hn'))
        exact ⟨i, by rw [if_pos rfl, ← hr, hr']⟩
  lines := by
    intro line' hline'
    rcases List.mem_append.mp hline' with hline' | hline'
    · exact h.lines line' hline'
    · obtain rfl := List.mem_singleton.mp hline'
      exact ⟨net, q, r, hn, hr⟩

lemma holds_noMem {s : St} (h : Holds pton e s) (r : ExcludeRecord) :
    Holds pton e (place false r (newSlot chunksize s.1), s.2) where
  shape := place_shape h.shape false r
  recs := by
    intro r'
    obtain ⟨i, -, hset⟩ := place_slot h.shape false r
    have hsame : ∀ j, slot (place false r (newSlot chunksize s.1)).vec j = slot s.1.vec j := by
      intro j
      rw [hset, if_neg (by simp)]
    rw [← h.recs r']
    simp only [hsame]
  lines := h.lines

/-! ### Sequences of calls -/

/-- The line stands for the whole of IPv4: the mask would take a shift by the full width. -/
def WholeIpv4 (pton : InetPton) (line : CStr) : Prop :=
  ∃ net, af net = .inet ∧ Accepts pton line net 0

/-- The line has been added, with memory for it, and the list was not cleared since. -/
def Listed (pton : InetPton) (ops : List Op) (line : CStr) : Prop :=
  Since (fun (_ : Unit) (_ : Op) => ())
    (fun _ op => op = .add true line ∧ ∃ net p, Accepts pton line net p)
    (fun _ op => op = .clear) () ops

lemma wholeIpv4_iff : WholeIpv4 pton line ↔ ∃ net q, numeric pton line = some (net, q) ∧
    excludeRecord e net q = none := by
  refine ⟨fun ⟨net, haf, hacc⟩ => ?_, fun ⟨net, q, hn, hr⟩ => ?_⟩
  · obtain ⟨q, hq, hn⟩ := numeric_of_accepts hacc
    refine ⟨net, q, hn, (record_none ?_).mpr ⟨haf, UInt32.toNat_inj.mp hq⟩⟩
    rw [hq]
    exact Nat.zero_le _
  · have hacc := numeric_iff.mp hn
    obtain ⟨haf, rfl⟩ := (record_none (accepts_le hacc)).mp hr
    exact ⟨net, haf, hacc⟩

lemma exists_accepts_iff : (∃ net p, Accepts pton line net p) ↔ (numeric pton line).isSome := by
  refine ⟨fun ⟨net, p, hacc⟩ => ?_, fun h => ?_⟩
  · obtain ⟨q, -, hn⟩ := numeric_of_accepts hacc
    rw [hn]
    rfl
  · obtain ⟨⟨net, q⟩, hn⟩ := Option.isSome_iff_exists.mp h
    exact ⟨net, _, numeric_iff.mp hn⟩

lemma step_none {s : St} {op : Op} : excludeStep pton e s op = none ↔
    ∃ line, op = .add true line ∧ WholeIpv4 pton line := by
  cases op with
  | clear => simp [excludeStep]
  | add mem line =>
    have hwhole : (∃ l, Op.add mem line = .add true l ∧ WholeIpv4 pton l) ↔
        mem = true ∧ WholeIpv4 pton line := by
      refine ⟨fun ⟨l, hop, hl⟩ => ?_, fun ⟨hmem, hl⟩ => ⟨line, by rw [hmem], hl⟩⟩
      obtain ⟨rfl, rfl⟩ := Op.add.inj hop
      exact ⟨rfl, hl⟩
    rw [hwhole, wholeIpv4_iff (e := e), excludeStep, Option.map_eq_none_iff, excludeAdd_eq]
    rcases hn : numeric pton line with _ | ⟨net, q⟩
    · simp
    · cases mem with
      | false => simp
      | true => simp

/-- **One call**: the vector goes on holding the lines, and the lines change as they should. -/
lemma step_holds {s s' : St} {op : Op} (h : Holds pton e s)
    (hs : excludeStep pton e s op = some s') :
    Holds pton e s' ∧ ∀ line, line ∈ s'.2 ↔
      (op = .add true line ∧ ∃ net p, Accepts pton line net p) ∨
        (line ∈ s.2 ∧ ¬ op = .clear) := by
  cases op with
  | clear =>
    obtain rfl := Option.some.inj hs
    exact ⟨holds_init pton e, fun line => by simp⟩
  | add mem line =>
    have hop : ∀ l, Op.add mem line = .add true l ↔ mem = true ∧ line = l := by
      intro l
      rw [Op.add.injEq]
    simp only [hop, exists_accepts_iff]
    rw [excludeStep, excludeAdd_eq] at hs
    rcases hn : numeric pton line with _ | ⟨net, q⟩
    · -- the line is not accepted
      simp only [hn, Option.map_some, Option.some.injEq] at hs
      subst hs
      refine ⟨h, fun l => ?_⟩
      rw [if_neg (by decide)]
      refine ⟨fun hl => Or.inr ⟨hl, by simp⟩, ?_⟩
      rintro (⟨⟨-, rfl⟩, hl⟩ | ⟨hl, -⟩)
      · rw [hn] at hl
        cases hl
      · exact hl
    · cases mem with
      | false =>
        simp only [hn, Bool.false_eq_true, if_false, Option.map_some, Option.some.injEq] at hs
        subst hs
        rw [if_neg (by decide)]
        exact ⟨holds_noMem h _, fun l => by simp⟩
      | true =>
        simp only [hn, if_true, Option.map_map, Option.map_eq_some_iff] at hs
        obtain ⟨r, hr, rfl⟩ := hs
        refine ⟨holds_place h hn hr, fun l => ?_⟩
        show l ∈ s.2 ++ [line] ↔ _
        rw [List.mem_append, List.mem_singleton]
        refine ⟨?_, ?_⟩
        · rintro (hl | rfl)
          · exact Or.inr ⟨hl, by simp⟩
          · exact Or.inl ⟨⟨rfl, rfl⟩, by rw [hn]; rfl⟩
        · rintro (⟨⟨-, rfl⟩, -⟩ | ⟨hl, -⟩)
          · exact Or.inr rfl
          · exact Or.inl hl

/-- **Every sequence of calls**: it is defined unless a line stands for the whole of IPv4,
and then the vector holds the lines listed. -/
theorem run_spec (pton : InetPton) (e : Endian) (ops : List Op) :
    (excludeRun pton e ops = none ↔ ∃ line, .add true line ∈ ops ∧ WholeIpv4 pton line) ∧
      ∀ s, excludeRun pton e ops = some s →
        Holds pton e s ∧ ∀ line, line ∈ s.2 ↔ Listed pton ops line := by
  refine run_hist (P := fun ops o =>
    (o = none ↔ ∃ line, .add true line ∈ ops ∧ WholeIpv4 pton line) ∧
      ∀ s, o = some s → Holds pton e s ∧ ∀ line, line ∈ s.2 ↔ Listed pton ops line) ?_ ?_ ops
  · refine ⟨by simp, fun s hs => ?_⟩
    obtain rfl := Option.some.inj hs
    exact ⟨holds_init pton e, fun line =>
      ⟨fun h => absurd h List.not_mem_nil, fun h => absurd h not_since_nil⟩⟩
  · intro ops op ih
    generalize run _ (some (excludeInit, ([] : List CStr))) ops = o at ih
    obtain ⟨hnone, hsome⟩ := ih
    have hmem : (∃ line, Op.add true line ∈ ops ++ [op] ∧ WholeIpv4 pton line) ↔
        (∃ line, Op.add true line ∈ ops ∧ WholeIpv4 pton line) ∨
          ∃ line, op = .add true line ∧ WholeIpv4 pton line := by
      simp only [List.mem_append, List.mem_singleton, or_and_right, exists_or, eq_comm]
    rw [hmem]
    rcases o with _ | s
    · exact ⟨⟨fun _ => Or.inl (hnone.mp rfl), fun _ => rfl⟩, fun s hs => by cases hs⟩
    · have hdef : ¬ ∃ line, Op.add true line ∈ ops ∧ WholeIpv4 pton line := fun h => by
        cases hnone.mpr h
      refine ⟨?_, fun s' hs' => ?_⟩
      · show excludeStep pton e s op = none ↔ _
        rw [step_none, or_iff_right hdef]
      · obtain ⟨hholds, hlines⟩ := hsome s rfl
        obtain ⟨hholds', hlines'⟩ := step_holds hholds hs'
        refine ⟨hholds', fun line => ?_⟩
        rw [hlines', hlines]
        unfold Listed
        rw [since_snoc]

/-! ### The search -/

/-- An address alone has no slash and no newline, and a colon in IPv6 only. -/
lemma numeric_chars (hx : Numeric pton x a) : 47 ∉ x.1 ∧ 10 ∉ x.1 ∧ family x = af a := by
  unfold family
  cases a with
  | inet b =>
    obtain ⟨b', hb, -⟩ := Option.map_eq_some_iff.mp hx
    have hchars := pton.inet_chars x b' hb
    refine ⟨fun h => absurd (hchars _ h) (by decide), fun h => absurd (hchars _ h) (by decide), ?_⟩
    rw [if_neg fun h => absurd (hchars _ h) (by decide)]
    rfl
  | inet6 b =>
    obtain ⟨b', hb, -⟩ := Option.map_eq_some_iff.mp hx
    obtain ⟨hcolon, hchars⟩ := pton.inet6_chars x b' hb
    refine ⟨fun h => absurd (hchars _ h) (by decide), fun h => absurd (hchars _ h) (by decide), ?_⟩
    rw [if_pos hcolon]
    rfl

lemma parse_numeric (hx : Numeric pton x a) (hlen : 3 ≤ x.1.length) :
    excludeParseIp x = some (x, if af a = .inet6 then 128 else 32, af a) := by
  obtain ⟨hslash, hnl, hf⟩ := numeric_chars hx
  rw [parse_host hlen (strchr_none.mpr hslash), hf, chomp_self hnl]

/-- The search among the records, once the address is read. -/
lemma find_isSome {s : St} (h : Holds pton e s) (a : Addr) :
    (find (excludeFits e a) (s.1.vec.take s.1.fill)).isSome ↔
      ∃ line ∈ s.2, CoversLine pton a line := by
  have hfound : (find (excludeFits e a) (s.1.vec.take s.1.fill)).isSome ↔
      ∃ i r, slot s.1.vec i = some r ∧ excludeFits e a r = true := by
    rw [← not_iff_not, Bool.not_eq_true, Option.isSome_eq_false_iff, Option.isNone_iff_eq_none,
      find_none]
    simp only [h.shape.slot_fill]
    simp
  rw [hfound]
  refine ⟨?_, ?_⟩
  · rintro ⟨i, r, hi, hfits⟩
    obtain ⟨line, hline, net, q, hn, hr⟩ := (h.recs r).mp ⟨i, hi⟩
    have hacc := numeric_iff.mp hn
    exact ⟨line, hline, net, q.toNat, hacc.2, (fits_iff (accepts_le hacc) hr).mp hfits⟩
  · rintro ⟨line, hline, net, p, hd, hcov⟩
    obtain ⟨net', q', r, hn, hr⟩ := h.lines line hline
    obtain ⟨q, rfl, hn'⟩ := numeric_of_accepts ⟨(numeric_iff.mp hn).1, hd⟩
    obtain ⟨rfl, rfl⟩ := Prod.mk.inj (Option.some.inj (hn.symm.trans hn'))
    obtain ⟨i, hi⟩ := (h.recs r).mpr ⟨line, hline, net', q', hn, hr⟩
    exact ⟨i, r, hi, (fits_iff (accepts_le (numeric_iff.mp hn)) hr).mpr hcov⟩

/-- **What a lookup answers**: whether a line covers the address, if the string for it is
not too short to be looked at. -/
theorem isexcluded_iff {s : St} (h : Holds pton e s) (hx : Numeric pton x a) :
    ∃ r, excludeIsexcluded pton e x s.1 = some r ∧
      (r = retvalOk ↔ 3 ≤ x.1.length ∧ ∃ line ∈ s.2, CoversLine pton a line) := by
  unfold excludeIsexcluded excludeFind
  by_cases hlen : 3 ≤ x.1.length
  · have hwidth : (af a = .inet ∧ (if af a = .inet6 then 128 else 32 : UInt32) = 32) ∨
        (af a = .inet6 ∧ (if af a = .inet6 then 128 else 32 : UInt32) = 128) := by
      cases a with
      | inet _ => exact Or.inl ⟨rfl, rfl⟩
      | inet6 _ => exact Or.inr ⟨rfl, rfl⟩
    rw [parse_numeric hx hlen]
    dsimp only
    rw [if_pos hwidth, hx, Option.bind_some, Option.map_some]
    refine ⟨_, rfl, ?_⟩
    rw [and_iff_right hlen, ← find_isSome h a]
    rcases find (excludeFits e a) (s.1.vec.take s.1.fill) with _ | r
    · simp [retvalOk, retvalErr]
    · simp
  · have hshort : excludeParseIp x = none := by
      unfold excludeParseIp
      rw [if_pos (by omega)]
    rw [hshort]
    exact ⟨retvalErr, rfl, by simp [hlen, retvalOk, retvalErr]⟩

/-- The sequence of calls is defined, and after it the lookup of `x` answers whether a line
accepted since the last clear covers the address. -/
def Decides (pton : InetPton) (e : Endian) (ops : List Op) (x : CStr) (a : Addr) : Prop :=
  ∃ s r, excludeRun pton e ops = some s ∧ excludeIsexcluded pton e x s.1 = some r ∧
    (r = retvalOk ↔ ∃ line ∈ s.2, CoversLine pton a line)

/-- **The exclude list decides membership in networks** just when no line of the sequence
stands for the whole of IPv4, and `x` has three characters or no line listed covers it. -/
theorem excluded_iff (e : Endian) (ops : List Op) (hx : Numeric pton x a) :
    Decides pton e ops x a ↔
      (∀ line, .add true line ∈ ops → ¬ WholeIpv4 pton line) ∧
        (3 ≤ x.1.length ∨ ∀ line, Listed pton ops line → ¬ CoversLine pton a line) := by
  obtain ⟨hnone, hsome⟩ := run_spec pton e ops
  rcases hrun : excludeRun pton e ops with _ | s
  · obtain ⟨line, hline, hwhole⟩ := hnone.mp hrun
    refine ⟨fun ⟨s, r, hs, _⟩ => ?_, fun h => absurd hwhole (h.1 line hline)⟩
    rw [hrun] at hs
    cases hs
  · obtain ⟨hholds, hlines⟩ := hsome s hrun
    have hdef : ∀ line, .add true line ∈ ops → ¬ WholeIpv4 pton line := by
      intro line hline hwhole
      rw [hnone.mpr ⟨line, hline, hwhole⟩] at hrun
      cases hrun
    have hcov : (∀ line, Listed pton ops line → ¬ CoversLine pton a line) ↔
        ¬ ∃ line ∈ s.2, CoversLine pton a line := by
      simp only [← hlines, not_exists, not_and]
    obtain ⟨r, hr, hiff⟩ := isexcluded_iff hholds hx
    rw [and_iff_right hdef, hcov]
    refine ⟨fun ⟨s', r', hs', hr', hdec⟩ => ?_, fun h => ⟨s, r, hrun, hr, ?_⟩⟩
    · obtain rfl := Option.some.inj (hrun.symm.trans hs')
      obtain rfl := Option.some.inj (hr.symm.trans hr')
      rw [hiff] at hdec
      by_cases hlen : 3 ≤ x.1.length
      · exact Or.inl hlen
      · exact Or.inr fun hc => hlen (hdec.mpr hc).1
    · rw [hiff]
      refine ⟨fun hc => hc.2, fun hc => ⟨?_, hc⟩⟩
      exact h.resolve_right fun hn => hn hc

/-! ### Dotted quads -/

/-- One number of a dotted quad: at most 255, and no zero in front. -/
def octet (s : List UInt8) : Option UInt8 :=
  let n := s.foldl (fun n c => 10 * n + (c.toNat - 48)) 0
  if s ≠ [] ∧ s.length ≤ 3 ∧ (s.head? = some 48 → s.length = 1) ∧ n ≤ 255 then
    some (UInt8.ofNat n)
  else none

def dottedQuad (s : CStr) : Option (Field 4) :=
  if s.1.all fun c => (48 ≤ c ∧ c ≤ 57) ∨ c = 46 then
    match (s.1.splitOn 46).map octet with
    | [some a, some b, some c, some d] => some ⟨[a, b, c, d], rfl⟩
    | _ => none
  else none

/-- `inet_pton` for IPv4, and of IPv6 for the unspecified address alone. -/
def quadPton : InetPton where
  inet := dottedQuad
  inet6 s := if s = ascii "::" then some ⟨List.replicate 16 0, rfl⟩ else none
  inet_chars := by
    intro s a h
    unfold dottedQuad at h
    split at h
    · rename_i hall
      exact fun c hc => of_decide_eq_true (List.all_eq_true.mp hall c hc)
    · cases h
  inet6_chars := by
    intro s a h
    split at h
    · rename_i hs
      rw [hs]
      decide +kernel
    · cases h

def hostAddr : Addr := .inet ⟨[192, 168, 7, 1], rfl⟩

/-- A host inside a network added after a clear. -/
theorem excluded_iff_run : Decides quadPton .little
    [.add true (ascii "10.0.0.0/8"), .clear, .add false (ascii "0.0.0.0/0"),
      .add true (ascii "192.168.4.0/22")] (ascii "192.168.7.1") hostAddr := by
  refine (excluded_iff .little _ (by decide +kernel)).mpr ⟨fun line hline hwhole => ?_, Or.inl ?_⟩
  · have hnone := (run_spec quadPton .little _).1.mpr ⟨line, hline, hwhole⟩
    exact absurd hnone (by decide +kernel)
  · decide +kernel

/-- **Networks the list cannot decide**: all of IPv4, whose mask is a shift by 32 bits, and
an address of two characters, which is never looked for. -/
theorem excluded_undecided :
    ¬ Decides quadPton .little [.add true (ascii "0.0.0.0/0")] (ascii "192.168.7.1") hostAddr ∧
      ¬ Decides quadPton .little [.add true (ascii "::/0")] (ascii "::")
        (.inet6 ⟨List.replicate 16 0, rfl⟩) := by
  refine ⟨fun ⟨s, r, hs, _⟩ => ?_, fun ⟨s, r, hs, hr, hdec⟩ => ?_⟩
  · have hnone : excludeRun quadPton .little [.add true (ascii "0.0.0.0/0")] = none := by
      decide +kernel
    rw [hnone] at hs
    cases hs
  · have hlines := ((run_spec quadPton .little _).2 s hs).2 (ascii "::/0")
    have hn : numeric quadPton (ascii "::/0") = some (.inet6 ⟨List.replicate 16 0, rfl⟩, 0) := by
      decide +kernel
    have hacc := numeric_iff.mp hn
    have hlisted : ascii "::/0" ∈ s.2 :=
      hlines.mpr ⟨[], _, [], rfl, ⟨rfl, _, _, hacc⟩, fun a d b h => by simp at h⟩
    have hok := hdec.mpr ⟨_, hlisted, _, _, hacc.2, rfl, fun j hj => absurd hj (Nat.not_lt_zero j)⟩
    obtain ⟨hholds, -⟩ := (run_spec quadPton .little _).2 s hs
    obtain ⟨r', hr', hiff⟩ := isexcluded_iff (x := ascii "::")
      (a := .inet6 ⟨List.replicate 16 0, rfl⟩) hholds (by decide +kernel)
    obtain rfl := Option.some.inj (hr.symm.trans hr')
    exact absurd (hiff.mp hok).1 (by decide +kernel)

end Agentsmith.ExcludeCidr
