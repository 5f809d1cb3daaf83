import Agentsmith.RecordsRefine

/-!
Captured strings of any length, and the records they end up in.

A lookup compares the whole string with the stored addresses, but an insert stores what
fits into the field: all but the last of its bytes. `records_add_record` looks up what it
stores; `records_add_ip` does not, so a string that is cut never finds its own record.
-/

namespace Agentsmith.Captures

open Agentsmith.Lib Agentsmith.Lib.CStrings Agentsmith.Lib.Slots Agentsmith.Lib.Runs
open Agentsmith.Globals Agentsmith.Records Agentsmith.RecordsMap Agentsmith.RecordsRefine

variable {σ : Type*} {cfg : Config} {e : σ} {s : CStr} {ops : List (Op σ)}

/-- The address an insert of `s` stores. -/
def key (s : CStr) : CStr := (copyCut ipaddrSize s).str

lemma key_val (s : CStr) : (key s).1 = s.1.take 45 := copyCut_str (by decide) s

lemma key_of_lt (h : s.1.length < ipaddrSize) : key s = s := copyCut_str_of_lt h

/-- Slot `i` holds a record for `s`. -/
def RecordAt (v : Store) (s : CStr) (i : ℕ) : Prop := ∃ r, slot v.vec i = some r ∧ r.addr = key s

/-- The call on `s` overwrites a record for `s` in its slot. -/
def Updates (cfg : Config) (now : Int64) (mem : Bool) (s : CStr) (v : Store) : Prop :=
  ∃ i r, slot v.vec i = some r ∧ r.addr = key s ∧
    (recordsAddIp cfg now mem s v).1 = { v with vec := v.vec.set i (some (seen now r)) }

/-- After a successful addition of `s`, and as long as its record is not removed, there is
one live record for `s`, and every further addition updates it. -/
def OneRecord (cfg : Config) (e : σ) (s : CStr) (ops : List (Op σ)) : Prop :=
  ∀ pre now mem post, ops = pre ++ .addIp now mem s :: post →
    (recordsAddIp cfg now mem s (reached cfg e pre).2).2 = retvalOk →
    (∀ q op q', post = q ++ op :: q' →
      ¬ Drops (key s) (reached cfg e (pre ++ .addIp now mem s :: q)) op) →
    (∃! i, RecordAt (reached cfg e ops).2 s i) ∧
      ∀ q now' mem' q', post = q ++ .addIp now' mem' s :: q' →
        Updates cfg now' mem' s (reached cfg e (pre ++ .addIp now mem s :: q)).2

/-- The callbacks of the enumerations leave the addresses alone. -/
def KeepsAddr : Op σ → Prop
  | .enumerate cb => ∀ e r, (cb e r).2.1.ipaddr = r.ipaddr
  | _ => True

/-- No other string is stored under the address of `s`. -/
def NoAlias (s : CStr) : Op σ → Prop
  | .addIp _ _ x => key x = key s → x = s
  | _ => True

/-! ### Strings that fit -/

lemma keyedOp_of_noAlias (hs : s.1.length < ipaddrSize) {op : Op σ} (hk : KeepsAddr op)
    (ha : NoAlias s op) : KeyedOp s op := by
  cases op with
  | addIp now mem x =>
    refine keyed_of_noAlias hs fun h => ha ?_
    rw [key_of_lt hs]
    exact h
  | enumerate cb => exact hk
  | addRecord _ _ _ => trivial
  | remove _ => trivial
  | maintenance _ => trivial

/-- Below the cut, different strings are stored differently. -/
lemma noAlias_of_lt (hs : s.1.length < 45) (op : Op σ) : NoAlias s op := by
  cases op with
  | addIp now mem x =>
    intro h
    have htake : x.1.take 45 = s.1.take 45 := by rw [← key_val, ← key_val, h]
    have hlen := congrArg List.length htake
    rw [List.length_take, List.length_take] at hlen
    rw [List.take_of_length_le (by omega), List.take_of_length_le (by omega)] at htake
    exact Subtype.ext htake
  | addRecord _ _ _ => trivial
  | remove _ => trivial
  | maintenance _ => trivial
  | enumerate _ => trivial

/-- The record for `s` stays until it is dropped. -/
lemma live_until_dropped (hs : s.1.length < ipaddrSize) {pre post : List (Op σ)} {now : Int64}
    {mem : Bool} (hkeyed : ∀ op ∈ pre ++ .addIp now mem s :: post, KeyedOp s op)
    (hok : (recordsAddIp cfg now mem s (reached cfg e pre).2).2 = retvalOk)
    (hkeep : ∀ q op q', post = q ++ op :: q' →
      ¬ Drops (key s) (reached cfg e (pre ++ .addIp now mem s :: q)) op) :
    (recordsGet (reached cfg e (pre ++ .addIp now mem s :: post)).2 s).isSome := by
  have hstep : ∀ p op, (∀ o ∈ p ++ [op], KeyedOp s o) →
      ((recordsGet (reached cfg e (p ++ [op])).2 s).isSome ↔ Adds cfg s (reached cfg e p) op ∨
        ((recordsGet (reached cfg e p).2 s).isSome ∧ ¬ Drops s (reached cfg e p) op)) := by
    intro p op h
    have hat := at_reached cfg e fun o ho => h o (List.mem_append_left _ ho)
    have := present_step cfg hat (h op (by simp))
    unfold reached at this ⊢
    rw [run_snoc]
    exact this
  induction post using List.reverseRecOn with
  | nil =>
    refine (hstep pre (.addIp now mem s) hkeyed).mpr (Or.inl ⟨rfl, hok⟩)
  | append_singleton post op ih =>
    have hsub : ∀ o ∈ pre ++ .addIp now mem s :: post, KeyedOp s o := fun o ho =>
      hkeyed o (by rw [← List.cons_append, ← List.append_assoc]; exact List.mem_append_left _ ho)
    have hdrop := hkeep post op [] rfl
    rw [key_of_lt hs] at hdrop
    have ih := ih hsub fun q op' q' h => hkeep q op' (q' ++ [op]) (by rw [h]; simp)
    rw [← List.cons_append, ← List.append_assoc] at hkeyed ⊢
    exact (hstep _ op hkeyed).mpr (Or.inr ⟨ih, hdrop⟩)

/-- A string that fits and has no alias in the run. -/
lemma oneRecord_of_noAlias (hs : s.1.length < ipaddrSize) (hk : ∀ op ∈ ops, KeepsAddr op)
    (ha : ∀ op ∈ ops, NoAlias s op) : OneRecord cfg e s ops := by
  rintro pre now mem post rfl hok hkeep
  have hkeyed : ∀ op ∈ pre ++ .addIp now mem s :: post, KeyedOp s op := fun op hop =>
    keyedOp_of_noAlias hs (hk op hop) (ha op hop)
  refine ⟨?_, ?_⟩
  · have hat := at_reached cfg e hkeyed
    obtain ⟨r, hr⟩ := Option.isSome_iff_exists.mp (live_until_dropped hs hkeyed hok hkeep)
    rw [recordsGet_eq hat.shape hat.only, lookup_some hat.only] at hr
    obtain ⟨i, hi, hri⟩ := hr
    refine ⟨i, ⟨r, hi, by rw [key_of_lt hs, hri]⟩, fun j ⟨q, hj, hqj⟩ => ?_⟩
    rw [key_of_lt hs] at hqj
    exact hat.only j i q r hj hi hqj hri
  · rintro q now' mem' q' rfl
    have hpre : pre ++ .addIp now mem s :: (q ++ .addIp now' mem' s :: q') =
        (pre ++ .addIp now mem s :: q) ++ .addIp now' mem' s :: q' := by simp
    have hkeyed' : ∀ op ∈ pre ++ .addIp now mem s :: q, KeyedOp s op := fun op hop =>
      hkeyed op (by rw [hpre]; exact List.mem_append_left _ hop)
    have hlive := live_until_dropped hs hkeyed' hok fun p op p' h =>
      hkeep p op (p' ++ .addIp now' mem' s :: q') (by rw [h]; simp)
    obtain ⟨r, hr⟩ := Option.isSome_iff_exists.mp hlive
    obtain ⟨⟨i, r'⟩, hf, rfl⟩ := Option.map_eq_some_iff.mp hr
    obtain ⟨hi, haddr⟩ := find_slot (at_reached cfg e hkeyed').shape hf
    refine ⟨i, r', hi, by rw [key_of_lt hs, haddr], ?_⟩
    unfold recordsAddIp
    rw [hf]

/-! ### Strings that are cut -/

lemma addIp_ok (cfg : Config) (now : Int64) (x : CStr) (v : Store) :
    (recordsAddIp cfg now true x v).2 = retvalOk := by
  unfold recordsAddIp recordsPlace
  split <;> rfl

/-- A string that finds no record gets one, in a slot that was free. -/
lemma addIp_inserts {v : Store} (h : Shape v) {x : CStr} (hf : recordsFind v x = none)
    (cfg : Config) (now : Int64) :
    ∃ i, slot v.vec i = none ∧ ∀ j, slot (recordsAddIp cfg now true x v).1.vec j =
      if j = i then some (fresh cfg now x) else slot v.vec j := by
  obtain ⟨i, hi, hset⟩ := Chunks.place_slot h true (fresh cfg now x)
  refine ⟨i, hi, fun j => ?_⟩
  unfold recordsAddIp
  rw [hf]
  refine (hset j).trans ?_
  simp

/-- No addition takes a record for `s` away. -/
lemma recordAt_addIp {v : Store} (h : Shape v) {i : ℕ} (hi : RecordAt v s i) (cfg : Config)
    (now : Int64) (x : CStr) : RecordAt (recordsAddIp cfg now true x v).1 s i := by
  obtain ⟨r, hr, hk⟩ := hi
  rcases hf : recordsFind v x with _ | ⟨j, q⟩
  · obtain ⟨j, hj, hset⟩ := addIp_inserts h hf cfg now
    have hij : i ≠ j := by
      rintro rfl
      rw [hj] at hr
      cases hr
    exact ⟨r, by rw [hset, if_neg hij, hr], hk⟩
  · obtain ⟨hj, -⟩ := find_slot h hf
    unfold RecordAt recordsAddIp
    rw [hf]
    dsimp only
    rw [slot_set (slot_lt hj)]
    by_cases hij : i = j
    · subst hij
      obtain rfl : r = q := by rw [hr] at hj; simpa using hj
      exact ⟨_, if_pos rfl, by rw [seen_addr, hk]⟩
    · exact ⟨r, by rw [if_neg hij, hr], hk⟩

/-- A string that is cut, added twice to a new vector: two records with one address. -/
lemma two_records {x : CStr} (hx : key x ≠ x) (cfg : Config) (now now' : Int64) :
    let v := (recordsAddIp cfg now' true x (recordsAddIp cfg now true x recordsInit).1).1
    Shape v ∧ ∃ i j, i ≠ j ∧ RecordAt v x i ∧ RecordAt v x j := by
  intro v
  set u := (recordsAddIp cfg now true x recordsInit).1 with hu
  have hsu : Shape u := shape_init.addIp cfg now true x
  obtain ⟨i, -, hi⟩ := addIp_inserts shape_init (find_none_get.mpr (at_init x).get) cfg now
  have hui : slot u.vec i = some (fresh cfg now x) := by rw [hu, hi, if_pos rfl]
  -- the one record there is stands under the cut string
  have hf : recordsFind u x = none := by
    rcases hf : recordsFind u x with _ | ⟨j, r⟩
    · rfl
    · obtain ⟨hj, hr⟩ := find_slot hsu hf
      rw [hu, hi] at hj
      split at hj
      · obtain rfl : fresh cfg now x = r := by simpa using hj
        exact absurd hr hx
      · exact absurd (shape_init.live j r hj) (Nat.not_lt_zero j)
  obtain ⟨j, hj, hset⟩ := addIp_inserts hsu hf cfg now'
  have hij : i ≠ j := by
    rintro rfl
    rw [hj] at hui
    cases hui
  exact ⟨hsu.addIp cfg now' true x, i, j, hij,
    ⟨_, by rw [hset, if_neg hij, hui], rfl⟩, ⟨_, by rw [hset, if_pos rfl], rfl⟩⟩

/-- A longer string that is stored under the address of `s`. -/
lemma exists_cut (hs : 45 ≤ s.1.length) : ∃ x : CStr, key x = key s ∧ key x ≠ x := by
  have hnul : (0 : UInt8) ∉ s.1 ++ [97] := by simpa using s.2
  refine ⟨⟨s.1 ++ [97], hnul⟩, Subtype.ext ?_, fun h => ?_⟩
  · rw [key_val, key_val, List.take_append_of_le_length hs]
  · have hval := congrArg (fun t : CStr => t.1.length) h
    simp only [key_val, List.length_take, List.length_append, List.length_singleton] at hval
    omega

/-- **One record for a string**: in every sequence of calls if it has fewer bytes than the
field keeps, and not in every sequence otherwise. A string that just fits has one record
where no longer string is cut to it. -/
theorem one_record_iff (cfg : Config) (e : σ) (s : CStr) :
    ((∀ ops : List (Op σ), (∀ op ∈ ops, KeepsAddr op) → OneRecord cfg e s ops) ↔
        s.1.length < ipaddrSize - 1) ∧
      (s.1.length < ipaddrSize → ∀ ops : List (Op σ),
        (∀ op ∈ ops, KeepsAddr op ∧ NoAlias s op) → OneRecord cfg e s ops) := by
  have hsize : ipaddrSize = 46 := rfl
  refine ⟨⟨fun h => ?_, fun hs ops hk => ?_⟩, fun hs ops hops => ?_⟩
  · by_contra hlen
    obtain ⟨x, hkey, hcut⟩ := exists_cut (s := s) (by omega)
    obtain ⟨hshape, i, j, hij, hi, hj⟩ := two_records hcut cfg 0 0
    set v := (recordsAddIp cfg 0 true x (recordsAddIp cfg 0 true x recordsInit).1).1
    have hsame : ∀ i, RecordAt v x i → RecordAt (recordsAddIp cfg 0 true s v).1 s i := by
      rintro i ⟨r, hr, hra⟩
      exact recordAt_addIp hshape ⟨r, hr, hra.trans hkey⟩ cfg 0 s
    have hone := h [.addIp 0 true x, .addIp 0 true x, .addIp 0 true s] (by simp [KeepsAddr])
      [.addIp 0 true x, .addIp 0 true x] 0 true [] rfl (addIp_ok cfg 0 s v) (by simp)
    exact hij (hone.1.unique (hsame i hi) (hsame j hj))
  · exact oneRecord_of_noAlias (by omega) hk fun op _ => noAlias_of_lt (by omega) op
  · exact oneRecord_of_noAlias hs (fun op hop => (hops op hop).1) fun op hop => (hops op hop).2

/-- A host name one byte too long: 46 times `a`. -/
def longName : CStr := ⟨List.replicate 46 97, by decide⟩

/-- **A string that never accumulates**: captured twice, it has two records. -/
theorem one_record_cut :
    ¬ OneRecord ⟨3, 60, 3600⟩ () longName [.addIp 5 true longName, .addIp 6 true longName] := by
  intro h
  set v := (reached ⟨3, 60, 3600⟩ () [.addIp 5 true longName, .addIp 6 true longName]).2
  have h0 : RecordAt v longName 0 := ⟨fresh ⟨3, 60, 3600⟩ 5 longName, by decide +kernel, rfl⟩
  have h1 : RecordAt v longName 1 := ⟨fresh ⟨3, 60, 3600⟩ 6 longName, by decide +kernel, rfl⟩
  have hone := h [] 5 true [.addIp 6 true longName] rfl (by decide +kernel) fun q op q' hq => by
    rcases q with _ | ⟨o, q⟩
    · obtain ⟨rfl, -⟩ := List.cons.inj hq
      exact id
    · simp at hq
  have heq := hone.1.unique h0 h1
  omega

end Agentsmith.Captures
