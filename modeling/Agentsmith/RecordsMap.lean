import Agentsmith.Records

/-!
The host record vector as a finite map from addresses to records.

`Shape` is what every call keeps of the vector itself. For one address `k`, `At v k o` says
that the vector is in shape, that at most one slot holds a record of `k`, and that `o` is
what a lookup of `k` finds; each call is then one change of `o`. The address is fixed so
that what is said about it does not depend on the other addresses.
-/

namespace Agentsmith.RecordsMap

open Agentsmith.Lib Agentsmith.Lib.CStrings Agentsmith.Lib.Slots Agentsmith.Globals
open Agentsmith.Records

variable {σ : Type*} {v : Store} {k : CStr} {o : Option HostRecord} {cfg : Config} {now : Int64}
  {mem : Bool}

/-- The representation invariant of the vector. -/
abbrev Shape (v : Store) : Prop := Chunks.Shape chunksize v

lemma shape_init : Shape recordsInit := Chunks.shape_init (by decide) (by decide)

lemma place_shape (h : Shape v) (mem : Bool) (r : HostRecord) :
    Shape (recordsPlace mem r (recordsSlot v)).1 := Chunks.place_shape h mem r

/-! ### One address -/

/-- The vector is in shape, and `o` is all it holds for the address `k`. -/
structure At (v : Store) (k : CStr) (o : Option HostRecord) : Prop where
  shape : Shape v
  only : Only HostRecord.addr v.vec k
  get : recordsGet v k = o

lemma recordsGet_eq (hs : Shape v) (ho : Only HostRecord.addr v.vec k) :
    recordsGet v k = lookup HostRecord.addr v.vec k :=
  lookup_congr hs.slot_fill ho

lemma At.lookup (h : At v k o) : lookup HostRecord.addr v.vec k = o := by
  rw [← recordsGet_eq h.shape h.only, h.get]

lemma At.mk' (hs : Shape v) (ho : Only HostRecord.addr v.vec k)
    (hl : Slots.lookup HostRecord.addr v.vec k = o) : At v k o :=
  ⟨hs, ho, by rw [recordsGet_eq hs ho, hl]⟩

lemma at_init (k : CStr) : At recordsInit k none := by
  have hnone : ∀ i r, slot recordsInit.vec i ≠ some r := fun i r h =>
    absurd (shape_init.live i r h) (Nat.not_lt_zero i)
  exact .mk' shape_init (fun i j a b hi => absurd hi (hnone i a))
    (lookup_none.mpr fun i a hi => absurd hi (hnone i a))

/-- What the search of a call finds: the record, in its slot. -/
lemma find_slot {x : CStr} (h : Shape v) {i : ℕ} {r : HostRecord}
    (hf : recordsFind v x = some (i, r)) : slot v.vec i = some r ∧ r.addr = x := by
  obtain ⟨hi, hx⟩ := find_some hf
  exact ⟨by rw [← h.slot_fill]; exact hi, by simpa using hx⟩

lemma find_get {x : CStr} {i : ℕ} {r : HostRecord} (hf : recordsFind v x = some (i, r)) :
    recordsGet v x = some r := by
  unfold recordsGet; rw [hf]; rfl

lemma find_none_get {x : CStr} : recordsFind v x = none ↔ recordsGet v x = none := by
  unfold recordsGet; rw [Option.map_eq_none_iff]

lemma Shape.addIp (h : Shape v) (cfg : Config) (now : Int64) (mem : Bool) (x : CStr) :
    Shape (recordsAddIp cfg now mem x v).1 := by
  unfold recordsAddIp
  split
  · rename_i i r hf
    exact h.overwrite (find_slot h hf).1 _
  · exact place_shape h mem _

lemma Shape.addRecord (h : Shape v) (now : Int64) (mem : Bool) (hr : HostRecord) :
    Shape (recordsAddRecord now mem hr v).1 := by
  unfold recordsAddRecord
  split
  · rename_i i r hf
    exact h.overwrite (find_slot h hf).1 _
  · exact place_shape h mem _

lemma Shape.remove (h : Shape v) (x : CStr) : Shape (recordsRemove x v).1 := by
  unfold recordsRemove
  split
  · rename_i i r hf
    exact h.overwrite (find_slot h hf).1 _
  · exact h

lemma At.overwrite (h : At v k o) {i : ℕ} {r q : HostRecord} (hi : slot v.vec i = some r)
    (hq : q.addr = r.addr) :
    At { v with vec := v.vec.set i (some q) } k (if r.addr = k then some q else o) :=
  .mk' (h.shape.overwrite hi _) (only_overwrite hi hq h.only)
    (by rw [← h.lookup]; exact lookup_overwrite hi hq h.only)

/-- A new record: it is what its own address finds, and nothing else changes. -/
lemma At.place (mem : Bool) (h : At v k o) (r : HostRecord) (hr : r.addr = k → o = none) :
    At (recordsPlace mem r (recordsSlot v)).1 k (if r.addr = k ∧ mem then some r else o) := by
  obtain ⟨hs, hlt, hnone, hsame, -⟩ := Chunks.newSlot_spec h.shape
  have hlen := Chunks.newSlot_lt h.shape
  have ho := only_congr hsame h.only
  have hl : Slots.lookup HostRecord.addr (Chunks.newSlot chunksize v).1.vec k = o := by
    rw [lookup_congr hsame h.only, h.lookup]
  cases mem with
  | false =>
    obtain ⟨i, -, hslot⟩ := Chunks.place_slot h.shape false r
    have hsame' : ∀ j, slot (recordsPlace false r (recordsSlot v)).1.vec j = slot v.vec j :=
      fun j => (hslot j).trans (if_neg (by simp))
    refine .mk' (place_shape h.shape false r) (only_congr hsame' h.only) ?_
    rw [lookup_congr hsame' h.only, h.lookup]
    simp
  | true =>
    have hnew : r.addr = k →
        Slots.lookup HostRecord.addr (Chunks.newSlot chunksize v).1.vec k = none :=
      fun hk => by rw [hl, hr hk]
    refine .mk' (place_shape h.shape true r) (only_insert hlen hnew ho) ?_
    show Slots.lookup HostRecord.addr ((Chunks.newSlot chunksize v).1.vec.set
      (Chunks.newSlot chunksize v).2 (some r)) k = _
    rw [lookup_insert hlen hnone hnew ho, hl]
    simp

/-! ### The calls, at one address -/

/-- `records_add_ip` at its own address. -/
def addIpAt (cfg : Config) (now : Int64) (mem : Bool) (x : CStr) :
    Option HostRecord → Option HostRecord
  | some r => some (seen now r)
  | none => if mem then some (fresh cfg now x) else none

/-- `records_add_record` at its own address. -/
def addRecordAt (now : Int64) (mem : Bool) (hr : HostRecord) :
    Option HostRecord → Option HostRecord
  | some r => some (merge now hr r)
  | none => if mem then some hr else none

lemma seen_addr (now : Int64) (r : HostRecord) : (seen now r).addr = r.addr := by
  rw [seen, bump_eq]; rfl

lemma merge_addr (hr r : HostRecord) : (merge now hr r).addr = hr.addr := by
  rw [merge, bump_eq]; rfl

lemma fresh_addr (x : CStr) : (fresh cfg now x).addr = (copyCut ipaddrSize x).str := rfl

/-- The key that an insert of `x` stores is `k` for `x = k` only. A string that fits has
this at every `k`; an address `k` that fits has it where no longer string is cut to it. -/
def Keyed (x k : CStr) : Prop := (copyCut ipaddrSize x).str = k ↔ x = k

lemma keyed_of_lt {x : CStr} (h : x.1.length < ipaddrSize) (k : CStr) : Keyed x k := by
  unfold Keyed; rw [copyCut_str_of_lt h]

lemma keyed_of_noAlias {x k : CStr} (hk : k.1.length < ipaddrSize)
    (h : (copyCut ipaddrSize x).str = k → x = k) : Keyed x k :=
  ⟨h, fun e => by rw [e, copyCut_str_of_lt hk]⟩

lemma At.addIp (h : At v k o) {x : CStr} (hx : Keyed x k) :
    At (recordsAddIp cfg now mem x v).1 k (if x = k then addIpAt cfg now mem x o else o) := by
  unfold recordsAddIp
  rcases hf : recordsFind v x with _ | ⟨i, r⟩
  · have hnone : x = k → o = none := fun e => by rw [← h.get, ← e]; exact find_none_get.mp hf
    have hp := h.place mem (fresh cfg now x) fun hk => hnone (hx.mp hk)
    rw [fresh_addr] at hp
    by_cases hxk : x = k
    · have hk := hx.mpr hxk
      subst hxk
      rw [hnone rfl] at hp ⊢
      cases mem <;> simpa [addIpAt, hk] using hp
    · simpa [hxk, mt hx.mp hxk] using hp
  · obtain ⟨hi, hr⟩ := find_slot h.shape hf
    have hp := h.overwrite hi (seen_addr now r)
    rw [hr] at hp
    by_cases hxk : x = k
    · have ho : o = some r := by rw [← h.get, ← hxk]; exact find_get hf
      simpa [hxk, ho, addIpAt] using hp
    · simpa [hxk] using hp

lemma At.addRecord (h : At v k o) (hr : HostRecord) :
    At (recordsAddRecord now mem hr v).1 k
      (if hr.addr = k then addRecordAt now mem hr o else o) := by
  unfold recordsAddRecord
  rcases hf : recordsFind v hr.addr with _ | ⟨i, r⟩
  · have hnone : hr.addr = k → o = none := fun e => by
      rw [← h.get, ← e]; exact find_none_get.mp hf
    have hp := h.place mem hr hnone
    by_cases hxk : hr.addr = k
    · rw [hnone hxk] at hp ⊢
      cases mem <;> simpa [hxk, addRecordAt] using hp
    · simpa [hxk] using hp
  · obtain ⟨hi, hra⟩ := find_slot h.shape hf
    have hp := h.overwrite hi (q := merge now hr r) (by rw [merge_addr, hra])
    rw [hra] at hp
    by_cases hxk : hr.addr = k
    · have ho : o = some r := by rw [← h.get, ← hxk]; exact find_get hf
      simpa [hxk, ho, addRecordAt] using hp
    · simpa [hxk] using hp

lemma At.remove (h : At v k o) (x : CStr) :
    At (recordsRemove x v).1 k (if x = k then none else o) := by
  unfold recordsRemove
  rcases hf : recordsFind v x with _ | ⟨i, r⟩
  · by_cases hxk : x = k
    · have ho : o = none := by rw [← h.get, ← hxk]; exact find_none_get.mp hf
      simpa [hxk, ho] using h
    · simpa [hxk] using h
  · obtain ⟨hi, hr⟩ := find_slot h.shape hf
    have hsub : ∀ j b, slot (v.vec.set i none) j = some b → slot v.vec j = some b := by
      intro j b hj
      rw [slot_set (slot_lt hi)] at hj
      split at hj
      · cases hj
      · exact hj
    refine .mk' (h.shape.overwrite hi none) (only_shrink hsub h.only) ?_
    show Slots.lookup HostRecord.addr (v.vec.set i none) k = _
    rw [lookup_remove hi h.only, h.lookup, hr]

/-! ### Visits and sweeps -/

lemma shrunkSize_spec (n : ℕ) :
    n ≤ shrunkSize n ∧ chunksize ∣ shrunkSize n ∧ 0 < shrunkSize n := by
  unfold shrunkSize chunksize
  dsimp only
  split <;> omega

/-- It is the least such size. -/
lemma shrunkSize_le {n m : ℕ} (hle : n ≤ m) (hdvd : chunksize ∣ m) (hpos : 0 < m) :
    shrunkSize n ≤ m := by
  obtain ⟨q, rfl⟩ := hdvd
  unfold shrunkSize
  unfold chunksize at *
  dsimp only
  split <;> omega

/-- The vector after the sweeping loop, before it is shortened. -/
def swept (cb : Option (σ → HostRecord → σ)) (e : σ) (v : Store) : σ × List (Option HostRecord) :=
  sweep (fun r => decide (r.remove ≠ 0)) (cb.getD fun e _ => e) e v.vec

lemma swept_length (h : Shape v) (cb : Option (σ → HostRecord → σ)) (e : σ) :
    (swept cb e v).2.length = v.size := by
  rw [← h.len]; exact sweep_length _ _ _ _

lemma swept_slot (cb : Option (σ → HostRecord → σ)) (e : σ) (i : ℕ) :
    slot (swept cb e v).2 i = (slot v.vec i).filter fun r => !decide (r.remove ≠ 0) :=
  sweep_slot _ _ _ _ _

lemma maintenance_eq (h : Shape v) (cb : Option (σ → HostRecord → σ)) (e : σ) :
    recordsMaintenance cb e v =
      if lastUsed (swept cb e v).2 = v.size then
        ((swept cb e v).1, { v with vec := (swept cb e v).2 }, retvalOk)
      else
        ((swept cb e v).1, ⟨resize (swept cb e v).2 (shrunkSize (lastUsed (swept cb e v).2)),
          shrunkSize (lastUsed (swept cb e v).2), lastUsed (swept cb e v).2⟩, retvalOk) := by
  have htake : (swept cb e v).2.take v.size = (swept cb e v).2 := by
    rw [← swept_length h cb e, List.take_length]
  unfold swept at htake ⊢
  simp only [recordsMaintenance, h.take_size, h.drop_size, List.append_nil, htake]

/-- The slots after a maintenance run, whether the vector is shortened or not. -/
lemma maintenance_slot (h : Shape v) (cb : Option (σ → HostRecord → σ)) (e : σ) (i : ℕ) :
    slot (recordsMaintenance cb e v).2.1.vec i =
      (slot v.vec i).filter fun r => !decide (r.remove ≠ 0) := by
  rw [maintenance_eq h, ← swept_slot cb e]
  split
  · rfl
  · simp only [slot_resize]
    split
    · rfl
    · cases hs : slot (swept cb e v).2 i with
      | none => rfl
      | some r =>
        have := lt_lastUsed hs
        have := (shrunkSize_spec (lastUsed (swept cb e v).2)).1
        omega

lemma maintenance_shape (h : Shape v) (cb : Option (σ → HostRecord → σ)) (e : σ) :
    Shape (recordsMaintenance cb e v).2.1 := by
  have hsub : ∀ i r, slot (swept cb e v).2 i = some r → slot v.vec i = some r := by
    intro i r hi
    rw [swept_slot, Option.filter_eq_some_iff] at hi
    exact hi.1
  rw [maintenance_eq h]
  split
  · -- the last slot is in use: neither value is touched
    exact ⟨swept_length h cb e, h.dvd, h.pos, h.fill, fun i r hi => h.live i r (hsub i r hi)⟩
  · obtain ⟨hle, hdvd, hpos⟩ := shrunkSize_spec (lastUsed (swept cb e v).2)
    refine ⟨by simp, hdvd, hpos, hle, fun i r hi => ?_⟩
    rw [slot_resize] at hi
    split at hi
    · exact lt_lastUsed hi
    · cases hi

lemma At.maintenance (h : At v k o) (cb : Option (σ → HostRecord → σ)) (e : σ) :
    At (recordsMaintenance cb e v).2.1 k (o.filter fun r => !decide (r.remove ≠ 0)) := by
  have hslot := maintenance_slot h.shape cb e
  refine .mk' (maintenance_shape h.shape cb e) (only_shrink (fun i r hi => ?_) h.only) ?_
  · rw [hslot, Option.filter_eq_some_iff] at hi
    exact hi.1
  · rw [lookup_filter hslot h.only, h.lookup]

/-- The callbacks of a sweep: the flagged records once each, in slot order. -/
lemma maintenance_env (h : Shape v) (cb : Option (σ → HostRecord → σ)) (e : σ) :
    (recordsMaintenance cb e v).1 =
      ((live v.vec).filter fun r => r.remove ≠ 0).foldl (cb.getD fun e _ => e) e := by
  have henv : (swept cb e v).1 = _ := sweep_env _ _ _ _
  rw [maintenance_eq h, ← henv]
  split <;> rfl

lemma destroy_env (h : Shape v) (cb : Option (σ → HostRecord → σ)) (e : σ) :
    recordsDestroy cb e v = (live v.vec).foldl (cb.getD fun e _ => e) e := by
  unfold recordsDestroy
  rw [h.take_size, sweep_env, List.filter_eq_self.mpr fun _ _ => rfl]

/-- The vector after a maintenance run does not depend on the callback. -/
lemma maintenance_store {τ : Type*} (cb : Option (σ → HostRecord → σ)) (e : σ)
    (cb' : Option (τ → HostRecord → τ)) (e' : τ) (v : Store) :
    (recordsMaintenance cb e v).2.1 = (recordsMaintenance cb' e' v).2.1 := by
  unfold recordsMaintenance
  simp only [sweep_table]
  split
  · rfl
  · rfl

section Enumerate

variable {cb : σ → HostRecord → σ × HostRecord × ℤ} {e : σ}

lemma enumerate_slot_lt (i : ℕ) :
    slot (recordsEnumerate cb e v).2.1.vec i =
      if i < v.fill then slot (visit cb e (v.vec.take v.fill)).2 i else slot v.vec i := by
  unfold recordsEnumerate
  exact slot_append_drop (visit_length _ _ _) i

/-- Every slot is empty or taken as before, and a record is left alone or is what the
callback made of it. -/
lemma enumerate_slot (cb : σ → HostRecord → σ × HostRecord × ℤ) (e : σ) (h : Shape v)
    (i : ℕ) :
    (slot v.vec i = none ∧ slot (recordsEnumerate cb e v).2.1.vec i = none) ∨
      ∃ r q, slot v.vec i = some r ∧ slot (recordsEnumerate cb e v).2.1.vec i = some q ∧
        (q = r ∨ ∃ e', q = (cb e' r).2.1) := by
  rw [enumerate_slot_lt]
  split
  · rw [← h.slot_fill i]
    exact visit_slot (R := fun r q => q = r ∨ ∃ e', q = (cb e' r).2.1) (fun _ => Or.inl rfl)
      (fun e' _ => Or.inr ⟨e', rfl⟩) e _ i
  · cases hs : slot v.vec i with
    | none => exact Or.inl ⟨rfl, rfl⟩
    | some r => exact Or.inr ⟨r, r, rfl, rfl, Or.inl rfl⟩

lemma enumerate_shape (h : Shape v) : Shape (recordsEnumerate cb e v).2.1 where
  len := by
    have := visit_length cb e (v.vec.take v.fill)
    have hf := h.fill
    rw [← h.len] at hf
    simp only [recordsEnumerate, List.length_append, this, List.length_take, List.length_drop,
      ← h.len]
    omega
  dvd := h.dvd
  pos := h.pos
  fill := h.fill
  live := by
    intro i q hi
    rcases enumerate_slot cb e h i with ⟨-, hn⟩ | ⟨r, -, hr, -⟩
    · rw [hn] at hi; cases hi
    · exact h.live i r hr

lemma enumerate_only (e : σ) (h : At v k o) (hcb : ∀ e r, (cb e r).2.1.addr = r.addr) :
    Only HostRecord.addr (recordsEnumerate cb e v).2.1.vec k := by
  refine only_keep (fun i => ?_) h.only
  rcases enumerate_slot cb e h.shape i with ⟨h1, h2⟩ | ⟨r, q, h1, h2, hq⟩
  · rw [h1, h2]
  · rcases hq with rfl | ⟨e', rfl⟩
    · rw [h1, h2]
    · rw [h1, h2, Option.map_some, Option.map_some, hcb]

/-- Any visit, at one address. -/
lemma At.enumerate (h : At v k o) (hcb : ∀ e r, (cb e r).2.1.addr = r.addr) :
    ∃ o', At (recordsEnumerate cb e v).2.1 k o' ∧
      ((o = none ∧ o' = none) ∨
        ∃ r q, o = some r ∧ o' = some q ∧ (q = r ∨ ∃ e', q = (cb e' r).2.1)) := by
  have ho := enumerate_only e h hcb
  refine ⟨_, ⟨enumerate_shape h.shape, ho, rfl⟩, ?_⟩
  rw [recordsGet_eq (enumerate_shape h.shape) ho, ← h.lookup]
  rcases hl : Slots.lookup HostRecord.addr v.vec k with _ | r
  · refine Or.inl ⟨rfl, lookup_none.mpr fun i q hi hk => ?_⟩
    rcases enumerate_slot cb e h.shape i with ⟨-, h2⟩ | ⟨r, q', h1, h2, hq⟩
    · rw [h2] at hi; cases hi
    · rw [h2] at hi
      obtain rfl : q' = q := by simpa using hi
      apply lookup_none.mp hl i r h1
      rcases hq with rfl | ⟨e', rfl⟩
      · exact hk
      · rw [← hcb e' r]; exact hk
  · obtain ⟨i, hi, hk⟩ := lookup_spec hl
    rcases enumerate_slot cb e h.shape i with ⟨h1, -⟩ | ⟨r', q, h1, h2, hq⟩
    · rw [hi] at h1; cases h1
    · obtain rfl : r = r' := by rw [hi] at h1; simpa using h1
      refine Or.inr ⟨r, q, rfl, (lookup_some ho).mpr ⟨i, h2, ?_⟩, hq⟩
      rcases hq with rfl | ⟨e', rfl⟩
      · exact hk
      · rw [hcb]; exact hk

/-- A visit that is never stopped and changes each record in its own way, slot by slot. -/
lemma enumerate_map_slot {f : HostRecord → HostRecord} (h : Shape v) (h0 : ∀ e r, (cb e r).2.2 = 0)
    (hf : ∀ e r, (cb e r).2.1 = f r) (i : ℕ) :
    slot (recordsEnumerate cb e v).2.1.vec i = (slot v.vec i).map f := by
  rw [enumerate_slot_lt, visit_table h0 hf, slot_map, h.slot_fill]
  split
  · rfl
  · cases hs : slot v.vec i with
    | none => rfl
    | some r => have := h.live i r hs; omega

/-- Two visits that are never stopped and change each record alike leave the same vector. -/
lemma enumerate_store {τ : Type*} {cb' : τ → HostRecord → τ × HostRecord × ℤ}
    {f : HostRecord → HostRecord} (h0 : ∀ e r, (cb e r).2.2 = 0) (hf : ∀ e r, (cb e r).2.1 = f r)
    (h0' : ∀ e r, (cb' e r).2.2 = 0) (hf' : ∀ e r, (cb' e r).2.1 = f r) (e : σ) (e' : τ) :
    (recordsEnumerate cb e v).2.1 = (recordsEnumerate cb' e' v).2.1 := by
  unfold recordsEnumerate
  simp only [visit_table h0 hf, visit_table h0' hf']

lemma At.enumerate_map {f : HostRecord → HostRecord} (h : At v k o)
    (h0 : ∀ e r, (cb e r).2.2 = 0) (hf : ∀ e r, (cb e r).2.1 = f r)
    (hk : ∀ r, (f r).addr = r.addr) : At (recordsEnumerate cb e v).2.1 k (o.map f) := by
  have hcb : ∀ e r, (cb e r).2.1.addr = r.addr := fun e r => by rw [hf, hk]
  have ho := enumerate_only e h hcb
  refine .mk' (enumerate_shape h.shape) ho ?_
  rw [lookup_map hk (enumerate_map_slot h.shape h0 hf) h.only, h.lookup]

/-- A visit that is never stopped meets every record once, in slot order. -/
lemma enumerate_env (h : Shape v) (h0 : ∀ e r, (cb e r).2.2 = 0) :
    (recordsEnumerate cb e v).1 = (live v.vec).foldl (fun e r => (cb e r).1) e := by
  unfold recordsEnumerate
  rw [← live_take h.live]
  exact visit_env h0 _ _

end Enumerate

/-- **Every call keeps the vector in shape**, whatever the addresses are. -/
theorem Shape.step {s : σ × Store} (h : Shape s.2) (cfg : Config) (op : Op σ) :
    Shape (Records.step cfg s op).2 := by
  cases op with
  | addIp now mem x => exact h.addIp cfg now mem x
  | addRecord now mem hr => exact h.addRecord now mem hr
  | remove x => exact h.remove x
  | maintenance cb => exact maintenance_shape h cb s.1
  | enumerate cb => exact enumerate_shape h

end Agentsmith.RecordsMap
