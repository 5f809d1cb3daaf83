import Agentsmith.Lib.Sections
import Agentsmith.Daemon
import Agentsmith.RecordsMap

/-!
`records.c` access by access.

The loops over the vector look at one slot after the other, and the threads come in between. What
keeps them apart is `vector_mutex`. Here every turn of a loop is a step, and it is shown that a
call makes of the vector what the definitions of `Records` say, so that they may be used for
threads that run at once.
-/

namespace Agentsmith.RecordsLoops

open Agentsmith.Lib.CStrings Agentsmith.Lib.Slots Agentsmith.Lib.Chunks Agentsmith.Lib.Runs
open Agentsmith.Lib.Sections (Code Ends Ordered Move sections sections_atomic)
open Agentsmith.Globals Agentsmith.Records Agentsmith.RecordsMap Agentsmith.Daemon

variable {σ : Type*}

/-- What `records_add_ip` and `records_add_record` bring with them: the address, the outcome of
`malloc`, the new record, and what is written over a record in place before the comparison of its
stamps. -/
structure Adding where
  key : CStr
  mem : Bool
  new : HostRecord
  stamped : HostRecord → HostRecord

/-- Where a thread is between `pthread_mutex_lock` and `pthread_mutex_unlock`. -/
inductive Place (σ : Type*)
  | find (a : Adding) (i : ℕ)
  | stamp (a : Adding) (i : ℕ)
  | count (i : ℕ)
  | findFree (a : Adding) (i : ℕ)
  | grow (a : Adding)
  | alloc (a : Adding) (pos : ℕ)
  | fill (pos : ℕ)
  | findGone (x : CStr) (i : ℕ)
  | free (i : ℕ)
  | sweep (cb : Option (σ → HostRecord → σ)) (i : ℕ)
  | lastUsed (i last : ℕ)
  | shrink (last : ℕ)
  | visit (cb : σ → HostRecord → σ × HostRecord × ℤ) (i : ℕ)

def addingIp (cfg : Config) (now : Int64) (mem : Bool) (x : CStr) : Adding where
  key := x
  mem := mem
  new := fresh cfg now x
  stamped := fun ptr => { ptr with lastseen := now }

def addingRecord (now : Int64) (mem : Bool) (hr : HostRecord) : Adding where
  key := hr.addr
  mem := mem
  new := hr
  stamped := fun ptr => { hr with
    processed := ptr.processed
    occurrences := (hr.occurrences.toUInt32 + ptr.occurrences.toUInt32).toInt32
    lastseen := now }

/-- The first access of a call. -/
def entry (cfg : Config) : Op σ → Place σ
  | .addIp now mem x => .find (addingIp cfg now mem x) 0
  | .addRecord now mem hr => .find (addingRecord now mem hr) 0
  | .remove x => .findGone x 0
  | .maintenance cb => .sweep cb 0
  | .enumerate cb => .visit cb 0

/-- A change of one slot. -/
def put (v : Store) (i : ℕ) (o : Option HostRecord) : Store := { v with vec := v.vec.set i o }

/-- One access: a turn of a loop, or what is done between two loops. -/
def access (p : Place σ) (s : σ × Store) : (σ × Store) × Option (Place σ) :=
  let (e, v) := s
  match p with
  | .find a i =>
    if i < v.fill then
      match slot v.vec i with
      | some ptr => if ptr.addr = a.key then (s, some (.stamp a i)) else (s, some (.find a (i + 1)))
      | none => (s, some (.find a (i + 1)))
    else (s, some (.findFree a 0))
  | .stamp a i => ((e, put v i ((slot v.vec i).map a.stamped)), some (.count i))
  | .count i => ((e, put v i ((slot v.vec i).map bump)), none)
  | .findFree a i =>
    if i < v.size then
      if slot v.vec i = none then (s, some (.alloc a i)) else (s, some (.findFree a (i + 1)))
    else (s, some (.grow a))
  | .grow a => ((e, (recordsVectorGrow v).1), some (.alloc a (recordsVectorGrow v).2))
  | .alloc a pos =>
    if a.mem then ((e, put v pos (some a.new)), some (.fill pos)) else ((e, put v pos none), none)
  | .fill pos => ((e, { v with fill := if pos + 1 > v.fill then pos + 1 else v.fill }), none)
  | .findGone x i =>
    if i < v.fill then
      match slot v.vec i with
      | some ptr => if ptr.addr = x then (s, some (.free i)) else (s, some (.findGone x (i + 1)))
      | none => (s, some (.findGone x (i + 1)))
    else (s, none)
  | .free i => ((e, put v i none), none)
  | .sweep cb i =>
    if i < v.size then
      match slot v.vec i with
      | some ptr =>
        if ptr.remove ≠ 0 then
          (((cb.getD fun e _ => e) e ptr, put v i none), some (.sweep cb (i + 1)))
        else (s, some (.sweep cb (i + 1)))
      | none => (s, some (.sweep cb (i + 1)))
    else (s, some (.lastUsed 0 0))
  | .lastUsed i last =>
    if i < v.size then
      (s, some (.lastUsed (i + 1) (if (slot v.vec i).isSome then i + 1 else last)))
    else (s, some (.shrink last))
  | .shrink last =>
    if last = v.size then (s, none)
    else ((e, ⟨resize v.vec (shrunkSize last), shrunkSize last, last⟩), none)
  | .visit cb i =>
    if i < v.fill then
      match slot v.vec i with
      | some ptr =>
        let r := cb e ptr
        ((r.1, put v i (some r.2.1)), if r.2.2 ≠ 0 then none else some (.visit cb (i + 1)))
      | none => (s, some (.visit cb (i + 1)))
    else (s, none)

/-- The call comes to its end in this state if nobody comes in between. -/
def Finishes (p : Place σ) (s s' : σ × Store) : Prop := ∃ n, Ends access p s n s'

variable {p q : Place σ} {s t s' : σ × Store} {e : σ} {v : Store} {a : Adding}

lemma finishes_last (h : access p s = (s', none)) : Finishes p s s' := ⟨1, .last h⟩

lemma finishes_more (h : access p s = (t, some q)) (hrest : Finishes q t s') :
    Finishes p s s' := by
  obtain ⟨n, hn⟩ := hrest
  exact ⟨n + 1, .more h hn⟩

/-! ### A record that is added -/

/-- A record put into a slot, and the fill value. -/
lemma alloc_finishes (pos : ℕ) :
    Finishes (.alloc a pos) (e, v) (e, (recordsPlace a.mem a.new (v, pos)).1) := by
  rcases hmem : a.mem with _ | _
  · refine finishes_last ?_
    simp [access, hmem, recordsPlace, place, put]
  · refine finishes_more (q := .fill pos) (t := (e, put v pos (some a.new))) ?_ (finishes_last ?_)
    · simp [access, hmem]
    · simp [access, recordsPlace, place, put]

/-- The search for a free slot. -/
lemma findFree_finishes (hlen : v.vec.length = v.size) {n i : ℕ} (hn : v.size - i = n)
    (hbefore : ∀ j < i, j < v.size → (slot v.vec j).isSome) :
    Finishes (.findFree a i) (e, v) (e, (recordsPlace a.mem a.new (recordsSlot v)).1) := by
  induction n generalizing i with
  | zero =>
    have hslot : recordsSlot v = recordsVectorGrow v :=
      newSlot_grow hlen fun j hj => hbefore j (by omega) hj
    refine finishes_more (q := .grow a) (t := (e, v)) ?_ ?_
    · simp only [access]
      rw [if_neg (by omega)]
    · rw [hslot]
      exact finishes_more rfl (alloc_finishes _)
  | succ n ih =>
    have hi : i < v.size := by omega
    rcases hs : slot v.vec i with _ | r
    · have hslot : recordsSlot v = (v, i) :=
        newSlot_free hlen hi hs fun j hj => hbefore j hj (by omega)
      rw [hslot]
      refine finishes_more (q := .alloc a i) (t := (e, v)) ?_ (alloc_finishes i)
      simp only [access]
      rw [if_pos hi, if_pos hs]
    · refine finishes_more (q := .findFree a (i + 1)) (t := (e, v)) ?_ (ih (by omega) ?_)
      · simp only [access]
        rw [if_pos hi, if_neg (by rw [hs]; simp)]
      · intro j hj hlt
        rcases Nat.lt_succ_iff_lt_or_eq.mp hj with hlt' | rfl
        · exact hbefore j hlt' hlt
        · rw [hs]
          rfl

/-- What a call that adds a record makes of the vector. -/
def added (a : Adding) (v : Store) : Store :=
  match recordsFind v a.key with
  | some (i, r) => put v i (some (bump (a.stamped r)))
  | none => (recordsPlace a.mem a.new (recordsSlot v)).1

/-- The loop of `_records_find` has not found the record in the slots before `i`. -/
abbrev Missed (x : CStr) (v : Store) (i : ℕ) : Prop := Passed (fun r => r.addr = x) v.vec i

/-- The loop of `_records_find`, and what is done with its result. -/
lemma find_finishes (hlen : v.vec.length = v.size) {n i : ℕ} (hn : v.fill - i = n)
    (hmissed : Missed a.key v i) : Finishes (.find a i) (e, v) (e, added a v) := by
  induction n generalizing i with
  | zero =>
    have hnone : recordsFind v a.key = none := hmissed.nowhere (by omega)
    rw [added, hnone]
    refine finishes_more (q := .findFree a 0) (t := (e, v)) ?_
      (findFree_finishes hlen rfl fun j hj => absurd hj (Nat.not_lt_zero j))
    simp only [access]
    rw [if_neg (by omega)]
  | succ n ih =>
    have hi : i < v.fill := by omega
    by_cases hfound : ∃ r, slot v.vec i = some r ∧ r.addr = a.key
    · obtain ⟨r, hs, hx⟩ := hfound
      have hlt := slot_lt hs
      have hsome : recordsFind v a.key = some (i, r) := hmissed.here hi hs (by simpa using hx)
      rw [added, hsome]
      refine finishes_more (q := .stamp a i) (t := (e, v)) ?_ ?_
      · simp only [access]
        rw [if_pos hi, hs]
        exact if_pos hx
      · refine finishes_more (q := .count i) (t := (e, put v i (some (a.stamped r)))) ?_
          (finishes_last ?_)
        · simp [access, hs]
        · simp [access, put, slot_set hlt]
    · refine finishes_more (q := .find a (i + 1)) (t := (e, v)) ?_
        (ih (by omega) (hmissed.next ?_))
      · simp only [access]
        rw [if_pos hi]
        rcases hs : slot v.vec i with _ | r
        · rfl
        · exact if_neg fun hx => hfound ⟨r, hs, hx⟩
      · exact fun r hs => decide_eq_false fun hx => hfound ⟨r, hs, hx⟩

lemma added_ip (cfg : Config) (now : Int64) (mem : Bool) (x : CStr) (v : Store) :
    added (addingIp cfg now mem x) v = (recordsAddIp cfg now mem x v).1 := by
  unfold added recordsAddIp
  show (match recordsFind v x with
    | some (i, r) => _
    | none => _) = _
  rcases recordsFind v x with _ | ⟨i, r⟩ <;> rfl

lemma added_record (now : Int64) (mem : Bool) (hr : HostRecord) (v : Store) :
    added (addingRecord now mem hr) v = (recordsAddRecord now mem hr v).1 := by
  unfold added recordsAddRecord
  show (match recordsFind v hr.addr with
    | some (i, r) => _
    | none => _) = _
  rcases recordsFind v hr.addr with _ | ⟨i, r⟩ <;> rfl

/-! ### A record that is removed -/

lemma findGone_finishes {x : CStr} {n i : ℕ} (hn : v.fill - i = n) (hmissed : Missed x v i) :
    Finishes (.findGone x i) (e, v) (e, (recordsRemove x v).1) := by
  induction n generalizing i with
  | zero =>
    have hnone : recordsFind v x = none := hmissed.nowhere (by omega)
    rw [recordsRemove, hnone]
    refine finishes_last ?_
    simp only [access]
    rw [if_neg (by omega)]
  | succ n ih =>
    have hi : i < v.fill := by omega
    by_cases hfound : ∃ r, slot v.vec i = some r ∧ r.addr = x
    · obtain ⟨r, hs, hx⟩ := hfound
      have hsome : recordsFind v x = some (i, r) := hmissed.here hi hs (by simpa using hx)
      rw [recordsRemove, hsome]
      refine finishes_more (q := .free i) (t := (e, v)) ?_ (finishes_last rfl)
      simp only [access]
      rw [if_pos hi, hs]
      exact if_pos hx
    · refine finishes_more (q := .findGone x (i + 1)) (t := (e, v)) ?_
        (ih (by omega) (hmissed.next ?_))
      · simp only [access]
        rw [if_pos hi]
        rcases hs : slot v.vec i with _ | r
        · rfl
        · exact if_neg fun hx => hfound ⟨r, hs, hx⟩
      · exact fun r hs => decide_eq_false fun hx => hfound ⟨r, hs, hx⟩

/-! ### Maintenance -/

lemma drop_slot {l : List (Option HostRecord)} {i : ℕ} (hi : i < l.length) :
    l.drop i = slot l i :: l.drop (i + 1) := by
  rw [List.drop_eq_getElem_cons hi, slot_eq_getElem hi]

lemma set_split {l : List (Option HostRecord)} {i : ℕ} (hi : i < l.length)
    (o : Option HostRecord) : l.set i o = l.take i ++ o :: l.drop (i + 1) := by
  rw [List.set_eq_take_append_cons_drop, if_pos hi]

/-- The vector up to a slot, and the slot after a turn of a loop. -/
lemma take_turn {l : List (Option HostRecord)} {i : ℕ} (hi : i < l.length)
    (o : Option HostRecord) (rest : List (Option HostRecord)) :
    (l.set i o).take (i + 1) ++ rest = l.take i ++ o :: rest := by
  have hlen : (l.take i).length = i := by simp; omega
  rw [set_split hi, List.take_append, List.take_of_length_le (by omega), hlen]
  simp

lemma drop_turn (l : List (Option HostRecord)) (i : ℕ) (o : Option HostRecord) :
    (l.set i o).drop (i + 1) = l.drop (i + 1) := by
  rw [List.drop_set, if_pos (Nat.lt_succ_self i)]

variable {cb : Option (σ → HostRecord → σ)}

/-- What the sweep makes of the vector from slot `i` on. -/
def swept (cb : Option (σ → HostRecord → σ)) (i : ℕ) (e : σ) (v : Store) : σ × Store :=
  let p := sweep (fun r => r.remove ≠ 0) (cb.getD fun e _ => e) e (v.vec.drop i)
  (p.1, { v with vec := v.vec.take i ++ p.2 })

lemma take_next {l : List (Option HostRecord)} {i : ℕ} (hi : i < l.length)
    (rest : List (Option HostRecord)) :
    l.take (i + 1) ++ rest = l.take i ++ slot l i :: rest := by
  have hsame : l.set i (slot l i) = l := by
    rw [slot_eq_getElem hi]
    exact List.set_getElem_self hi
  have hturn := take_turn hi (slot l i) rest
  rwa [hsame] at hturn

/-- One turn of the sweep. -/
lemma swept_turn (cb : Option (σ → HostRecord → σ)) (e : σ) (hlen : v.vec.length = v.size)
    {i : ℕ} (hi : i < v.size) :
    ∃ t, access (.sweep cb i) (e, v) = (t, some (.sweep cb (i + 1))) ∧
      t.2.vec.length = t.2.size ∧ t.2.size = v.size ∧
      swept cb (i + 1) t.1 t.2 = swept cb i e v := by
  have hi' : i < v.vec.length := by omega
  have hdrop := drop_slot hi'
  rcases hs : slot v.vec i with _ | r
  · refine ⟨(e, v), ?_, hlen, rfl, ?_⟩
    · simp only [access]
      rw [if_pos hi, hs]
    · rw [hs] at hdrop
      simp only [swept, hdrop, sweep]
      rw [take_next hi', hs]
  · rw [hs] at hdrop
    by_cases hr : r.remove ≠ 0
    · refine ⟨((cb.getD fun e _ => e) e r, put v i none), ?_, ?_, rfl, ?_⟩
      · simp only [access]
        rw [if_pos hi, hs]
        exact if_pos hr
      · simpa [put] using hlen
      · simp only [swept, hdrop, sweep, put, decide_eq_true hr, if_true]
        rw [drop_turn, take_turn hi']
    · refine ⟨(e, v), ?_, hlen, rfl, ?_⟩
      · simp only [access]
        rw [if_pos hi, hs]
        exact if_neg hr
      · simp only [swept, hdrop, sweep, decide_eq_false hr, Bool.false_eq_true, if_false]
        rw [take_next hi', hs]

lemma sweep_finishes (hlen : v.vec.length = v.size) {n i : ℕ} (hn : v.size - i = n)
    (hrest : Finishes (.lastUsed 0 0) (swept cb i e v) s') :
    Finishes (.sweep cb i) (e, v) s' := by
  induction n generalizing i e v with
  | zero =>
    have hnone : swept cb i e v = (e, v) := by
      rw [swept, List.drop_eq_nil_of_le (by omega), List.take_of_length_le (by omega)]
      simp [sweep]
    rw [hnone] at hrest
    refine finishes_more (q := .lastUsed 0 0) (t := (e, v)) ?_ hrest
    simp only [access]
    rw [if_neg (by omega)]
  | succ n ih =>
    obtain ⟨t, hstep, hlen', hsize, hsame⟩ := swept_turn cb e hlen
      (show i < v.size by omega)
    refine finishes_more hstep (ih hlen' (by omega) ?_)
    rw [hsame]
    exact hrest

lemma lastUsed_finishes (hlen : v.vec.length = v.size) {n i last : ℕ} (hn : v.size - i = n)
    (hrest : Finishes (.shrink (lastUsedFrom i last (v.vec.drop i))) (e, v) s') :
    Finishes (.lastUsed i last) (e, v) s' := by
  induction n generalizing i last with
  | zero =>
    rw [List.drop_eq_nil_of_le (by omega), lastUsedFrom] at hrest
    refine finishes_more (q := .shrink last) (t := (e, v)) ?_ hrest
    simp only [access]
    rw [if_neg (by omega)]
  | succ n ih =>
    have hi : i < v.size := by omega
    rw [drop_slot (by omega), lastUsedFrom] at hrest
    refine finishes_more (t := (e, v)) ?_ (ih (by omega) hrest)
    simp only [access]
    rw [if_pos hi]

lemma maintenance_finishes (h : Shape v) :
    Finishes (.sweep cb 0) (e, v)
      ((recordsMaintenance cb e v).1, (recordsMaintenance cb e v).2.1) := by
  refine sweep_finishes h.len rfl ?_
  have hlen : (swept cb 0 e v).2.vec.length = (swept cb 0 e v).2.size := by
    simp [swept, sweep_length, h.len]
  refine lastUsed_finishes hlen rfl ?_
  have htake : (swept cb 0 e v).2.vec.take v.size = (swept cb 0 e v).2.vec :=
    List.take_of_length_le (Nat.le_of_eq hlen)
  have hvec : (swept cb 0 e v).2.vec =
      (sweep (fun r => r.remove ≠ 0) (cb.getD fun e _ => e) e v.vec).2 := by simp [swept]
  refine finishes_last ?_
  unfold recordsMaintenance
  simp only [h.take_size, h.drop_size, List.append_nil]
  rw [← hvec, htake]
  simp only [access, List.drop_zero]
  show (if lastUsed (swept cb 0 e v).2.vec = v.size then _ else _) = _
  by_cases hlast : lastUsed (swept cb 0 e v).2.vec = v.size
  · rw [if_pos hlast, if_pos hlast]
    simp [swept]
  · rw [if_neg hlast, if_neg hlast]
    simp [swept, lastUsed]

/-! ### Enumeration -/

variable {en : σ → HostRecord → σ × HostRecord × ℤ}

/-- What the enumeration makes of the vector from slot `i` on. -/
def visited (en : σ → HostRecord → σ × HostRecord × ℤ) (i : ℕ) (e : σ) (v : Store) : σ × Store :=
  let p := visit en e ((v.vec.take v.fill).drop i)
  (p.1, { v with vec := v.vec.take i ++ p.2 ++ v.vec.drop v.fill })

lemma visited_none {i : ℕ} (hi : v.fill ≤ i) (hlen : i ≤ v.fill) : visited en i e v = (e, v) := by
  obtain rfl : i = v.fill := by omega
  rw [visited, List.drop_eq_nil_of_le (by simp)]
  simp [visit]

lemma drop_fill {l : List (Option HostRecord)} {i n : ℕ} (hi : i ≤ n) (hn : n ≤ l.length) :
    (l.take n).drop i ++ l.drop n = l.drop i := by
  have hlen : i ≤ (l.take n).length := by simp; omega
  rw [← List.drop_append_of_le_length hlen, List.take_append_drop]

/-- The slots under the fill value from one of them on. -/
lemma drop_turns (hfill : v.fill ≤ v.vec.length) {i : ℕ} (hi : i < v.fill) :
    (v.vec.take v.fill).drop i = slot v.vec i :: (v.vec.take v.fill).drop (i + 1) := by
  rw [drop_slot (by simp; omega), slot_take, if_pos hi]

/-- A record that is visited, where the enumeration stops and where it goes on. -/
lemma visited_stop (hfill : v.fill ≤ v.vec.length) {i : ℕ} (hi : i < v.fill) {r : HostRecord}
    (hs : slot v.vec i = some r) (hstop : (en e r).2.2 ≠ 0) :
    visited en i e v = ((en e r).1, put v i (some (en e r).2.1)) := by
  have hi' : i < v.vec.length := by omega
  have hdrop := drop_turns hfill hi
  rw [hs] at hdrop
  simp only [visited, hdrop, visit, hstop, not_false_eq_true, if_true, ne_eq, put]
  rw [set_split hi', List.append_assoc, List.cons_append, drop_fill (by omega) hfill]

lemma visited_turn (hfill : v.fill ≤ v.vec.length) {i : ℕ} (hi : i < v.fill) {r : HostRecord}
    (hs : slot v.vec i = some r) (hgo : (en e r).2.2 = 0) :
    visited en i e v = visited en (i + 1) (en e r).1 (put v i (some (en e r).2.1)) := by
  have hi' : i < v.vec.length := by omega
  have hdrop := drop_turns hfill hi
  rw [hs] at hdrop
  have hrest : ((v.vec.set i (some (en e r).2.1)).take v.fill).drop (i + 1) =
      (v.vec.take v.fill).drop (i + 1) := by
    rw [List.take_set, drop_turn]
  have htail : (v.vec.set i (some (en e r).2.1)).drop v.fill = v.vec.drop v.fill := by
    rw [List.drop_set, if_pos hi]
  simp only [visited, hdrop, visit, hgo, ne_eq, not_true_eq_false, if_false, put, hrest, htail]
  rw [List.append_assoc, List.append_assoc, take_turn hi', List.cons_append]

lemma visit_finishes (en : σ → HostRecord → σ × HostRecord × ℤ) (e : σ)
    (hfill : v.fill ≤ v.vec.length) {n i : ℕ} (hn : v.fill - i = n) (hle : i ≤ v.fill) :
    Finishes (.visit en i) (e, v) (visited en i e v) := by
  induction n generalizing i e v with
  | zero =>
    rw [visited_none (by omega) hle]
    refine finishes_last ?_
    simp only [access]
    rw [if_neg (by omega)]
  | succ n ih =>
    have hi : i < v.fill := by omega
    rcases hs : slot v.vec i with _ | r
    · have hsame : visited en (i + 1) e v = visited en i e v := by
        have hi' : i < v.vec.length := by omega
        have hdrop := drop_turns hfill hi
        rw [hs] at hdrop
        simp only [visited, hdrop, visit]
        rw [List.append_assoc, take_next hi', hs, List.append_assoc, List.cons_append]
      rw [← hsame]
      refine finishes_more (q := .visit en (i + 1)) (t := (e, v)) ?_ (ih e hfill (by omega) hi)
      simp only [access]
      rw [if_pos hi, hs]
    · by_cases hstop : (en e r).2.2 ≠ 0
      · rw [visited_stop hfill hi hs hstop]
        refine finishes_last ?_
        simp only [access]
        rw [if_pos hi, hs]
        simp [hstop]
      · rw [visited_turn hfill hi hs (not_not.mp hstop)]
        refine finishes_more (q := .visit en (i + 1))
          (t := ((en e r).1, put v i (some (en e r).2.1))) ?_ (ih _ ?_ ?_ ?_)
        · simp only [access]
          rw [if_pos hi, hs]
          simp [hstop]
        · simpa [put] using hfill
        · simpa [put] using (show v.fill - (i + 1) = n by omega)
        · exact hi

/-- **Each call comes to its end**, and makes of the vector what it is defined to. -/
lemma call_finishes (cfg : Config) {s : σ × Store} (h : Shape s.2) (op : Op σ) :
    Finishes (entry cfg op) s (Records.step cfg s op) := by
  obtain ⟨e, v⟩ := s
  cases op with
  | addIp now mem x =>
    have hfind := find_finishes (e := e) (a := addingIp cfg now mem x) h.len rfl (passed_zero _ _)
    rwa [added_ip] at hfind
  | addRecord now mem hr =>
    have hfind := find_finishes (e := e) (a := addingRecord now mem hr) h.len rfl (passed_zero _ _)
    rwa [added_record] at hfind
  | remove x => exact findGone_finishes rfl (passed_zero _ _)
  | maintenance cb => exact maintenance_finishes h
  | enumerate cb =>
    have hfill : v.fill ≤ v.vec.length := by rw [h.len]; exact h.fill
    have hvisit := visit_finishes cb e hfill rfl (Nat.zero_le _)
    have hsame : visited cb 0 e v =
        ((recordsEnumerate cb e v).1, (recordsEnumerate cb e v).2.1) := by
      simp [visited, recordsEnumerate]
    rwa [hsame] at hvisit

/-! ### The threads of the daemon -/

variable {ι : Type*} [DecidableEq ι]

/-- The calls of the threads, access by access. -/
def threads (cfg : Config) : Code Daemon.St (Place (List Call)) Event :=
  ⟨fun ev => entry cfg ev.op, access⟩

/-- No thread is in the vector, and nothing is in it. -/
def atRest : Lib.Sections.St ι Daemon.St (Place (List Call)) := ⟨([], recordsInit), none⟩

def interleaved (cfg : Config) (moves : List (Move ι Event)) :
    Lib.Sections.St ι Daemon.St (Place (List Call)) :=
  run (Lib.Sections.step (threads cfg)) atRest moves

/-- The calls of a run in the order in which `vector_mutex` has been taken for them. -/
def serial (cfg : Config) (moves : List (Move ι Event)) : List Event :=
  (sections (threads cfg) atRest moves).map Prod.snd

/-- What the calls on their way make of the vector. -/
lemma interleaved_ordered (cfg : Config) (moves : List (Move ι Event)) :
    Ordered (threads cfg) (daemon cfg (serial cfg moves)) (interleaved cfg moves) := by
  have hinv : ∀ (s : Daemon.St) ev, Shape s.2 → Shape (daemonStep cfg s ev).2 :=
    fun s ev h => Shape.step h cfg ev.op
  have hends : ∀ (s : Daemon.St) ev, Shape s.2 →
      ∃ n, Ends (threads cfg).access ((threads cfg).entry ev) s n (daemonStep cfg s ev) :=
    fun s ev h => call_finishes cfg h ev.op
  refine sections_atomic ?_ hinv hends moves
  exact shape_init

/-- **The calls are atomic**: however the accesses of the threads interleave, once no thread is in
the vector it is what the calls make of it that are made one after the other, in the order in which
the threads got the mutex. A thread in the vector gets out of it, and leaves this behind, by
accesses of its own, whatever the others do in between. -/
theorem calls_atomic (cfg : Config) (moves : List (Move ι Event)) :
    ((interleaved cfg moves).holder = none →
      (interleaved cfg moves).shared = daemon cfg (serial cfg moves)) ∧
    ∀ i p, (interleaved cfg moves).holder = some (i, p) →
      ∃ n, ∀ later : List (Move ι Event), n ≤ later.countP (Move.isAccess i) →
        ∃ pre post, later = pre ++ post ∧
          interleaved cfg (moves ++ pre) = ⟨daemon cfg (serial cfg moves), none⟩ := by
  have hordered := interleaved_ordered cfg moves
  refine ⟨hordered.free, fun i p hbusy => ?_⟩
  obtain ⟨n, hleaves⟩ := hordered.leaves hbusy
  refine ⟨n, fun later hcount => ?_⟩
  obtain ⟨pre, post, rfl, hrun⟩ := hleaves later hcount
  exact ⟨pre, post, rfl, by rw [interleaved, run_append, ← interleaved, hrun]⟩

end Agentsmith.RecordsLoops
