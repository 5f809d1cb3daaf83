import Mathlib.Data.Int.Notation
import Mathlib.Data.List.ReduceOption
import Mathlib.Order.Nat
import Mathlib.Tactic.Lemma

/-!
Tables of optional entries, as a C program keeps them in an array of pointers.

An entry has a key. The loops that search such a table, visit it and sweep it are written
here once, over any type of entry; what each change of one slot does to the lookup of one
key is settled here too, so that a table can be read as a finite map from keys to entries.
-/

namespace Agentsmith.Lib.Slots

variable {α κ σ : Type*}

/-- What slot `i` holds; a slot past the end holds nothing. -/
def slot (l : List (Option α)) (i : ℕ) : Option α := l[i]?.join

/-- The entries of the table, in slot order. -/
def live (l : List (Option α)) : List α := l.reduceOption

/-- The first slot that holds an entry with `p`. -/
def findSlot (p : α → Bool) (l : List (Option α)) : Option ℕ := l.findIdx? fun o => o.any p

/-- The entry in that slot, with its position. -/
def find (p : α → Bool) (l : List (Option α)) : Option (ℕ × α) :=
  (findSlot p l).bind fun i => (slot l i).map fun a => (i, a)

/-- The first slot that holds nothing. -/
def findFree (l : List (Option α)) : Option ℕ := l.findIdx? Option.isNone

/-- The scan for the last slot in use: one more than its index, `0` for an empty table. -/
def lastUsedFrom : ℕ → ℕ → List (Option α) → ℕ
  | _, last, [] => last
  | i, last, o :: l => lastUsedFrom (i + 1) (if o.isSome then i + 1 else last) l

def lastUsed (l : List (Option α)) : ℕ := lastUsedFrom 0 0 l

/-- `realloc` to `n` slots, new ones cleared. -/
def resize (l : List (Option α)) (n : ℕ) : List (Option α) :=
  l.take n ++ List.replicate (n - l.length) none

/-- The visiting loop: the callback may change the entry, and stops the loop by a non-zero
answer. -/
def visit (cb : σ → α → σ × α × ℤ) : σ → List (Option α) → σ × List (Option α)
  | e, [] => (e, [])
  | e, none :: l => ((visit cb e l).1, none :: (visit cb e l).2)
  | e, some a :: l =>
    let r := cb e a
    if r.2.2 ≠ 0 then (r.1, some r.2.1 :: l)
    else ((visit cb r.1 l).1, some r.2.1 :: (visit cb r.1 l).2)

/-- The sweeping loop: the flagged entries are handed to the callback and freed. -/
def sweep (flagged : α → Bool) (cb : σ → α → σ) : σ → List (Option α) → σ × List (Option α)
  | e, [] => (e, [])
  | e, none :: l => ((sweep flagged cb e l).1, none :: (sweep flagged cb e l).2)
  | e, some a :: l =>
    if flagged a then
      ((sweep flagged cb (cb e a) l).1, none :: (sweep flagged cb (cb e a) l).2)
    else ((sweep flagged cb e l).1, some a :: (sweep flagged cb e l).2)

/-! ### Slots -/

@[simp] lemma slot_nil (i : ℕ) : slot ([] : List (Option α)) i = none := by simp [slot]
@[simp] lemma slot_cons_zero (o : Option α) (l : List (Option α)) : slot (o :: l) 0 = o := by
  simp [slot]
@[simp] lemma slot_cons_succ (o : Option α) (l : List (Option α)) (i : ℕ) :
    slot (o :: l) (i + 1) = slot l i := by simp [slot]

lemma slot_of_length_le {l : List (Option α)} {i : ℕ} (h : l.length ≤ i) : slot l i = none := by
  simp [slot, List.getElem?_eq_none h]

lemma slot_lt {l : List (Option α)} {i : ℕ} {a : α} (h : slot l i = some a) : i < l.length := by
  by_contra hn
  rw [slot_of_length_le (by omega)] at h
  cases h

lemma slot_eq_getElem {l : List (Option α)} {i : ℕ} (h : i < l.length) : slot l i = l[i] := by
  simp [slot, List.getElem?_eq_getElem h]

lemma slot_set {l : List (Option α)} {i : ℕ} (h : i < l.length) (o : Option α) (j : ℕ) :
    slot (l.set i o) j = if j = i then o else slot l j := by
  unfold slot
  rw [List.getElem?_set]
  by_cases hij : j = i
  · subst hij; simp [h]
  · simp [hij, Ne.symm hij]

lemma slot_append_none (l : List (Option α)) (n i : ℕ) :
    slot (l ++ List.replicate n none) i = slot l i := by
  unfold slot
  rcases Nat.lt_or_ge i l.length with h | h
  · rw [List.getElem?_append_left h]
  · rw [List.getElem?_append_right h, List.getElem?_eq_none h, List.getElem?_replicate]
    split <;> rfl

lemma slot_take (l : List (Option α)) (n i : ℕ) :
    slot (l.take n) i = if i < n then slot l i else none := by
  unfold slot
  rw [List.getElem?_take]
  split <;> rfl

/-- A prefix replaced by another one of its length. -/
lemma slot_append_drop {l l' : List (Option α)} {n : ℕ} (h : l'.length = (l.take n).length)
    (i : ℕ) : slot (l' ++ l.drop n) i = if i < n then slot l' i else slot l i := by
  rw [List.length_take] at h
  unfold slot
  rcases Nat.lt_or_ge i l'.length with hi | hi
  · rw [List.getElem?_append_left hi, if_pos (by omega)]
  · rw [List.getElem?_append_right hi, List.getElem?_drop]
    rcases Nat.lt_or_ge i n with hn | hn
    · rw [if_pos hn, List.getElem?_eq_none hi, List.getElem?_eq_none (by omega)]
    · rw [if_neg (by omega)]
      rcases Nat.lt_or_ge n l.length with hl | hl
      · congr 2; omega
      · rw [List.getElem?_eq_none (by omega), List.getElem?_eq_none (by omega)]

@[simp] lemma resize_length (l : List (Option α)) (n : ℕ) : (resize l n).length = n := by
  simp [resize]; omega

lemma slot_resize (l : List (Option α)) (n i : ℕ) :
    slot (resize l n) i = if i < n then slot l i else none := by
  unfold resize
  rw [slot_append_none, slot_take]

lemma slot_map (f : α → α) (l : List (Option α)) (i : ℕ) :
    slot (l.map (Option.map f)) i = (slot l i).map f := by
  unfold slot
  rw [List.getElem?_map]
  cases l[i]? <;> rfl

lemma mem_live {l : List (Option α)} {a : α} : a ∈ live l ↔ ∃ i, slot l i = some a := by
  unfold live
  rw [List.reduceOption_mem_iff, List.mem_iff_getElem?]
  refine exists_congr fun i => ?_
  unfold slot
  cases l[i]? <;> simp

@[simp] lemma live_cons_none (l : List (Option α)) : live (none :: l) = live l := by
  simp [live]
@[simp] lemma live_cons_some (a : α) (l : List (Option α)) : live (some a :: l) = a :: live l := by
  simp [live]

/-- Slots that hold nothing have no entries. -/
lemma live_eq_nil {l : List (Option α)} (h : ∀ i, slot l i = none) : live l = [] := by
  refine List.eq_nil_iff_forall_not_mem.mpr fun a ha => ?_
  obtain ⟨i, hi⟩ := mem_live.mp ha
  rw [h] at hi
  cases hi

lemma live_take {l : List (Option α)} {n : ℕ} (h : ∀ i a, slot l i = some a → i < n) :
    live (l.take n) = live l := by
  have hdrop : live (l.drop n) = [] := live_eq_nil fun i => by
    have hs : slot (l.drop n) i = slot l (n + i) := by simp [slot]
    rw [hs]
    cases ho : slot l (n + i) with
    | none => rfl
    | some a => have := h _ a ho; omega
  have happ : live (l.take n ++ l.drop n) = live (l.take n) ++ live (l.drop n) := by
    unfold live; exact List.reduceOption_append _ _
  rw [List.take_append_drop, hdrop, List.append_nil] at happ
  exact happ.symm

/-! ### Searching -/

lemma findSlot_some {p : α → Bool} {l : List (Option α)} {i : ℕ} (h : findSlot p l = some i) :
    ∃ a, slot l i = some a ∧ p a = true := by
  unfold findSlot at h
  obtain ⟨hi, hp, -⟩ := List.findIdx?_eq_some_iff_getElem.mp h
  rw [slot_eq_getElem hi]
  cases ho : l[i] with
  | none => simp [ho] at hp
  | some a => exact ⟨a, rfl, by simpa [ho] using hp⟩

lemma findSlot_none {p : α → Bool} {l : List (Option α)} :
    findSlot p l = none ↔ ∀ i a, slot l i = some a → p a = false := by
  unfold findSlot
  rw [List.findIdx?_eq_none_iff]
  refine ⟨?_, ?_⟩
  · intro h i a ha
    have hi := slot_lt ha
    rw [slot_eq_getElem hi] at ha
    simpa [ha] using h l[i] (List.getElem_mem hi)
  · intro h o ho
    obtain ⟨i, hi, rfl⟩ := List.mem_iff_getElem.mp ho
    cases hs : l[i] with
    | none => rfl
    | some a => simpa using h i a (by rw [slot_eq_getElem hi, hs])

lemma find_some {p : α → Bool} {l : List (Option α)} {i : ℕ} {a : α}
    (h : find p l = some (i, a)) : slot l i = some a ∧ p a = true := by
  unfold find at h
  cases hf : findSlot p l with
  | none => simp [hf] at h
  | some j =>
    obtain ⟨b, hb, hp⟩ := findSlot_some hf
    simp only [hf, Option.bind_some, hb, Option.map_some, Option.some.injEq, Prod.mk.injEq] at h
    obtain ⟨rfl, rfl⟩ := h
    exact ⟨hb, hp⟩

lemma find_none {p : α → Bool} {l : List (Option α)} :
    find p l = none ↔ ∀ i a, slot l i = some a → p a = false := by
  rw [← findSlot_none]
  unfold find
  cases hf : findSlot p l with
  | none => simp
  | some j =>
    obtain ⟨b, hb, -⟩ := findSlot_some hf
    simp [hb]

/-- The entry found is the first one with `p`. -/
lemma find_first {p : α → Bool} {l : List (Option α)} {i : ℕ} {a : α} (hi : slot l i = some a)
    (hp : p a = true) (hbefore : ∀ j < i, ∀ b, slot l j = some b → p b = false) :
    find p l = some (i, a) := by
  have hlt := slot_lt hi
  have hget : l[i] = some a := by rw [← slot_eq_getElem hlt, hi]
  have hslot : findSlot p l = some i := by
    refine List.findIdx?_eq_some_iff_getElem.mpr ⟨hlt, by rw [hget]; exact hp, fun j hj => ?_⟩
    have hjlt : j < l.length := by omega
    rcases ho : l[j] with _ | b
    · simp
    · simpa using hbefore j hj b (by rw [slot_eq_getElem hjlt, ho])
  rw [find, hslot, Option.bind_some, hi, Option.map_some]

/-- A search for an entry with `p` has passed the slots before `i`. -/
def Passed (p : α → Bool) (l : List (Option α)) (i : ℕ) : Prop :=
  ∀ j < i, ∀ a, slot l j = some a → p a = false

lemma passed_zero (p : α → Bool) (l : List (Option α)) : Passed p l 0 :=
  fun j hj => absurd hj (Nat.not_lt_zero j)

lemma Passed.next {p : α → Bool} {l : List (Option α)} {i : ℕ} (h : Passed p l i)
    (hi : ∀ a, slot l i = some a → p a = false) : Passed p l (i + 1) := by
  intro j hj a ha
  rcases Nat.lt_succ_iff_lt_or_eq.mp hj with hlt | rfl
  · exact h j hlt a ha
  · exact hi a ha

/-- The search over the first `n` slots comes to an entry with `p`. -/
lemma Passed.here {p : α → Bool} {l : List (Option α)} {i n : ℕ} {a : α} (h : Passed p l i)
    (hn : i < n) (hi : slot l i = some a) (hp : p a = true) :
    find p (l.take n) = some (i, a) := by
  refine find_first (by rw [slot_take, if_pos hn, hi]) hp fun j hj b hb => ?_
  rw [slot_take, if_pos (by omega)] at hb
  exact h j hj b hb

lemma Passed.nowhere {p : α → Bool} {l : List (Option α)} {i n : ℕ} (h : Passed p l i)
    (hn : n ≤ i) : find p (l.take n) = none := by
  refine find_none.mpr fun j a ha => ?_
  rw [slot_take] at ha
  split at ha
  · exact h j (by omega) a ha
  · cases ha

/-- The slot found, overwritten by another entry with `p`. -/
lemma find_set {p : α → Bool} {l : List (Option α)} {i : ℕ} {a b : α}
    (h : find p l = some (i, a)) (hb : p b = true) :
    find p (l.set i (some b)) = some (i, b) := by
  have hi := slot_lt (find_some h).1
  have hslot : findSlot p l = some i := by
    unfold find at h
    obtain ⟨j, hj, hja⟩ := Option.bind_eq_some_iff.mp h
    obtain ⟨a', -, he⟩ := Option.map_eq_some_iff.mp hja
    obtain ⟨rfl, -⟩ := Prod.mk.inj he
    exact hj
  have hset : findSlot p (l.set i (some b)) = some i := by
    unfold findSlot at hslot ⊢
    obtain ⟨_, -, hbefore⟩ := List.findIdx?_eq_some_iff_getElem.mp hslot
    refine List.findIdx?_eq_some_iff_getElem.mpr ⟨by simpa using hi, by simpa using hb, ?_⟩
    intro j hj
    rw [List.getElem_set_of_ne (by omega)]
    exact hbefore j hj
  unfold find
  rw [hset, Option.bind_some, slot_set hi, if_pos rfl, Option.map_some]

lemma findFree_some {l : List (Option α)} {i : ℕ} (h : findFree l = some i) :
    i < l.length ∧ slot l i = none := by
  unfold findFree at h
  obtain ⟨hi, hp, -⟩ := List.findIdx?_eq_some_iff_getElem.mp h
  exact ⟨hi, by rw [slot_eq_getElem hi]; simpa using hp⟩

/-- The free slot found is the first one. -/
lemma findFree_first {l : List (Option α)} {i : ℕ} (hlt : i < l.length) (hi : slot l i = none)
    (hbefore : ∀ j < i, (slot l j).isSome) : findFree l = some i := by
  have hget : l[i] = none := by rw [← slot_eq_getElem hlt, hi]
  refine List.findIdx?_eq_some_iff_getElem.mpr ⟨hlt, by rw [hget]; rfl, fun j hj => ?_⟩
  have hjlt : j < l.length := by omega
  have hsome := hbefore j hj
  rw [slot_eq_getElem hjlt] at hsome
  simpa [Option.isSome_iff_ne_none] using hsome

lemma findFree_none {l : List (Option α)} :
    findFree l = none ↔ ∀ i < l.length, (slot l i).isSome := by
  unfold findFree
  rw [List.findIdx?_eq_none_iff]
  refine ⟨?_, ?_⟩
  · intro h i hi
    have := h l[i] (List.getElem_mem hi)
    rw [slot_eq_getElem hi]
    simpa [Option.isSome_iff_ne_none] using this
  · intro h o ho
    obtain ⟨i, hi, rfl⟩ := List.mem_iff_getElem.mp ho
    have := h i hi
    rw [slot_eq_getElem hi] at this
    simpa [Option.isSome_iff_ne_none] using this

/-! ### The last slot in use -/

lemma lastUsedFrom_spec (l : List (Option α)) (i last : ℕ) (h : last ≤ i) :
    lastUsedFrom i last l ≤ i + l.length ∧
      last ≤ lastUsedFrom i last l ∧
      (∀ j a, slot l j = some a → i + j < lastUsedFrom i last l) ∧
      (last < lastUsedFrom i last l →
        ∃ j a, slot l j = some a ∧ lastUsedFrom i last l = i + j + 1) := by
  induction l generalizing i last with
  | nil => simp [lastUsedFrom]; omega
  | cons o l ih =>
    obtain ⟨hle, hge, hlt, hat⟩ :=
      ih (i + 1) (if o.isSome then i + 1 else last) (by split <;> omega)
    have hlast : last ≤ if o.isSome then i + 1 else last := by split <;> omega
    refine ⟨by simp only [lastUsedFrom, List.length_cons]; omega, le_trans hlast hge, ?_, ?_⟩
    · intro j a ha
      cases j with
      | zero =>
        have ho : o = some a := by simpa using ha
        subst ho
        simp only [Option.isSome_some, if_true] at hge
        simp only [lastUsedFrom, Option.isSome_some, if_true]
        omega
      | succ j =>
        have := hlt j a (by simpa using ha)
        simp only [lastUsedFrom]; omega
    · intro hgt
      simp only [lastUsedFrom] at hgt ⊢
      by_cases hmore : (if o.isSome then i + 1 else last) <
          lastUsedFrom (i + 1) (if o.isSome then i + 1 else last) l
      · obtain ⟨j, a, ha, he⟩ := hat hmore
        exact ⟨j + 1, a, by simpa using ha, by omega⟩
      · -- nothing in the rest: the head is the last one in use
        cases o with
        | none => simp at hmore hgt; omega
        | some a => exact ⟨0, a, by simp, by simp at hmore hge ⊢; omega⟩

lemma lastUsed_le (l : List (Option α)) : lastUsed l ≤ l.length := by
  simpa [lastUsed] using (lastUsedFrom_spec l 0 0 le_rfl).1

lemma lt_lastUsed {l : List (Option α)} {i : ℕ} {a : α} (h : slot l i = some a) :
    i < lastUsed l := by
  simpa [lastUsed] using (lastUsedFrom_spec l 0 0 le_rfl).2.2.1 i a h

/-- It is the least bound of the slots in use. -/
lemma lastUsed_min {l : List (Option α)} {n : ℕ} (h : ∀ i a, slot l i = some a → i < n) :
    lastUsed l ≤ n := by
  by_contra hlt
  obtain ⟨j, a, ha, hj⟩ := (lastUsedFrom_spec l 0 0 le_rfl).2.2.2 (Nat.zero_lt_of_lt
    (Nat.lt_of_not_le hlt))
  have hjn := h j a ha
  have heq : lastUsed l = 0 + j + 1 := hj
  omega

/-! ### Visiting and sweeping -/

lemma visit_length (cb : σ → α → σ × α × ℤ) (e : σ) (l : List (Option α)) :
    (visit cb e l).2.length = l.length := by
  induction l generalizing e with
  | nil => rfl
  | cons o l ih =>
    cases o with
    | none => simp [visit, ih]
    | some a =>
      simp only [visit]
      split <;> simp [ih]

/-- A visit leaves every slot empty or taken as it was, and keeps what the callback keeps. -/
lemma visit_slot {cb : σ → α → σ × α × ℤ} {R : α → α → Prop} (hrefl : ∀ a, R a a)
    (hcb : ∀ e a, R a (cb e a).2.1) (e : σ) (l : List (Option α)) (i : ℕ) :
    (slot l i = none ∧ slot (visit cb e l).2 i = none) ∨
      ∃ a b, slot l i = some a ∧ slot (visit cb e l).2 i = some b ∧ R a b := by
  induction l generalizing e i with
  | nil => exact Or.inl (by simp [visit])
  | cons o l ih =>
    cases o with
    | none =>
      cases i with
      | zero => exact Or.inl (by simp [visit])
      | succ i => simpa [visit] using ih e i
    | some a =>
      simp only [visit]
      split
      · cases i with
        | zero => exact Or.inr ⟨a, _, by simp, by simp, hcb e a⟩
        | succ i =>
          cases hs : slot l i with
          | none => exact Or.inl (by simp [hs])
          | some b => exact Or.inr ⟨b, b, by simp [hs], by simp [hs], hrefl b⟩
      · cases i with
        | zero => exact Or.inr ⟨a, _, by simp, by simp, hcb e a⟩
        | succ i => simpa using ih _ i

/-- A visit that is never stopped meets every entry once, in slot order. -/
lemma visit_env {cb : σ → α → σ × α × ℤ} (h0 : ∀ e a, (cb e a).2.2 = 0) (e : σ)
    (l : List (Option α)) : (visit cb e l).1 = (live l).foldl (fun e a => (cb e a).1) e := by
  induction l generalizing e with
  | nil => rfl
  | cons o l ih =>
    cases o with
    | none => simp [visit, ih]
    | some a => simp [visit, h0, ih]

/-- A visit that is never stopped and whose changes do not depend on what it has met. -/
lemma visit_table {cb : σ → α → σ × α × ℤ} {f : α → α} (h0 : ∀ e a, (cb e a).2.2 = 0)
    (hf : ∀ e a, (cb e a).2.1 = f a) (e : σ) (l : List (Option α)) :
    (visit cb e l).2 = l.map (Option.map f) := by
  induction l generalizing e with
  | nil => rfl
  | cons o l ih =>
    cases o with
    | none => simp [visit, ih]
    | some a => simp [visit, h0, hf, ih]

lemma sweep_length (p : α → Bool) (cb : σ → α → σ) (e : σ) (l : List (Option α)) :
    (sweep p cb e l).2.length = l.length := by
  induction l generalizing e with
  | nil => rfl
  | cons o l ih =>
    cases o with
    | none => simp [sweep, ih]
    | some a =>
      simp only [sweep]
      split <;> simp [ih]

lemma sweep_slot (p : α → Bool) (cb : σ → α → σ) (e : σ) (l : List (Option α)) (i : ℕ) :
    slot (sweep p cb e l).2 i = (slot l i).filter fun a => !p a := by
  induction l generalizing e i with
  | nil => simp [sweep]
  | cons o l ih =>
    cases o with
    | none => cases i <;> simp [sweep, ih]
    | some a =>
      simp only [sweep]
      split <;> rename_i hp <;> cases i <;> simp [ih, hp, Option.filter]

/-- What is left does not depend on the callback. -/
lemma sweep_table (p : α → Bool) (cb : σ → α → σ) (e : σ) (l : List (Option α)) :
    (sweep p cb e l).2 = l.map (Option.filter fun a => !p a) := by
  induction l generalizing e with
  | nil => rfl
  | cons o l ih =>
    cases o with
    | none => simp [sweep, ih]
    | some a =>
      simp only [sweep]
      split <;> rename_i hp <;> simp [ih, hp, Option.filter]

/-- A sweep hands over the flagged entries once each, in slot order. -/
lemma sweep_env (p : α → Bool) (cb : σ → α → σ) (e : σ) (l : List (Option α)) :
    (sweep p cb e l).1 = ((live l).filter p).foldl cb e := by
  induction l generalizing e with
  | nil => rfl
  | cons o l ih =>
    cases o with
    | none => simp [sweep, ih]
    | some a =>
      simp only [sweep]
      split <;> rename_i hp <;> simp [ih, hp]

/-- Where nothing is flagged a sweep does nothing. -/
lemma sweep_none {p : α → Bool} (cb : σ → α → σ) (e : σ) {l : List (Option α)}
    (h : ∀ i a, slot l i = some a → p a = false) : sweep p cb e l = (e, l) := by
  induction l with
  | nil => rfl
  | cons o l ih =>
    have ih := ih fun i a ha => h (i + 1) a (by simpa using ha)
    cases o with
    | none => simp [sweep, ih]
    | some a =>
      have ha : p a = false := h 0 a (by simp)
      simp [sweep, ha, ih]

/-! ### The table as a map -/

variable (key : α → κ)

/-- At most one slot holds an entry with key `k`. -/
def Only (l : List (Option α)) (k : κ) : Prop :=
  ∀ i j a b, slot l i = some a → slot l j = some b → key a = k → key b = k → i = j

variable {key} {l l' : List (Option α)} {k : κ} {a b : α} {i : ℕ}

lemma only_congr (h : ∀ i, slot l' i = slot l i) (ho : Only key l k) : Only key l' k := by
  intro i j a b hi hj
  rw [h] at hi hj
  exact ho i j a b hi hj

/-- A change that keeps the keys of all entries. -/
lemma only_keep (h : ∀ i, (slot l' i).map key = (slot l i).map key) (ho : Only key l k) :
    Only key l' k := by
  intro i j a b hi hj hka hkb
  have hi' := h i
  have hj' := h j
  rw [hi, Option.map_some] at hi'
  rw [hj, Option.map_some] at hj'
  obtain ⟨a', ha', ea⟩ := Option.map_eq_some_iff.mp hi'.symm
  obtain ⟨b', hb', eb⟩ := Option.map_eq_some_iff.mp hj'.symm
  exact ho i j a' b' ha' hb' (ea.trans hka) (eb.trans hkb)

/-- A change that keeps or empties every slot. -/
lemma only_shrink (h : ∀ i a, slot l' i = some a → slot l i = some a) (ho : Only key l k) :
    Only key l' k :=
  fun i j a b hi hj => ho i j a b (h i a hi) (h j b hj)

/-- The slot of the entry found, overwritten by an entry of the same key. -/
lemma only_overwrite (hi : slot l i = some a) (hb : key b = key a) (ho : Only key l k) :
    Only key (l.set i (some b)) k := by
  refine only_keep (fun j => ?_) ho
  rw [slot_set (slot_lt hi)]
  split
  · subst j; simp [hi, hb]
  · rfl

variable (key) [DecidableEq κ]

/-- The entry a search for the key `k` finds. -/
def lookup (l : List (Option α)) (k : κ) : Option α :=
  (find (fun a => key a = k) l).map Prod.snd

variable {key}

lemma lookup_none : lookup key l k = none ↔ ∀ i a, slot l i = some a → key a ≠ k := by
  unfold lookup
  rw [Option.map_eq_none_iff, find_none]
  simp

lemma lookup_spec (h : lookup key l k = some a) : ∃ i, slot l i = some a ∧ key a = k := by
  unfold lookup at h
  obtain ⟨⟨i, b⟩, hf, rfl⟩ := Option.map_eq_some_iff.mp h
  obtain ⟨hi, hk⟩ := find_some hf
  exact ⟨i, hi, by simpa using hk⟩

/-- **The table is a map**: where a key has one slot, the search finds what that slot
holds. -/
theorem lookup_some (ho : Only key l k) :
    lookup key l k = some a ↔ ∃ i, slot l i = some a ∧ key a = k := by
  refine ⟨?_, ?_⟩
  · exact lookup_spec
  · rintro ⟨i, hi, hk⟩
    cases hl : lookup key l k with
    | none => exact absurd hk (lookup_none.mp hl i a hi)
    | some b =>
      obtain ⟨j, hj, hk'⟩ := lookup_spec hl
      obtain rfl := ho i j a b hi hj hk hk'
      rw [← hj, hi]

/-- Tables with the same slots answer alike. -/
lemma lookup_congr (h : ∀ i, slot l' i = slot l i) (ho : Only key l k) :
    lookup key l' k = lookup key l k := by
  refine Option.ext fun a => ?_
  rw [lookup_some ho, lookup_some (only_congr h ho)]
  simp [h]

/-- An entry overwritten by one of the same key. -/
lemma lookup_overwrite (hi : slot l i = some a) (hb : key b = key a) (ho : Only key l k) :
    lookup key (l.set i (some b)) k = if key a = k then some b else lookup key l k := by
  refine Option.ext fun c => ?_
  rw [lookup_some (only_overwrite hi hb ho)]
  split
  · rename_i hk
    refine ⟨?_, ?_⟩
    · rintro ⟨j, hj, hc⟩
      rw [slot_set (slot_lt hi)] at hj
      split at hj
      · exact hj
      · rename_i hne; exact absurd (ho j i c a hj hi hc hk) hne
    · intro hc
      obtain rfl : b = c := by simpa using hc
      exact ⟨i, by simp [slot_set (slot_lt hi)], hb.trans hk⟩
  · rename_i hk
    rw [lookup_some ho]
    refine exists_congr fun j => and_congr_left fun hc => ?_
    rw [slot_set (slot_lt hi)]
    split
    · subst j
      refine ⟨?_, ?_⟩
      · intro h; cases h; exact absurd (hb.symm.trans hc) hk
      · intro h; rw [hi] at h; cases h; exact absurd hc hk
    · rfl

/-- A free slot, filled with an entry whose key is new. -/
lemma only_insert (hlt : i < l.length) (hnew : key a = k → lookup key l k = none)
    (ho : Only key l k) :
    Only key (l.set i (some a)) k := by
  intro m n b c hm hn hb hc
  rw [slot_set hlt] at hm hn
  split at hm <;> split at hn
  · omega
  · obtain rfl : a = b := by simpa using hm
    exact absurd hc (lookup_none.mp (hnew hb) n c hn)
  · obtain rfl : a = c := by simpa using hn
    exact absurd hb (lookup_none.mp (hnew hc) m b hm)
  · exact ho m n b c hm hn hb hc

lemma lookup_insert (hlt : i < l.length) (hi : slot l i = none)
    (hnew : key a = k → lookup key l k = none) (ho : Only key l k) :
    lookup key (l.set i (some a)) k = if key a = k then some a else lookup key l k := by
  refine Option.ext fun c => ?_
  rw [lookup_some (only_insert hlt hnew ho)]
  split
  · rename_i hk
    refine ⟨?_, ?_⟩
    · rintro ⟨j, hj, hc⟩
      rw [slot_set hlt] at hj
      split at hj
      · exact hj
      · exact absurd hc (lookup_none.mp (hnew hk) j c hj)
    · intro hc
      obtain rfl : a = c := by simpa using hc
      exact ⟨i, by simp [slot_set hlt], hk⟩
  · rename_i hk
    rw [lookup_some ho]
    refine exists_congr fun j => and_congr_left fun hc => ?_
    rw [slot_set hlt]
    split
    · subst j
      refine ⟨?_, ?_⟩
      · intro h; cases h; exact absurd hc hk
      · intro h; rw [hi] at h; cases h
    · rfl

/-- A slot emptied. -/
lemma lookup_remove (hi : slot l i = some a) (ho : Only key l k) :
    lookup key (l.set i none) k = if key a = k then none else lookup key l k := by
  have hsub : ∀ j b, slot (l.set i none) j = some b → slot l j = some b ∧ j ≠ i := by
    intro j b hj
    rw [slot_set (slot_lt hi)] at hj
    split at hj
    · cases hj
    · exact ⟨hj, by assumption⟩
  split
  · rename_i hk
    rw [lookup_none]
    intro j b hj hb
    exact (hsub j b hj).2 (ho j i b a (hsub j b hj).1 hi hb hk)
  · rename_i hk
    refine Option.ext fun c => ?_
    rw [lookup_some (only_shrink (fun j b h => (hsub j b h).1) ho), lookup_some ho]
    refine exists_congr fun j => and_congr_left fun hc => ⟨fun h => (hsub j c h).1, fun h => ?_⟩
    rw [slot_set (slot_lt hi)]
    split
    · subst j; rw [hi] at h; cases h; exact absurd hc hk
    · exact h

/-- Entries changed one by one, each keeping its key. -/
lemma lookup_map {f : α → α} (hf : ∀ a, key (f a) = key a)
    (h : ∀ i, slot l' i = (slot l i).map f) (ho : Only key l k) :
    lookup key l' k = (lookup key l k).map f := by
  have ho' : Only key l' k := only_keep (fun i => by simp [h, hf, Function.comp_def]) ho
  refine Option.ext fun c => ?_
  rw [lookup_some ho', Option.map_eq_some_iff]
  refine ⟨?_, ?_⟩
  · rintro ⟨i, hi, hc⟩
    rw [h, Option.map_eq_some_iff] at hi
    obtain ⟨a, ha, rfl⟩ := hi
    exact ⟨a, (lookup_some ho).mpr ⟨i, ha, by rw [← hf, hc]⟩, rfl⟩
  · rintro ⟨a, ha, rfl⟩
    obtain ⟨i, hi, hk⟩ := (lookup_some ho).mp ha
    exact ⟨i, by rw [h, hi]; rfl, by rw [hf, hk]⟩

/-- Entries kept or freed one by one. -/
lemma lookup_filter {p : α → Bool} (h : ∀ i, slot l' i = (slot l i).filter p)
    (ho : Only key l k) : lookup key l' k = (lookup key l k).filter p := by
  have ho' : Only key l' k :=
    only_shrink (fun i a hi => by rw [h, Option.filter_eq_some_iff] at hi; exact hi.1) ho
  refine Option.ext fun c => ?_
  rw [lookup_some ho', Option.filter_eq_some_iff, lookup_some ho]
  simp only [h, Option.filter_eq_some_iff]
  refine ⟨?_, ?_⟩
  · rintro ⟨i, ⟨hi, hp⟩, hk⟩; exact ⟨⟨i, hi, hk⟩, hp⟩
  · rintro ⟨⟨i, hi, hk⟩, hp⟩; exact ⟨i, ⟨hi, hp⟩, hk⟩

/-- The entries with one key, among all: the one the search finds. -/
theorem live_filter_key (ho : Only key l k) :
    (live l).filter (fun a => key a = k) = (lookup key l k).toList := by
  induction l with
  | nil => rfl
  | cons o l ih =>
    have hl : Only key l k := fun i j a b hi hj ha hb =>
      Nat.succ.inj (ho (i + 1) (j + 1) a b (by simpa using hi) (by simpa using hj) ha hb)
    have ih := ih hl
    cases o with
    | none =>
      rw [live_cons_none, ih]
      congr 1
      refine Option.ext fun c => ?_
      rw [lookup_some hl, lookup_some ho]
      refine ⟨?_, ?_⟩
      · rintro ⟨i, hi, hk⟩; exact ⟨i + 1, by simpa using hi, hk⟩
      · rintro ⟨i, hi, hk⟩
        cases i with
        | zero => simp at hi
        | succ i => exact ⟨i, by simpa using hi, hk⟩
    | some a =>
      rw [live_cons_some, List.filter_cons, ih]
      by_cases hk : key a = k
      · -- the head has the key, so the rest has none
        have hnone : lookup key l k = none := lookup_none.mpr fun i b hi hb => by
          have := ho 0 (i + 1) a b (by simp) (by simpa using hi) hk hb
          omega
        have hsome : lookup key (some a :: l) k = some a :=
          (lookup_some ho).mpr ⟨0, by simp, hk⟩
        simp [hk, hnone, hsome]
      · have : lookup key (some a :: l) k = lookup key l k := by
          refine Option.ext fun c => ?_
          rw [lookup_some hl, lookup_some ho]
          refine ⟨?_, ?_⟩
          · rintro ⟨i, hi, hc⟩
            cases i with
            | zero => simp at hi; subst hi; exact absurd hc hk
            | succ i => exact ⟨i, by simpa using hi, hc⟩
          · rintro ⟨i, hi, hc⟩; exact ⟨i + 1, by simpa using hi, hc⟩
        simp [hk, this]

/-- What is emitted under one key, when every entry emits under its own. -/
theorem filter_emit {β : Type*} {emit : α → List β} {key' : β → κ}
    (he : ∀ a, ∀ b ∈ emit a, key' b = key a) (ho : Only key l k) :
    ((live l).flatMap emit).filter (fun b => key' b = k) =
      (lookup key l k).toList.flatMap emit := by
  rw [← live_filter_key ho, List.filter_flatMap]
  induction live l with
  | nil => rfl
  | cons a t ih =>
    rw [List.flatMap_cons, ih, List.filter_cons]
    by_cases hk : key a = k
    · have : (emit a).filter (fun b => key' b = k) = emit a :=
        List.filter_eq_self.mpr fun b hb => by simp [he a b hb, hk]
      simp [hk, this]
    · have : (emit a).filter (fun b => key' b = k) = [] :=
        List.filter_eq_nil_iff.mpr fun b hb => by simp [he a b hb, hk]
      simp [hk, this]

/-! ### Counting -/

lemma live_resize {l : List (Option α)} {n : ℕ}
    (h : ∀ i a, slot l i = some a → i < n) : live (resize l n) = live l := by
  have hnone : live (List.replicate (n - l.length) (none : Option α)) = [] :=
    live_eq_nil fun i => by
      have hs := slot_append_none ([] : List (Option α)) (n - l.length) i
      rw [List.nil_append, slot_nil] at hs
      exact hs
  have happ : live (l.take n ++ List.replicate (n - l.length) none) =
      live (l.take n) ++ live (List.replicate (n - l.length) none) := by
    unfold live
    exact List.reduceOption_append _ _
  rw [resize, happ, hnone, List.append_nil, live_take h]

lemma countP_live (p : α → Bool) (l : List (Option α)) :
    (live l).countP p = l.countP fun o => o.any p := by
  induction l with
  | nil => rfl
  | cons o l ih => cases o <;> simp [List.countP_cons, ih]

/-- What a change of one slot does to the number of entries with a property. -/
lemma countP_live_set (p : α → Bool) {l : List (Option α)} {i : ℕ}
    (hi : i < l.length) (o : Option α) :
    (live (l.set i o)).countP p + (if (slot l i).any p then 1 else 0) =
      (live l).countP p + if o.any p then 1 else 0 := by
  rw [countP_live, countP_live, List.countP_set hi, slot_eq_getElem hi]
  have hpos : (if (l[i].any p) then 1 else 0) ≤ l.countP fun o => o.any p := by
    split
    · rename_i hany
      exact List.countP_pos_iff.mpr ⟨l[i], List.getElem_mem hi, hany⟩
    · exact Nat.zero_le _
  omega

end Agentsmith.Lib.Slots
