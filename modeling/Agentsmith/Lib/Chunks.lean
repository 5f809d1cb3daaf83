import Agentsmith.Lib.Slots

/-!
A table in an array of its own that grows by chunks.

Next to the slots there are two numbers: the size, which is how many slots are allocated,
and the fill value, behind which no slot is in use. A new entry takes the first free slot,
and where there is none the array grows by one chunk.
-/

namespace Agentsmith.Lib.Chunks

open Agentsmith.Lib.Slots

variable {α : Type*}

structure Table (α : Type*) where
  vec : List (Option α)
  size : ℕ
  fill : ℕ
  deriving DecidableEq

/-- A new array of `n` free slots. -/
def init (n : ℕ) : Table α := ⟨List.replicate n none, n, 0⟩

/-- A longer array, and the position of its first new slot. -/
def grow (chunk : ℕ) (v : Table α) : Table α × ℕ :=
  (⟨resize v.vec (v.size + chunk), v.size + chunk, v.fill⟩, v.size)

/-- The position of a free slot, and whether there is no space: `0` or `1`. -/
def freeSlot (v : Table α) : ℕ × ℤ :=
  match findFree (v.vec.take v.size) with
  | some i => (i, 0)
  | none => (0, 1)

/-- The slot for a new entry, in a longer array when none is free. -/
def newSlot (chunk : ℕ) (v : Table α) : Table α × ℕ :=
  let p := freeSlot v
  if p.1 = 0 ∧ p.2 ≠ 0 then grow chunk v else (v, p.1)

/-- A new entry put into its slot, with the fill value updated; without memory for it the
slot is left `NULL`. -/
def place (mem : Bool) (a : α) (p : Table α × ℕ) : Table α :=
  if mem then
    ⟨p.1.vec.set p.2 (some a), p.1.size, if p.2 + 1 > p.1.fill then p.2 + 1 else p.1.fill⟩
  else ⟨p.1.vec.set p.2 none, p.1.size, p.1.fill⟩

/-- **The representation invariant**. -/
structure Shape (chunk : ℕ) (v : Table α) : Prop where
  len : v.vec.length = v.size
  dvd : chunk ∣ v.size
  pos : 0 < v.size
  fill : v.fill ≤ v.size
  live : ∀ i a, slot v.vec i = some a → i < v.fill

variable {chunk : ℕ} {v : Table α}

lemma slot_init (n i : ℕ) : slot (init n : Table α).vec i = none := by
  show slot ([] ++ List.replicate n none) i = none
  rw [slot_append_none, slot_nil]

lemma shape_init {n : ℕ} (hdvd : chunk ∣ n) (hpos : 0 < n) : Shape chunk (init n : Table α) where
  len := by simp [init]
  dvd := hdvd
  pos := hpos
  fill := Nat.zero_le n
  live := by
    intro i a h
    rw [slot_init] at h
    cases h

lemma Shape.chunk_pos (h : Shape chunk v) : 0 < chunk := Nat.pos_of_dvd_of_pos h.dvd h.pos

/-- Under the fill value and under the size stands the whole array. -/
lemma Shape.slot_fill (h : Shape chunk v) (i : ℕ) :
    slot (v.vec.take v.fill) i = slot v.vec i := by
  rw [slot_take]
  split
  · rfl
  · cases hs : slot v.vec i with
    | none => rfl
    | some a => have := h.live i a hs; omega

lemma Shape.take_size (h : Shape chunk v) : v.vec.take v.size = v.vec := by
  rw [← h.len, List.take_length]

lemma Shape.drop_size (h : Shape chunk v) : v.vec.drop v.size = [] := by
  rw [← h.len, List.drop_length]

/-- An entry in place overwritten by another one, or freed. -/
lemma Shape.overwrite (h : Shape chunk v) {i : ℕ} {a : α} (hi : slot v.vec i = some a)
    (o : Option α) : Shape chunk { v with vec := v.vec.set i o } where
  len := by simpa using h.len
  dvd := h.dvd
  pos := h.pos
  fill := h.fill
  live := by
    intro j q hj
    simp only [slot_set (slot_lt hi)] at hj
    split at hj
    · rename_i hji; rw [hji]; exact h.live i a hi
    · exact h.live j q hj

/-- What the search for a slot returns: a free one, and a longer array only when every slot
is in use. -/
lemma newSlot_spec (h : Shape chunk v) :
    Shape chunk (newSlot chunk v).1 ∧ (newSlot chunk v).2 < (newSlot chunk v).1.size ∧
      slot (newSlot chunk v).1.vec (newSlot chunk v).2 = none ∧
      (∀ i, slot (newSlot chunk v).1.vec i = slot v.vec i) ∧
      (newSlot chunk v).1.fill = v.fill ∧
      ((newSlot chunk v).1 = v ∨
        (newSlot chunk v).1.size = v.size + chunk ∧ ∀ i < v.size, (slot v.vec i).isSome) := by
  have hc := h.chunk_pos
  unfold newSlot freeSlot
  rw [h.take_size]
  rcases hf : findFree v.vec with _ | p
  · -- every slot is in use
    have hall := findFree_none.mp hf
    rw [h.len] at hall
    have hgrow : ∀ i, slot (resize v.vec (v.size + chunk)) i = slot v.vec i := by
      intro i
      rw [slot_resize]
      split
      · rfl
      · rw [slot_of_length_le (by have := h.len; omega)]
    rw [if_pos ⟨rfl, by decide⟩]
    refine ⟨⟨by simp [grow], Nat.dvd_add h.dvd (Nat.dvd_refl _), by
      simp only [grow]; omega, ?_, ?_⟩, ?_, ?_, hgrow, rfl, Or.inr ⟨rfl, hall⟩⟩
    · have := h.fill; simp only [grow]; omega
    · intro i r hi; exact h.live i r (by rw [← hgrow]; exact hi)
    · simp only [grow]; omega
    · show slot (resize v.vec (v.size + chunk)) v.size = none
      rw [hgrow, slot_of_length_le (by have := h.len; omega)]
  · obtain ⟨hp, hn⟩ := findFree_some hf
    rw [if_neg (by simp)]
    exact ⟨h, by rw [← h.len]; exact hp, hn, fun i => rfl, rfl, Or.inl rfl⟩

/-- The search for a free slot comes to one, or passes all of them. -/
lemma newSlot_free (hlen : v.vec.length = v.size) {i : ℕ} (hi : i < v.size)
    (hs : slot v.vec i = none) (hbefore : ∀ j < i, (slot v.vec j).isSome) :
    newSlot chunk v = (v, i) := by
  unfold newSlot freeSlot
  rw [← hlen, List.take_length, findFree_first (by omega) hs hbefore]
  exact if_neg fun h => absurd rfl h.2

lemma newSlot_grow (hlen : v.vec.length = v.size) (hall : ∀ j < v.size, (slot v.vec j).isSome) :
    newSlot chunk v = grow chunk v := by
  unfold newSlot freeSlot
  rw [← hlen, List.take_length, findFree_none.mpr (by rwa [hlen])]
  exact if_pos ⟨rfl, by decide⟩

lemma newSlot_lt (h : Shape chunk v) : (newSlot chunk v).2 < (newSlot chunk v).1.vec.length := by
  obtain ⟨hs, hlt, -⟩ := newSlot_spec h
  rw [hs.len]; exact hlt

lemma place_shape (h : Shape chunk v) (mem : Bool) (a : α) :
    Shape chunk (place mem a (newSlot chunk v)) := by
  obtain ⟨hs, hlt, hnone, -⟩ := newSlot_spec h
  have hlen := newSlot_lt h
  cases mem with
  | false =>
    refine ⟨by simpa [place] using hs.len, hs.dvd, hs.pos, hs.fill, fun i q hi => ?_⟩
    simp only [place, Bool.false_eq_true, if_false, slot_set hlen] at hi
    split at hi
    · cases hi
    · exact hs.live i q hi
  | true =>
    refine ⟨by simpa [place] using hs.len, hs.dvd, hs.pos, ?_, fun i q hi => ?_⟩
    · have := hs.fill
      simp only [place, if_true]
      split <;> omega
    · simp only [place, if_true, slot_set hlen] at hi ⊢
      split at hi
      · split <;> omega
      · have := hs.live i q hi
        split <;> omega

/-- The slots after a new entry has got one that was free. -/
lemma place_slot (h : Shape chunk v) (mem : Bool) (a : α) :
    ∃ i, slot v.vec i = none ∧ ∀ j, slot (place mem a (newSlot chunk v)).vec j =
      if j = i ∧ mem then some a else slot v.vec j := by
  obtain ⟨-, -, hnone, hsame, -⟩ := newSlot_spec h
  refine ⟨(newSlot chunk v).2, by rw [← hsame, hnone], fun j => ?_⟩
  cases mem with
  | false =>
    simp only [place, Bool.false_eq_true, if_false, and_false, slot_set (newSlot_lt h)]
    split
    · rename_i hj; rw [hj, ← hsame, hnone]
    · exact hsame j
  | true => simp only [place, if_true, and_true, slot_set (newSlot_lt h), hsame]

lemma place_size (mem : Bool) (a : α) (p : Table α × ℕ) : (place mem a p).size = p.1.size := by
  unfold place; split <;> rfl

/-- The array grows only when every slot is in use. -/
lemma newSlot_grows (h : Shape chunk v) (hlt : v.size < (newSlot chunk v).1.size) :
    ∀ i < v.size, (slot v.vec i).isSome := by
  obtain ⟨-, -, -, -, -, hsame | ⟨-, hall⟩⟩ := newSlot_spec h
  · rw [hsame] at hlt; omega
  · exact hall

end Agentsmith.Lib.Chunks
