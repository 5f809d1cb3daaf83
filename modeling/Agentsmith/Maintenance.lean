import Mathlib.Order.Bounds.Basic
import Agentsmith.RecordsMap

/-!
What a maintenance run leaves of the vector.

It frees the flagged records, and then cuts the vector behind the last one that is left. When
the last slot is in use it returns before it writes the size and the fill value, which are
right then because the vector was in shape.
-/

namespace Agentsmith.Maintenance

open Agentsmith.Lib.Slots Agentsmith.Globals Agentsmith.Records Agentsmith.RecordsMap

variable {σ τ : Type*} {v : Store}

/-- The fill value and the size are as small as the records allow: one more than the last slot in
use, and the least positive number of chunks from there on. -/
structure Tight (v : Store) : Prop where
  fill : IsLeast {n | ∀ i r, slot v.vec i = some r → i < n} v.fill
  size : IsLeast {n | 0 < n ∧ chunksize ∣ n ∧ v.fill ≤ n} v.size

lemma isLeast_lastUsed (l : List (Option HostRecord)) :
    IsLeast {n | ∀ i r, slot l i = some r → i < n} (lastUsed l) :=
  ⟨fun _ _ hi => lt_lastUsed hi, fun _ hn => lastUsed_min hn⟩

lemma isLeast_shrunkSize (n : ℕ) :
    IsLeast {m | 0 < m ∧ chunksize ∣ m ∧ n ≤ m} (shrunkSize n) := by
  obtain ⟨hle, hdvd, hpos⟩ := shrunkSize_spec n
  exact ⟨⟨hpos, hdvd, hle⟩, fun m hm => shrunkSize_le hm.2.2 hm.2.1 hm.1⟩

/-- The values of a tight vector are those that the scan and the rounding give. -/
lemma Tight.values (h : Tight v) : lastUsed v.vec = v.fill ∧ shrunkSize v.fill = v.size :=
  ⟨(isLeast_lastUsed v.vec).unique h.fill, (isLeast_shrunkSize v.fill).unique h.size⟩

/-- **Maintenance tightens**, on both of its paths. -/
theorem maintenance_tight (h : Shape v) (cb : Option (σ → HostRecord → σ)) (e : σ) :
    Tight (recordsMaintenance cb e v).2.1 := by
  have hlast := isLeast_lastUsed (swept cb e v).2
  rw [maintenance_eq h]
  split
  · rename_i hall
    -- everything is in use: the fill value is the size already
    have hfill : v.fill = v.size := by
      refine Nat.le_antisymm h.fill ?_
      rw [← hall]
      refine lastUsed_min fun i r hi => ?_
      rw [swept_slot, Option.filter_eq_some_iff] at hi
      exact h.live i r hi.1
    refine ⟨?_, ⟨h.pos, h.dvd, h.fill⟩, fun m hm => ?_⟩
    · show IsLeast _ v.fill
      rw [hfill, ← hall]
      exact hlast
    · show v.size ≤ m
      rw [← hfill]
      exact hm.2.2
  · refine ⟨?_, isLeast_shrunkSize _⟩
    have hslot : ∀ i, slot (resize (swept cb e v).2 (shrunkSize (lastUsed (swept cb e v).2))) i =
        slot (swept cb e v).2 i := by
      intro i
      rw [slot_resize]
      split
      · rfl
      · rename_i hge
        rcases hi : slot (swept cb e v).2 i with _ | r
        · rfl
        · have hlt := lt_lastUsed hi
          have hle := (shrunkSize_spec (lastUsed (swept cb e v).2)).1
          omega
    simp only [hslot]
    exact hlast

/-- **Nothing to do**: a run over a tight vector without flagged records. -/
theorem maintenance_idle (h : Shape v) (ht : Tight v)
    (hclean : ∀ i r, slot v.vec i = some r → r.remove = 0) (cb : Option (σ → HostRecord → σ))
    (e : σ) : recordsMaintenance cb e v = (e, v, retvalOk) := by
  have hswept : swept cb e v = (e, v.vec) :=
    sweep_none _ _ fun i r hi => by simp [hclean i r hi]
  obtain ⟨hlast, hsize⟩ := ht.values
  rw [maintenance_eq h, hswept]
  dsimp only
  split
  · rfl
  · rw [hlast, hsize, resize, ← h.len, List.take_length, Nat.sub_self, List.replicate_zero,
      List.append_nil, h.len]

/-- **Maintenance is exact**: the callback gets the flagged records, once each and in slot order,
these are freed and the others stay as they are in their slots, the values are as small as the
records allow, and another run changes nothing. -/
theorem maintenance_exact (h : Shape v) (cb : Option (σ → HostRecord → σ)) (e : σ) :
    let m := recordsMaintenance cb e v
    m.1 = ((live v.vec).filter fun r => r.remove ≠ 0).foldl (cb.getD fun e _ => e) e ∧
      (∀ i, slot m.2.1.vec i = (slot v.vec i).filter fun r => r.remove = 0) ∧
      m.2.1.vec.length = m.2.1.size ∧ Tight m.2.1 ∧ m.2.2 = retvalOk ∧
      ∀ (cb' : Option (τ → HostRecord → τ)) (e' : τ),
        recordsMaintenance cb' e' m.2.1 = (e', m.2.1, retvalOk) := by
  intro m
  have hslot : ∀ i, slot m.2.1.vec i = (slot v.vec i).filter fun r => r.remove = 0 := by
    intro i
    rw [maintenance_slot h]
    congr 1
    funext r
    simp
  have hshape : Shape m.2.1 := maintenance_shape h cb e
  have hclean : ∀ i r, slot m.2.1.vec i = some r → r.remove = 0 := by
    intro i r hi
    rw [hslot, Option.filter_eq_some_iff] at hi
    exact of_decide_eq_true hi.2
  have hok : m.2.2 = retvalOk := by
    show (recordsMaintenance cb e v).2.2 = _
    rw [maintenance_eq h]
    split <;> rfl
  have htight := maintenance_tight h cb e
  exact ⟨maintenance_env h cb e, hslot, hshape.len, htight, hok,
    fun cb' e' => maintenance_idle hshape htight hclean cb' e'⟩

/-- A record, and behind it one that is flagged. -/
def flaggedRecord : HostRecord :=
  { fresh ⟨3, 60, 3600⟩ 6 (Lib.CStrings.ascii "192.0.2.8") with remove := 1 }

def twoRecords : Store :=
  (recordsAddRecord 6 true flaggedRecord
    (recordsAddIp ⟨3, 60, 3600⟩ 5 true (Lib.CStrings.ascii "192.0.2.7") recordsInit).1).1

/-- The second record is freed, and a second run has nothing to do. -/
theorem maintenance_exact_run :
    let cb : Option (List HostRecord → HostRecord → List HostRecord) := some fun log r => log ++ [r]
    let m := recordsMaintenance cb [] twoRecords
    m.1 = [flaggedRecord] ∧ Tight m.2.1 ∧
      recordsMaintenance cb [] m.2.1 = ([], m.2.1, retvalOk) := by
  intro cb m
  have hshape : Shape twoRecords :=
    (shape_init.addIp ⟨3, 60, 3600⟩ 5 true _).addRecord 6 true flaggedRecord
  obtain ⟨hcalls, -, -, htight, -, hagain⟩ := maintenance_exact hshape cb []
  refine ⟨hcalls.trans ?_, htight, hagain cb []⟩
  have hflagged : ((live twoRecords.vec).filter fun r => r.remove ≠ 0) = [flaggedRecord] := by
    decide +kernel
  rw [hflagged]
  rfl

end Agentsmith.Maintenance
