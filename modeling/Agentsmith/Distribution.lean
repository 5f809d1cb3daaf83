import Agentsmith.Client
import Agentsmith.Records

/-!
What becomes of the records that are to be distributed: each queue gets all of them, once and
in order.

Between two calls the part of the vector that is filled has still to be appended to every
queue. Inside a flush this is so for the queues the loop has not come to yet; the others have
got the records already, although they stand in the vector until the loop is over.
-/

namespace Agentsmith.Distribution

open Agentsmith.Lib.CStrings Agentsmith.Lib.Runs Agentsmith.Globals Agentsmith.Records
open Agentsmith.Client

variable {c : St} {m : Move}

/-- The loop of a flush has served queue `i`. -/
def Served (pc : Pc) (i : ℕ) : Prop :=
  match pc with
  | .flushing j _ => i < j
  | _ => False

instance (pc : Pc) (i : ℕ) : Decidable (Served pc i) :=
  match pc with
  | .flushing j _ => inferInstanceAs (Decidable (i < j))
  | .idle | .aborted => isFalse id

/-- What queue `i` has still to get from the vector. -/
def outstanding (c : St) (i : ℕ) : List HostRecord := if Served c.pc i then [] else staged c

/-- The vector is filled up to `fill` and nowhere else, and each queue has got the accepted
records but for the outstanding ones. -/
structure Conserves (agents : ℕ) (c : St) : Prop where
  started : c.started = true
  count : c.queues.length = min maxClientQueues agents
  fill : c.fill ≤ hostrecordVectorLen
  used : ∀ k < c.fill, c.vector k ≠ none
  unused : ∀ k ≥ c.fill, c.vector k = none
  flushing : ∀ i back, c.pc = .flushing i back → 0 < c.fill
  queue : ∀ i q, c.queues[i]? = some q →
    q.taken.flatten ++ q.head ++ outstanding c i = c.accepted

lemma conserves_start (agents : ℕ) : Conserves agents (clientStart agents) where
  started := rfl
  count := List.length_replicate
  fill := Nat.zero_le _
  used := fun k hk => absurd hk (Nat.not_lt_zero k)
  unused := fun k _ => rfl
  flushing := fun i back h => by cases h
  queue := by
    intro i q hq
    obtain rfl := List.eq_of_mem_replicate (List.mem_of_getElem? hq)
    simp [outstanding, staged, clientStart, Served]

/-! ### The steps -/

lemma outstanding_of_not_served {i : ℕ} (h : ¬ Served c.pc i) : outstanding c i = staged c :=
  if_neg h

lemma outstanding_of_served {i : ℕ} (h : Served c.pc i) : outstanding c i = [] := if_pos h

/-- A record more in the vector. -/
lemma staged_store (c : St) (hr : HostRecord) :
    (List.range (c.fill + 1)).filterMap (Function.update c.vector c.fill (some hr)) =
      staged c ++ [hr] := by
  have hold : (List.range c.fill).filterMap (Function.update c.vector c.fill (some hr)) =
      staged c := by
    refine List.filterMap_congr fun k hk => ?_
    rw [Function.update_of_ne (Nat.ne_of_lt (List.mem_range.mp hk))]
  rw [List.range_succ, List.filterMap_append, hold]
  simp

variable {agents : ℕ}

lemma Conserves.take (h : Conserves agents c) (i : ℕ) :
    Conserves agents { c with queues := c.queues.modify i clientQueueTake } where
  started := h.started
  count := by rw [List.length_modify, h.count]
  fill := h.fill
  used := h.used
  unused := h.unused
  flushing := h.flushing
  queue := by
    intro j q hq
    rw [List.getElem?_modify, Option.map_eq_map, Option.map_eq_some_iff] at hq
    obtain ⟨p, hp, rfl⟩ := hq
    have hold := h.queue j p hp
    have hsame : outstanding { c with queues := c.queues.modify i clientQueueTake } j =
        outstanding c j := rfl
    rw [hsame]
    split
    · rw [taken_append_head, hold]
    · exact hold

/-- The literal equation, for a queue that is not served. -/
lemma Conserves.literal (h : Conserves agents c) {i : ℕ} (hpc : ¬ Served c.pc i) {q : Queue}
    (hq : c.queues[i]? = some q) : q.taken.flatten ++ q.head ++ staged c = c.accepted := by
  have hold := h.queue i q hq
  rwa [outstanding_of_not_served hpc] at hold

lemma not_served_idle (hpc : c.pc = .idle) (i : ℕ) : ¬ Served c.pc i := by
  rw [hpc]
  exact id

lemma Conserves.flush (h : Conserves agents c) (hpc : c.pc = .idle) (back : Option HostRecord) :
    Conserves agents (clientQueueFlush back c) := by
  have hs : ¬ (!c.started) = true := by rw [h.started]; decide
  unfold clientQueueFlush
  rw [if_neg hs]
  split
  · exact h
  · rename_i hfill
    refine ⟨h.started, h.count, h.fill, h.used, h.unused, fun i back' _ => ?_, fun i q hq => ?_⟩
    · exact Nat.pos_of_ne_zero fun h0 => hfill (Nat.lt_one_iff.mpr h0)
    · have hout : outstanding { c with pc := .flushing 0 back } i = staged c :=
        if_neg (Nat.not_lt_zero i)
      rw [hout]
      exact h.literal (not_served_idle hpc i) hq

/-- A record is put into the vector. -/
lemma Conserves.store (h : Conserves agents c) (hpc : c.pc = .idle)
    (hfill : c.fill < hostrecordVectorLen) (hr : HostRecord) :
    Conserves agents { c with
      vector := Function.update c.vector c.fill (some hr)
      fill := c.fill + 1
      accepted := c.accepted ++ [hr] } where
  started := h.started
  count := h.count
  fill := hfill
  used := by
    intro k hk
    by_cases hkf : k = c.fill
    · simp [hkf]
    · have hlt : k < c.fill := Nat.lt_of_le_of_ne (Nat.lt_succ_iff.mp hk) hkf
      simpa [hkf] using h.used k hlt
  unused := by
    intro k hk
    have hkf : c.fill < k := hk
    simpa [Nat.ne_of_gt hkf] using h.unused k (Nat.le_of_lt hkf)
  flushing := fun _ _ _ => Nat.succ_pos _
  queue := by
    intro i q hq
    have hnot : ¬ Served ({ c with
      vector := Function.update c.vector c.fill (some hr)
      fill := c.fill + 1
      accepted := c.accepted ++ [hr] } : St).pc i := not_served_idle hpc i
    rw [outstanding_of_not_served hnot]
    have hold := h.literal (not_served_idle hpc i) hq
    calc q.taken.flatten ++ q.head ++
          (List.range (c.fill + 1)).filterMap (Function.update c.vector c.fill (some hr))
        = q.taken.flatten ++ q.head ++ staged c ++ [hr] := by
          rw [staged_store, List.append_assoc _ (staged c)]
      _ = c.accepted ++ [hr] := by rw [hold]

lemma Conserves.record (h : Conserves agents c) (hpc : c.pc = .idle) (hr : HostRecord) :
    Conserves agents (clientQueueRecord hr c) := by
  have hs : ¬ (!c.started) = true := by rw [h.started]; decide
  unfold clientQueueRecord
  rw [if_neg hs]
  split
  · -- the assertion fails
    refine ⟨h.started, h.count, h.fill, h.used, h.unused, fun i back hp => (by cases hp),
      fun i q hq => ?_⟩
    have hout : outstanding { c with pc := .aborted } i = staged c := if_neg id
    rw [hout]
    exact h.literal (not_served_idle hpc i) hq
  · split
    · exact h.flush hpc _
    · rename_i hfill
      exact h.store hpc (Nat.lt_of_not_le hfill) hr

/-- The loop of the flush appends the vector to queue `i`. -/
lemma Conserves.append (h : Conserves agents c) {i : ℕ} {back : Option HostRecord}
    (hpc : c.pc = .flushing i back) :
    Conserves agents { c with
      queues := c.queues.modify i fun q =>
        { q with head := clientQueueAppend c.vector c.fill q.head }
      pc := .flushing (i + 1) back } where
  started := h.started
  count := by rw [List.length_modify, h.count]
  fill := h.fill
  used := h.used
  unused := h.unused
  flushing := fun j back' _ => h.flushing i back hpc
  queue := by
    intro j q hq
    rw [List.getElem?_modify, Option.map_eq_map, Option.map_eq_some_iff] at hq
    obtain ⟨p, hp, rfl⟩ := hq
    have hold := h.queue j p hp
    unfold outstanding at hold ⊢
    rw [hpc] at hold
    by_cases hij : i = j
    · -- the queue that is served now
      subst hij
      rw [if_neg (show ¬ Served (.flushing i back) i from Nat.lt_irrefl i)] at hold
      rw [if_pos rfl, if_pos (show Served (.flushing (i + 1) back) i from Nat.lt_succ_self i)]
      dsimp only
      rw [clientQueueAppend_eq _ (h.flushing i back hpc), List.append_nil, ← hold,
        List.append_assoc]
      rfl
    · have hserved : Served (.flushing (i + 1) back) j ↔ Served (.flushing i back) j := by
        show j < i + 1 ↔ j < i
        omega
      rw [if_neg hij, ← hold]
      dsimp only
      rw [if_congr hserved rfl rfl]
      rfl

/-- After the loop every queue is served, and the vector can be emptied. -/
lemma Conserves.flushed (h : Conserves agents c) {i : ℕ} {back : Option HostRecord}
    (hpc : c.pc = .flushing i back) (hi : ¬ (i < maxClientQueues ∧ i < c.queues.length)) :
    Conserves agents (clientQueueFlushed back c) := by
  have hempty : Conserves agents { c with
      vector := fun k => if k < hostrecordVectorLen then none else c.vector k
      fill := 0
      pc := .idle } := by
    refine ⟨h.started, h.count, Nat.zero_le _, fun k hk => absurd hk (Nat.not_lt_zero k),
      fun k hk => ?_, fun j back' hp => (by cases hp), fun j q hq => ?_⟩
    · dsimp only
      split
      · rfl
      · exact h.unused k (by have := h.fill; omega)
    · have hold := h.queue j q hq
      have hj : j < c.queues.length := (List.getElem?_eq_some_iff.mp hq).1
      have hserved : Served c.pc j := by
        rw [hpc]
        have hcount := h.count
        show j < i
        omega
      rw [outstanding_of_served hserved] at hold
      have hout : outstanding { c with
          vector := fun k => if k < hostrecordVectorLen then none else c.vector k
          fill := 0
          pc := .idle } j = [] := if_neg id
      rw [hout]
      exact hold
  unfold clientQueueFlushed
  rcases back with _ | hr
  · exact hempty
  · exact hempty.record rfl hr

lemma conserves_step (h : Conserves agents c) (m : Move) : Conserves agents (clientStep c m) := by
  unfold clientStep
  rcases hpc : c.pc with _ | ⟨i, back⟩ | _ <;> cases m
  case idle.record hr => exact h.record hpc hr
  case idle.flush => exact h.flush hpc none
  case flushing.next =>
    dsimp only
    split
    · exact h.append hpc
    · rename_i hi
      exact h.flushed hpc hi
  case idle.take i | flushing.take i =>
    have htake := h.take i
    rw [hpc] at htake
    exact htake
  all_goals exact h

lemma conserves_client (agents : ℕ) (moves : List Move) :
    Conserves agents (client agents moves) :=
  run_all (conserves_start agents) (fun _ m h => conserves_step h m) moves

/-- There is no gap in the filled part. -/
lemma staged_length (h : Conserves agents c) : (staged c).length = c.fill := by
  have hall : ∀ l : List ℕ, (∀ k ∈ l, k < c.fill) → (l.filterMap c.vector).length = l.length := by
    intro l hl
    induction l with
    | nil => rfl
    | cons k l ih =>
      obtain ⟨r, hr⟩ := Option.ne_none_iff_exists'.mp (h.used k (hl k List.mem_cons_self))
      rw [List.filterMap_cons_some hr, List.length_cons, List.length_cons,
        ih fun j hj => hl j (List.mem_cons_of_mem _ hj)]
  rw [staged, hall _ fun k hk => List.mem_range.mp hk, List.length_range]

/-! ### Every queue gets every record -/

/-- **Distribution**: whatever the calls and however the workers come in between, the batches a
worker has taken, its list, and what the vector still holds for its queue are the accepted
records. What the vector holds is outstanding for every queue, unless the loop of a flush has
served the queue already. -/
theorem distribution_conserves (agents : ℕ) (moves : List Move) :
    (client agents moves).queues.length = min 256 agents ∧
      (client agents moves).fill ≤ hostrecordVectorLen ∧
      (∀ k ≥ hostrecordVectorLen, (client agents moves).vector k = none) ∧
      (staged (client agents moves)).length = (client agents moves).fill ∧
      ∀ i q, (client agents moves).queues[i]? = some q →
        ((∀ j back, (client agents moves).pc = .flushing j back → j ≤ i) →
          q.taken.flatten ++ q.head ++ staged (client agents moves) =
            (client agents moves).accepted) ∧
        ∀ j back, (client agents moves).pc = .flushing j back → i < j →
          q.taken.flatten ++ q.head = (client agents moves).accepted := by
  have h := conserves_client agents moves
  refine ⟨h.count, h.fill, fun k hk => h.unused k (Nat.le_trans h.fill hk), staged_length h,
    fun i q hq => ⟨fun hpc => ?_, fun j back hpc hij => ?_⟩⟩
  · refine h.literal (fun hserved => ?_) hq
    rcases hp : (client agents moves).pc with _ | ⟨j, back⟩ | _
    all_goals rw [hp] at hserved
    · exact hserved
    · exact absurd (hpc j back hp) (Nat.not_le_of_lt hserved)
    · exact hserved
  · have hold := h.queue i q hq
    rwa [outstanding_of_served (by rw [hpc]; exact hij), List.append_nil] at hold

/-- Inside a flush the batch is in a queue and in the vector. -/
theorem distribution_inside_flush :
    ¬ ∀ (agents : ℕ) (moves : List Move) (i : ℕ) (q : Queue),
      (client agents moves).queues[i]? = some q →
        q.taken.flatten ++ q.head ++ staged (client agents moves) =
          (client agents moves).accepted := by
  intro h
  have hrun := h 1 [.record (fresh initConfig.toConfig 0 (ascii "1.2.3.4")), .flush, .next] 0
    ⟨[fresh initConfig.toConfig 0 (ascii "1.2.3.4")], []⟩ (by decide)
  exact absurd hrun (by decide)

end Agentsmith.Distribution
