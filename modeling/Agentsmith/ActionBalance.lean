import Agentsmith.ActionCalls
import Agentsmith.ThreadsStop

/-!
What is left behind when the process ends.

`records_destroy` takes back the action of every record that has had one. Over the accesses of all
threads, the calls for an address and its record in the vector balance. Only a thread that is
stopped within `_do_action` leaves one call behind that the vector does not know of.
-/

namespace Agentsmith.ActionBalance

open Agentsmith.Lib.CStrings Agentsmith.Lib.Slots Agentsmith.Lib.Runs
open Agentsmith.Globals Agentsmith.RecordsMap Agentsmith.PerAddress Agentsmith.ActionCalls
open Agentsmith.RecordsLoops Agentsmith.ThreadsStop
open Agentsmith.Records hiding step
open Agentsmith.Daemon hiding St

variable {cfg : Config} {server : Bool} {s : St} {v v' : Vector} {w : Store}
  {log : List Call} {x : CStr} {i : Thread} {ev : Event} {p q : Place (List Call)}

/-! ### One access -/

/-- The action of the record has been called and not been taken back. -/
def standing (x : CStr) (r : HostRecord) : Bool := r.addr = x ∧ r.processed ≠ 0

def calls (t : AcType) (x : CStr) (log : List Call) : ℕ := (callsFor x log).count t

lemma calls_append (t : AcType) (x : CStr) (log more : List Call) :
    calls t x (log ++ more) = calls t x log + calls t x more := by
  simp [calls, callsFor]

/-- The calls for an address and its record balance. -/
def Balanced (x : CStr) (s : Daemon.St) : Prop :=
  calls .new x s.1 = calls .remove x s.1 + (live s.2.vec).countP (standing x)

structure Accounts (s : Daemon.St) : Prop where
  len : s.2.vec.length = s.2.size
  balanced : ∀ x, Balanced x s

/-- A record that is added has had no action, and one that is written over keeps what it had. -/
structure Unacted (a : Adding) : Prop where
  new : a.new.processed = 0
  stamped : ∀ r, r.addr = a.key → (a.stamped r).addr = r.addr ∧
    (a.stamped r).processed = r.processed

/-- What a thread knows of the vector at its place. -/
def Known (p : Place (List Call)) (v : Store) : Prop :=
  match p with
  | .find a _ | .findFree a _ | .grow a => Unacted a
  | .stamp a i => Unacted a ∧ ∃ r, slot v.vec i = some r ∧ r.addr = a.key
  | .count i => ∃ r, slot v.vec i = some r
  | .alloc a pos => Unacted a ∧ pos < v.vec.length ∧ slot v.vec pos = none
  | .fill _ => True
  | .sweep cb _ => cb = some (threadsRecordsCallbackActionRemoval logCall)
  | .lastUsed i last => ∀ j, last ≤ j → j < i → slot v.vec j = none
  | .shrink last => ∀ j, last ≤ j → slot v.vec j = none
  | .visit cb _ =>
    (∃ now, cb = recordsCallbackActionNew logCall now) ∨ cb = recordsCallbackRemoveAll
  | .findGone _ _ | .free _ => False

lemma unacted_ip (cfg : Config) (now : Int64) (mem : Bool) (x : CStr) :
    Unacted (addingIp cfg now mem x) := ⟨rfl, fun _ _ => ⟨rfl, rfl⟩⟩

lemma unacted_report (now : Int64) (mem : Bool) (host : CStr) (hr : HostRecord) :
    Unacted (addingRecord now mem (workerRecord host hr)) :=
  ⟨rfl, fun _ hr => ⟨hr.symm, rfl⟩⟩

lemma known_entry (cfg : Config) (ev : Event) (v : Store) : Known (entry cfg ev.op) v := by
  obtain ⟨now, act⟩ := ev
  cases act with
  | sighting mem x => exact unacted_ip cfg now mem x
  | report mem host hr => exact unacted_report now mem host hr
  | actionPass => exact Or.inl ⟨now, rfl⟩
  | maintenance => rfl
  | purgeAll => exact Or.inr rfl

lemma bump_standing (x : CStr) (r : HostRecord) : standing x (bump r) = standing x r := by
  unfold bump
  split <;> rfl

/-- A slot is changed, and the calls that go with it are made. -/
lemma Accounts.change (h : Accounts (log, w)) {i : ℕ} (hi : i < w.vec.length)
    {o : Option HostRecord} {more : List Call}
    (hsame : ∀ x, calls .new x more + (if (slot w.vec i).any (standing x) then 1 else 0) =
      calls .remove x more + if o.any (standing x) then 1 else 0) :
    Accounts (log ++ more, put w i o) where
  len := by simpa [put] using h.len
  balanced := by
    intro x
    have hold : calls .new x log = calls .remove x log + (live w.vec).countP (standing x) :=
      h.balanced x
    have hset := countP_live_set (standing x) hi o
    have hx := hsame x
    show calls .new x (log ++ more) = calls .remove x (log ++ more) +
      (live (w.vec.set i o)).countP (standing x)
    rw [calls_append, calls_append]
    omega

/-- A slot is changed and no call is made. -/
lemma Accounts.quiet (h : Accounts (log, w)) {i : ℕ} (hi : i < w.vec.length)
    {o : Option HostRecord}
    (hsame : ∀ x, (slot w.vec i).any (standing x) = o.any (standing x)) :
    Accounts (log, put w i o) := by
  have hnone : ∀ t x, calls t x [] = 0 := fun _ _ => rfl
  have hput : Accounts (log ++ [], put w i o) := h.change hi fun x => by
    rw [hsame x, hnone, hnone]
  rwa [List.append_nil] at hput

/-- The array gets another size, and no record is lost. -/
lemma Accounts.resize (h : Accounts (log, w)) {n fill : ℕ}
    (hn : ∀ i r, slot w.vec i = some r → i < n) : Accounts (log, ⟨resize w.vec n, n, fill⟩) where
  len := by simp
  balanced := by
    intro x
    have hold := h.balanced x
    unfold Balanced at hold ⊢
    rw [live_resize hn]
    exact hold

/-- What comes of an access. -/
def Kept (r : (Daemon.St) × Option (Place (List Call))) : Prop :=
  Accounts r.1 ∧ ∀ q, r.2 = some q → Known q r.1.2

lemma kept_last (h : Accounts (log, w)) : Kept ((log, w), none) :=
  ⟨h, fun q hq => by cases hq⟩

lemma kept_more (h : Accounts (log, w)) (hq : Known q w) : Kept ((log, w), some q) :=
  ⟨h, fun q' hq' => by cases hq'; exact hq⟩

lemma calls_single (t : AcType) (x : CStr) (c : Call) :
    calls t x [c] = if c.type = t ∧ c.addr = x then 1 else 0 := by
  unfold calls callsFor
  by_cases hx : c.addr = x
  · by_cases ht : c.type = t <;> simp [hx, ht]
  · simp [hx]

/-- A record that is swept, with what is called for it. -/
lemma removal_same (x : CStr) (r : HostRecord) :
    calls .new x (removalCalls r) + (if (some r).any (standing x) then 1 else 0) =
      calls .remove x (removalCalls r) + if (none : Option HostRecord).any (standing x) then 1
        else 0 := by
  unfold removalCalls
  by_cases hp : r.processed ≠ 0
  · rw [if_pos hp, calls_single, calls_single]
    simp [standing, hp, Call.addr]
  · rw [if_neg hp]
    simp [standing, hp, calls, callsFor]

/-- A record that is passed, with what is called for it. -/
lemma passed_same (now : Int64) (x : CStr) (r : HostRecord) :
    calls .new x (newCalls r) + (if (some r).any (standing x) then 1 else 0) =
      calls .remove x (newCalls r) + if (some (passed now r)).any (standing x) then 1 else 0 := by
  unfold newCalls passed
  by_cases hd : Due r
  · have hp : r.processed = 0 := hd.2
    have haddr : HostRecord.addr { r with processed := 1 } = r.addr := rfl
    rw [if_pos hd, if_pos hd, calls_single, calls_single]
    simp [standing, hp, Call.addr, haddr]
  · have hsame : standing x (if Stale now r then { r with remove := 1 } else r) =
        standing x r := by split <;> rfl
    rw [if_neg hd, if_neg hd, Option.any_some, Option.any_some, hsame]
    rfl

lemma find_kept {a : Adding} {i : ℕ} (h : Accounts (log, w)) (hk : Unacted a) :
    Kept (access (.find a i) (log, w)) := by
  simp only [access]
  split
  · split
    · rename_i r hs
      split
      · rename_i hx
        exact kept_more h ⟨hk, r, hs, hx⟩
      · exact kept_more h hk
    · exact kept_more h hk
  · exact kept_more h hk

lemma stamp_kept {a : Adding} {i : ℕ} {r : HostRecord} (h : Accounts (log, w)) (hk : Unacted a)
    (hs : slot w.vec i = some r) (hx : r.addr = a.key) :
    Kept (access (.stamp a i) (log, w)) := by
  obtain ⟨haddr, hproc⟩ := hk.stamped r hx
  have hlt := slot_lt hs
  simp only [access, hs, Option.map_some]
  refine kept_more (h.quiet hlt fun x => ?_) ⟨a.stamped r, by simp [put, slot_set hlt]⟩
  simp [hs, standing, haddr, hproc]

lemma count_kept {i : ℕ} {r : HostRecord} (h : Accounts (log, w))
    (hs : slot w.vec i = some r) : Kept (access (.count i) (log, w)) := by
  simp only [access, hs, Option.map_some]
  refine kept_last (h.quiet (slot_lt hs) fun x => ?_)
  rw [hs, Option.any_some, Option.any_some, bump_standing]

lemma findFree_kept {a : Adding} {i : ℕ} (h : Accounts (log, w)) (hk : Unacted a) :
    Kept (access (.findFree a i) (log, w)) := by
  have hlen : w.vec.length = w.size := h.len
  simp only [access]
  split
  · rename_i hi
    split
    · rename_i hs
      exact kept_more h ⟨hk, by omega, hs⟩
    · exact kept_more h hk
  · exact kept_more h hk

lemma grow_kept {a : Adding} (h : Accounts (log, w)) (hk : Unacted a) :
    Kept (access (.grow a) (log, w)) := by
  have hlen : w.vec.length = w.size := h.len
  have hchunk : 0 < chunksize := by decide
  refine kept_more (h.resize fun i r hs => ?_) ⟨hk, ?_, ?_⟩
  · have hlt := slot_lt hs
    omega
  · show w.size < (Lib.Slots.resize w.vec (w.size + chunksize)).length
    simp
    omega
  · show slot (Lib.Slots.resize w.vec (w.size + chunksize)) w.size = none
    rw [slot_resize, slot_of_length_le (Nat.le_of_eq hlen)]
    split <;> rfl

lemma alloc_kept {a : Adding} {pos : ℕ} (h : Accounts (log, w)) (hk : Unacted a)
    (hlt : pos < w.vec.length) (hs : slot w.vec pos = none) :
    Kept (access (.alloc a pos) (log, w)) := by
  simp only [access]
  split
  · refine kept_more (h.quiet hlt fun x => ?_) trivial
    simp [hs, standing, hk.new]
  · refine kept_last (h.quiet hlt fun x => ?_)
    rw [hs]

lemma sweep_kept {i : ℕ} (h : Accounts (log, w)) :
    Kept (access (.sweep (some (threadsRecordsCallbackActionRemoval logCall)) i) (log, w)) := by
  simp only [access, Option.getD_some]
  split
  · split
    · rename_i r hs
      split
      · rw [removal_eq]
        refine kept_more (h.change (slot_lt hs) fun x => ?_) rfl
        rw [hs]
        exact removal_same x r
      · exact kept_more h rfl
    · exact kept_more h rfl
  · exact kept_more h fun j _ hj => absurd hj (Nat.not_lt_zero j)

lemma lastUsed_kept {i last : ℕ} (h : Accounts (log, w))
    (hk : ∀ j, last ≤ j → j < i → slot w.vec j = none) :
    Kept (access (.lastUsed i last) (log, w)) := by
  have hlen : w.vec.length = w.size := h.len
  simp only [access]
  split
  · refine kept_more h fun j hlast hj => ?_
    rcases Nat.lt_succ_iff_lt_or_eq.mp hj with hlt | rfl
    · split at hlast
      · omega
      · exact hk j hlast hlt
    · split at hlast
      · omega
      · rename_i hs
        rwa [Option.isSome_iff_ne_none, not_not] at hs
  · refine kept_more h fun j hlast => ?_
    by_cases hj : j < i
    · exact hk j hlast hj
    · exact slot_of_length_le (by omega)

lemma shrink_kept {last : ℕ} (h : Accounts (log, w))
    (hk : ∀ j, last ≤ j → slot w.vec j = none) : Kept (access (.shrink last) (log, w)) := by
  simp only [access]
  split
  · exact kept_last h
  · refine kept_last (h.resize fun i r hs => ?_)
    by_contra hi
    have hle := (shrunkSize_spec last).1
    rw [hk i (by omega)] at hs
    cases hs

lemma visit_kept {cb : List Call → HostRecord → List Call × HostRecord × ℤ} {i : ℕ}
    (h : Accounts (log, w)) (hk : Known (.visit cb i) w) :
    Kept (access (.visit cb i) (log, w)) := by
  simp only [access]
  split
  · split
    · rename_i r hs
      rcases hk with ⟨now, rfl⟩ | rfl
      · rw [actionNew_eq]
        refine kept_more (h.change (slot_lt hs) fun x => ?_) (Or.inl ⟨now, rfl⟩)
        rw [hs]
        exact passed_same now x r
      · refine kept_more (h.quiet (slot_lt hs) fun x => ?_) (Or.inr rfl)
        rw [hs]
        rfl
    · exact kept_more h hk
  · exact kept_last h

/-- **What an access keeps**: the calls and the records balance, and the thread knows what it has
to know at its next place. -/
lemma access_kept (h : Accounts (log, w)) (hk : Known p w) : Kept (access p (log, w)) := by
  cases p with
  | find a i => exact find_kept h hk
  | stamp a i =>
    obtain ⟨ha, r, hs, hx⟩ := hk
    exact stamp_kept h ha hs hx
  | count i =>
    obtain ⟨r, hs⟩ := hk
    exact count_kept h hs
  | findFree a i => exact findFree_kept h hk
  | grow a => exact grow_kept h hk
  | alloc a pos => exact alloc_kept h hk.1 hk.2.1 hk.2.2
  | fill pos => exact kept_last ⟨h.len, h.balanced⟩
  | findGone x i => exact absurd hk id
  | free i => exact absurd hk id
  | sweep cb i =>
    obtain rfl : cb = some (threadsRecordsCallbackActionRemoval logCall) := hk
    exact sweep_kept h
  | lastUsed i last => exact lastUsed_kept h hk
  | shrink last => exact shrink_kept h hk
  | visit cb i => exact visit_kept h hk

/-! ### The process -/

/-- A thread has ended in the vector. -/
def Stuck (s : St) : Prop :=
  Dead s.vector .action s.action ∨ Dead s.vector .maintenance s.maintenance

instance (v : Vector) (i : Thread) (l : Loop) : Decidable (Dead v i l) :=
  inferInstanceAs (Decidable (_ ∧ _))

instance (s : St) : Decidable (Stuck s) := inferInstanceAs (Decidable (_ ∨ _))

/-- What is called at the place. -/
def callAt (p : Place (List Call)) (v : Store) : Option Call :=
  match p with
  | .visit _ i => (slot v.vec i).map (Call.mk .new)
  | .sweep _ i => (slot v.vec i).map (Call.mk .remove)
  | _ => none

/-- The call that the thread which has ended in the vector has been stopped in. -/
def cutShort (s : St) : List Call :=
  if Stuck s then (s.vector.holder.bind fun h => callAt h.2 s.vector.shared.2).toList else []

/-- The turn acts upon a cancellation in `_do_action`. -/
def Acts : Turn → Bool
  | .action _ acts | .maintenance _ acts => acts
  | _ => false

/-- Only the sweep and the enumeration have callbacks. -/
lemma access_silent (hsweep : ∀ cb i, p ≠ .sweep cb i) (hvisit : ∀ cb i, p ≠ .visit cb i) :
    (access p (log, w)).1.1 = log := by
  cases p with
  | sweep cb i => exact absurd rfl (hsweep cb i)
  | visit cb i => exact absurd rfl (hvisit cb i)
  | find a i | findGone x i =>
    simp only [access]
    split
    · split
      · split <;> rfl
      · rfl
    · rfl
  | findFree a i =>
    simp only [access]
    split
    · split <;> rfl
    · rfl
  | alloc a pos | lastUsed i last | shrink last =>
    simp only [access]
    split <;> rfl
  | stamp a i | count i | grow a | fill pos | free i => rfl

lemma sweep_log (log : List Call) (w : Store) (i : ℕ) :
    (access (.sweep (some (threadsRecordsCallbackActionRemoval logCall)) i) (log, w)).1.1 = log ∨
      ∃ r, slot w.vec i = some r ∧
        (access (.sweep (some (threadsRecordsCallbackActionRemoval logCall)) i) (log, w)).1.1 =
          log ++ removalCalls r := by
  simp only [access, Option.getD_some]
  split
  · split
    · rename_i r hs
      split
      · exact Or.inr ⟨r, hs, removal_eq log r⟩
      · exact Or.inl rfl
    · exact Or.inl rfl
  · exact Or.inl rfl

lemma visit_log (log : List Call) (w : Store) (now : Int64) (i : ℕ) :
    (access (.visit (recordsCallbackActionNew logCall now) i) (log, w)).1.1 = log ∨
      ∃ r, slot w.vec i = some r ∧
        (access (.visit (recordsCallbackActionNew logCall now) i) (log, w)).1.1 =
          log ++ newCalls r := by
  simp only [access]
  split
  · split
    · rename_i r hs
      refine Or.inr ⟨r, hs, ?_⟩
      rw [actionNew_eq]
    · exact Or.inl rfl
  · exact Or.inl rfl

lemma purge_log (log : List Call) (w : Store) (i : ℕ) :
    (access (.visit recordsCallbackRemoveAll i) (log, w)).1.1 = log := by
  simp only [access]
  split
  · split <;> rfl
  · rfl

/-- An access that calls `_do_action`, and the call. -/
lemma access_log (hk : Known p w) (hlog : (access p (log, w)).1.1 ≠ log) :
    ∃ c, callAt p w = some c ∧ (access p (log, w)).1.1 = log ++ [c] := by
  cases p with
  | sweep cb i =>
    obtain rfl : cb = some (threadsRecordsCallbackActionRemoval logCall) := hk
    obtain hsame | ⟨r, hs, hcalls⟩ := sweep_log log w i
    · exact absurd hsame hlog
    · rw [hcalls] at hlog ⊢
      unfold removalCalls at hlog ⊢
      split at hlog
      · rename_i hp
        exact ⟨⟨.remove, r⟩, by simp [callAt, hs], by rw [if_pos hp]⟩
      · exact absurd (List.append_nil log) hlog
  | visit cb i =>
    rcases hk with ⟨now, rfl⟩ | rfl
    · obtain hsame | ⟨r, hs, hcalls⟩ := visit_log log w now i
      · exact absurd hsame hlog
      · rw [hcalls] at hlog ⊢
        unfold newCalls at hlog ⊢
        split at hlog
        · rename_i hd
          exact ⟨⟨.new, r⟩, by simp [callAt, hs], by rw [if_pos hd]⟩
        · exact absurd (List.append_nil log) hlog
    · exact absurd (purge_log log w i) hlog
  | find | stamp | count | findFree | grow | alloc | fill | findGone | free | lastUsed | shrink =>
    exact absurd (access_silent (fun _ _ h => by cases h) fun _ _ h => by cases h) hlog

/-- The calls of an address balance up to the one that has been cut short. -/
structure Ledger (s : St) : Prop where
  len : s.vector.shared.2.vec.length = s.vector.shared.2.size
  known : ∀ i p, s.vector.holder = some (i, p) → Known p s.vector.shared.2
  balance : ∀ x, calls .new x s.vector.shared.1 + calls .remove x (cutShort s) =
    calls .remove x s.vector.shared.1 + calls .new x (cutShort s) +
      (live s.vector.shared.2.vec).countP (standing x)
  last : ∃ before, s.vector.shared.1 = before ++ cutShort s

/-- The vector as it is unless a thread has ended in it. -/
structure Held (v : Vector) : Prop where
  accounts : Accounts v.shared
  known : ∀ i p, v.holder = some (i, p) → Known p v.shared.2

lemma held_call (cfg : Config) (i : Thread) (ev : Event) (h : Held v) :
    Held (callStep cfg i ev v) := by
  rcases hv : v.holder with _ | ⟨j, p⟩
  · rw [callStep_free hv]
    exact ⟨h.accounts, fun k q hq => by cases hq; exact known_entry cfg ev v.shared.2⟩
  · by_cases hi : i = j
    · subst hi
      obtain ⟨haccounts, hknown⟩ := access_kept h.accounts (h.known i p hv)
      rw [callStep_inside hv]
      refine ⟨haccounts, fun k q hq => ?_⟩
      obtain ⟨q', hq', heq⟩ := Option.map_eq_some_iff.mp hq
      cases heq
      exact hknown q hq'
    · rw [callStep_waits (inside_iff.mpr ⟨p, hv⟩) hi]
      exact h

lemma cutShort_unstuck (h : ¬ Stuck s) : cutShort s = [] := if_neg h

lemma Ledger.held (h : Ledger s) (hstuck : ¬ Stuck s) : Held s.vector where
  accounts := ⟨h.len, fun x => by
    have hbalance := h.balance x
    rw [cutShort_unstuck hstuck] at hbalance
    exact hbalance⟩
  known := h.known

lemma Held.ledger (h : Held s.vector) (hstuck : ¬ Stuck s) : Ledger s where
  len := h.accounts.len
  known := h.known
  balance := by
    intro x
    rw [cutShort_unstuck hstuck]
    exact h.accounts.balanced x
  last := ⟨s.vector.shared.1, by rw [cutShort_unstuck hstuck, List.append_nil]⟩

/-- The thread in the vector calls `_do_action`, and nothing comes of it but the call. -/
def CutAt (v v' : Vector) : Prop :=
  ∃ i p, v.holder = some (i, p) ∧ (access p v.shared).1.1 ≠ v.shared.1 ∧
    v' = ⟨((access p v.shared).1.1, v.shared.2), v.holder⟩

lemma CutAt.ledger (h : CutAt v s.vector) (hheld : Held v) (hstuck : Stuck s) : Ledger s := by
  obtain ⟨i, p, hp, hlog, hvec⟩ := h
  obtain ⟨c, hc, hcalls⟩ := access_log (hheld.known i p hp) hlog
  rw [hcalls] at hvec
  have hcut : cutShort s = [c] := by
    rw [cutShort, if_pos hstuck, hvec, hp]
    simp [hc]
  refine ⟨?_, fun k q hq => ?_, fun x => ?_, v.shared.1, ?_⟩
  · rw [hvec]
    exact hheld.accounts.len
  · rw [hvec] at hq ⊢
    exact hheld.known k q hq
  · have hbalance : calls .new x v.shared.1 = calls .remove x v.shared.1 +
        (live v.shared.2.vec).countP (standing x) := hheld.accounts.balanced x
    rw [hcut, hvec]
    show calls .new x (v.shared.1 ++ [c]) + calls .remove x [c] =
      calls .remove x (v.shared.1 ++ [c]) + calls .new x [c] +
        (live v.shared.2.vec).countP (standing x)
    rw [calls_append, calls_append]
    omega
  · rw [hcut, hvec]

variable {j : Thread} {l l' : Loop} {acts : Bool}

lemma turn_waits (h : LoopTurn cfg i ev acts v l v' l') (hin : Inside v j) (hne : i ≠ j) :
    v' = v := by
  cases h with
  | calls hpc => exact callStep_waits hin hne
  | returns hpc hfree => exact callStep_waits hin hne
  | dies hpc hcancel hacts hlog => exact absurd (by rw [callStep_waits hin hne]) hlog
  | wakes hpc hcancel => rfl
  | leaves hpc hcancel => rfl
  | idle hpc => rfl

lemma turn_over (h : LoopTurn cfg i ev acts v l v' l') (hpc : l.pc = .ended) : v' = v := by
  cases h with
  | idle _ => rfl
  | wakes h _ => rfl
  | leaves h _ => rfl
  | calls h | returns h _ | dies h _ _ _ =>
    rw [hpc] at h
    cases h

/-- Where a thread has ended in the vector, nothing is done to it any more. -/
lemma stuck_step (cfg : Config) (server : Bool) (h : Stuck s) (t : Turn) :
    (step cfg server s t).vector = s.vector ∧ Stuck (step cfg server s t) := by
  obtain ⟨j, hin, hmain, hother⟩ : ∃ j, Inside s.vector j ∧ Thread.main ≠ j ∧
      ∀ k, Thread.other k ≠ j := by
    rcases h with hdead | hdead
    · exact ⟨.action, hdead.1, by decide, fun k hk => by cases hk⟩
    · exact ⟨.maintenance, hdead.1, by decide, fun k hk => by cases hk⟩
  cases t with
  | follow now mem x =>
    unfold step
    dsimp only
    rw [callStep_waits hin hmain]
    split <;> exact ⟨rfl, h⟩
  | main =>
    obtain ⟨hvec, ⟨hact, -⟩, hmaint, -⟩ := mainStep_frame server s
    refine ⟨hvec, ?_⟩
    rw [Stuck, Dead, Dead, step, hvec, hact, hmaint]
    exact h
  | action now acts =>
    have hturn := loopStep_turn cfg .action ⟨now, .actionPass⟩ acts s.vector s.action
    rcases h with hdead | hdead
    · exact ⟨turn_over hturn hdead.2, Or.inl (hturn.dead hdead)⟩
    · exact ⟨turn_waits hturn hdead.1 (by decide), Or.inr (hdead.other hturn.apart (by decide))⟩
  | maintenance now acts =>
    have hturn := loopStep_turn cfg .maintenance ⟨now, .maintenance⟩ acts s.vector s.maintenance
    rcases h with hdead | hdead
    · exact ⟨turn_waits hturn hdead.1 (by decide), Or.inl (hdead.other hturn.apart (by decide))⟩
    · exact ⟨turn_over hturn hdead.2, Or.inr (hturn.dead hdead)⟩
  | server ok => exact ⟨rfl, h⟩
  | other k ev =>
    unfold step
    dsimp only
    rw [callStep_waits hin (hother k)]
    exact ⟨rfl, h⟩

/-- All that a turn may do to the vector. -/
inductive VectorTurn (cfg : Config) (v : Vector) : Vector → Prop
  | call (i : Thread) (ev : Event) : VectorTurn cfg v (callStep cfg i ev v)
  | rest : VectorTurn cfg v v

lemma unstuck_turn (server : Bool) (hinv : Inv cfg s) (h : ¬ Stuck s) (t : Turn) :
    (¬ Stuck (step cfg server s t) ∧ VectorTurn cfg s.vector (step cfg server s t).vector) ∨
      Stuck (step cfg server s t) ∧ Acts t = true ∧
        CutAt s.vector (step cfg server s t).vector := by
  obtain ⟨haction, hmaint⟩ := not_or.mp h
  have hback : ∀ {i j v l}, Apart i s.vector v → j ≠ i → ¬ Dead s.vector j l → ¬ Dead v j l :=
    fun hapart hne hdead hd => hdead ⟨(hapart.inside hne).mp hd.1, hd.2⟩
  cases t with
  | follow now mem x =>
    unfold step
    dsimp only
    split
    · exact Or.inl ⟨not_or.mpr ⟨hback callStep_apart (by decide) haction,
        hback callStep_apart (by decide) hmaint⟩, .call _ _⟩
    · exact Or.inl ⟨h, .rest⟩
  | main =>
    obtain ⟨hvec, ⟨hact, -⟩, hm, -⟩ := mainStep_frame server s
    refine Or.inl ⟨?_, ?_⟩
    · rw [Stuck, Dead, Dead, step, hvec, hact, hm]
      exact h
    · rw [step, hvec]
      exact .rest
  | action now acts =>
    have hturn := loopStep_turn cfg .action ⟨now, .actionPass⟩ acts s.vector s.action
    have hm := hback hturn.apart (by decide) hmaint
    obtain ⟨hnot, hv⟩ | ⟨hdead, -, -, hacts, p, hp⟩ := hturn.moves hinv.action haction
    · refine Or.inl ⟨not_or.mpr ⟨hnot, hm⟩, ?_⟩
      show VectorTurn cfg s.vector (loopStep cfg .action ⟨now, .actionPass⟩ acts s.vector
        s.action).1
      rcases hv with hv | hv
      · rw [hv]
        exact .call _ _
      · rw [hv]
        exact .rest
    · exact Or.inr ⟨Or.inl hdead, hacts, .action, p, hp⟩
  | maintenance now acts =>
    have hturn := loopStep_turn cfg .maintenance ⟨now, .maintenance⟩ acts s.vector s.maintenance
    have ha := hback hturn.apart (by decide) haction
    obtain ⟨hnot, hv⟩ | ⟨hdead, -, -, hacts, p, hp⟩ := hturn.moves hinv.maintenance hmaint
    · refine Or.inl ⟨not_or.mpr ⟨ha, hnot⟩, ?_⟩
      show VectorTurn cfg s.vector (loopStep cfg .maintenance ⟨now, .maintenance⟩ acts s.vector
        s.maintenance).1
      rcases hv with hv | hv
      · rw [hv]
        exact .call _ _
      · rw [hv]
        exact .rest
    · exact Or.inr ⟨Or.inr hdead, hacts, .maintenance, p, hp⟩
  | server ok => exact Or.inl ⟨h, .rest⟩
  | other k ev =>
    exact Or.inl ⟨not_or.mpr ⟨hback callStep_apart (fun hk => by cases hk) haction,
      hback callStep_apart (fun hk => by cases hk) hmaint⟩, .call _ _⟩

lemma accounts_init : Accounts ([], recordsInit) where
  len := shape_init.len
  balanced := by
    intro x
    have hnone : live recordsInit.vec = [] := live_eq_nil fun i => Lib.Chunks.slot_init _ i
    unfold Balanced
    rw [hnone]
    rfl

lemma ledger_init (server : Bool) : Ledger (started server) :=
  Held.ledger ⟨accounts_init, fun i p hp => by cases hp⟩ (by cases server <;> decide)

lemma ledger_step (hinv : Inv cfg s) (h : Ledger s) (t : Turn) :
    Ledger (step cfg server s t) := by
  by_cases hstuck : Stuck s
  · obtain ⟨hvec, hstuck'⟩ := stuck_step cfg server hstuck t
    have hcut : cutShort (step cfg server s t) = cutShort s := by
      rw [cutShort, cutShort, if_pos hstuck, if_pos hstuck', hvec]
    exact ⟨by rw [hvec]; exact h.len, by rw [hvec]; exact h.known,
      by rw [hvec, hcut]; exact h.balance, by rw [hvec, hcut]; exact h.last⟩
  · have hheld := h.held hstuck
    obtain ⟨hnot, hturn⟩ | ⟨hstuck', -, hcut⟩ :=
      unstuck_turn server hinv hstuck t
    · refine Held.ledger ?_ hnot
      generalize (step cfg server s t).vector = v at hturn
      cases hturn with
      | call i ev => exact held_call cfg i ev hheld
      | rest => exact hheld
    · exact hcut.ledger hheld hstuck'

lemma ledger_process (cfg : Config) (server : Bool) (turns : List Turn) :
    Ledger (process cfg server turns) := by
  have hboth := run_all (P := fun s => Inv cfg s ∧ Ledger s)
    ⟨inv_init server, ledger_init server⟩
    (fun s t h => ⟨inv_step server h.1 t, ledger_step h.1 h.2 t⟩) turns
  exact hboth.2

/-- A thread ends in the vector only in a turn that acts upon a cancellation in `_do_action`. -/
lemma stuck_history (cfg : Config) (server : Bool) (turns : List Turn) :
    Stuck (process cfg server turns) → ∃ t ∈ turns, Acts t = true := by
  refine run_hist (P := fun ts (s : St) => Stuck s → ∃ t ∈ ts, Acts t = true)
    (fun h => absurd h (by cases server <;> decide)) (fun ts t ih hstuck => ?_) turns
  by_cases hbefore : Stuck (process cfg server ts)
  · obtain ⟨u, hu, hacts⟩ := ih hbefore
    exact ⟨u, List.mem_append_left _ hu, hacts⟩
  · obtain ⟨hnot, -⟩ | ⟨-, hacts, -⟩ :=
      unstuck_turn server (inv_process cfg server ts) hbefore t
    · exact absurd hstuck hnot
    · exact ⟨t, List.mem_append_right _ (List.mem_singleton_self t), hacts⟩

lemma calls_flatMap_removal (x : CStr) (l : List HostRecord) :
    calls .new x (l.flatMap removalCalls) = 0 ∧
      calls .remove x (l.flatMap removalCalls) = l.countP (standing x) := by
  induction l with
  | nil => exact ⟨rfl, rfl⟩
  | cons r l ih =>
    obtain ⟨hnew, hremove⟩ := ih
    rw [List.flatMap_cons, calls_append, calls_append, hnew, hremove, List.countP_cons]
    unfold removalCalls
    by_cases hp : r.processed ≠ 0
    · rw [if_pos hp, calls_single, calls_single]
      simp [standing, hp, Call.addr, Nat.add_comm]
    · rw [if_neg hp]
      simp [standing, hp, calls, callsFor]

/-- What `records_destroy` adds to the calls. -/
lemma shutdown_calls {s : Daemon.St} (hlen : s.2.vec.length = s.2.size) :
    shutdown s = s.1 ++ (live s.2.vec).flatMap removalCalls := by
  unfold shutdown recordsDestroy
  rw [← hlen, List.take_length, sweep_env, ← foldl_log]
  simp only [List.filter_true]
  congr 1
  funext log r
  exact removal_eq log r

/-- **Every action is taken back**: when `records_destroy` is called after any run, for every
address as many actions have been taken back as have been called, but for the one call that a
thread has been stopped in, if one has: then a record that was to be acted on is never taken
back, or one that was being taken back is taken back twice. This takes a cancellation that is acted
upon in `_do_action`. -/
theorem actions_taken_back (cfg : Config) (server : Bool) (turns : List Turn) :
    (∀ x, calls .new x (shutdown (process cfg server turns).vector.shared) +
        calls .remove x (cutShort (process cfg server turns)) =
      calls .remove x (shutdown (process cfg server turns).vector.shared) +
        calls .new x (cutShort (process cfg server turns))) ∧
    (∃ before, (process cfg server turns).vector.shared.1 =
      before ++ cutShort (process cfg server turns)) ∧
    (cutShort (process cfg server turns)).length ≤ 1 ∧
    ((∀ t ∈ turns, Acts t = false) → cutShort (process cfg server turns) = []) := by
  have h := ledger_process cfg server turns
  refine ⟨fun x => ?_, h.last, ?_, fun hacts => cutShort_unstuck fun hstuck => ?_⟩
  · have hbalance := h.balance x
    obtain ⟨hnew, hremove⟩ :=
      calls_flatMap_removal x (live (process cfg server turns).vector.shared.2.vec)
    rw [shutdown_calls h.len, calls_append, calls_append, hnew, hremove]
    omega
  · unfold cutShort
    split
    · generalize Option.bind _ _ = o
      cases o <;> simp
    · exact Nat.zero_le 1
  · obtain ⟨t, ht, hact⟩ := stuck_history cfg server turns hstuck
    rw [hacts t ht] at hact
    cases hact

end Agentsmith.ActionBalance
