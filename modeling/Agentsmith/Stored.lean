import Agentsmith.PerAddress

/-!
The records in the vector, slot by slot, whatever their addresses are.

A step writes a slot in one of six ways. What all six keep holds of every record that is
ever stored, and so of every record that `_do_action` is called with.
-/

namespace Agentsmith.Stored

open Agentsmith.Lib Agentsmith.Lib.CStrings Agentsmith.Lib.Slots Agentsmith.Lib.Runs
open Agentsmith.Globals Agentsmith.Records Agentsmith.RecordsMap Agentsmith.Daemon
open Agentsmith.PerAddress

variable {cfg : Config} {s : St} {e : Event} {evs : List Event}

/-- What an event writes into a free slot, or into the slot of a record. -/
inductive Writes (cfg : Config) : Event → Option HostRecord → HostRecord → Prop
  | insertIp (now : Int64) (x : CStr) :
      Writes cfg ⟨now, .sighting true x⟩ none (fresh cfg now x)
  | updateIp (now : Int64) (mem : Bool) (o : HostRecord) :
      Writes cfg ⟨now, .sighting mem o.addr⟩ (some o) (seen now o)
  | insertRecord (now : Int64) (host : CStr) (hr : HostRecord) :
      Writes cfg ⟨now, .report true host hr⟩ none (workerRecord host hr)
  | updateRecord (now : Int64) (mem : Bool) (host : CStr) (hr o : HostRecord) :
      o.addr = hr.addr →
      Writes cfg ⟨now, .report mem host hr⟩ (some o) (merge now (workerRecord host hr) o)
  | pass (now : Int64) (o : HostRecord) : Writes cfg ⟨now, .actionPass⟩ (some o) (passed now o)
  | mark (now : Int64) (o : HostRecord) : Writes cfg ⟨now, .purgeAll⟩ (some o) (marked o)

/-! ### One step -/

lemma slot_place {v : Store} (h : Shape v) {mem : Bool} {q r : HostRecord} {i : ℕ}
    (hi : slot (recordsPlace mem q (recordsSlot v)).1.vec i = some r) :
    slot v.vec i = some r ∨ (slot v.vec i = none ∧ mem = true ∧ r = q) := by
  obtain ⟨j, hj, hset⟩ := Chunks.place_slot h mem q
  have hi' := (hset i).symm.trans hi
  by_cases hij : i = j ∧ mem = true
  · rw [if_pos hij] at hi'
    exact Or.inr ⟨hij.1 ▸ hj, hij.2, (Option.some.inj hi').symm⟩
  · rw [if_neg hij] at hi'
    exact Or.inl hi'

lemma slot_overwrite {v : Store} {j : ℕ} {o q r : HostRecord} (hj : slot v.vec j = some o) {i : ℕ}
    (hi : slot (v.vec.set j (some q)) i = some r) :
    slot v.vec i = some r ∨ (slot v.vec i = some o ∧ r = q) := by
  rw [slot_set (slot_lt hj)] at hi
  by_cases hij : i = j
  · rw [if_pos hij] at hi
    exact Or.inr ⟨hij ▸ hj, (Option.some.inj hi).symm⟩
  · rw [if_neg hij] at hi
    exact Or.inl hi

lemma slot_enumerated {v : Store} {cb : List Call → HostRecord → List Call × HostRecord × ℤ}
    {log : List Call} (h : Shape v) {i : ℕ} {r : HostRecord}
    (hi : slot (recordsEnumerate cb log v).2.1.vec i = some r) :
    slot v.vec i = some r ∨ ∃ o log', slot v.vec i = some o ∧ r = (cb log' o).2.1 := by
  rcases enumerate_slot cb log h i with ⟨-, hnone⟩ | ⟨o, q, ho, hq, hcb⟩
  · rw [hnone] at hi
    cases hi
  · obtain rfl : q = r := Option.some.inj (hq.symm.trans hi)
    rcases hcb with rfl | ⟨log', rfl⟩
    · exact Or.inl ho
    · exact Or.inr ⟨o, log', ho, rfl⟩

/-- **One step, slot by slot**: a record was there before, or the event has written it. -/
theorem slot_step (h : Shape s.2) {i : ℕ} {r : HostRecord}
    (hi : slot (daemonStep cfg s e).2.vec i = some r) :
    slot s.2.vec i = some r ∨ Writes cfg e (slot s.2.vec i) r := by
  obtain ⟨now, act⟩ := e
  cases act with
  | sighting mem x =>
    have hstep : (daemonStep cfg s ⟨now, .sighting mem x⟩).2 =
        (recordsAddIp cfg now mem x s.2).1 := rfl
    rw [hstep, recordsAddIp] at hi
    rcases hf : recordsFind s.2 x with _ | ⟨j, o⟩
    · rw [hf] at hi
      rcases slot_place h hi with hold | ⟨hnone, rfl, rfl⟩
      · exact Or.inl hold
      · exact Or.inr (hnone ▸ .insertIp now x)
    · rw [hf] at hi
      obtain ⟨hj, rfl⟩ := find_slot h hf
      rcases slot_overwrite hj hi with hold | ⟨ho, rfl⟩
      · exact Or.inl hold
      · exact Or.inr (ho ▸ .updateIp now mem o)
  | report mem host hr =>
    have hstep : (daemonStep cfg s ⟨now, .report mem host hr⟩).2 =
        (recordsAddRecord now mem (workerRecord host hr) s.2).1 := rfl
    rw [hstep, recordsAddRecord] at hi
    rcases hf : recordsFind s.2 (workerRecord host hr).addr with _ | ⟨j, o⟩
    · rw [hf] at hi
      rcases slot_place h hi with hold | ⟨hnone, rfl, rfl⟩
      · exact Or.inl hold
      · exact Or.inr (hnone ▸ .insertRecord now host hr)
    · rw [hf] at hi
      obtain ⟨hj, ho⟩ := find_slot h hf
      rcases slot_overwrite hj hi with hold | ⟨hslot, rfl⟩
      · exact Or.inl hold
      · exact Or.inr (hslot ▸ .updateRecord now mem host hr o ho)
  | actionPass =>
    rcases slot_enumerated h hi with hold | ⟨o, log, ho, rfl⟩
    · exact Or.inl hold
    · rw [actionNew_eq]
      exact Or.inr (ho ▸ .pass now o)
  | maintenance =>
    have hslot := maintenance_slot h (some (threadsRecordsCallbackActionRemoval logCall)) s.1 i
    exact Or.inl (Option.filter_eq_some_iff.mp (hslot.symm.trans hi)).1
  | purgeAll =>
    rcases slot_enumerated h hi with hold | ⟨o, log, ho, rfl⟩
    · exact Or.inl hold
    · exact Or.inr (ho ▸ .mark now o)

/-- A record that is processed after a step was processed before, or the pass has called its
action; and its address is the same. -/
lemma processed_step (h : Shape s.2) {i : ℕ} {r : HostRecord}
    (hi : slot (daemonStep cfg s e).2.vec i = some r) (hp : r.processed ≠ 0) :
    ∃ q, slot s.2.vec i = some q ∧ r.addr = q.addr ∧
      (q.processed ≠ 0 ∨ e.act = .actionPass ∧ Due q) := by
  rcases slot_step h hi with hold | hw
  · exact ⟨r, hold, rfl, Or.inl hp⟩
  · generalize slot s.2.vec i = old at hw
    cases hw with
    | insertIp now x => exact absurd rfl hp
    | updateIp now mem q =>
      rw [seen, bump_eq] at hp
      exact ⟨q, rfl, seen_addr now q, Or.inl hp⟩
    | insertRecord now host hr => exact absurd rfl hp
    | updateRecord now mem host hr q hq =>
      refine ⟨q, rfl, (merge_addr _ q).trans hq.symm, Or.inl ?_⟩
      rwa [merge, bump_eq] at hp
    | pass now q =>
      refine ⟨q, rfl, passed_addr now q, ?_⟩
      by_cases hd : Due q
      · exact Or.inr ⟨rfl, hd⟩
      · refine Or.inl ?_
        rw [passed, if_neg hd] at hp
        split at hp
        · exact hp
        · exact hp
    | mark now q => exact ⟨q, rfl, rfl, Or.inl hp⟩

/-- A pass meets every slot. -/
lemma pass_slot (h : Shape s.2) (now : Int64) (i : ℕ) :
    slot (daemonStep cfg s ⟨now, .actionPass⟩).2.vec i = (slot s.2.vec i).map (passed now) :=
  enumerate_map_slot h (fun e r => by rw [actionNew_eq]) (fun e r => by rw [actionNew_eq]) i

/-- The enumeration of a request meets every slot. -/
lemma marked_slot (h : Shape s.2) (now : Int64) (i : ℕ) :
    slot (daemonStep cfg s ⟨now, .purgeAll⟩).2.vec i = (slot s.2.vec i).map marked := by
  have hcb : ∀ (log : List Call) r, recordsCallbackRemoveAll log r = (log, marked r, 0) :=
    fun _ _ => rfl
  exact enumerate_map_slot h (fun e r => by rw [hcb]) (fun e r => by rw [hcb]) i

lemma live_step (h : Shape s.2) {r : HostRecord} (hr : r ∈ live (daemonStep cfg s e).2.vec) :
    r ∈ live s.2.vec ∨ ∃ o, (∀ q, o = some q → q ∈ live s.2.vec) ∧ Writes cfg e o r := by
  obtain ⟨i, hi⟩ := mem_live.mp hr
  rcases slot_step h hi with hold | hw
  · exact Or.inl (mem_live.mpr ⟨i, hold⟩)
  · exact Or.inr ⟨_, fun q hq => mem_live.mpr ⟨i, hq⟩, hw⟩

/-- When a call of `_do_action` is made for a record. -/
def Calls (e : Event) (c : Call) : Prop :=
  match e.act with
  | .actionPass => c.type = .new ∧ Due c.ptr
  | .maintenance => c.type = .remove ∧ c.ptr.remove ≠ 0 ∧ c.ptr.processed ≠ 0
  | _ => False

lemma mem_newCalls {r : HostRecord} {c : Call} :
    c ∈ newCalls r ↔ c.ptr = r ∧ c.type = .new ∧ Due r := by
  obtain ⟨t, ptr⟩ := c
  by_cases hd : Due r
  · simp [newCalls, hd, and_comm]
  · simp [newCalls, hd]

lemma mem_removalCalls {r : HostRecord} {c : Call} :
    c ∈ removalCalls r ↔ c.ptr = r ∧ c.type = .remove ∧ r.processed ≠ 0 := by
  obtain ⟨t, ptr⟩ := c
  by_cases hp : r.processed = 0
  · simp [removalCalls, hp]
  · simp [removalCalls, hp, and_comm]

/-- The calls of `_do_action` in a step, in order. -/
def stepCalls (v : Store) (e : Event) : List Call :=
  match e.act with
  | .actionPass => (live v.vec).flatMap newCalls
  | .maintenance => (live v.vec).flatMap sweptCalls
  | _ => []

/-- The calls of a step are made after those before it. -/
lemma step_calls (h : Shape s.2) (e : Event) :
    (daemonStep cfg s e).1 = s.1 ++ stepCalls s.2 e := by
  obtain ⟨now, act⟩ := e
  cases act with
  | sighting mem x => exact (List.append_nil _).symm
  | report mem host hr => exact (List.append_nil _).symm
  | actionPass => exact pass_env h now
  | maintenance => exact swept_env h now
  | purgeAll => exact (marked_env h now).trans (List.append_nil _).symm

/-- A call is made for a live record. -/
lemma mem_stepCalls {v : Store} {c : Call} (hc : c ∈ stepCalls v e) :
    c.ptr ∈ live v.vec ∧ Calls e c := by
  obtain ⟨now, act⟩ := e
  cases act with
  | sighting mem x => cases hc
  | report mem host hr => cases hc
  | actionPass =>
    obtain ⟨r, hr, hcall⟩ := List.mem_flatMap.mp hc
    obtain ⟨rfl, ht, hd⟩ := mem_newCalls.mp hcall
    exact ⟨hr, ht, hd⟩
  | maintenance =>
    obtain ⟨r, hr, hcall⟩ := List.mem_flatMap.mp hc
    unfold sweptCalls at hcall
    split at hcall
    · rename_i hflag
      obtain ⟨rfl, ht, hp⟩ := mem_removalCalls.mp hcall
      exact ⟨hr, ht, hflag, hp⟩
    · cases hcall
  | purgeAll => cases hc

lemma calls_cases {c : Call} (h : Calls e c) :
    (e.act = .actionPass ∧ c.type = .new ∧ Due c.ptr) ∨
      (e.act = .maintenance ∧ c.type = .remove ∧ c.ptr.remove ≠ 0 ∧ c.ptr.processed ≠ 0) := by
  unfold Calls at h
  split at h
  · rename_i he
    exact Or.inl ⟨he, h⟩
  · rename_i he
    exact Or.inr ⟨he, h⟩
  · exact absurd h id

/-- **One step, call by call**: a call was made before, or is made now for a live record. -/
theorem calls_step (h : Shape s.2) {c : Call} (hc : c ∈ (daemonStep cfg s e).1) :
    c ∈ s.1 ∨ (c.ptr ∈ live s.2.vec ∧ Calls e c) := by
  rw [step_calls h, List.mem_append] at hc
  exact hc.imp_right mem_stepCalls

lemma daemon_calls (cfg : Config) (evs : List Event) (e : Event) :
    (daemon cfg (evs ++ [e])).1 = (daemon cfg evs).1 ++ stepCalls (daemon cfg evs).2 e := by
  rw [daemon_snoc, step_calls (shape_daemon cfg evs)]

/-- No call is taken back. -/
lemma calls_kept (cfg : Config) {pre : List Event} (h : pre <+: evs) :
    (daemon cfg pre).1 <+: (daemon cfg evs).1 := by
  obtain ⟨post, rfl⟩ := h
  induction post using List.reverseRecOn with
  | nil => simp
  | append_singleton post e ih =>
    rw [← List.append_assoc, daemon_calls]
    exact ih.trans (List.prefix_append _ _)

lemma calls_shutdown (h : Shape s.2) {c : Call} (hc : c ∈ shutdown s) :
    c ∈ s.1 ∨ c.ptr ∈ live s.2.vec := by
  rw [shutdown_env h, List.mem_append, List.mem_flatMap] at hc
  rcases hc with hold | ⟨r, hr, hcall⟩
  · exact Or.inl hold
  · obtain ⟨rfl, -⟩ := mem_removalCalls.mp hcall
    exact Or.inr hr

/-! ### Runs -/

/-- Holds of every live record, and of every record an action was called with. -/
structure All (P : HostRecord → Prop) (s : St) : Prop where
  live : ∀ r ∈ live s.2.vec, P r
  calls : ∀ c ∈ s.1, P c.ptr

/-- One step keeps what every write of the event keeps. -/
lemma All.step {P : HostRecord → Prop} (h : All P s) (hs : Shape s.2)
    (hw : ∀ o r, (∀ q, o = some q → P q) → Writes cfg e o r → P r) :
    All P (daemonStep cfg s e) where
  live := by
    intro r hr
    rcases live_step hs hr with hold | ⟨o, ho, hwr⟩
    · exact h.live r hold
    · exact hw o r (fun q hq => h.live q (ho q hq)) hwr
  calls := by
    intro c hc
    rcases calls_step hs hc with hold | ⟨hlive, -⟩
    · exact h.calls c hold
    · exact h.live _ hlive

lemma all_init {P : HostRecord → Prop} : All P ([], recordsInit) where
  live := by
    intro r hr
    obtain ⟨i, hi⟩ := mem_live.mp hr
    exact absurd (shape_init.live i r hi) (Nat.not_lt_zero i)
  calls := fun _ hc => absurd hc List.not_mem_nil

/-- **The rule of the stored records**: what every write of a permitted event keeps holds of
all records that are ever stored or called with, to the end of the daemon. -/
theorem all_daemon {P : HostRecord → Prop} {ok : Event → Prop}
    (hw : ∀ e o r, ok e → (∀ q, o = some q → P q) → Writes cfg e o r → P r)
    (hok : ∀ e ∈ evs, ok e) :
    All P (daemon cfg evs) ∧ ∀ c ∈ shutdown (daemon cfg evs), P c.ptr := by
  have hinv : Shape (daemon cfg evs).2 ∧ All P (daemon cfg evs) := by
    refine run_inv (P := fun s : St => Shape s.2 ∧ All P s) ⟨shape_init, all_init⟩ ?_ hok
    rintro s e ⟨hs, hall⟩ he
    exact ⟨shape_step hs e, hall.step hs fun o r => hw e o r he⟩
  refine ⟨hinv.2, fun c hc => ?_⟩
  rcases calls_shutdown hinv.1 hc with hold | hlive
  · exact hinv.2.calls c hold
  · exact hinv.2.live _ hlive

/-- The two strings an event brings along, as they are stored. -/
def strings (e : Event) : Option (Field ipaddrSize × Field ipaddrSize) :=
  match e.act with
  | .sighting _ x => some (copyCut ipaddrSize localhost, copyCut ipaddrSize x)
  | .report _ host hr => some (copyCut ipaddrSize host, hr.ipaddr)
  | _ => none

/-- The strings of a record are those of an event, or stay as they are. -/
lemma writes_strings {o : Option HostRecord} {r : HostRecord} (h : Writes cfg e o r) :
    strings e = some (r.origin, r.ipaddr) ∨
      ∃ q, o = some q ∧ r.origin = q.origin ∧ r.ipaddr = q.ipaddr := by
  cases h with
  | insertIp now x => exact Or.inl rfl
  | updateIp now mem o => exact Or.inr ⟨o, rfl, by rw [seen, bump_eq], by rw [seen, bump_eq]⟩
  | insertRecord now host hr => exact Or.inl rfl
  | updateRecord now mem host hr o ho =>
    rw [merge, bump_eq]
    exact Or.inl rfl
  | pass now o =>
    obtain ⟨p, m, hp, -⟩ := passed_frame now o
    rw [hp]
    exact Or.inr ⟨o, rfl, rfl, rfl⟩
  | mark now o => exact Or.inr ⟨o, rfl, rfl, rfl⟩

/-- `P` holds of the strings of the event. -/
def Brings (P : Field ipaddrSize → Field ipaddrSize → Prop) (e : Event) : Prop :=
  ∀ f g, strings e = some (f, g) → P f g

/-- **The rule of the stored strings**: what holds of the strings of every event holds of the
strings of every record that is ever stored or called with. -/
theorem all_strings (cfg : Config) {P : Field ipaddrSize → Field ipaddrSize → Prop}
    (h : ∀ e ∈ evs, Brings P e) :
    All (fun r => P r.origin r.ipaddr) (daemon cfg evs) ∧
      ∀ c ∈ shutdown (daemon cfg evs), P c.ptr.origin c.ptr.ipaddr := by
  refine all_daemon (fun e o r he ho hw => ?_) h
  rcases writes_strings hw with hf | ⟨q, hq, h1, h2⟩
  · exact he _ _ hf
  · rw [h1, h2]
    exact ho q hq

end Agentsmith.Stored
