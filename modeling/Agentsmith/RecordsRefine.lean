import Mathlib.Data.List.Nodup
import Agentsmith.Lib.Runs
import Agentsmith.RecordsMap

/-!
Every sequence of calls on the host record vector behaves as the same sequence on a finite
map from addresses to records.

The map is what `records_get` answers. A call acts on it at each address separately, so its
meaning is given for one address at a time.
-/

namespace Agentsmith.RecordsRefine

open Agentsmith.Lib Agentsmith.Lib.CStrings Agentsmith.Lib.Slots Agentsmith.Lib.Runs
open Agentsmith.Globals Agentsmith.Records Agentsmith.RecordsMap

variable {σ : Type*} {cfg : Config} {s : σ × Store} {k : CStr} {o : Option HostRecord}

/-- The meaning of a call at the address `k`: what it holds before and after. -/
def OpAt (cfg : Config) (k : CStr) : Op σ → Option HostRecord → Option HostRecord → Prop
  | .addIp now mem x, o, o' => o' = if x = k then addIpAt cfg now mem x o else o
  | .addRecord now mem hr, o, o' => o' = if hr.addr = k then addRecordAt now mem hr o else o
  | .remove x, o, o' => o' = if x = k then none else o
  | .maintenance _, o, o' => o' = o.filter fun r => !decide (r.remove ≠ 0)
  | .enumerate cb, o, o' => (o = none ∧ o' = none) ∨
      ∃ r q, o = some r ∧ o' = some q ∧ (q = r ∨ ∃ e, q = (cb e r).2.1)

/-- The answer of a call, from the map alone. -/
def answer (M : CStr → Option HostRecord) : Op σ → ℤ
  | .addIp _ mem x => if (M x).isSome ∨ mem then retvalOk else retvalErr
  | .addRecord _ mem hr => if (M hr.addr).isSome ∨ mem then retvalOk else retvalErr
  | .remove x => if (M x).isSome then retvalOk else retvalErr
  | .maintenance _ => retvalOk
  | .enumerate _ => retvalOk

/-- The address of the call fits into the field with its NUL; a callback of an enumeration
leaves the address alone. -/
def Fits : Op σ → Prop
  | .addIp _ _ x => x.1.length < ipaddrSize
  | .addRecord _ _ hr => hr.ipaddr.Terminated
  | .remove x => x.1.length < ipaddrSize
  | .maintenance _ => True
  | .enumerate cb => ∀ e r, (cb e r).2.1.ipaddr = r.ipaddr

/-- At the address `k` a call needs less: the string it adds is stored under `k` only if it
is `k`. -/
def KeyedOp (k : CStr) : Op σ → Prop
  | .addIp _ _ x => Keyed x k
  | .enumerate cb => ∀ e r, (cb e r).2.1.ipaddr = r.ipaddr
  | _ => True

lemma keyedOp_of_fits {op : Op σ} (hop : Fits op) (k : CStr) : KeyedOp k op := by
  cases op with
  | addIp now mem x => exact keyed_of_lt hop k
  | enumerate cb => exact hop
  | addRecord _ _ _ => trivial
  | remove _ => trivial
  | maintenance _ => trivial

lemma at_step (cfg : Config) (h : At s.2 k o) {op : Op σ} (hop : KeyedOp k op) :
    ∃ o', At (step cfg s op).2 k o' ∧ OpAt cfg k op o o' := by
  cases op with
  | addIp now mem x => exact ⟨_, h.addIp hop, rfl⟩
  | addRecord now mem hr => exact ⟨_, h.addRecord hr, rfl⟩
  | remove x => exact ⟨_, h.remove x, rfl⟩
  | maintenance cb => exact ⟨_, h.maintenance cb s.1, rfl⟩
  | enumerate cb => exact h.enumerate (e := s.1) fun e r => congrArg Field.str (hop e r)

/-- The state after a sequence of calls on a new vector. -/
def reached (cfg : Config) (e : σ) (ops : List (Op σ)) : σ × Store :=
  run (step cfg) (e, recordsInit) ops

lemma at_reached (cfg : Config) (e : σ) {ops : List (Op σ)} (hops : ∀ op ∈ ops, KeyedOp k op) :
    At (reached cfg e ops).2 k (recordsGet (reached cfg e ops).2 k) := by
  have hinv : ∃ o, At (reached cfg e ops).2 k o := by
    refine run_inv (P := fun s => ∃ o, At s.2 k o) (s := (e, recordsInit)) ⟨none, at_init k⟩ ?_ hops
    rintro s op ⟨o, h⟩ hop
    obtain ⟨o', h', -⟩ := at_step cfg h hop
    exact ⟨o', h'⟩
  obtain ⟨o, h⟩ := hinv
  rw [h.get]
  exact h

lemma exec_answer (cfg : Config) (s : σ × Store) (op : Op σ) :
    (exec cfg s op).2 = answer (recordsGet s.2) op := by
  cases op with
  | addIp now mem x =>
    simp only [exec, recordsAddIp, answer]
    rcases hf : recordsFind s.2 x with _ | ⟨i, r⟩
    · simp [recordsPlace, find_none_get.mp hf]
    · simp [find_get hf]
  | addRecord now mem hr =>
    simp only [exec, recordsAddRecord, answer]
    rcases hf : recordsFind s.2 hr.addr with _ | ⟨i, r⟩
    · simp [recordsPlace, find_none_get.mp hf]
    · simp [find_get hf]
  | remove x =>
    simp only [exec, recordsRemove, answer]
    rcases hf : recordsFind s.2 x with _ | ⟨i, r⟩
    · simp [find_none_get.mp hf]
    · simp [find_get hf]
  | maintenance cb =>
    simp only [exec, recordsMaintenance, answer]
    split <;> rfl
  | enumerate cb => rfl

/-! ### Growth -/

lemma step_grows (h : Shape s.2) (op : Op σ) (hlt : s.2.size < (step cfg s op).2.size) :
    ∀ i < s.2.size, (slot s.2.vec i).isSome := by
  cases op with
  | addIp now mem x =>
    simp only [step, exec, recordsAddIp] at hlt
    split at hlt
    · simp at hlt
    · rw [recordsPlace, Chunks.place_size] at hlt; exact Chunks.newSlot_grows h hlt
  | addRecord now mem hr =>
    simp only [step, exec, recordsAddRecord] at hlt
    split at hlt
    · simp at hlt
    · rw [recordsPlace, Chunks.place_size] at hlt; exact Chunks.newSlot_grows h hlt
  | remove x =>
    simp only [step, exec, recordsRemove] at hlt
    split at hlt <;> simp at hlt
  | maintenance cb =>
    -- a sweep never makes the vector longer
    have hle : lastUsed (swept cb s.1 s.2).2 ≤ s.2.size := by
      rw [← swept_length h cb s.1]; exact lastUsed_le _
    have hsize := shrunkSize_le hle h.dvd h.pos
    simp only [step, exec, maintenance_eq h] at hlt
    split at hlt
    · simp at hlt
    · simp only at hlt; omega
  | enumerate cb => simp [step, exec, recordsEnumerate] at hlt

/-! ### Presence -/

/-- The call adds `x`, and says so. -/
def Adds (cfg : Config) (x : CStr) (s : σ × Store) (op : Op σ) : Prop :=
  match op with
  | .addIp _ _ y => y = x ∧ (exec cfg s op).2 = retvalOk
  | .addRecord _ _ hr => hr.addr = x ∧ (exec cfg s op).2 = retvalOk
  | _ => False

/-- The call removes `x`, or sweeps it because its record is flagged. -/
def Drops (x : CStr) (s : σ × Store) (op : Op σ) : Prop :=
  match op with
  | .remove y => y = x
  | .maintenance _ => ∃ r, recordsGet s.2 x = some r ∧ r.remove ≠ 0
  | _ => False

lemma isSome_filter_flag (o : Option HostRecord) :
    (o.filter fun r => !decide (r.remove ≠ 0)).isSome ↔
      o.isSome ∧ ¬ ∃ r, o = some r ∧ r.remove ≠ 0 := by
  cases o with
  | none => simp
  | some r => by_cases hr : r.remove = 0 <;> simp [Option.filter, hr]

/-- One call, and whether the address is present after it. -/
lemma present_step (cfg : Config) {x : CStr} (h : At s.2 x (recordsGet s.2 x)) {op : Op σ}
    (hop : KeyedOp x op) :
    (recordsGet (step cfg s op).2 x).isSome ↔
      Adds cfg x s op ∨ ((recordsGet s.2 x).isSome ∧ ¬ Drops x s op) := by
  obtain ⟨o', h', hs⟩ := at_step cfg h hop
  rw [h'.get]
  set o := recordsGet s.2 x with ho
  cases op with
  | addIp now mem y =>
    by_cases hy : y = x
    · subst hy
      simp only [OpAt, if_true] at hs
      simp only [Adds, Drops, exec_answer, answer, ← ho, hs]
      cases o <;> cases mem <;> simp [addIpAt, retvalOk, retvalErr]
    · simp only [OpAt, hy, if_false] at hs
      simp [Adds, Drops, hy, hs]
  | addRecord now mem hr =>
    by_cases hy : hr.addr = x
    · subst hy
      simp only [OpAt, if_true] at hs
      simp only [Adds, Drops, exec_answer, answer, ← ho, hs]
      cases o <;> cases mem <;> simp [addRecordAt, retvalOk, retvalErr]
    · simp only [OpAt, hy, if_false] at hs
      simp [Adds, Drops, hy, hs]
  | remove y =>
    simp only [OpAt] at hs
    by_cases hy : y = x <;> simp [Adds, Drops, hy, hs]
  | maintenance cb =>
    simp only [OpAt] at hs
    rw [hs, isSome_filter_flag]
    simp [Adds, Drops, ← ho]
  | enumerate cb =>
    rcases hs with ⟨h1, h2⟩ | ⟨r, q, h1, h2, -⟩ <;> simp [Adds, Drops, h1, h2]

lemma present_iff {e : σ} {ops : List (Op σ)} (hops : ∀ op ∈ ops, Fits op) (x : CStr) :
    (recordsGet (reached cfg e ops).2 x).isSome ↔
      Since (step cfg) (Adds cfg x) (Drops x) (e, recordsInit) ops := by
  induction ops using List.reverseRecOn with
  | nil =>
    refine ⟨fun h => ?_, fun h => absurd h not_since_nil⟩
    have : recordsGet (reached cfg e []).2 x = none := (at_init x).get
    rw [this] at h
    cases h
  | append_singleton ops op ih =>
    have hops' : ∀ op ∈ ops, Fits op := fun o ho => hops o (by simp [ho])
    have hstep := present_step cfg
      (at_reached cfg e fun o ho => keyedOp_of_fits (hops' o ho) x)
      (keyedOp_of_fits (hops op (by simp)) x)
    rw [since_snoc, ← ih hops']
    unfold reached at hstep ⊢
    rw [run_snoc]
    exact hstep

/-! ### The refinement -/

/-- What the vector owes to its callers after a sequence of calls, in the terms of a finite
map: `records_get` of the state reached. -/
structure Refines (cfg : Config) (e : σ) (ops : List (Op σ)) (v : Store) : Prop where
  /-- The allocated length is the size, a positive number of chunks; the live slots stand
  below the fill value, and that is at most the size. -/
  shape : v.vec.length = v.size ∧ 0 < v.size ∧ chunksize ∣ v.size ∧ v.fill ≤ v.size ∧
    ∀ i r, slot v.vec i = some r → i < v.fill
  /-- No two live slots hold the same address. -/
  unique : ∀ i j r q, slot v.vec i = some r → slot v.vec j = some q → r.addr = q.addr → i = j
  /-- A lookup finds what was added and neither removed nor swept since. -/
  present : ∀ x, (recordsGet v x).isSome ↔
    Since (step cfg) (Adds cfg x) (Drops x) (e, recordsInit) ops
  /-- An enumeration whose callback answers `0` visits every live record once. -/
  visits : ∀ (τ : Type) (cb : τ → HostRecord → τ × HostRecord × ℤ) (t : τ),
    (∀ t r, (cb t r).2.2 = 0) →
    ∃ l : List HostRecord, (recordsEnumerate cb t v).1 = l.foldl (fun t r => (cb t r).1) t ∧
      (l.map HostRecord.addr).Nodup ∧ ∀ r, r ∈ l ↔ recordsGet v r.addr = some r
  /-- A removal succeeds for the live addresses only. -/
  removes : ∀ x, (recordsRemove x v).2 = retvalOk ↔ (recordsGet v x).isSome
  /-- The next call changes the map as it says at every address, and answers from it. -/
  refines : ∀ (e' : σ) (op : Op σ), Fits op →
    (∀ k, OpAt cfg k op (recordsGet v k) (recordsGet (step cfg (e', v) op).2 k)) ∧
      (exec cfg (e', v) op).2 = answer (recordsGet v) op
  /-- The vector grows only when every slot is live. -/
  grows : ∀ (e' : σ) (op : Op σ), v.size < (step cfg (e', v) op).2.size →
    ∀ i < v.size, (slot v.vec i).isSome
  /-- An addition without memory for its record fails and changes nothing. -/
  fails : ∀ now,
    (∀ x, recordsGet v x = none → x.1.length < ipaddrSize →
      (recordsAddIp cfg now false x v).2 = retvalErr ∧
        ∀ k, recordsGet (recordsAddIp cfg now false x v).1 k = recordsGet v k) ∧
    ∀ hr, recordsGet v hr.addr = none → hr.ipaddr.Terminated →
      (recordsAddRecord now false hr v).2 = retvalErr ∧
        ∀ k, recordsGet (recordsAddRecord now false hr v).1 k = recordsGet v k

/-- The entries of the vector are the entries of the map, once each. -/
lemma live_nodup {v : Store} (h : ∀ k, Only HostRecord.addr v.vec k) :
    ((live v.vec).map HostRecord.addr).Nodup := by
  rw [List.nodup_iff_count_le_one]
  intro k
  have hfilter := live_filter_key (h k)
  have hcount : ((live v.vec).map HostRecord.addr).count k =
      ((live v.vec).filter fun r => r.addr = k).length := by
    rw [List.count, List.countP_map, List.countP_eq_length_filter]
    congr 1
    exact List.filter_congr fun r _ => by simp [beq_eq_decide]
  rw [hcount, hfilter]
  cases lookup HostRecord.addr v.vec k <;> simp

lemma visits_once {v : Store} (hs : Shape v) (ho : ∀ k, Only HostRecord.addr v.vec k)
    {τ : Type} {cb : τ → HostRecord → τ × HostRecord × ℤ} (h0 : ∀ t r, (cb t r).2.2 = 0) (t : τ) :
    ∃ l : List HostRecord, (recordsEnumerate cb t v).1 = l.foldl (fun t r => (cb t r).1) t ∧
      (l.map HostRecord.addr).Nodup ∧ ∀ r, r ∈ l ↔ recordsGet v r.addr = some r := by
  refine ⟨live v.vec, enumerate_env hs h0, live_nodup ho, fun r => ?_⟩
  rw [mem_live, recordsGet_eq hs (ho r.addr), lookup_some (ho r.addr)]
  simp

lemma removes_iff {v : Store} (x : CStr) :
    (recordsRemove x v).2 = retvalOk ↔ (recordsGet v x).isSome := by
  have h := exec_answer ⟨0, 0, 0⟩ ((), v) (.remove x)
  simp only [exec, answer] at h
  rw [h]
  split <;> rename_i hg <;> simp [hg, retvalOk, retvalErr]

/-- **The vector refines a finite map**, after every sequence of calls with addresses that
fit. -/
theorem records_refine_map (cfg : Config) (e : σ) (ops : List (Op σ))
    (hops : ∀ op ∈ ops, Fits op) : Refines cfg e ops (reached cfg e ops).2 := by
  have hat := fun k => at_reached cfg e fun op hop => keyedOp_of_fits (hops op hop) k
  have hs : Shape (reached cfg e ops).2 := (hat localhost).shape
  have ho := fun k => (hat k).only
  have hnext : ∀ (e' : σ) (op : Op σ), Fits op → ∀ k, OpAt cfg k op
      (recordsGet (reached cfg e ops).2 k)
      (recordsGet (step cfg (e', (reached cfg e ops).2) op).2 k) := by
    intro e' op hop k
    obtain ⟨o', h', hm⟩ := at_step cfg (s := (e', (reached cfg e ops).2)) (hat k)
      (keyedOp_of_fits hop k)
    rw [h'.get]
    exact hm
  refine ⟨⟨hs.len, hs.pos, hs.dvd, hs.fill, hs.live⟩, ?_, present_iff hops,
    fun τ cb t h0 => visits_once hs ho h0 t, removes_iff, ?_, ?_, fun now => ⟨?_, ?_⟩⟩
  · exact fun i j r q hi hj hrq => ho q.addr i j r q hi hj hrq rfl
  · exact fun e' op hop => ⟨hnext e' op hop, exec_answer cfg _ op⟩
  · exact fun e' op hlt => step_grows (s := (e', _)) hs op hlt
  · intro x hnone hx
    refine ⟨?_, fun k => ?_⟩
    · have := exec_answer cfg (e, (reached cfg e ops).2) (.addIp now false x)
      simpa [exec, answer, hnone] using this
    · have := hnext e (.addIp now false x) hx k
      simp only [OpAt, step, exec] at this
      rw [this]
      split
      · rename_i hk; rw [← hk, hnone]; rfl
      · rfl
  · intro hr hnone hterm
    refine ⟨?_, fun k => ?_⟩
    · have := exec_answer cfg (e, (reached cfg e ops).2) (.addRecord now false hr)
      simpa [exec, answer, hnone] using this
    · have := hnext e (.addRecord now false hr) hterm k
      simp only [OpAt, step, exec] at this
      rw [this]
      split
      · rename_i hk; rw [← hk, hnone]; rfl
      · rfl

/-- An addition, a failed one, a removal and a sweep. -/
theorem records_refine_map_run :
    Refines ⟨3, 60, 3600⟩ () [.addIp 5 true localhost, .addIp 6 false ⟨[49], by decide⟩,
        .remove localhost, .maintenance none]
      (reached ⟨3, 60, 3600⟩ () [.addIp 5 true localhost, .addIp 6 false ⟨[49], by decide⟩,
        .remove localhost, .maintenance none]).2 :=
  records_refine_map _ _ _ fun op hop => by
    simp only [List.mem_cons, List.not_mem_nil, or_false] at hop
    rcases hop with rfl | rfl | rfl | rfl
    · show localhost.1.length < ipaddrSize
      decide
    · show 1 < ipaddrSize
      decide
    · show localhost.1.length < ipaddrSize
      decide
    · trivial

end Agentsmith.RecordsRefine
