import Agentsmith.RemoteReport
import Agentsmith.Stored

/-!
How long a record lives that another host has reported.

A report about a known address stamps the record with the clock of this host. A report about
a new one is stored with the stamps of the host it comes from. So the record outlives the
report by `purge_after` seconds just when the stamp that counts is the time of the report, or
when no clock reading is late enough to tell.
-/

namespace Agentsmith.RemoteLifetime

open Agentsmith.Lib.CStrings Agentsmith.Lib.Slots Agentsmith.Lib.Runs
open Agentsmith.Globals Agentsmith.Records Agentsmith.RecordsMap Agentsmith.Daemon
open Agentsmith.PerAddress Agentsmith.RemoteReport Agentsmith.Stored

variable {cfg : Config} {s : St} {x : CStr} {i : ℕ} {t : Int64} {r r0 : HostRecord}

/-- The address is neither seen nor reported, and nobody asks for all records to be removed. -/
def Quiet (x : CStr) (e : Event) : Prop :=
  match e.act with
  | .sighting _ y => y ≠ x
  | .report _ _ hr => hr.addr ≠ x
  | .purgeAll => False
  | _ => True

/-- The record in the slot is not freed. -/
def Stays (cfg : Config) (s : St) (i : ℕ) (more : List Event) : Prop :=
  ∀ a b, more = a ++ b → (slot (run (daemonStep cfg) s a).2.vec i).isSome

/-- The clock does not go back from `t` to `u`. -/
def ClockFrom (t : Int64) (more : List Event) (u : Int64) : Prop :=
  (t :: (more.map Event.time ++ [u])).Pairwise (· ≤ ·)

/-- As long as it is quiet about the address of the record in slot `i`, a pass at `u` that
finds the record processed leaves it flagged just when `u` is more than `purgeAfter` after
`t`, and the difference it computes is one of the 64-bit range. -/
def LocalLifetime (cfg : Config) (s : St) (i : ℕ) (x : CStr) (t purgeAfter : Int64) : Prop :=
  ∀ more u r, ClockFrom t more u → (∀ e ∈ more, Quiet x e) → Stays cfg s i more →
    slot (run (daemonStep cfg) s more).2.vec i = some r → r.processed ≠ 0 →
      (∃ q, slot (run (daemonStep cfg) s (more ++ [⟨u, .actionPass⟩])).2.vec i = some q ∧
        (q.remove ≠ 0 ↔ purgeAfter.toInt < u.toInt - t.toInt)) ∧
      (u - stamp r).toInt = u.toInt - (stamp r).toInt

/-! ### The stored record -/

/-- The stamp the record of a report counts from: the one that came with it if the address is
new, and else the time of the report, where zero stands for the first stamp. -/
def storedStamp (t : Int64) (hr : HostRecord) : Option HostRecord → Int64
  | none => stamp hr
  | some _ => if t = 0 then hr.firstseen else t

/-- The counts add up below the threshold, in 32 bits: the record is never acted on. -/
def Dormant (t : Int64) (hr : HostRecord) : Option HostRecord → Prop
  | none => False
  | some old => old.processed = 0 ∧ (total t hr old).bmod (2 ^ 32) < hr.actionThreshold.toInt

/-- The stamp is the time of the report, or both expiries are beyond the range of the clock, or
the record is never acted on. -/
def OnLocalClock (t : Int64) (hr : HostRecord) (old : Option HostRecord) : Prop :=
  storedStamp t hr old = t ∨
    (2 ^ 63 - 1 ≤ (storedStamp t hr old).toInt + hr.purgeAfter.toInt ∧
      2 ^ 63 - 1 ≤ t.toInt + hr.purgeAfter.toInt) ∨
    Dormant t hr old

/-- The record that a report leaves in the vector. -/
lemma stored_record {mem : Bool} {host : CStr} {hr : HostRecord} (h : Shape s.2)
    (hstored : recordsFind (daemonStep cfg s ⟨t, .report mem host hr⟩).2 hr.addr = some (i, r0)) :
    slot (daemonStep cfg s ⟨t, .report mem host hr⟩).2.vec i = some r0 ∧
      r0 = match recordsGet s.2 hr.addr with
        | none => workerRecord host hr
        | some old => merge t (workerRecord host hr) old := by
  have hshape : Shape (daemonStep cfg s ⟨t, .report mem host hr⟩).2 := shape_step h _
  refine ⟨(find_slot hshape hstored).1, ?_⟩
  have hget := find_get hstored
  have hstep : (daemonStep cfg s ⟨t, .report mem host hr⟩).2 =
      (recordsAddRecord t mem (workerRecord host hr) s.2).1 := rfl
  rw [hstep] at hget
  rcases hf : recordsFind s.2 hr.addr with _ | ⟨j, old⟩
  · have hplaced : recordsGet (recordsAddRecord t mem (workerRecord host hr) s.2).1 hr.addr = _ :=
      get_placed (workerRecord host hr) h hf
    rw [hplaced] at hget
    rw [find_none_get.mp hf]
    cases mem with
    | false => cases hget
    | true => exact (Option.some.inj hget).symm
  · have hmerged : recordsGet (recordsAddRecord t mem (workerRecord host hr) s.2).1 hr.addr = _ :=
      get_merged (workerRecord host hr) hf
    rw [hmerged] at hget
    rw [find_get hf]
    exact (Option.some.inj hget).symm

/-- What the stored record has to do with the report. -/
structure Received (t : Int64) (hr : HostRecord) (old : Option HostRecord) (r : HostRecord) :
    Prop where
  addr : r.addr = hr.addr
  unflagged : r.remove = 0
  purgeAfter : r.purgeAfter = hr.purgeAfter
  stamp : stamp r = storedStamp t hr old
  acted : (r.processed ≠ 0 ∨ Due r) ↔ ¬ Dormant t hr old

lemma received_new {host : CStr} {hr : HostRecord} (hocc : hr.actionThreshold ≤ hr.occurrences) :
    Received t hr none (workerRecord host hr) :=
  ⟨rfl, rfl, rfl, rfl, fun _ => id, fun _ => Or.inr ⟨hocc, rfl⟩⟩

lemma received_known {host : CStr} (hr old : HostRecord) :
    Received t hr (some old) (merge t (workerRecord host hr) old) := by
  have hsum : (merge t (workerRecord host hr) old).occurrences.toInt =
      (total t hr old).bmod (2 ^ 32) := merge_occurrences t (workerRecord host hr) old
  have hrest : (merge t (workerRecord host hr) old).actionThreshold = hr.actionThreshold ∧
      (merge t (workerRecord host hr) old).processed = old.processed := by
    rw [merge, bump_eq]
    exact ⟨rfl, rfl⟩
  refine ⟨merge_addr _ _, by rw [merge, bump_eq]; rfl, by rw [merge, bump_eq]; rfl,
    by rw [merge, bump_eq]; rfl, ?_⟩
  unfold Due Dormant
  rw [Int32.le_iff_toInt_le, hsum, hrest.1, hrest.2, not_and, Int.not_lt]
  by_cases hp : old.processed = 0 <;> simp [hp]

lemma received_of_stored {mem : Bool} {host : CStr} {hr : HostRecord} (h : Shape s.2)
    (hocc : hr.actionThreshold ≤ hr.occurrences)
    (hstored : recordsFind (daemonStep cfg s ⟨t, .report mem host hr⟩).2 hr.addr = some (i, r0)) :
    Received t hr (recordsGet s.2 hr.addr) r0 := by
  obtain ⟨-, hr0⟩ := stored_record h hstored
  rcases hold : recordsGet s.2 hr.addr with _ | old
  · rw [hold] at hr0
    rw [hr0]
    exact received_new hocc
  · rw [hold] at hr0
    rw [hr0]
    exact received_known hr old

/-! ### While it is quiet -/

lemma shape_run (h : Shape s.2) (more : List Event) :
    Shape (run (daemonStep cfg) s more).2 :=
  run_all (P := fun s : St => Shape s.2) h (fun _ e hs => shape_step hs e) more

/-- One step: the record stays as it is, or a pass takes it. -/
lemma quiet_step {e : Event} (h : Shape s.2) (hi : slot s.2.vec i = some r) (hq : Quiet r.addr e)
    (hsome : (slot (daemonStep cfg s e).2.vec i).isSome) :
    slot (daemonStep cfg s e).2.vec i =
      some (if e.act = .actionPass then passed e.time r else r) := by
  by_cases hpass : e.act = .actionPass
  · obtain ⟨now, act⟩ := e
    obtain rfl : act = .actionPass := hpass
    rw [pass_slot h, hi, if_pos rfl]
    rfl
  · obtain ⟨q, hslot⟩ := Option.isSome_iff_exists.mp hsome
    rw [if_neg hpass, hslot]
    rcases slot_step h hslot with hold | hw
    · exact hold.symm.trans hi
    · rw [hi] at hw
      cases hw with
      | updateIp now mem o => exact absurd rfl hq
      | updateRecord now mem host hr o ho => exact absurd ho.symm hq
      | pass now o => exact absurd rfl hpass
      | mark now o => exact absurd hq id

/-- The flags alone change. A record is flagged by a pass that finds it stale only, and
processed if it has been due. -/
lemma kept {more : List Event} (h : Shape s.2) (hi : slot s.2.vec i = some r0)
    (hq : ∀ e ∈ more, Quiet r0.addr e) (hstays : Stays cfg s i more) :
    ∃ p m, slot (run (daemonStep cfg) s more).2.vec i =
        some { r0 with processed := p, remove := m } ∧
      (m ≠ 0 → r0.remove ≠ 0 ∨ ∃ e ∈ more, Stale e.time r0) ∧
      (p ≠ 0 → r0.processed ≠ 0 ∨ Due r0) := by
  induction more using List.reverseRecOn with
  | nil => exact ⟨_, _, hi, Or.inl, Or.inl⟩
  | append_singleton more e ih =>
    obtain ⟨p, m, hslot, hm, hp⟩ := ih (fun f hf => hq f (List.mem_append_left _ hf))
      fun a b hab => hstays a (b ++ [e]) (by rw [hab]; simp)
    have hsome := hstays (more ++ [e]) [] (by simp)
    have hkeep : m ≠ 0 → r0.remove ≠ 0 ∨ ∃ f ∈ more ++ [e], Stale f.time r0 := by
      intro hne
      rcases hm hne with h0 | ⟨f, hf, hst⟩
      · exact Or.inl h0
      · exact Or.inr ⟨f, List.mem_append_left _ hf, hst⟩
    rw [run_snoc] at hsome ⊢
    rw [quiet_step (shape_run h more) hslot (hq e (by simp)) hsome]
    split
    · unfold passed
      split
      · rename_i hdue
        refine ⟨1, m, rfl, hkeep, fun _ => ?_⟩
        by_cases hp0 : r0.processed = 0
        · exact Or.inr ⟨hdue.1, hp0⟩
        · exact Or.inl hp0
      · split
        · rename_i hstale
          exact ⟨p, 1, rfl, fun _ => Or.inr ⟨e, by simp, hstale⟩, hp⟩
        · exact ⟨p, m, rfl, hkeep, hp⟩
    · exact ⟨p, m, rfl, hkeep, hp⟩

/-! ### The expiry -/

/-- What a pass makes of the flag of a record that has been acted on. -/
lemma passed_remove (u : Int64) (hp : r.processed ≠ 0) :
    (passed u r).remove ≠ 0 ↔ r.remove ≠ 0 ∨ Stale u r := by
  have hdue : ¬ Due r := fun h => hp h.2
  unfold passed
  rw [if_neg hdue]
  by_cases hs : Stale u r
  · have hone : (1 : Int32) ≠ 0 := by decide
    rw [if_pos hs]
    exact ⟨fun _ => Or.inr hs, fun _ => hone⟩
  · rw [if_neg hs]
    exact ⟨Or.inl, fun h => h.resolve_right hs⟩

/-- The flag after the pass at `u`. -/
lemma flag_after {more : List Event} {u : Int64} (h : Shape s.2)
    (hr : slot (run (daemonStep cfg) s more).2.vec i = some r) (hp : r.processed ≠ 0)
    (P : Prop) :
    (∃ q, slot (run (daemonStep cfg) s (more ++ [⟨u, .actionPass⟩])).2.vec i = some q ∧
      (q.remove ≠ 0 ↔ P)) ↔ ((r.remove ≠ 0 ∨ Stale u r) ↔ P) := by
  rw [run_snoc, pass_slot (shape_run h more), hr, Option.map_some]
  simp only [Option.some.injEq, exists_eq_left', passed_remove u hp]

lemma clockFrom_le {more : List Event} {u : Int64} (h : ClockFrom t more u) :
    t ≤ u ∧ ∀ e ∈ more, t ≤ e.time ∧ e.time ≤ u := by
  obtain ⟨hfirst, hrest⟩ := List.pairwise_cons.mp h
  have hlast := (List.pairwise_append.mp hrest).2.2
  refine ⟨hfirst u (by simp), fun e he => ⟨hfirst _ ?_, ?_⟩⟩
  · exact List.mem_append_left _ (List.mem_map_of_mem he)
  · exact hlast _ (List.mem_map_of_mem he) u (List.mem_singleton_self u)

/-- Two expiries that no clock reading from `t` on can tell apart. -/
lemma same_expiry {t s pa M : ℤ} (hpa : 1 ≤ pa) (hM : t ≤ M) :
    (∀ u, t ≤ u → u ≤ M → (pa < u - s ↔ pa < u - t)) ↔
      s = t ∨ (M ≤ s + pa ∧ M ≤ t + pa) := by
  refine ⟨fun h => ?_, fun h u hu hM => by omega⟩
  have hfirst := h (max t (min s t + pa + 1)) (by omega)
  omega

/-- A stamp whose expiry the clock cannot tell from that of the time of the report. -/
lemma local_of_stamp {hr : HostRecord} {old : Option HostRecord} (h : Shape s.2)
    (hi : slot s.2.vec i = some r0) (hrec : Received t hr old r0) (ht : 0 ≤ t)
    (hpurge : 1 ≤ hr.purgeAfter)
    (hstamp : storedStamp t hr old = t ∨
      (2 ^ 63 - 1 ≤ (storedStamp t hr old).toInt + hr.purgeAfter.toInt ∧
        2 ^ 63 - 1 ≤ t.toInt + hr.purgeAfter.toInt)) :
    LocalLifetime cfg s i hr.addr t hr.purgeAfter := by
  intro more u r hclock hq hstays hr' hp
  obtain ⟨htu, hle⟩ := clockFrom_le hclock
  have ht0 := Int64.le_iff_toInt_le.mp ht
  have hpa := Int64.le_iff_toInt_le.mp hpurge
  have hpaM := hr.purgeAfter.toInt_lt
  have hone : (1 : Int64).toInt = 1 := rfl
  have hzero : (0 : Int64).toInt = 0 := rfl
  obtain ⟨p, m, hslot, hm, -⟩ := kept h hi (by rw [hrec.addr]; exact hq) hstays
  obtain rfl := Option.some.inj (hr'.symm.trans hslot)
  have hS : (stamp r0).toInt = t.toInt ∨
      (2 ^ 63 - 1 ≤ (stamp r0).toInt + hr.purgeAfter.toInt ∧
        2 ^ 63 - 1 ≤ t.toInt + hr.purgeAfter.toInt) := by
    rw [hrec.stamp]
    exact hstamp.imp (congrArg Int64.toInt) id
  have hS0 : 0 ≤ stamp r0 := Int64.le_iff_toInt_le.mpr (by omega)
  have hstale : ∀ v, t ≤ v → (Stale v r0 ↔ hr.purgeAfter.toInt < v.toInt - t.toInt) := by
    intro v hv
    have hv' := Int64.le_iff_toInt_le.mp hv
    have hv0 : 0 ≤ v := Int64.le_iff_toInt_le.mpr (by omega)
    have hvM := v.toInt_lt
    rw [Stale, gt_iff_lt, lt_sub_clock hv0 hS0, hrec.purgeAfter]
    exact (same_expiry (M := 2 ^ 63 - 1) (by omega) (by omega)).mpr hS _ (by omega) (by omega)
  refine ⟨(flag_after h hr' hp _).mpr ⟨?_, fun hlt => Or.inr ((hstale u htu).mpr hlt)⟩, ?_⟩
  · rintro (hflag | hst)
    · rcases hm hflag with h0 | ⟨e, he, hst⟩
      · exact absurd hrec.unflagged h0
      · have hlt := (hstale e.time (hle e he).1).mp hst
        have hu := Int64.le_iff_toInt_le.mp (hle e he).2
        omega
    · exact (hstale u htu).mp hst
  · exact toInt_sub_clock (Int64.le_trans ht htu) hS0

/-- A stamp that every pass from `t` on counts the lifetime from. -/
lemma stamp_of_local {S pa : Int64} (ht : 0 ≤ t) (hpurge : 1 ≤ pa)
    (h : ∀ u, t ≤ u → (pa < u - S ↔ pa.toInt < u.toInt - t.toInt) ∧
      (u - S).toInt = u.toInt - S.toInt) :
    S = t ∨ (2 ^ 63 - 1 ≤ S.toInt + pa.toInt ∧ 2 ^ 63 - 1 ≤ t.toInt + pa.toInt) := by
  have ht0 := Int64.le_iff_toInt_le.mp ht
  have hpa := Int64.le_iff_toInt_le.mp hpurge
  have htM := t.toInt_lt
  have hone : (1 : Int64).toInt = 1 := rfl
  have hzero : (0 : Int64).toInt = 0 := rfl
  have hmax : Int64.maxValue.toInt = 2 ^ 63 - 1 := rfl
  have hS0 : 0 ≤ S := by
    -- at the end of the clock the difference leaves the range for a negative stamp
    have hend := (h Int64.maxValue (Int64.le_iff_toInt_le.mpr (by omega))).2
    have hlt := (Int64.maxValue - S).toInt_lt
    exact Int64.le_iff_toInt_le.mpr (by omega)
  have hall : ∀ v : ℤ, t.toInt ≤ v → v ≤ 2 ^ 63 - 1 →
      (pa.toInt < v - S.toInt ↔ pa.toInt < v - t.toInt) := by
    intro v hv hM
    have hof : (Int64.ofInt v).toInt = v := Int64.toInt_ofInt_of_le (by omega) (by omega)
    have hu : t ≤ Int64.ofInt v := Int64.le_iff_toInt_le.mpr (by omega)
    have hiff := (h _ hu).1
    rwa [lt_sub_clock (Int64.le_trans ht hu) hS0, hof] at hiff
  exact ((same_expiry (by omega) (by omega)).mp hall).imp (fun he => Int64.toInt_inj.mp he) id

lemma stays_step {e : Event} (hnow : (slot s.2.vec i).isSome)
    (hnext : (slot (daemonStep cfg s e).2.vec i).isSome) : Stays cfg s i [e] := by
  intro a b hab
  rcases a with _ | ⟨f, a⟩
  · exact hnow
  · obtain ⟨rfl, hnil⟩ := List.cons.inj hab
    obtain rfl : a = [] := (List.append_eq_nil_iff.mp hnil.symm).1
    exact hnext

/-- A record that has been acted on, or is at the next pass. -/
lemma acted_soon (cfg : Config) {hr : HostRecord} {old : Option HostRecord} (h : Shape s.2)
    (hi : slot s.2.vec i = some r0) (hrec : Received t hr old r0) (hact : ¬ Dormant t hr old) :
    ∃ more p, (∀ u, t ≤ u → ClockFrom t more u) ∧ (∀ e ∈ more, Quiet hr.addr e) ∧
      Stays cfg s i more ∧ p ≠ 0 ∧
      slot (run (daemonStep cfg) s more).2.vec i = some { r0 with processed := p } := by
  have hnow : (slot s.2.vec i).isSome := by rw [hi]; rfl
  rcases hrec.acted.mpr hact with hp | hdue
  · refine ⟨[], r0.processed, fun u hu => ?_, by simp, fun a b hab => ?_, hp, hi⟩
    · simpa [ClockFrom] using hu
    · obtain rfl : a = [] := (List.append_eq_nil_iff.mp hab.symm).1
      exact hnow
  · have hpass : slot (daemonStep cfg s ⟨t, .actionPass⟩).2.vec i =
        some { r0 with processed := 1 } := by
      rw [pass_slot h, hi, Option.map_some, passed, if_pos hdue]
    refine ⟨[⟨t, .actionPass⟩], 1, fun u hu => ?_, by simp [Quiet], stays_step hnow ?_, by decide,
      hpass⟩
    · simp [ClockFrom, hu]
    · rw [hpass]
      rfl

/-- **The lifetime of a remote record** depends on the local clock just when the stamp that
counts is the time of the report, when neither expiry comes within the range of the clock, or
when the record is never acted on. -/
theorem remote_lifetime_iff (cfg : Config) (evs : List Event) (t : Int64) (mem : Bool)
    (host : CStr) (hr : HostRecord) (ht : 0 ≤ t) (hpurge : 1 ≤ hr.purgeAfter)
    (hocc : hr.actionThreshold ≤ hr.occurrences) (i : ℕ) (r0 : HostRecord)
    (hstored : recordsFind (daemonStep cfg (daemon cfg evs) ⟨t, .report mem host hr⟩).2 hr.addr =
      some (i, r0)) :
    LocalLifetime cfg (daemonStep cfg (daemon cfg evs) ⟨t, .report mem host hr⟩) i hr.addr t
        hr.purgeAfter ↔
      OnLocalClock t hr (recordsGet (daemon cfg evs).2 hr.addr) := by
  have hshape : Shape (daemon cfg evs).2 := shape_daemon cfg evs
  have hrec := received_of_stored hshape hocc hstored
  obtain ⟨hi, -⟩ := stored_record hshape hstored
  have hafter : Shape (daemonStep cfg (daemon cfg evs) ⟨t, .report mem host hr⟩).2 :=
    shape_step hshape _
  generalize recordsGet (daemon cfg evs).2 hr.addr = old at hrec ⊢
  generalize daemonStep cfg (daemon cfg evs) ⟨t, .report mem host hr⟩ = s at hi hafter ⊢
  refine ⟨fun hlife => ?_, fun hcond => ?_⟩
  · by_cases hact : Dormant t hr old
    · exact Or.inr (Or.inr hact)
    · obtain ⟨more, p, hclock, hq, hstays, hp, hslot⟩ := acted_soon cfg hafter hi hrec hact
      have hstamp : stamp { r0 with processed := p } = storedStamp t hr old := hrec.stamp
      have htold : ∀ u, t ≤ u →
          (hr.purgeAfter < u - storedStamp t hr old ↔
            hr.purgeAfter.toInt < u.toInt - t.toInt) ∧
          (u - storedStamp t hr old).toInt = u.toInt - (storedStamp t hr old).toInt := by
        intro u hu
        obtain ⟨hflag, hrange⟩ := hlife more u _ (hclock u hu) hq hstays hslot hp
        have hiff := (flag_after hafter hslot hp _).mp hflag
        have hpurge' : ({ r0 with processed := p } : HostRecord).purgeAfter = hr.purgeAfter :=
          hrec.purgeAfter
        rw [hstamp] at hrange
        rw [or_iff_right (fun h0 => h0 hrec.unflagged), Stale, hstamp, hpurge'] at hiff
        exact ⟨hiff, hrange⟩
      exact (stamp_of_local ht hpurge htold).imp id Or.inl
  · rcases hcond with hsame | hfar | hdormant
    · exact local_of_stamp hafter hi hrec ht hpurge (Or.inl hsame)
    · exact local_of_stamp hafter hi hrec ht hpurge (Or.inr hfar)
    · intro more u r _ hq hstays hslot hp
      obtain ⟨p, m, hslot', -, hproc⟩ := kept hafter hi (by rw [hrec.addr]; exact hq) hstays
      obtain rfl := Option.some.inj (hslot.symm.trans hslot')
      exact absurd hdormant (hrec.acted.mp (hproc hp))

/-- A report about an address that has been seen here. -/
theorem remote_lifetime_iff_run :
    let cfg : Config := ⟨3, 60, 3600⟩
    let s := daemon cfg [⟨90, .sighting true (ascii "192.0.2.7")⟩]
    LocalLifetime cfg (daemonStep cfg s ⟨5000, .report true (ascii "198.51.100.1") (reported 3)⟩) 0
      (reported 3).addr 5000 (reported 3).purgeAfter :=
  (remote_lifetime_iff ⟨3, 60, 3600⟩ [⟨90, .sighting true (ascii "192.0.2.7")⟩] 5000 true
    (ascii "198.51.100.1") (reported 3) (by decide) (by decide) (by decide) 0
    (merge 5000 (workerRecord (ascii "198.51.100.1") (reported 3))
      (fresh ⟨3, 60, 3600⟩ 90 (ascii "192.0.2.7"))) (by decide +kernel)).mpr
    (Or.inl (by decide +kernel))

/-- **A new address**: the stamps of the other host are an hour and more behind the clock of
this one, and the record is flagged a second after the report. -/
theorem remote_lifetime_foreign :
    let cfg : Config := ⟨3, 60, 3600⟩
    let s := daemonStep cfg (daemon cfg [])
      ⟨5000, .report true (ascii "198.51.100.1") (reported 3)⟩
    (∃ r0, recordsFind s.2 (reported 3).addr = some (0, r0)) ∧
      ¬ LocalLifetime cfg s 0 (reported 3).addr 5000 (reported 3).purgeAfter := by
  intro cfg s
  have hstored : slot s.2.vec 0 =
      some (workerRecord (ascii "198.51.100.1") (reported 3)) := by decide +kernel
  have hpass : slot (daemonStep cfg s ⟨5000, .actionPass⟩).2.vec 0 =
      some { workerRecord (ascii "198.51.100.1") (reported 3) with processed := 1 } := by
    decide +kernel
  have hfind : recordsFind s.2 (reported 3).addr =
      some (0, workerRecord (ascii "198.51.100.1") (reported 3)) := by decide +kernel
  refine ⟨⟨_, hfind⟩, fun h => ?_⟩
  have hstays : Stays cfg s 0 [⟨5000, .actionPass⟩] :=
    stays_step (by rw [hstored]; rfl) (by rw [hpass]; rfl)
  obtain ⟨⟨q, hq, hiff⟩, -⟩ := h [⟨5000, .actionPass⟩] 5001 _ (by unfold ClockFrom; decide)
    (by simp [Quiet]) hstays hpass (by decide)
  have hflagged : slot (run (daemonStep cfg) s
      ([⟨5000, .actionPass⟩] ++ [⟨5001, .actionPass⟩])).2.vec 0 =
        some { workerRecord (ascii "198.51.100.1") (reported 3) with
          processed := 1, remove := 1 } := by
    decide +kernel
  obtain rfl := Option.some.inj (hq.symm.trans hflagged)
  exact absurd (hiff.mp (by decide)) (by decide)

end Agentsmith.RemoteLifetime
