import Agentsmith.DoAction
import Agentsmith.Stored

/-!
What a processed record stands for.

`_do_action` returns nothing: when the action cannot be launched, it writes a message and is
done. The action thread then sets `processed` in any case, and the callback of a freed record
goes by that flag.
-/

namespace Agentsmith.ActionLaunch

open Agentsmith.Lib Agentsmith.Lib.CStrings Agentsmith.Lib.Slots Agentsmith.Lib.Runs
open Agentsmith.Globals Agentsmith.Records Agentsmith.RecordsMap Agentsmith.Daemon
open Agentsmith.PerAddress Agentsmith.Stored Agentsmith.DoAction

/-- What the calls in one `_do_action` return, and `errno` where it is read. -/
structure Outcomes where
  access : Int32
  queue : ℤ
  system : Int32
  errno : Int32

/-- The messages of `_do_action`, with what they show. -/
inductive Message
  /-- `"Unable to launch '%s'."` -/
  | unable (errno : Int32) (action : CStr)
  /-- `"Error queueing client host record to be sent."` -/
  | queueing
  /-- `"'%s' failed with exit code %i"` -/
  | failed (action : List UInt8) (errno : Int32)
  /-- `"'%s' returned %i"` -/
  | returned (action : List UInt8) (retval : Int32)
  deriving DecidableEq

/-- A call of `_do_action`, what it has passed on, and what it has reported. -/
structure Attempt where
  call : Call
  effect : Effect
  messages : List Message
  deriving DecidableEq

def messages (o : Options) (out : Outcomes) (c : Call) : List Message :=
  if out.access = -1 then [.unable out.errno o.action]
  else
    (if Distributed o c ∧ out.queue ≠ retvalOk then [.queueing] else []) ++
      if out.system = -1 then [.failed (command o c) out.errno]
      else if out.system ≠ 0 then [.returned (command o c) out.system]
      else []

/-- `_do_action` to its end; `none` for a failed assertion. -/
def attempt (o : Options) (out : Outcomes) (c : Call) : Option Attempt :=
  (doAction o (out.access ≠ -1) c).map fun d => ⟨c, d, messages o out c⟩

/-- `_do_action` as its callers see it; `sys` says what the calls return, from the first
`_do_action` on. -/
def tryAction (o : Options) (sys : ℕ → Outcomes) (ptr : HostRecord) (t : AcType)
    (log : Option (List Attempt)) : Option (List Attempt) :=
  log.bind fun as => (attempt o (sys as.length) ⟨t, ptr⟩).map fun a => as ++ [a]

/-- The call into the vector. -/
def op (o : Options) (sys : ℕ → Outcomes) (e : Event) : Op (Option (List Attempt)) :=
  match e.act with
  | .sighting mem x => .addIp e.time mem x
  | .report mem host hr => .addRecord e.time mem (workerRecord host hr)
  | .actionPass => .enumerate (recordsCallbackActionNew (tryAction o sys) e.time)
  | .maintenance => .maintenance (some (threadsRecordsCallbackActionRemoval (tryAction o sys)))
  | .purgeAll => .enumerate recordsCallbackRemoveAll

/-- The attempts so far, `none` behind a failed assertion, and the vector. -/
abbrev State := Option (List Attempt) × Store

def launcherStep (o : Options) (sys : ℕ → Outcomes) (s : State) (e : Event) : State :=
  step o.toConfig s (op o sys e)

def launcher (o : Options) (sys : ℕ → Outcomes) (evs : List Event) : State :=
  run (launcherStep o sys) (some [], recordsInit) evs

/-- The attempts when the daemon goes down. -/
def ended (o : Options) (sys : ℕ → Outcomes) (s : State) : Option (List Attempt) :=
  recordsDestroy (some (threadsRecordsCallbackActionRemoval (tryAction o sys))) s.1 s.2

/-! ### What is expected -/

/-- The command has been passed to `system()`. -/
def Attempt.Passed (o : Options) (a : Attempt) : Prop := a.effect.system = some (command o a.call)

instance (o : Options) (a : Attempt) : Decidable (a.Passed o) :=
  inferInstanceAs (Decidable (_ = _))

/-- The attempts of a step. -/
def made (o : Options) (sys : ℕ → Outcomes) (s : State) (e : Event) : List Attempt :=
  ((launcherStep o sys s e).1.getD []).drop (s.1.getD []).length

/-- The step passes the command for `NEW` of the record in the slot to `system()`. -/
def RunsNew (o : Options) (sys : ℕ → Outcomes) (i : ℕ) (s : State) (e : Event) : Prop :=
  ∃ a ∈ made o sys s e, a.call.type = .new ∧ slot s.2.vec i = some a.call.ptr ∧ a.Passed o

/-- After the step there is no record in the slot. -/
def Frees (o : Options) (sys : ℕ → Outcomes) (i : ℕ) (s : State) (e : Event) : Prop :=
  slot (launcherStep o sys s e).2.vec i = none

/-- A processed record has had its command run since it was stored, a `REMOVE` is run for an
address whose `NEW` was run before, and a record whose command was not run is still due. -/
structure Launched (o : Options) (sys : ℕ → Outcomes) (evs : List Event) : Prop where
  processed : ∀ i r, slot (launcher o sys evs).2.vec i = some r → r.processed ≠ 0 →
    Since (launcherStep o sys) (RunsNew o sys i) (Frees o sys i) (some [], recordsInit) evs
  removed : ∀ as a bs, ended o sys (launcher o sys evs) = some (as ++ a :: bs) →
    a.call.type = .remove → a.Passed o →
      ∃ b ∈ as, b.call.type = .new ∧ b.call.addr = a.call.addr ∧ b.Passed o
  eligible : ∀ pre e, evs = pre ++ [e] → ∀ a ∈ made o sys (launcher o sys pre) e,
    a.call.type = .new → ¬ a.Passed o →
      ∃ i r, slot (launcher o sys pre).2.vec i = some a.call.ptr ∧
        slot (launcher o sys evs).2.vec i = some r ∧ Due r

/-- `access()` does not fail in a call of `_do_action` for `NEW`. -/
def Accessible (o : Options) (sys : ℕ → Outcomes) (evs : List Event) : Prop :=
  ∀ k c, (daemon o.toConfig evs).1[k]? = some c → c.type = .new → (sys k).access ≠ -1

variable {o : Options} {sys : ℕ → Outcomes} {evs : List Event} {e : Event}

/-! ### One attempt -/

lemma attempt_call {out : Outcomes} {c : Call} {a : Attempt} (h : attempt o out c = some a) :
    a.call = c := by
  obtain ⟨d, -, rfl⟩ := Option.map_eq_some_iff.mp h
  rfl

lemma attempt_passed {out : Outcomes} {c : Call} {a : Attempt} (h : attempt o out c = some a) :
    a.Passed o ↔ out.access ≠ -1 := by
  obtain ⟨d, hd, rfl⟩ := Option.map_eq_some_iff.mp h
  unfold Attempt.Passed
  rw [doAction_passed hd, decide_eq_true_iff]

/-- Whatever fails is reported, though only by a message. -/
lemma attempt_messages {out : Outcomes} {c : Call} {a : Attempt} (h : attempt o out c = some a) :
    a.messages = [] ↔
      a.Passed o ∧ (Distributed o c → out.queue = retvalOk) ∧ out.system = 0 := by
  rw [attempt_passed h]
  obtain ⟨d, -, rfl⟩ := Option.map_eq_some_iff.mp h
  unfold messages
  by_cases hacc : out.access = -1
  · simp [hacc]
  · rw [if_neg hacc, List.append_eq_nil_iff]
    have hqueue : (if Distributed o c ∧ out.queue ≠ retvalOk then [Message.queueing] else []) = [] ↔
        (Distributed o c → out.queue = retvalOk) := by
      by_cases hd : Distributed o c
      · simp [hd]
      · simp [hd]
    rw [hqueue]
    by_cases hfail : out.system = -1
    · simp [hacc, hfail]
    · simp [hacc, hfail]

/-! ### The daemon, with its calls carried out -/

/-- `_do_action` called for each of the calls. -/
def carryOut (o : Options) (sys : ℕ → Outcomes) (cs : List Call) (log : Option (List Attempt)) :
    Option (List Attempt) :=
  cs.foldl (fun log c => tryAction o sys c.ptr c.type log) log

lemma carryOut_append (cs ds : List Call) (log : Option (List Attempt)) :
    carryOut o sys (cs ++ ds) log = carryOut o sys ds (carryOut o sys cs log) := List.foldl_append

lemma foldl_carryOut (f : HostRecord → List Call) (l : List HostRecord)
    (log : Option (List Attempt)) :
    l.foldl (fun log r => carryOut o sys (f r) log) log = carryOut o sys (l.flatMap f) log :=
  List.foldl_flatMap.symm

/-- A step carries out the calls that the daemon makes in it. -/
lemma launcherStep_env {s : State} (h : Shape s.2) :
    (launcherStep o sys s e).1 = carryOut o sys (stepCalls s.2 e) s.1 := by
  obtain ⟨now, act⟩ := e
  cases act with
  | sighting mem x => rfl
  | report mem host hr => rfl
  | actionPass =>
    show (recordsEnumerate _ _ _).1 = _
    rw [enumerate_env h fun e r => by rw [actionNew_run]]
    simp only [actionNew_run]
    exact foldl_carryOut newCalls _ _
  | maintenance =>
    show (recordsMaintenance _ _ _).1 = _
    rw [maintenance_env h, stepCalls, flatMap_sweptCalls, ← foldl_carryOut]
    congr 1
    funext log r
    exact removal_run _ log r
  | purgeAll =>
    show (recordsEnumerate _ _ _).1 = _
    rw [enumerate_env h fun _ _ => rfl]
    exact List.foldl_fixed (live s.2.vec)

/-- The vector does not depend on what becomes of the calls. -/
lemma launcherStep_store (s : State) (log : List Call) (e : Event) :
    (launcherStep o sys s e).2 = (daemonStep o.toConfig (log, s.2) e).2 := by
  obtain ⟨now, act⟩ := e
  cases act with
  | sighting mem x => rfl
  | report mem host hr => rfl
  | actionPass =>
    exact enumerate_store (f := passed now) (fun e r => by rw [actionNew_run])
      (fun e r => by rw [actionNew_run]) (fun e r => by rw [actionNew_run])
      (fun e r => by rw [actionNew_run]) s.1 log
  | maintenance => exact maintenance_store _ s.1 _ log s.2
  | purgeAll =>
    exact enumerate_store (f := marked) (fun _ _ => rfl) (fun _ _ => rfl) (fun _ _ => rfl)
      (fun _ _ => rfl) s.1 log

lemma launcher_snoc (evs : List Event) (e : Event) :
    launcher o sys (evs ++ [e]) = launcherStep o sys (launcher o sys evs) e := run_snoc evs e

/-- **The calls and what becomes of them**: the run is that of the daemon, with its calls carried
out one after the other. -/
theorem launcher_eq (o : Options) (sys : ℕ → Outcomes) (evs : List Event) :
    launcher o sys evs =
      (carryOut o sys (daemon o.toConfig evs).1 (some []), (daemon o.toConfig evs).2) := by
  induction evs using List.reverseRecOn with
  | nil => rfl
  | append_singleton evs e ih =>
    have hshape := shape_daemon o.toConfig evs
    rw [launcher_snoc, ih, daemon_snoc]
    refine Prod.ext ?_ (launcherStep_store _ (daemon o.toConfig evs).1 e)
    rw [step_calls hshape, carryOut_append]
    exact launcherStep_env hshape

lemma ended_eq (o : Options) (sys : ℕ → Outcomes) (evs : List Event) :
    ended o sys (launcher o sys evs) =
      carryOut o sys (shutdown (daemon o.toConfig evs)) (some []) := by
  have hshape := shape_daemon o.toConfig evs
  rw [launcher_eq, shutdown_env hshape, carryOut_append, ended, destroy_env hshape,
    ← foldl_carryOut]
  congr 1
  funext log r
  exact removal_run _ log r

/-! ### Calls and attempts -/

/-- The attempts for some calls, one for each. -/
structure Carried (o : Options) (sys : ℕ → Outcomes) (cs : List Call) (as : List Attempt) : Prop
    where
  calls : as.map Attempt.call = cs
  each : ∀ k a, as[k]? = some a → attempt o (sys k) a.call = some a

variable {cs : List Call} {as bs : List Attempt} {a : Attempt} {c : Call} {k : ℕ}

lemma carryOut_carried (h : carryOut o sys cs (some []) = some as) : Carried o sys cs as := by
  induction cs using List.reverseRecOn generalizing as with
  | nil =>
    obtain rfl : [] = as := Option.some.inj h
    exact ⟨rfl, fun k a ha => by simp at ha⟩
  | append_singleton cs c ih =>
    rw [carryOut_append] at h
    obtain ⟨as', has, h⟩ := Option.bind_eq_some_iff.mp h
    obtain ⟨a, ha, rfl⟩ := Option.map_eq_some_iff.mp h
    have hcarried := ih has
    refine ⟨?_, fun k b hb => ?_⟩
    · rw [List.map_append, hcarried.calls, List.map_singleton, attempt_call ha]
    · rcases Nat.lt_or_ge k as'.length with hk | hk
      · rw [List.getElem?_append_left hk] at hb
        exact hcarried.each k b hb
      · rw [List.getElem?_append_right hk, List.getElem?_singleton] at hb
        split at hb
        · obtain rfl := Option.some.inj hb
          obtain rfl : k = as'.length := by omega
          rwa [attempt_call ha]
        · cases hb

lemma Carried.length (h : Carried o sys cs as) : as.length = cs.length := by
  rw [← h.calls, List.length_map]

lemma Carried.call (h : Carried o sys cs as) (ha : as[k]? = some a) : cs[k]? = some a.call := by
  rw [← h.calls, List.getElem?_map, ha, Option.map_some]

lemma Carried.attempt (h : Carried o sys cs as) (hc : cs[k]? = some c) :
    ∃ a, as[k]? = some a ∧ a.call = c := by
  rw [← h.calls, List.getElem?_map] at hc
  exact Option.map_eq_some_iff.mp hc

lemma Carried.passed (h : Carried o sys cs as) (ha : as[k]? = some a) :
    a.Passed o ↔ (sys k).access ≠ -1 := attempt_passed (h.each k a ha)

lemma launcher_carried (h : (launcher o sys evs).1 = some as) :
    Carried o sys (daemon o.toConfig evs).1 as := by
  rw [launcher_eq] at h
  exact carryOut_carried h

lemma carryOut_isSome {log : Option (List Attempt)} (h : (carryOut o sys cs log).isSome) :
    log.isSome := by
  cases log with
  | some as => rfl
  | none =>
    have hnone : carryOut o sys cs none = none := List.foldl_fixed' (fun _ => rfl) cs
    rw [hnone] at h
    cases h

lemma launcher_left {pre : List Event} (hpre : pre <+: evs) (h : (launcher o sys evs).1.isSome) :
    (launcher o sys pre).1.isSome := by
  obtain ⟨ds, hds⟩ := calls_kept o.toConfig hpre
  rw [launcher_eq, ← hds, carryOut_append] at h
  rw [launcher_eq]
  exact carryOut_isSome h

/-- The attempts of a step are those behind the calls made before. -/
lemma mem_made (h : (launcher o sys (evs ++ [e])).1 = some bs) :
    a ∈ made o sys (launcher o sys evs) e ↔
      ∃ k, (daemon o.toConfig evs).1.length ≤ k ∧ bs[k]? = some a := by
  obtain ⟨as, has⟩ := Option.isSome_iff_exists.mp
    (launcher_left (List.prefix_append evs [e]) (Option.isSome_of_eq_some h))
  rw [made, ← launcher_snoc, h, has, Option.getD_some, Option.getD_some,
    (launcher_carried has).length, List.mem_iff_getElem?]
  refine ⟨?_, ?_⟩
  · rintro ⟨i, hi⟩
    rw [List.getElem?_drop] at hi
    exact ⟨_, Nat.le_add_right _ i, hi⟩
  · rintro ⟨k, hk, hb⟩
    refine ⟨k - (daemon o.toConfig evs).1.length, ?_⟩
    rwa [List.getElem?_drop, Nat.add_sub_cancel' hk]

/-- Each call of a step has its attempt. -/
lemma made_of_call (h : (launcher o sys (evs ++ [e])).1 = some bs)
    (hc : c ∈ stepCalls (daemon o.toConfig evs).2 e) :
    ∃ (k : ℕ) (a : Attempt), a ∈ made o sys (launcher o sys evs) e ∧ bs[k]? = some a ∧
      a.call = c := by
  obtain ⟨i, hi⟩ := List.mem_iff_getElem?.mp hc
  have hk : (daemon o.toConfig (evs ++ [e])).1[(daemon o.toConfig evs).1.length + i]? = some c := by
    rw [daemon_calls, List.getElem?_append_right (Nat.le_add_right _ i), Nat.add_sub_cancel_left]
    exact hi
  obtain ⟨a, ha, hac⟩ := (launcher_carried h).attempt hk
  exact ⟨_, a, (mem_made h).mpr ⟨_, Nat.le_add_right _ i, ha⟩, ha, hac⟩

/-! ### The processed records -/

lemma getElem?_longer {α : Type*} {l l' : List α} {x : α} (h : l <+: l') (hx : l[k]? = some x) :
    l'[k]? = some x := by
  obtain ⟨t, rfl⟩ := h
  obtain ⟨hk, -⟩ := List.getElem?_eq_some_iff.mp hx
  rwa [List.getElem?_append_left hk]

lemma Accessible.left {pre : List Event} (hpre : pre <+: evs) (h : Accessible o sys evs) :
    Accessible o sys pre := by
  intro k c hc
  exact h k c (getElem?_longer (calls_kept o.toConfig hpre) hc)

/-- The action thread calls for a due record. -/
lemma due_called {v : Store} {i : ℕ} {r : HostRecord} (he : e.act = .actionPass)
    (hi : slot v.vec i = some r) (hd : Due r) : ⟨.new, r⟩ ∈ stepCalls v e := by
  rw [stepCalls, he]
  exact List.mem_flatMap.mpr ⟨r, mem_live.mpr ⟨i, hi⟩, mem_newCalls.mpr ⟨rfl, rfl, hd⟩⟩

/-- A step that leaves a processed record runs its command, or has found it processed. -/
lemma processed_from (hacc : Accessible o sys (evs ++ [e]))
    (h : (launcher o sys (evs ++ [e])).1.isSome) {i : ℕ} {r : HostRecord}
    (hi : slot (launcherStep o sys (launcher o sys evs) e).2.vec i = some r)
    (hp : r.processed ≠ 0) :
    RunsNew o sys i (launcher o sys evs) e ∨
      ∃ q, slot (launcher o sys evs).2.vec i = some q ∧ q.processed ≠ 0 := by
  obtain ⟨bs, hbs⟩ := Option.isSome_iff_exists.mp h
  rw [← launcher_snoc, launcher_eq, daemon_snoc] at hi
  obtain ⟨q, hq, -, hcase⟩ := processed_step (shape_daemon o.toConfig evs) hi hp
  have hslot : slot (launcher o sys evs).2.vec i = some q := by
    rw [launcher_eq]
    exact hq
  rcases hcase with hold | ⟨he, hd⟩
  · exact Or.inr ⟨q, hslot, hold⟩
  · -- the pass sets the mark, and runs the command
    obtain ⟨k, a, hmade, ha, hcall⟩ := made_of_call hbs (due_called he hq hd)
    have hget := (launcher_carried hbs).call ha
    refine Or.inl ⟨a, hmade, by rw [hcall], by rw [hcall]; exact hslot, ?_⟩
    exact ((launcher_carried hbs).passed ha).mpr (hacc k _ hget (by rw [hcall]))

/-- Where `access()` never fails for `NEW`, a processed record has had its command run. -/
lemma processed_since (hacc : Accessible o sys evs) (h : (launcher o sys evs).1.isSome) {i : ℕ}
    {r : HostRecord} (hi : slot (launcher o sys evs).2.vec i = some r) (hp : r.processed ≠ 0) :
    Since (launcherStep o sys) (RunsNew o sys i) (Frees o sys i) (some [], recordsInit) evs := by
  have hstart : ¬ ∃ q, slot recordsInit.vec i = some q ∧ q.processed ≠ 0 :=
    fun ⟨q, hq, _⟩ => absurd (shape_init.live i q hq) (Nat.not_lt_zero i)
  refine since_of_mark (M := fun s : State => ∃ q, slot s.2.vec i = some q ∧ q.processed ≠ 0)
    (K := fun es => Accessible o sys es ∧ (launcher o sys es).1.isSome) hstart
    (fun es e hok => ?_) (fun es e hok hmark => ?_) ⟨hacc, h⟩ ⟨r, hi, hp⟩
  · have hpre := List.prefix_append es [e]
    exact ⟨hok.1.left hpre, launcher_left hpre hok.2⟩
  · obtain ⟨q, hq, hq0⟩ := hmark
    refine (processed_from hok.1 hok.2 hq hq0).imp_right fun hold => ⟨hold, fun hfree => ?_⟩
    have hnone := hq.symm.trans hfree
    cases hnone

/-! ### The removals -/

/-- A processed record has had a call for `NEW`, and so has a record whose removal has been
called. -/
structure Told (t : St) : Prop where
  marks : ∀ i r, slot t.2.vec i = some r → r.processed ≠ 0 →
    ∃ b ∈ t.1, b.type = .new ∧ b.addr = r.addr
  calls : ∀ pre c post, t.1 = pre ++ c :: post → c.type = .remove →
    ∃ b ∈ pre, b.type = .new ∧ b.addr = c.addr

/-- More calls, for processed records. -/
lemma Told.append {t : St} (h : Told t)
    (hcs : ∀ c ∈ cs, c.type = .remove → c.ptr ∈ live t.2.vec ∧ c.ptr.processed ≠ 0) :
    ∀ pre c post, t.1 ++ cs = pre ++ c :: post → c.type = .remove →
      ∃ b ∈ pre, b.type = .new ∧ b.addr = c.addr := by
  refine (forall_split_append t.1 cs).mpr ⟨h.calls, fun pre c post hsplit ht => ?_⟩
  have hmem : c ∈ cs := by
    rw [hsplit]
    exact List.mem_append_right _ List.mem_cons_self
  obtain ⟨hlive, hp⟩ := hcs c hmem ht
  obtain ⟨i, hi⟩ := mem_live.mp hlive
  obtain ⟨b, hb, hnew⟩ := h.marks i _ hi hp
  exact ⟨b, List.mem_append_left _ hb, hnew⟩

lemma stepCalls_removal {v : Store} (hc : c ∈ stepCalls v e) (ht : c.type = .remove) :
    c.ptr ∈ live v.vec ∧ c.ptr.processed ≠ 0 := by
  obtain ⟨hlive, hcalls⟩ := mem_stepCalls hc
  rcases calls_cases hcalls with ⟨-, hnew, -⟩ | ⟨-, -, -, hp⟩
  · rw [ht] at hnew
    cases hnew
  · exact ⟨hlive, hp⟩

lemma told_daemon (cfg : Config) (evs : List Event) : Told (daemon cfg evs) := by
  induction evs using List.reverseRecOn with
  | nil =>
    exact ⟨fun i r hi => absurd (shape_init.live i r hi) (Nat.not_lt_zero i),
      fun pre c post hnil => absurd hnil (by simp [daemon])⟩
  | append_singleton evs e ih =>
    have hcalls := daemon_calls cfg evs e
    refine ⟨fun i r hi hp => ?_, fun pre c post hsplit => ?_⟩
    · rw [daemon_snoc] at hi
      obtain ⟨q, hq, haddr, hcase⟩ := processed_step (shape_daemon cfg evs) hi hp
      rw [hcalls, haddr]
      rcases hcase with hold | ⟨he, hd⟩
      · obtain ⟨b, hb, hnew⟩ := ih.marks i q hq hold
        exact ⟨b, List.mem_append_left _ hb, hnew⟩
      · exact ⟨⟨.new, q⟩, List.mem_append_right _ (due_called he hq hd), rfl, rfl⟩
    · rw [hcalls] at hsplit
      exact ih.append (fun c hc => stepCalls_removal hc) pre c post hsplit

/-- What is called at the shutdown is the removal of processed records. -/
lemma shutdown_calls (cfg : Config) (evs : List Event) :
    ∃ ds, shutdown (daemon cfg evs) = (daemon cfg evs).1 ++ ds ∧
      ∀ c ∈ ds, c.type = .remove ∧ c.ptr ∈ live (daemon cfg evs).2.vec ∧ c.ptr.processed ≠ 0 := by
  refine ⟨_, shutdown_env (shape_daemon cfg evs), fun c hc => ?_⟩
  obtain ⟨r, hr, hcall⟩ := List.mem_flatMap.mp hc
  obtain ⟨rfl, ht, hp⟩ := mem_removalCalls.mp hcall
  exact ⟨ht, hr, hp⟩

lemma removed_after_new (hacc : Accessible o sys evs)
    (h : ended o sys (launcher o sys evs) = some (as ++ a :: bs)) (ht : a.call.type = .remove) :
    ∃ b ∈ as, b.call.type = .new ∧ b.call.addr = a.call.addr ∧ b.Passed o := by
  obtain ⟨ds, hds, hremoval⟩ := shutdown_calls o.toConfig evs
  rw [ended_eq] at h
  have hcarried := carryOut_carried h
  have hsplit := hcarried.calls
  rw [hds, List.map_append, List.map_cons] at hsplit
  obtain ⟨c, hc, hnew, haddr⟩ := (told_daemon o.toConfig evs).append
    (fun c hc _ => (hremoval c hc).2) _ _ _ hsplit.symm ht
  obtain ⟨b, hb, rfl⟩ := List.mem_map.mp hc
  refine ⟨b, hb, hnew, haddr, ?_⟩
  obtain ⟨k, hk⟩ := List.mem_iff_getElem?.mp hb
  have hk' : (as ++ a :: bs)[k]? = some b := getElem?_longer (List.prefix_append as _) hk
  refine (hcarried.passed hk').mpr (hacc k b.call ?_ hnew)
  -- a call for `NEW` is none of the shutdown
  have hget := hcarried.call hk'
  rw [hds] at hget
  rcases Nat.lt_or_ge k (daemon o.toConfig evs).1.length with hlt' | hge
  · rwa [List.getElem?_append_left hlt'] at hget
  · rw [List.getElem?_append_right hge] at hget
    have hrem := (hremoval _ (List.mem_of_getElem? hget)).1
    rw [hnew] at hrem
    cases hrem

/-! ### The records whose action was not launched -/

lemma stepCalls_new {v : Store} (hc : c ∈ stepCalls v e) (ht : c.type = .new) :
    e.act = .actionPass ∧ Due c.ptr := by
  rcases calls_cases (mem_stepCalls hc).2 with ⟨he, -, hd⟩ | ⟨-, hremove, -⟩
  · exact ⟨he, hd⟩
  · rw [ht] at hremove
    cases hremove

/-- A due record is not due any more when the pass is over. -/
lemma not_due_after {s : St} (h : Shape s.2) {cfg : Config} (he : e.act = .actionPass) {i : ℕ}
    {q r : HostRecord} (hq : slot s.2.vec i = some q) (hd : Due q)
    (hr : slot (daemonStep cfg s e).2.vec i = some r) : ¬ Due r := by
  obtain ⟨now, act⟩ := e
  obtain rfl : act = .actionPass := he
  rw [pass_slot h, hq, Option.map_some] at hr
  obtain rfl := Option.some.inj hr
  rw [passed, if_pos hd]
  exact fun hdue => absurd hdue.2 (show (1 : Int32) ≠ 0 by decide)

lemma accessible_of_launched (h : (launcher o sys evs).1.isSome)
    (hall : ∀ pre, pre <+: evs → Launched o sys pre) : Accessible o sys evs := by
  induction evs using List.reverseRecOn with
  | nil => exact fun k c hc => absurd hc (by simp [daemon])
  | append_singleton evs e ih =>
    intro k c hc ht
    have hpre := List.prefix_append evs [e]
    have hcalls := daemon_calls o.toConfig evs e
    rcases Nat.lt_or_ge k (daemon o.toConfig evs).1.length with hlt | hge
    · rw [hcalls, List.getElem?_append_left hlt] at hc
      exact ih (launcher_left hpre h) (fun pre hp => hall pre (hp.trans hpre)) k c hc ht
    · -- the call is one of this step, so its record would still be due
      obtain ⟨bs, hbs⟩ := Option.isSome_iff_exists.mp h
      obtain ⟨a, ha, rfl⟩ := (launcher_carried hbs).attempt hc
      rw [← (launcher_carried hbs).passed ha]
      by_contra hnot
      obtain ⟨i, r, hslot, hslot', hd⟩ := (hall _ List.prefix_rfl).eligible evs e rfl a
        ((mem_made hbs).mpr ⟨k, hge, ha⟩) ht hnot
      rw [launcher_eq] at hslot hslot'
      rw [daemon_snoc] at hslot'
      rw [hcalls, List.getElem?_append_right hge] at hc
      obtain ⟨he, hdue⟩ := stepCalls_new (List.mem_of_getElem? hc) ht
      exact not_due_after (shape_daemon o.toConfig evs) he hslot hdue hslot' hd

lemma launched_of_accessible (h : (launcher o sys evs).1.isSome) (hacc : Accessible o sys evs) :
    Launched o sys evs where
  processed := fun i r hi hp => processed_since hacc h hi hp
  removed := fun as a bs hlog ht _ => removed_after_new hacc hlog ht
  eligible := by
    rintro pre e rfl a ha ht hnot
    obtain ⟨bs, hbs⟩ := Option.isSome_iff_exists.mp h
    obtain ⟨k, -, hk⟩ := (mem_made hbs).mp ha
    have hcarried := launcher_carried hbs
    exact absurd ((hcarried.passed hk).mpr (hacc k _ (hcarried.call hk) ht)) hnot

/-- **What a processed record stands for**: in every state of a run, a processed record has had
its command run and a `REMOVE` follows a `NEW` of the address, just when `access()` does not fail in
a call for `NEW`. -/
theorem processed_launched_iff (h : (launcher o sys evs).1.isSome) :
    (∀ pre, pre <+: evs → Launched o sys pre) ↔ Accessible o sys evs :=
  ⟨accessible_of_launched h, fun hacc _ hpre =>
    launched_of_accessible (launcher_left hpre h) (hacc.left hpre)⟩

/-- The action is called at the first sighting, and other agents are informed. -/
def oneStrike : Options := { initConfig with actionThreshold := 1, inform := 1, informAgents := 1 }

/-- The first sighting of an address, and the pass after it. -/
def strike : List Event := [⟨0, .sighting true (ascii "192.0.2.7")⟩, ⟨1, .actionPass⟩]

/-- No record is queued and no command is run, but the action is there. -/
def onlyAccess : ℕ → Outcomes := fun _ => ⟨0, retvalErr, -1, 11⟩

/-- The action cannot be accessed in the first call. -/
def failsOnce : ℕ → Outcomes := fun k => ⟨if k = 0 then -1 else 0, retvalOk, 0, 13⟩

theorem processed_launched_run : Launched oneStrike onlyAccess strike :=
  (processed_launched_iff (by decide +kernel)).mpr
    (fun _ _ _ _ => show (0 : Int32) ≠ -1 by decide) _ List.prefix_rfl

/-- What becomes of the first call. -/
def lost : Attempt where
  call := ⟨.new, fresh oneStrike.toConfig 0 (ascii "192.0.2.7")⟩
  effect := ⟨none, none⟩
  messages := [.unable 13 (ascii "/bin/true")]

/-- What becomes of the call at the shutdown. -/
def undone : Attempt :=
  let c : Call :=
    ⟨.remove, { fresh oneStrike.toConfig 0 (ascii "192.0.2.7") with processed := 1 }⟩
  ⟨c, ⟨none, some (command oneStrike c)⟩, []⟩

/-- **A flag for nothing**: the action could not be launched, the record is processed all the
same, and at the end the action is called to take back what it has not done. -/
theorem processed_not_launched :
    (launcher oneStrike failsOnce strike).1 = some [lost] ∧
      (∃ r, slot (launcher oneStrike failsOnce strike).2.vec 0 = some r ∧ r.processed ≠ 0) ∧
      ¬ Launched oneStrike failsOnce strike := by
  refine ⟨by decide +kernel, ⟨_, rfl, by decide +kernel⟩, fun h => ?_⟩
  have hended : ended oneStrike failsOnce (launcher oneStrike failsOnce strike) =
      some ([lost] ++ undone :: []) := by decide +kernel
  obtain ⟨b, hb, -, -, hpassed⟩ := h.removed [lost] undone [] hended rfl rfl
  obtain rfl := List.mem_singleton.mp hb
  exact absurd hpassed (by decide +kernel)

end Agentsmith.ActionLaunch
