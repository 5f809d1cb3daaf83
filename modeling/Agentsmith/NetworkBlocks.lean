import Agentsmith.NoRelay
import Agentsmith.HonestReports
import Agentsmith.Occurrences

/-!
Why an agent of a network acts on an address.

An agent that has been told of an address has seen nothing of it. What is behind its record is
kept somewhere else: some agent has had as many sightings of the address as its own threshold asks
for, within its own time interval. The sightings are evidence that nothing refutes later, and every
message on its way carries it.
-/

namespace Agentsmith.NetworkBlocks

open Agentsmith.Lib.CStrings Agentsmith.Lib.Slots Agentsmith.Lib.Words Agentsmith.Lib.Runs
open Agentsmith.Lib.Networks
open Agentsmith.Globals Agentsmith.Records Agentsmith.RecordsMap Agentsmith.NetShared
open Agentsmith.Daemon Agentsmith.PerAddress Agentsmith.Stored Agentsmith.Intake
open Agentsmith.DoAction Agentsmith.Informer Agentsmith.HonestReports Agentsmith.NoRelay
open Agentsmith.Occurrences (sightingsWithin sightingsWithin_snoc)
open Agentsmith.Exclude (InetPton)
open Agentsmith.ExcludeCidr (quadPton)

/-! ### What an agent has heard -/

section

variable (o : Options) (pton : InetPton) (e : Endian)

/-- The call into the vector that an input makes, if it is let in. -/
def letIn (s : Informer.St) (x : Turn) : Option Event :=
  if s.client.pc = .aborted then none
  else match x with
    | .moment m =>
      if Locked s then none
      else match m.event o pton e with
        | none => none
        | some ev =>
          if ev.act = .actionPass ∧ (s.todo ≠ [] ∨ s.client.pc ≠ .idle) then none else some ev
    | _ => none

/-- The calls into the vector in a run. -/
def heard (xs : List Turn) : List Event :=
  output (informerStep o pton e) (fun s x => (letIn o pton e s x).toList) informerInit xs

end

/-- Some sighting of `x` and those after it, in the time interval from it on, are as many as the
threshold. -/
def Reached (cfg : Config) (x : CStr) (evs : List Event) : Prop :=
  ∃ pre e post, evs = pre ++ e :: post ∧ e.Sights x ∧
    cfg.actionThreshold.toInt ≤ sightingsWithin x e.time cfg.timeInterval (e :: post)

/-- The record counts sightings since one of them, with the threshold of this agent. -/
def Backed (cfg : Config) (evs : List Event) (r : HostRecord) : Prop :=
  ∃ pre e post, evs = pre ++ e :: post ∧ e.Sights r.addr ∧ 0 ≤ e.time ∧ r.firstseen = e.time ∧
    r.actionThreshold = cfg.actionThreshold ∧ r.timeInterval = cfg.timeInterval ∧
    r.occurrences.toInt ≤ sightingsWithin r.addr e.time cfg.timeInterval (e :: post)

/-- For the address of the record there is evidence, or the record counts sightings and the action
has not been called. -/
def Founded (W : CStr → Prop) (cfg : Config) (evs : List Event) (r : HostRecord) : Prop :=
  W r.addr ∨ (r.processed = 0 ∧ Backed cfg evs r)

/-- All that an agent holds, and has called the action for, has evidence. -/
structure Borne (W : CStr → Prop) (cfg : Config) (evs : List Event) (s : Informer.St) :
    Prop where
  shape : Shape s.daemon.2
  live : ∀ r ∈ live s.daemon.2.vec, Founded W cfg evs r
  made : ∀ c ∈ s.daemon.1, W c.addr
  calls : ∀ c ∈ calls s, W c.addr
  client : Keeps (fun r => W r.addr) s.client

variable {o : Options} {pton : InetPton} {e : Endian} {s : Informer.St} {x : Turn}
  {W W' : CStr → Prop} {cfg : Config} {evs : List Event} {ev : Event} {r : HostRecord}

/-! ### Evidence stays -/

lemma sightingsWithin_le (y : CStr) (t d : Int64) (evs : List Event) (ev : Event) :
    sightingsWithin y t d evs ≤ sightingsWithin y t d (evs ++ [ev]) := by
  rw [sightingsWithin_snoc]
  exact Nat.le_add_right _ _

lemma Reached.snoc {y : CStr} (h : Reached cfg y evs) (ev : Event) :
    Reached cfg y (evs ++ [ev]) := by
  obtain ⟨pre, f, post, rfl, hs, hle⟩ := h
  refine ⟨pre, f, post ++ [ev], by simp, hs, ?_⟩
  have hmore := sightingsWithin_le y f.time cfg.timeInterval (f :: post) ev
  rw [List.cons_append] at hmore
  omega

/-- One more event, after which the record counts one more at most, and only a sighting in the
interval. -/
lemma Backed.snoc {q : HostRecord} (h : Backed cfg evs q) (haddr : r.addr = q.addr)
    (hfirst : r.firstseen = q.firstseen) (hthr : r.actionThreshold = q.actionThreshold)
    (hint : r.timeInterval = q.timeInterval)
    (hocc : r.occurrences.toInt ≤ q.occurrences.toInt +
      if ev.Sights q.addr ∧ ev.time.toInt - q.firstseen.toInt ≤ q.timeInterval.toInt then 1
      else 0) : Backed cfg (evs ++ [ev]) r := by
  obtain ⟨pre, f, post, rfl, hs, hpos, hf, ht, hi, hcount⟩ := h
  refine ⟨pre, f, post ++ [ev], by simp, haddr ▸ hs, hpos, hfirst.trans hf, hthr.trans ht,
    hint.trans hi, ?_⟩
  rw [hf, hi] at hocc
  rw [haddr, ← List.cons_append, sightingsWithin_snoc]
  split at hocc <;> rename_i hin
  · rw [if_pos hin]
    omega
  · rw [if_neg hin]
    omega

/-- One more event, after which the record differs in its flags at most. -/
lemma Backed.flags {q : HostRecord} {p m : Int32} (h : Backed cfg evs q) (ev : Event) :
    Backed cfg (evs ++ [ev]) { q with processed := p, remove := m } := by
  refine h.snoc rfl rfl rfl rfl ?_
  refine Int.le_add_of_nonneg_right ?_
  split
  · exact Int.one_nonneg
  · exact Int.le_refl 0

/-- The action is due for a record with evidence only. -/
lemma Founded.due (h : Founded W cfg evs r) (hW : ∀ y, Reached cfg y evs → W y) (hd : Due r) :
    W r.addr := by
  rcases h with hw | ⟨-, pre, f, post, hevs, hs, -, -, hthr, -, hcount⟩
  · exact hw
  · refine hW _ ⟨pre, f, post, hevs, hs, ?_⟩
    have hle := Int32.le_iff_toInt_le.mp hd.1
    rw [hthr] at hle
    omega

lemma Borne.mono (h : Borne W cfg evs s) (hW : ∀ y, W y → W' y) : Borne W' cfg evs s where
  shape := h.shape
  live := fun r hr => (h.live r hr).imp_left (hW _)
  made := fun c hc => hW _ (h.made c hc)
  calls := fun c hc => hW _ (h.calls c hc)
  client := ⟨fun r hr => hW _ (h.client.held r hr), fun r hr => hW _ (h.client.back r hr)⟩

/-! ### A call into the vector -/

/-- What a call may bring along: an address that fits, at a time that the clock can show, or a
report with evidence. -/
def Brings (W : CStr → Prop) (ev : Event) : Prop :=
  match ev.act with
  | .sighting _ y => y.1.length < ipaddrSize ∧ 0 ≤ ev.time
  | .report _ _ hr => W hr.addr
  | _ => True

/-- **One call**: what it writes is founded. -/
lemma founded_writes (hsane : cfg.Sane) {old : Option HostRecord}
    (hold : ∀ q, old = some q → Founded W cfg evs q) (hW : ∀ y, Reached cfg y evs → W y)
    (hev : Brings W ev) (h : Writes cfg ev old r) : Founded W cfg (evs ++ [ev]) r := by
  cases h with
  | insertIp now x =>
    obtain ⟨hlen, hpos⟩ := hev
    have haddr : (fresh cfg now x).addr = x := copyCut_str_of_lt hlen
    have hint : (0 : ℤ) ≤ cfg.timeInterval.toInt := by
      have hone := Int64.le_iff_toInt_le.mp hsane.timeInterval
      have heq : (1 : Int64).toInt = 1 := rfl
      omega
    refine Or.inr ⟨rfl, evs, ⟨now, .sighting true x⟩, [], rfl, haddr.symm, hpos, rfl, rfl, rfl, ?_⟩
    rw [haddr, ← List.nil_append [(⟨now, .sighting true x⟩ : Event)], sightingsWithin_snoc,
      if_pos ⟨rfl, by dsimp only; omega⟩]
    show (1 : ℤ) ≤ _
    omega
  | updateIp now mem q =>
    rcases hold q rfl with hw | ⟨hproc, hback⟩
    · exact Or.inl ((seen_addr now q).symm ▸ hw)
    · have hseen : seen now q = { q with
          lastseen := now
          occurrences := if now - q.firstseen ≤ q.timeInterval then q.occurrences + 1
            else q.occurrences } := by rw [seen, bump_eq]
      refine Or.inr ⟨by rw [hseen]; exact hproc, ?_⟩
      have hfirst : 0 ≤ q.firstseen := by
        obtain ⟨pre, f, post, -, -, hpos, hf, -⟩ := hback
        rw [hf]
        exact hpos
      refine hback.snoc (seen_addr now q) (by rw [hseen]) (by rw [hseen]) (by rw [hseen]) ?_
      have hsights : Event.Sights q.addr ⟨now, .sighting mem q.addr⟩ := rfl
      simp only [hseen, hsights, true_and, sub_le_clock hev.2 hfirst]
      split
      · exact toInt_succ_le _
      · omega
  | insertRecord now host hr => exact Or.inl hev
  | updateRecord now mem host hr q hq => exact Or.inl ((merge_addr _ q).symm ▸ hev)
  | pass now q =>
    have haddr := passed_addr now q
    by_cases hd : Due q
    · exact Or.inl (haddr.symm ▸ (hold q rfl).due hW hd)
    · obtain ⟨p, m, hp, -⟩ := passed_frame now q
      rcases hold q rfl with hw | ⟨hproc, hback⟩
      · exact Or.inl (haddr.symm ▸ hw)
      · refine Or.inr ⟨?_, hp ▸ hback.flags _⟩
        rw [passed, if_neg hd]
        split <;> exact hproc
  | mark now q =>
    rcases hold q rfl with hw | ⟨hproc, hback⟩
    · exact Or.inl hw
    · exact Or.inr ⟨hproc, hback.flags _⟩

lemma Borne.vector (hsane : o.toConfig.Sane) (h : Borne W o.toConfig evs s)
    (hold : ∀ y, Reached o.toConfig y evs → W y)
    (hev : Brings W ev) :
    Borne W o.toConfig (evs ++ [ev]) (vectorStep o s ev) where
  shape := shape_step h.shape ev
  client := h.client
  live := by
    intro r hr
    rcases live_step h.shape hr with hlive | ⟨old, ho, hw⟩
    · rcases h.live r hlive with hw | ⟨hproc, hback⟩
      · exact Or.inl hw
      · exact Or.inr ⟨hproc, hback.flags ev⟩
    · exact founded_writes hsane (fun q hq => h.live q (ho q hq)) hold hev hw
  made := by
    intro c hc
    rcases calls_step h.shape hc with hmade | ⟨hlive, hcall⟩
    · exact h.made c hmade
    · rcases calls_cases hcall with ⟨-, -, hd⟩ | ⟨-, -, -, hp⟩
      · exact (h.live _ hlive).due hold hd
      · exact (h.live _ hlive).resolve_right fun hproc => hp hproc.1
  calls := by
    intro c hc
    rw [calls_vectorStep, List.mem_append] at hc
    rcases hc with hcall | hpass
    · exact h.calls c hcall
    · split at hpass
      · rw [passCalls_eq h.shape, List.mem_flatMap] at hpass
        obtain ⟨r, hr, hcall⟩ := hpass
        obtain ⟨rfl, -, hd⟩ := mem_newCalls.mp hcall
        exact (h.live _ hr).due hold hd
      · cases hpass

/-- The vector stays as it is, no call is new, and the client gets no other records than those of
the calls. -/
structure Quiet (s s' : Informer.St) : Prop where
  daemon : s'.daemon = s.daemon
  todo : ∀ c ∈ calls s', c ∈ calls s
  client : ∀ P : HostRecord → Prop, (∀ c ∈ calls s, P c.ptr) → Keeps P s.client →
    Keeps P s'.client

lemma Quiet.refl (s : Informer.St) : Quiet s s := ⟨rfl, fun _ hc => hc, fun _ _ hk => hk⟩

lemma quiet_abort (s : Informer.St) : Quiet s (abort s) :=
  ⟨rfl, fun _ hc => hc, fun _ _ hk => ⟨hk.held, fun r hr => by cases hr⟩⟩

/-- The next call, or another step of the client. -/
lemma goOn_quiet (o : Options) (access : Bool) (s : Informer.St) : Quiet s (goOn o access s) := by
  have hgo : Goes o quadPton .little s (.go access) (goOn o access s) := goes_goOn access
  generalize goOn o access s = s' at hgo ⊢
  have hrest : ∀ {j rest}, s.todo = j :: rest → ∀ c ∈ calls { s with todo := rest },
      c ∈ calls s := by
    intro j rest htodo c hc
    unfold Informer.calls at hc ⊢
    rw [htodo]
    exact ((List.sublist_cons_self j rest).filterMap _).subset hc
  cases hgo with
  | stay => exact .refl s
  | abort => exact quiet_abort s
  | skip _ c rest htodo => exact ⟨rfl, hrest htodo, fun _ _ hk => hk⟩
  | record _ c rest htodo hpc hdist =>
    refine ⟨rfl, hrest htodo, fun P hP hk => keeps_step hk fun r hr => ?_⟩
    obtain rfl := Client.Move.record.inj hr
    exact hP c (by rw [Informer.calls, htodo]; exact List.mem_cons_self)
  | flush _ rest htodo =>
    exact ⟨rfl, hrest htodo, fun _ _ hk => keeps_step hk fun r hr => by cases hr⟩
  | next => exact ⟨rfl, fun _ hc => hc, fun _ _ hk => keeps_step hk fun r hr => by cases hr⟩

lemma start_quiet (n : ℕ) (s : Informer.St) :
    Quiet s { s with client := Client.clientStart n } := by
  refine ⟨rfl, fun _ hc => hc, fun P _ hk => ⟨?_, fun r hr => by cases hr⟩⟩
  rintro r (⟨k, hk⟩ | ⟨q, hq, hr⟩)
  · cases hk
  · rw [List.eq_of_mem_replicate hq] at hr
    simp at hr

/-- **One step**: a call is let in, or the step is a quiet one. -/
lemma letIn_cases (o : Options) (pton : InetPton) (e : Endian) (s : Informer.St) (x : Turn) :
    (∃ m ev, x = .moment m ∧ m.event o pton e = some ev ∧ letIn o pton e s x = some ev ∧
      informerStep o pton e s x = vectorStep o s ev) ∨
    (letIn o pton e s x = none ∧ Quiet s (informerStep o pton e s x)) := by
  unfold letIn informerStep
  by_cases hab : s.client.pc = .aborted
  · rw [if_pos hab, if_pos hab]
    exact Or.inr ⟨rfl, .refl s⟩
  · rw [if_neg hab, if_neg hab]
    cases x with
    | moment m =>
      dsimp only
      by_cases hlock : Locked s
      · rw [if_pos hlock, if_pos hlock]
        exact Or.inr ⟨rfl, .refl s⟩
      · rw [if_neg hlock, if_neg hlock]
        unfold Moment.event
        rcases hact : m.act o pton e with _ | _ | a
        · exact Or.inr ⟨rfl, quiet_abort s⟩
        · exact Or.inr ⟨rfl, .refl s⟩
        · dsimp only
          by_cases hfree : a = .actionPass ∧ (s.todo ≠ [] ∨ s.client.pc ≠ .idle)
          · rw [if_pos hfree, if_pos hfree]
            exact Or.inr ⟨rfl, .refl s⟩
          · rw [if_neg hfree, if_neg hfree]
            exact Or.inl ⟨m, ⟨m.time, a⟩, rfl, by rw [hact], rfl, rfl⟩
    | start =>
      dsimp only
      split
      · exact Or.inr ⟨rfl, start_quiet _ s⟩
      · exact Or.inr ⟨rfl, .refl s⟩
    | go access => exact Or.inr ⟨rfl, goOn_quiet o access s⟩
    | take k =>
      exact Or.inr ⟨rfl, rfl, fun _ hc => hc, fun _ _ hk => keeps_step hk fun r hr => by cases hr⟩

lemma Borne.quiet {s' : Informer.St} (h : Borne W cfg evs s) (hq : Quiet s s') :
    Borne W cfg evs s' where
  shape := hq.daemon ▸ h.shape
  live := hq.daemon ▸ h.live
  made := hq.daemon ▸ h.made
  calls := fun c hc => h.calls c (hq.todo c hc)
  client := hq.client _ h.calls h.client

lemma borne_init : Borne W cfg [] informerInit where
  shape := shape_init
  live := (all_init (P := Founded W cfg [])).live
  made := fun _ hc => absurd hc List.not_mem_nil
  calls := fun _ hc => absurd hc List.not_mem_nil
  client := (carries_init (S := fun _ => True)).client

/-! ### The network -/

variable {ι : Type*} [DecidableEq ι]

/-- What the agent has heard in a run of the network. -/
def heardBy (A : Agents ι) (T : List (ι × Turn)) (i : ι) : List Event :=
  heard (A.options i) (A.pton i) (A.endian i) (own i T)

/-- Some agent has had the sightings of an address that its threshold asks for. -/
def Evidence (A : Agents ι) (T : List (ι × Turn)) (y : CStr) : Prop :=
  ∃ i, Reached (A.options i).toConfig y (heardBy A T i)

/-- An input of an agent's own: addresses in the log fit and are seen at a time that the clock can
show, and no command comes from outside the network. -/
def Inside (x : Turn) : Prop :=
  match x with
  | .moment ⟨t, _, .line _ y⟩ => y.1.length < ipaddrSize ∧ 0 ≤ t
  | .moment ⟨_, _, .command _ _ _⟩ => False
  | _ => True

instance : (x : Turn) → Decidable (Inside x)
  | .moment ⟨t, _, .line _ y⟩ => inferInstanceAs (Decidable (y.1.length < ipaddrSize ∧ 0 ≤ t))
  | .moment ⟨_, _, .command _ _ _⟩ => isFalse id
  | .moment ⟨_, _, .actionPass⟩ | .moment ⟨_, _, .maintenance⟩ | .moment ⟨_, _, .purgeAll⟩
  | .start | .go _ | .take _ => isTrue trivial

/-- Nothing comes from outside in a move. -/
def MovesInside {ι : Type*} (m : Move ι Turn Delivery) : Prop :=
  match m with
  | .own _ x => Inside x
  | _ => True

instance {ι : Type*} : (m : Move ι Turn Delivery) → Decidable (MovesInside m)
  | .own _ x => inferInstanceAs (Decidable (Inside x))
  | .deliver _ _ | .lose _ => isTrue trivial

variable {A : Agents ι} {T : List (ι × Turn)} {i : ι}

lemma heardBy_self (s : Informer.St)
    (hs : s = informer (A.options i) (A.pton i) (A.endian i) (own i T)) (x : Turn) :
    heardBy A (T ++ [(i, x)]) i =
      heardBy A T i ++ (letIn (A.options i) (A.pton i) (A.endian i) s x).toList := by
  rw [heardBy, own_snoc_self, heard, output_snoc, hs]
  rfl

lemma heardBy_ne {a : ι × Turn} (h : a.1 ≠ i) : heardBy A (T ++ [a]) i = heardBy A T i := by
  rw [heardBy, own_snoc_ne T h, heardBy]

/-- What anyone hears later refutes nothing. -/
lemma Evidence.snoc {y : CStr} (h : Evidence A T y) (a : ι × Turn) : Evidence A (T ++ [a]) y := by
  obtain ⟨i, hi⟩ := h
  refine ⟨i, ?_⟩
  by_cases ha : a.1 = i
  · obtain ⟨j, x⟩ := a
    obtain rfl : j = i := ha
    rw [heardBy_self _ rfl]
    rcases letIn (A.options j) (A.pton j) (A.endian j) _ x with _ | ev
    · rwa [Option.toList_none, List.append_nil]
    · exact hi.snoc ev
  · rwa [heardBy_ne ha]

/-- The agent is where its inputs have brought it, and what it holds has evidence. -/
structure Vouched (A : Agents ι) (T : List (ι × Turn)) (i : ι) (s : Informer.St) : Prop where
  state : s = informer (A.options i) (A.pton i) (A.endian i) (own i T)
  borne : Borne (Evidence A T) (A.options i).toConfig (heardBy A T i) s

/-- A command on its way is a report with evidence. -/
def Vouches (A : Agents ι) (T : List (ι × Turn)) (m : Field remoteCommandSize) : Prop :=
  ∃ r, m = frame addCommand r ∧ Evidence A T r.addr

/-- What a call let in brings along. -/
lemma brings_of_event {o : Options} {m : Moment} {ev : Event} (hev : m.event o pton e = some ev)
    (hx : Inside (.moment m) ∨ ∃ mem host r, m.input = .command mem host (frame addCommand r) ∧
      W r.addr) : Brings W ev := by
  obtain ⟨hact, htime⟩ := event_eq.mp hev
  obtain ⟨t, list, input⟩ := m
  obtain ⟨now, act⟩ := ev
  cases act with
  | sighting mem y =>
    obtain ⟨hi, -⟩ := line_of_sighting hact
    obtain rfl : input = .line mem y := hi
    obtain rfl : t = now := htime
    rcases hx with hin | ⟨mem', host, r, hcmd, -⟩
    · exact hin
    · cases hcmd
  | report mem host hr =>
    obtain ⟨buff, hi, hcmd, -⟩ := command_of_report hact
    obtain rfl : input = .command mem host buff := hi
    rcases hx with hin | ⟨mem', host', r, hinput, hw⟩
    · exact absurd hin id
    · obtain ⟨-, -, rfl⟩ := Input.command.inj hinput
      have hwire : (netBuffToCommand e (frame addCommand r).1).1 = (addCommand, r) := by
        rw [netBuffToCommand_eq e (frame addCommand r).2]
        exact unwire_wire addCommand r
      obtain ⟨-, rfl⟩ := Prod.mk.inj (hwire.symm.trans hcmd)
      exact hw
  | actionPass => trivial
  | maintenance => trivial
  | purgeAll => trivial

omit [DecidableEq ι] in
/-- A worker of a queue sends what the client holds. -/
lemma mem_batch {peers : List ι} {x : Turn} {f : ι × Field remoteCommandSize}
    (hf : f ∈ batch peers s x) :
    ∃ r, f.2 = frame addCommand r ∧ ∃ q ∈ s.client.queues, r ∈ q.head := by
  unfold batch at hf
  split at hf
  · split at hf
    · cases hf
    · rename_i q j hq hj hpc
      obtain ⟨r, hr, rfl⟩ := List.mem_map.mp hf
      exact ⟨r, rfl, q, List.mem_of_getElem? hq, hr⟩
    · cases hf
  · cases hf

/-- **One step of an agent**: what it holds has evidence, and what it sends carries it. -/
lemma vouched_step (hsane : (A.options i).toConfig.Sane) (h : Vouched A T i s)
    (hx : Inside x ∨ ∃ j m d, x = (protocol A).arrival j i m d ∧ Vouches A T m) :
    Vouched A (T ++ [(i, x)]) i ((protocol A).step i s x) ∧
      ∀ f ∈ (protocol A).sends i s x, Vouches A (T ++ [(i, x)]) f.2 := by
  have hmore : ∀ y, Evidence A T y → Evidence A (T ++ [(i, x)]) y := fun y hy => hy.snoc _
  have hreached : ∀ y, Reached (A.options i).toConfig y (heardBy A T i) →
      Evidence A (T ++ [(i, x)]) y := fun y hy => hmore y ⟨i, hy⟩
  have hborne := h.borne.mono hmore
  refine ⟨⟨?_, ?_⟩, fun f hf => ?_⟩
  · rw [own_snoc_self, informer, run_snoc, h.state]
    rfl
  · rw [heardBy_self s h.state x]
    rcases letIn_cases (A.options i) (A.pton i) (A.endian i) s x with
      ⟨m, ev, rfl, hev, hin, hstep⟩ | ⟨hnone, hquiet⟩
    · have hbrings : Brings (Evidence A (T ++ [(i, .moment m)])) ev := by
        refine brings_of_event hev (hx.imp_right fun ⟨j, msg, d, harr, r, hmsg, hr⟩ => ?_)
        obtain rfl := Turn.moment.inj harr
        exact ⟨d.mem, A.host j i, r, by rw [hmsg], hmore _ hr⟩
      have hnext : (protocol A).step i s (.moment m) = vectorStep (A.options i) s ev := hstep
      rw [hin, hnext]
      exact hborne.vector hsane hreached hbrings
    · rw [hnone, Option.toList_none, List.append_nil]
      exact hborne.quiet hquiet
  · obtain ⟨r, hr, q, hq, hmem⟩ := mem_batch hf
    exact ⟨r, hr, hborne.client.queue hq (Or.inl hmem)⟩

end Agentsmith.NetworkBlocks
