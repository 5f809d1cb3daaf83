import Agentsmith.Informer

/-!
What an agent sends is what another one can take.

The record of an address whose origin is this host has the threshold of this host's
configuration: only `records_add_ip` writes that origin, and a received record overwrites
the origin together with the threshold. So whatever the other agents do to the counts and
thresholds here, a record on its way to them has reached a positive threshold.
-/

namespace Agentsmith.HonestReports

open Agentsmith.Lib.CStrings Agentsmith.Lib.Slots Agentsmith.Lib.Words Agentsmith.Lib.Runs
open Agentsmith.Globals Agentsmith.Records Agentsmith.NetShared Agentsmith.Daemon
open Agentsmith.RecordsMap Agentsmith.PerAddress Agentsmith.Stored Agentsmith.Intake
open Agentsmith.DoAction
open Agentsmith.Client (Pc Move Queue clientStep clientQueueAppend clientQueueTake
  clientQueueFlush clientQueueRecord clientQueueFlushed mem_clientQueueAppend taken_append_head)
open Agentsmith.Informer
open Agentsmith.Exclude (InetPton)
open Agentsmith.ExcludeCidr (quadPton)

variable {o : Options} {pton : InetPton} {e : Endian} {s : Informer.St} {xs : List Turn}

/-- A record that is due here, and is due at every host that takes it. -/
structure Honest (r : HostRecord) : Prop where
  origin : r.origin.str = localhost
  processed : r.processed = 0
  threshold : 1 ≤ r.actionThreshold
  occurrences : r.actionThreshold ≤ r.occurrences

/-- The record waits in the vector of the action thread or in a queue, or a worker has taken
it to send it. -/
def Held (c : Client.St) (r : HostRecord) : Prop :=
  (∃ k, c.vector k = some r) ∨ ∃ q ∈ c.queues, r ∈ q.head ∨ ∃ batch ∈ q.taken, r ∈ batch

/-! ### The client passes records on -/

/-- All records of the client, the one that forced a flush included. -/
structure Keeps (P : HostRecord → Prop) (c : Client.St) : Prop where
  held : ∀ r, Held c r → P r
  back : ∀ r, forced c = some r → P r

variable {P : HostRecord → Prop} {c : Client.St}

lemma Keeps.vector (h : Keeps P c) {k : ℕ} {r : HostRecord} (hr : c.vector k = some r) : P r :=
  h.held r (Or.inl ⟨k, hr⟩)

lemma mem_modify {l : List Queue} {i : ℕ} {f : Queue → Queue} {q : Queue}
    (h : q ∈ l.modify i f) : q ∈ l ∨ ∃ p ∈ l, q = f p := by
  obtain ⟨j, hj⟩ := List.getElem?_of_mem h
  rw [List.getElem?_modify, Option.map_eq_map, Option.map_eq_some_iff] at hj
  obtain ⟨p, hp, rfl⟩ := hj
  have hmem := List.mem_of_getElem? hp
  split
  · exact Or.inr ⟨p, hmem, rfl⟩
  · exact Or.inl hmem

lemma Keeps.queue (h : Keeps P c) {q : Queue} (hq : q ∈ c.queues) {r : HostRecord}
    (hr : r ∈ q.head ∨ ∃ batch ∈ q.taken, r ∈ batch) : P r :=
  h.held r (Or.inr ⟨q, hq, hr⟩)

/-- A queue changed by `f`, which brings no other records into it. -/
lemma Keeps.modify (h : Keeps P c) (i : ℕ) {f : Queue → Queue}
    (hf : ∀ p ∈ c.queues, ∀ r, (r ∈ (f p).head ∨ ∃ batch ∈ (f p).taken, r ∈ batch) → P r) :
    ∀ r, Held { c with queues := c.queues.modify i f } r → P r := by
  rintro r (⟨k, hk⟩ | ⟨q, hmem, hr⟩)
  · exact h.vector hk
  · rcases mem_modify hmem with hq | ⟨p, hp, rfl⟩
    · exact h.queue hq hr
    · exact hf p hp r hr

lemma Keeps.take (h : Keeps P c) (i : ℕ) :
    Keeps P { c with queues := c.queues.modify i clientQueueTake } where
  back := h.back
  held := by
    refine h.modify i fun p hp r hr => ?_
    -- what is taken was in the list
    have hsame := congrArg (r ∈ ·) (taken_append_head p)
    simp only [List.mem_append, List.mem_flatten, eq_iff_iff] at hsame
    exact h.queue hp (hsame.mp hr.symm).symm

lemma Keeps.append (h : Keeps P c) (i : ℕ) {back : Option HostRecord}
    (hback : ∀ r, back = some r → P r) :
    Keeps P { c with
      queues := c.queues.modify i fun q =>
        { q with head := clientQueueAppend c.vector c.fill q.head }
      pc := .flushing (i + 1) back } where
  back := hback
  held := by
    refine h.modify i fun p hp r hr => ?_
    rcases hr with hhead | htaken
    · rcases mem_clientQueueAppend hhead with hold | ⟨k, hk⟩
      · exact h.queue hp (Or.inl hold)
      · exact h.vector hk
    · exact h.queue hp (Or.inr htaken)

lemma Keeps.flush (h : Keeps P c) {back : Option HostRecord} (hback : ∀ r, back = some r → P r) :
    Keeps P (clientQueueFlush back c) := by
  unfold clientQueueFlush
  split
  · exact h
  · split
    · exact h
    · exact ⟨h.held, hback⟩

lemma Keeps.record (h : Keeps P c) {hr : HostRecord} (hhr : P hr) :
    Keeps P (clientQueueRecord hr c) := by
  unfold clientQueueRecord
  split
  · exact ⟨h.held, fun r hr => by cases hr⟩
  · split
    · exact h
    · split
      · exact h.flush fun r hr => Option.some.inj hr ▸ hhr
      · refine ⟨?_, h.back⟩
        rintro r (⟨k, hk⟩ | hq)
        · dsimp only at hk
          by_cases hkf : k = c.fill
          · subst hkf
            rw [Function.update_self] at hk
            exact Option.some.inj hk ▸ hhr
          · rw [Function.update_of_ne hkf] at hk
            exact h.vector hk
        · exact h.held r (Or.inr hq)

lemma Keeps.flushed (h : Keeps P c) {back : Option HostRecord} (hback : ∀ r, back = some r → P r) :
    Keeps P (clientQueueFlushed back c) := by
  have hempty : Keeps P { c with
      vector := fun k => if k < Client.hostrecordVectorLen then none else c.vector k
      fill := 0
      pc := .idle } := by
    refine ⟨?_, fun r hr => by cases hr⟩
    rintro r (⟨k, hk⟩ | hq)
    · dsimp only at hk
      split at hk
      · cases hk
      · exact h.vector hk
    · exact h.held r (Or.inr hq)
  unfold clientQueueFlushed
  rcases back with _ | hr
  · exact hempty
  · exact hempty.record (hback hr rfl)

/-- The client has no records but those it is called with. -/
lemma keeps_step (h : Keeps P c) {m : Move} (hm : ∀ hr, m = .record hr → P hr) :
    Keeps P (clientStep c m) := by
  unfold clientStep
  rcases hpc : c.pc with _ | ⟨i, back⟩ | _ <;> cases m
  case idle.record hr => exact h.record (hm hr rfl)
  case idle.flush => exact h.flush fun r hr => by cases hr
  case flushing.next =>
    have hback : ∀ r, back = some r → P r := fun r hr => h.back r (by rw [forced, hpc]; exact hr)
    dsimp only
    split
    · exact h.append i hback
    · exact h.flushed hback
  case idle.take i | flushing.take i =>
    have htake := h.take i
    rw [hpc] at htake
    exact htake
  all_goals exact h

/-! ### From the store to the client -/

/-- `S` holds of the store and of the calls still to make, `Q` of all that the client has. -/
structure Carries (S Q : HostRecord → Prop) (s : Informer.St) : Prop where
  shape : Shape s.daemon.2
  all : All S s.daemon
  calls : ∀ c ∈ calls s, Due c.ptr ∧ S c.ptr
  client : Keeps Q s.client

variable {S Q : HostRecord → Prop}

lemma carries_init : Carries S Q informerInit where
  shape := shape_init
  all := all_init
  calls := fun _ hc => absurd hc List.not_mem_nil
  client :=
    { held := by rintro r (⟨k, hk⟩ | ⟨q, hq, -⟩) <;> contradiction
      back := fun r hr => by cases hr }

lemma Carries.clientDo (h : Carries S Q s) {m : Move} (hm : ∀ r, m = .record r → Q r) :
    Carries S Q (clientDo s m) :=
  ⟨h.shape, h.all, h.calls, keeps_step h.client hm⟩

/-- Calls that are made or passed over are no longer to make. -/
lemma Carries.rest (h : Carries S Q s) {j : Job} {rest : List Job} (htodo : s.todo = j :: rest) :
    Carries S Q { s with todo := rest } := by
  refine ⟨h.shape, h.all, fun c hc => h.calls c ?_, h.client⟩
  unfold Informer.calls at hc ⊢
  rw [htodo]
  exact (List.sublist_cons_self j rest).filterMap _ |>.subset hc

lemma Carries.vector (h : Carries S Q s) {ev : Event}
    (hev : ∀ old r, (∀ q, old = some q → S q) → Writes o.toConfig ev old r → S r) :
    Carries S Q (vectorStep o s ev) where
  shape := shape_step h.shape ev
  all := h.all.step h.shape hev
  client := h.client
  calls := by
    intro c hc
    rw [calls_vectorStep, List.mem_append] at hc
    rcases hc with hold | hnew
    · exact h.calls c hold
    · split at hnew
      · rw [passCalls_eq h.shape, List.mem_flatMap] at hnew
        obtain ⟨r, hr, hcall⟩ := hnew
        obtain ⟨rfl, -, hdue⟩ := mem_newCalls.mp hcall
        exact ⟨hdue, h.all.live _ hr⟩
      · cases hnew

/-- **One step carries on**: every write keeps `S`, and what is distributed has `Q`. -/
theorem carries_step (h : Carries S Q s) {x : Turn}
    (hx : Admits o pton e
      (fun ev => ∀ old r, (∀ q, old = some q → S q) → Writes o.toConfig ev old r → S r) x)
    (hQ : ∀ c, Distributed o c → Due c.ptr → S c.ptr → Q c.ptr) :
    Carries S Q (informerStep o pton e s x) := by
  have hgo : Goes o pton e s x (informerStep o pton e s x) := goes_step s x
  generalize informerStep o pton e s x = s' at hgo ⊢
  cases hgo with
  | stay => exact h
  | abort => exact ⟨h.shape, h.all, h.calls, h.client.held, fun r hr => by cases hr⟩
  | vector m ev hev => exact h.vector (hx m ev rfl hev)
  | start =>
    refine ⟨h.shape, h.all, h.calls, ?_, fun r hr => by cases hr⟩
    rintro r (⟨k, hk⟩ | ⟨q, hq, hr⟩)
    · cases hk
    · rw [List.eq_of_mem_replicate hq] at hr
      simp at hr
  | skip access c rest htodo => exact h.rest htodo
  | record access c rest htodo hpc hdist =>
    refine (h.rest htodo).clientDo fun r hr => ?_
    obtain ⟨hdue, hS⟩ := h.calls c (by rw [Informer.calls, htodo]; exact List.mem_cons_self)
    obtain rfl := Move.record.inj hr
    exact hQ c hdist hdue hS
  | flush access rest htodo => exact (h.rest htodo).clientDo fun r hr => by cases hr
  | next access => exact h.clientDo fun r hr => by cases hr
  | take k => exact h.clientDo fun r hr => by cases hr

/-- **The rule of the records on their way**: what every write of a permitted call keeps holds
of the store and of the calls to make, and what follows of the records distributed holds of all
that the client has. -/
theorem informer_carries {ok : Event → Prop} (hxs : ∀ x ∈ xs, Admits o pton e ok x)
    (hS : ∀ ev old r, ok ev → (∀ q, old = some q → S q) → Writes o.toConfig ev old r → S r)
    (hQ : ∀ c, Distributed o c → Due c.ptr → S c.ptr → Q c.ptr) :
    Carries S Q (informer o pton e xs) := by
  refine run_inv (P := Carries S Q) carries_init (fun s x h hx => ?_) hxs
  exact carries_step h (fun m ev hm hev old r => hS ev old r (hx m ev hm hev)) hQ

/-! ### The action thread gives it honest records only -/

/-- A record under the name of this host has this host's threshold. -/
def Own (cfg : Config) (r : HostRecord) : Prop :=
  r.origin.str = localhost → r.actionThreshold = cfg.actionThreshold

lemma own_writes {cfg : Config} {ev : Event} {old : Option HostRecord} {r : HostRecord}
    (hev : ∀ mem host hr, ev.act = .report mem host hr → host ≠ localhost)
    (hold : ∀ q, old = some q → Own cfg q) (h : Writes cfg ev old r) : Own cfg r := by
  have hhost : ∀ {mem host hr}, ev.act = .report mem host hr →
      (copyCut ipaddrSize host).str ≠ localhost := fun hact heq =>
    hev _ _ _ hact (localhost_of_cut heq)
  cases h with
  | insertIp now x => exact fun _ => rfl
  | updateIp now mem q =>
    intro horigin
    rw [seen, bump_eq] at horigin ⊢
    exact hold q rfl horigin
  | insertRecord now host hr => exact fun horigin => absurd horigin (hhost rfl)
  | updateRecord now mem host hr q hq =>
    intro horigin
    rw [merge, bump_eq] at horigin
    exact absurd horigin (hhost rfl)
  | pass now q =>
    obtain ⟨p, m, hp, -⟩ := passed_frame now q
    rw [hp]
    exact hold q rfl
  | mark now q => exact hold q rfl

/-- The store, the calls still to make, and the client. -/
structure Fair (cfg : Config) (s : Informer.St) : Prop where
  shape : Shape s.daemon.2
  all : All (Own cfg) s.daemon
  calls : ∀ c ∈ calls s, Due c.ptr ∧ Own cfg c.ptr
  client : Keeps Honest s.client

lemma fair_init (cfg : Config) : Fair cfg informerInit where
  shape := shape_init
  all := all_init
  calls := fun _ hc => absurd hc List.not_mem_nil
  client := (carries_init (S := Own cfg)).client

lemma fair_step (hthr : 1 ≤ o.actionThreshold) (h : Fair o.toConfig s) {x : Turn}
    (hx : HostNumeric x) : Fair o.toConfig (informerStep o pton e s x) := by
  have hcarries : Carries (Own o.toConfig) Honest (informerStep o pton e s x) := by
    refine carries_step ⟨h.shape, h.all, h.calls, h.client⟩ ?_ ?_
    · rintro m ev rfl hev old r hold hw
      exact own_writes (fun _ _ _ hact => host_of_report hx hev hact) hold hw
    · intro c hdist hdue hown
      have hlocal := hdist.2.2.2
      exact ⟨hlocal, hdue.2, by rw [hown hlocal]; exact hthr, hdue.1⟩
  exact ⟨hcarries.shape, hcarries.all, hcarries.calls, hcarries.client⟩

/-- **Honest reports**: every record that the client holds, or a worker has taken, is honest,
and a server worker that gets it, on a host of any byte order, does not fail its assertion. -/
theorem reports_honest (o : Options) (hthr : 1 ≤ o.actionThreshold) (pton : InetPton) (e : Endian)
    (xs : List Turn) (hxs : ∀ x ∈ xs, HostNumeric x) :
    ∀ r, Held (informer o pton e xs).client r → Honest r ∧
      ∀ (o' : Options) (pton' : InetPton) (e' : Endian) (list : Exclude.Store) (mem : Bool)
        (host : CStr) (buff : Field remoteCommandSize),
        workerExcluded o' pton' e' list r = some false →
          networkServerWorker o' pton' e' list mem host
            (netCommandToBuff e addCommand r buff.1).1 = some (.call (.report mem host r)) := by
  intro r hr
  have hstep : ∀ s x, Fair o.toConfig s → HostNumeric x →
      Fair o.toConfig (informerStep o pton e s x) := fun s x h hx => fair_step hthr h hx
  have hfair : Fair o.toConfig (informer o pton e xs) := run_inv (fair_init _) hstep hxs
  have hhonest := hfair.client.held r hr
  refine ⟨hhonest, fun o' pton' e' list mem host buff hex => ?_⟩
  have hwire := (wire_format.1 e e' addCommand r buff).2.2
  unfold networkServerWorker
  simp only [hwire, if_true, hex, ge_iff_le, if_pos hhonest.occurrences]

/-- Three sightings of an address, a pass, a flush, and the worker of the one queue. -/
def reporting : List Turn :=
  [.start, .moment ⟨100, Exclude.excludeInit, .line true (ascii "192.0.2.7")⟩,
    .moment ⟨101, Exclude.excludeInit, .line true (ascii "192.0.2.7")⟩,
    .moment ⟨102, Exclude.excludeInit, .line true (ascii "192.0.2.7")⟩,
    .moment ⟨102, Exclude.excludeInit, .actionPass⟩, .go true, .go true, .go true, .go true,
    .take 0]

def sent : HostRecord :=
  { fresh informs.toConfig 100 (ascii "192.0.2.7") with occurrences := 3, lastseen := 102 }

/-- The record is sent. -/
theorem reports_honest_run :
    (informer informs quadPton .little reporting).client.queues = [⟨[], [[sent]]⟩] ∧
      Honest sent := by
  have hqueues : (informer informs quadPton .little reporting).client.queues =
      [⟨[], [[sent]]⟩] := by decide +kernel
  have hheld : Held (informer informs quadPton .little reporting).client sent := by
    refine Or.inr ⟨⟨[], [[sent]]⟩, ?_, Or.inr ⟨[sent], ?_, List.mem_singleton_self _⟩⟩
    · rw [hqueues]
      exact List.mem_singleton_self _
    · exact List.mem_singleton_self _
  exact ⟨hqueues, (reports_honest informs (by decide) quadPton .little reporting (by decide)
    sent hheld).1⟩

end Agentsmith.HonestReports
