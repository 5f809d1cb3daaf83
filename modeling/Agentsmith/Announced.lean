import Agentsmith.Distribution
import Agentsmith.HonestReports
import Agentsmith.NoRelay

/-!
What this agent blocks is announced to every agent it informs.

`main` starts the threads before it starts the client, and a record given to a client that is not
started is lost. No block is lost in this way: the blocks announced are those of records from this
host, such a record comes from a line of the log file, and `main` follows the file only when it
has started the client. From then on the client keeps what it is given, and every queue gets it.
-/

namespace Agentsmith.Announced

open Agentsmith.Lib.CStrings Agentsmith.Lib.Words Agentsmith.Lib.Runs Agentsmith.Globals
open Agentsmith.Records Agentsmith.RecordsMap Agentsmith.Daemon Agentsmith.PerAddress
open Agentsmith.Stored Agentsmith.Intake Agentsmith.DoAction Agentsmith.Distribution
open Agentsmith.Informer Agentsmith.HonestReports
open Agentsmith.NoRelay (given forced_idle clientStep_accepts)
open Agentsmith.Client (Pc Move clientStart clientStep clientQueueFlush clientQueueRecord
  clientQueueFlushed)
open Agentsmith.Exclude (InetPton)
open Agentsmith.ExcludeCidr (quadPton)

/-- A string captured from the log file. -/
def IsLine (x : Turn) : Prop :=
  match x with
  | .moment ⟨_, _, .line _ _⟩ => True
  | _ => False

/-- `main` follows the log file after it has started the client. -/
def InOrder (xs : List Turn) : Prop :=
  ∀ pre x post, xs = pre ++ x :: post → IsLine x → .start ∈ pre

section

variable (o : Options)

/-- The call of `_do_action` that is carried out in a turn, and the answer of `access`. -/
def made (s : Informer.St) (x : Turn) : List (Call × Bool) :=
  match x with
  | .go access =>
    match s.client.pc, s.todo with
    | .idle, .call c :: _ => if (doAction o access c).isSome then [(c, access)] else []
    | _, _ => []
  | _ => []

/-- The calls carried out in a run. -/
def carried (pton : InetPton) (e : Endian) (xs : List Turn) : List (Call × Bool) :=
  output (informerStep o pton e) (made o) informerInit xs

/-- The blocks that are to be announced: the action could be run, and the record is this host's. -/
def announced (as : List (Call × Bool)) : List HostRecord :=
  as.filterMap fun a => if a.2 = true ∧ Distributed o a.1 then some a.1.ptr else none

end

variable {o : Options} {pton : InetPton} {e : Endian} {s : Informer.St} {xs : List Turn}
  {c : Client.St}

/-! ### The client takes what it is given -/

lemma record_takes (hpc : c.pc = .idle) (hstart : c.started = true) {r : HostRecord}
    (hr : 2 < r.addr.1.length) :
    (clientQueueRecord r c).accepted ++ (forced (clientQueueRecord r c)).toList =
      c.accepted ++ [r] := by
  have hs : ¬ (!c.started) = true := by rw [hstart]; decide
  unfold clientQueueRecord
  rw [if_neg (Nat.not_le.mpr hr), if_neg hs]
  split
  · rename_i hfull
    have hfill : ¬ c.fill < 1 := fun h => by
      unfold Client.hostrecordVectorLen at hfull
      omega
    rw [clientQueueFlush, if_neg hs, if_neg hfill]
    rfl
  · have hnone : forced { c with
        vector := Function.update c.vector c.fill (some r)
        fill := c.fill + 1
        accepted := c.accepted ++ [r] } = none := forced_idle hpc
    rw [hnone]
    exact List.append_nil _

lemma flush_takes (hpc : c.pc = .idle) :
    (clientQueueFlush none c).accepted = c.accepted ∧ forced (clientQueueFlush none c) = none := by
  unfold clientQueueFlush
  split
  · exact ⟨rfl, forced_idle hpc⟩
  · split
    · exact ⟨rfl, forced_idle hpc⟩
    · exact ⟨rfl, rfl⟩

lemma flushed_takes (hstart : c.started = true) {back : Option HostRecord}
    (hback : ∀ r, back = some r → 2 < r.addr.1.length) :
    (clientQueueFlushed back c).accepted ++ (forced (clientQueueFlushed back c)).toList =
      c.accepted ++ back.toList := by
  unfold clientQueueFlushed
  rcases back with _ | r
  · rfl
  · exact record_takes (c := { c with
      vector := fun k => if k < Client.hostrecordVectorLen then none else c.vector k
      fill := 0
      pc := .idle }) rfl hstart (hback r rfl)

/-- **A started client** takes each record it is called with. -/
lemma clientStep_takes (hstart : c.started = true)
    (hback : ∀ r, forced c = some r → 2 < r.addr.1.length) {m : Move}
    (hm : ∀ r, m = .record r → c.pc = .idle ∧ 2 < r.addr.1.length) :
    (clientStep c m).accepted ++ (forced (clientStep c m)).toList =
      c.accepted ++ (forced c).toList ++ given m := by
  unfold clientStep
  rcases hpc : c.pc with _ | ⟨i, back⟩ | _ <;> cases m
  case idle.record r =>
    obtain ⟨-, hr⟩ := hm r rfl
    rw [forced_idle hpc]
    exact (record_takes hpc hstart hr).trans (by simp [given])
  case idle.flush =>
    obtain ⟨hacc, hforced⟩ := flush_takes hpc
    show (clientQueueFlush none c).accepted ++ (forced (clientQueueFlush none c)).toList = _
    rw [hacc, hforced, forced_idle hpc]
    simp [given]
  case flushing.next =>
    have hforced : forced c = back := by rw [forced, hpc]
    rw [hforced] at hback ⊢
    dsimp only
    split
    · simp [forced, given]
    · rw [flushed_takes hstart hback]
      simp [given]
  case flushing.record r | aborted.record r => exact absurd (hm r rfl).1 (by rw [hpc]; simp)
  case idle.take i | flushing.take i =>
    have hsame : forced { c with queues := c.queues.modify i Client.clientQueueTake } =
        forced c := rfl
    rw [hpc] at hsame
    dsimp only
    rw [hsame]
    simp [given]
  all_goals simp [given]

lemma record_started (c : Client.St) (r : HostRecord) :
    (clientQueueRecord r c).started = c.started := by
  unfold clientQueueRecord clientQueueFlush
  split_ifs <;> rfl

lemma clientStep_started (c : Client.St) (m : Move) : (clientStep c m).started = c.started := by
  unfold clientStep
  split
  · rfl
  · rfl
  · exact record_started c _
  · unfold clientQueueFlush
    split_ifs <;> rfl
  · split
    · rfl
    · unfold clientQueueFlushed
      split
      · rfl
      · exact record_started ..
  · rfl

/-- A client that is not started has taken nothing and has no queues, and no flush is on. -/
structure Asleep (c : Client.St) : Prop where
  started : c.started = false
  accepted : c.accepted = []
  queues : c.queues = []
  idle : ∀ i back, c.pc ≠ .flushing i back

lemma Asleep.forced (h : Asleep c) : forced c = none := by
  unfold Informer.forced
  rcases hpc : c.pc with _ | ⟨i, back⟩ | _
  · rfl
  · exact absurd hpc (h.idle i back)
  · rfl

/-- It does not change as long as it is not given a record. -/
lemma Asleep.step (h : Asleep c) {m : Move} (hm : given m = []) : Asleep (clientStep c m) := by
  unfold clientStep
  rcases hpc : c.pc with _ | ⟨i, back⟩ | _
  · cases m with
    | record r => cases hm
    | flush =>
      have hs : (!c.started) = true := by rw [h.started]; rfl
      show Asleep (clientQueueFlush none c)
      rw [clientQueueFlush, if_pos hs]
      exact h
    | next => exact h
    | take i => exact ⟨h.started, h.accepted, by simp [h.queues], fun _ _ hp => by simp at hp⟩
  · exact absurd hpc (h.idle i back)
  · exact h

/-! ### From the passes to the client -/

/-- The calls that the passes leave are carried out one after the other, and what they announce is
what the client has taken. -/
structure Announces (o : Options) (as : List (Call × Bool)) (s : Informer.St) : Prop where
  calls : as.map Prod.fst ++ calls s = s.daemon.1.filter fun c => c.type = .new
  taken : announced o as = s.client.accepted ++ (forced s.client).toList
  back : ∀ r, forced s.client = some r → 2 < r.addr.1.length
  client : Asleep s.client ∨ s.client.started = true ∧
    (s.client.pc ≠ .aborted → Conserves o.informAgents s.client)

lemma announces_init (o : Options) : Announces o [] informerInit where
  calls := rfl
  taken := rfl
  back := fun r h => by cases h
  client := Or.inl ⟨rfl, rfl, rfl, fun i back h => by cases h⟩

/-- Which calls a pass makes, and that nothing else makes calls of this type. -/
lemma new_calls {d : Daemon.St} (h : Shape d.2) (ev : Event) :
    (daemonStep o.toConfig d ev).1.filter (fun c => c.type = .new) =
      d.1.filter (fun c => c.type = .new) ++
        if ev.act = .actionPass then passCalls o.toConfig d ev.time else [] := by
  rw [step_calls h, List.filter_append]
  congr 1
  split
  · rename_i hact
    have hstep : stepCalls d.2 ev = passCalls o.toConfig d ev.time := by
      rw [passCalls_eq h, stepCalls, hact]
    rw [hstep, List.filter_eq_self]
    intro c hc
    rw [passCalls_eq h] at hc
    obtain ⟨r, -, hcall⟩ := List.mem_flatMap.mp hc
    exact decide_eq_true (mem_newCalls.mp hcall).2.1
  · rename_i hact
    rw [List.filter_eq_nil_iff]
    intro c hc hnew
    rcases calls_cases (mem_stepCalls hc).2 with ⟨hpass, -⟩ | ⟨-, hremove, -⟩
    · exact hact hpass
    · rw [of_decide_eq_true hnew] at hremove
      cases hremove

variable {as : List (Call × Bool)}

lemma Announces.vector (h : Announces o as s) (hshape : Shape s.daemon.2) (ev : Event) :
    Announces o as (vectorStep o s ev) where
  calls := by
    show _ ++ Informer.calls (vectorStep o s ev) = (daemonStep o.toConfig s.daemon ev).1.filter _
    rw [calls_vectorStep, new_calls hshape, ← List.append_assoc, h.calls]
  taken := h.taken
  back := h.back
  client := h.client

/-- The agent is stopped while no flush is on that has been forced. -/
lemma Announces.abort (h : Announces o as s) (hforced : forced s.client = none) :
    Announces o as (abort s) where
  calls := h.calls
  taken := by
    rw [h.taken, hforced]
    rfl
  back := fun r hr => by cases hr
  client := h.client.imp
    (fun hc => ⟨hc.started, hc.accepted, hc.queues, fun i back hp => by cases hp⟩)
    fun hc => ⟨hc.1, fun hpc => absurd rfl hpc⟩

/-- A call of the client that gives it what is announced. -/
lemma Announces.clientDo (h : Announces o as s) {m : Move} {bs : List (Call × Bool)}
    {rest : List Job}
    (hcalls : (as ++ bs).map Prod.fst ++ Informer.calls { s with todo := rest } =
      s.daemon.1.filter fun c => c.type = .new)
    (hbs : announced o bs = given m) (hpc : s.client.pc ≠ .aborted)
    (hm : ∀ r, m = .record r →
      s.client.pc = .idle ∧ s.client.started = true ∧ 2 < r.addr.1.length) :
    Announces o (as ++ bs) (Informer.clientDo { s with todo := rest } m) := by
  have hall : announced o (as ++ bs) = announced o as ++ given m := by
    rw [announced, List.filterMap_append]
    exact congrArg (_ ++ ·) hbs
  have hback : ∀ r, forced (clientStep s.client m) = some r → 2 < r.addr.1.length := by
    intro r hr
    obtain ⟨new, -, hsub⟩ := clientStep_accepts s.client m
    have hmem : r ∈ (forced s.client).toList ++ given m :=
      hsub.subset (List.mem_append_right _ (Option.mem_toList.mpr hr))
    rcases List.mem_append.mp hmem with hold | hnew
    · exact h.back r (Option.mem_toList.mp hold)
    · cases m with
      | record q =>
        obtain rfl := List.mem_singleton.mp hnew
        exact (hm r rfl).2.2
      | _ => cases hnew
  rcases h.client with hasleep | ⟨hstarted, hconserves⟩
  · have hm' : given m = [] := by
      cases m with
      | record r => exact absurd (hm r rfl).2.1 (by rw [hasleep.started]; decide)
      | _ => rfl
    have hstep := hasleep.step hm'
    refine ⟨hcalls, ?_, hback, Or.inl hstep⟩
    show _ = (clientStep s.client m).accepted ++ (forced (clientStep s.client m)).toList
    rw [hall, hm', h.taken, hasleep.accepted, hasleep.forced, hstep.accepted, hstep.forced]
    rfl
  · refine ⟨hcalls, ?_, hback,
      Or.inr ⟨(clientStep_started _ m).trans hstarted, fun _ => conserves_step (hconserves hpc) m⟩⟩
    show _ = (clientStep s.client m).accepted ++ (forced (clientStep s.client m)).toList
    rw [hall, h.taken, clientStep_takes hstarted h.back
      fun r hr => ⟨(hm r hr).1, (hm r hr).2.2⟩]

/-! ### The order of `main` -/

/-- A record from another host. -/
def Foreign (r : HostRecord) : Prop := r.origin.str ≠ localhost

lemma foreign_writes {cfg : Config} {ev : Event} {old : Option HostRecord} {r : HostRecord}
    (hev : ∀ mem x, ev.act ≠ .sighting mem x)
    (hhost : ∀ mem host hr, ev.act = .report mem host hr → host ≠ localhost)
    (hold : ∀ q, old = some q → Foreign q) (h : Writes cfg ev old r) : Foreign r := by
  cases h with
  | insertIp now x => exact absurd rfl (hev true x)
  | updateIp now mem q => exact absurd rfl (hev mem q.addr)
  | insertRecord now host hr =>
    exact fun horigin => hhost true host hr rfl (localhost_of_cut horigin)
  | updateRecord now mem host hr q hq =>
    intro horigin
    rw [merge, bump_eq] at horigin
    exact hhost mem host hr rfl (localhost_of_cut horigin)
  | pass now q =>
    obtain ⟨p, m, hp, -⟩ := passed_frame now q
    rw [hp]
    exact hold q rfl
  | mark now q => exact hold q rfl

lemma inOrder_left {x : Turn} (h : InOrder (xs ++ [x])) : InOrder xs :=
  ((forall_split_snoc (P := fun pre x => IsLine x → Turn.start ∈ pre) xs x).mp h).1

/-- Before the client is started there are only records from other hosts. -/
lemma foreign_before (hhost : ∀ x ∈ xs, HostNumeric x) (horder : InOrder xs)
    (hstart : Turn.start ∉ xs) : ∀ c ∈ calls (informer o pton e xs), Foreign c.ptr := by
  have hadmits : ∀ x ∈ xs, Admits o pton e (fun ev => (∀ mem y, ev.act ≠ .sighting mem y) ∧
      ∀ mem host hr, ev.act = .report mem host hr → host ≠ localhost) x := by
    rintro x hx m ev rfl hev
    refine ⟨fun mem y hact => ?_, fun mem host hr hact => host_of_report (hhost _ hx) hev hact⟩
    obtain ⟨hact', -⟩ := event_eq.mp hev
    rw [hact] at hact'
    have hline := (line_of_sighting hact').1
    obtain ⟨pre, post, rfl⟩ := List.append_of_mem hx
    refine hstart (List.mem_append_left _ (horder pre _ post rfl ?_))
    obtain ⟨t, list, input⟩ := m
    obtain rfl : input = .line mem y := hline
    trivial
  have hcarries := informer_carries (S := Foreign) (Q := fun _ => True) hadmits
    (fun ev old r hev hold hw => foreign_writes hev.1 hev.2 hold hw) fun _ _ _ _ => trivial
  exact fun c hc => (hcarries.calls c hc).2

lemma started_step {x : Turn} (h : s.client.started = true) :
    (informerStep o pton e s x).client.started = true := by
  have hgo : Goes o pton e s x (informerStep o pton e s x) := goes_step s x
  generalize informerStep o pton e s x = s' at hgo ⊢
  cases hgo with
  | stay | abort | vector | skip => exact h
  | start => rfl
  | record | flush | next | take => exact (clientStep_started ..).trans h

lemma aborted_step (h : s.client.pc = .aborted) (x : Turn) : informerStep o pton e s x = s := by
  unfold informerStep
  exact if_pos h

/-- An agent that informs others has a client from the start on. -/
lemma awake_of_start (hinform : o.inform = 1 ∧ o.informAgents ≠ 0) (hstart : Turn.start ∈ xs) :
    (informer o pton e xs).client.pc = .aborted ∨
      (informer o pton e xs).client.started = true := by
  obtain ⟨pre, post, rfl⟩ := List.append_of_mem hstart
  have hafter : (informer o pton e (pre ++ [.start])).client.pc = .aborted ∨
      (informer o pton e (pre ++ [.start])).client.started = true := by
    rw [informer, run_snoc]
    generalize run (informerStep o pton e) informerInit pre = s
    unfold informerStep
    split
    · rename_i habort
      exact Or.inl habort
    · dsimp only
      split
      · exact Or.inr rfl
      · rename_i hno
        exact Or.inr (by simpa [hinform.1, hinform.2] using hno)
  have hlist : pre ++ .start :: post = (pre ++ [.start]) ++ post := by simp
  rw [hlist, informer, run_append]
  refine run_all (P := fun s : Informer.St => s.client.pc = .aborted ∨ s.client.started = true)
    hafter (fun s x h => ?_) post
  rcases h with habort | hstarted
  · exact Or.inl (by rw [aborted_step habort]; exact habort)
  · exact Or.inr (started_step hstarted)

/-! ### One turn -/

lemma announced_singleton (c : Call) (access : Bool) :
    announced o [(c, access)] = if access = true ∧ Distributed o c then [c.ptr] else [] := by
  unfold announced
  rw [List.filterMap_cons, List.filterMap_nil]
  split_ifs <;> rfl

/-- What a call of `_do_action` gives to the client is what it announces. -/
lemma announced_queue {access : Bool} {c : Call} {d : Effect} (h : doAction o access c = some d) :
    announced o [(c, access)] = d.queue.toList ∧ ∀ r, d.queue = some r → 2 < r.addr.1.length := by
  rw [announced_singleton]
  unfold doAction at h
  cases access with
  | false =>
    obtain rfl := (Option.some.inj h).symm
    exact ⟨rfl, fun r hr => by cases hr⟩
  | true =>
    rw [if_neg (by decide)] at h
    by_cases hd : Distributed o c
    · rw [if_pos hd] at h
      split at h
      · rename_i hlen
        obtain rfl := (Option.some.inj h).symm
        refine ⟨if_pos ⟨rfl, hd⟩, fun r hr => ?_⟩
        obtain rfl := Option.some.inj hr
        exact hlen
      · cases h
    · rw [if_neg hd] at h
      obtain rfl := (Option.some.inj h).symm
      exact ⟨if_neg fun hboth => hd hboth.2, fun r hr => by cases hr⟩

/-- A call is carried out, and is no longer to do. -/
lemma Announces.carry (h : Announces o as s) {c : Call} {rest : List Job}
    (htodo : s.todo = .call c :: rest) (access : Bool) :
    (as ++ [(c, access)]).map Prod.fst ++ Informer.calls { s with todo := rest } =
      s.daemon.1.filter fun c => c.type = .new := by
  have hcalls : Informer.calls s = c :: Informer.calls { s with todo := rest } := by
    unfold Informer.calls
    rw [htodo]
    rfl
  rw [← h.calls, hcalls]
  simp

/-- A call of the client that gives it nothing. -/
lemma Announces.goesOn (h : Announces o as s) (hpc : s.client.pc ≠ .aborted) {m : Move}
    (hm : given m = []) {rest : List Job}
    (hrest : Informer.calls { s with todo := rest } = Informer.calls s) :
    Announces o as (Informer.clientDo { s with todo := rest } m) := by
  have hdo : Announces o (as ++ []) (Informer.clientDo { s with todo := rest } m) :=
    h.clientDo (by rw [List.append_nil, hrest]; exact h.calls) hm.symm hpc
      (fun r hr => absurd hm (by rw [hr]; simp [given]))
  rwa [List.append_nil] at hdo

/-- A turn of the action thread. -/
lemma Announces.goOn (h : Announces o as s) (hpc : s.client.pc ≠ .aborted)
    (hstarted : ∀ c ∈ Informer.calls s, Distributed o c → s.client.started = true)
    (access : Bool) :
    Announces o (as ++ made o s (.go access)) (Informer.goOn o access s) := by
  unfold Informer.goOn made
  rcases hp : s.client.pc with _ | ⟨i, back⟩ | _
  · rcases htodo : s.todo with _ | ⟨c | _, rest⟩
    · rw [List.append_nil]
      exact h
    · -- a call of `_do_action`
      have hcarry := h.carry htodo access
      dsimp only
      rcases hd : doAction o access c with _ | ⟨_ | r, system⟩
      · rw [if_neg (by decide), List.append_nil]
        exact h.abort (forced_idle hp)
      · obtain ⟨hqueue, -⟩ := announced_queue hd
        refine ⟨hcarry, ?_, h.back, h.client⟩
        show announced o (as ++ [(c, access)]) = _
        rw [announced, List.filterMap_append]
        exact (congrArg (_ ++ ·) hqueue).trans ((List.append_nil _).trans h.taken)
      · obtain ⟨hqueue, hlen⟩ := announced_queue hd
        refine h.clientDo hcarry hqueue hpc fun q hq => ?_
        obtain rfl := Move.record.inj hq
        have hmem : c ∈ Informer.calls s := by
          rw [Informer.calls, htodo]
          exact List.mem_cons_self
        exact ⟨hp, hstarted c hmem (doAction_queue hd rfl).2, hlen r rfl⟩
    · rw [List.append_nil]
      refine h.goesOn hpc rfl ?_
      unfold Informer.calls
      rw [htodo]
      rfl
  · rw [List.append_nil]
    exact h.goesOn hpc rfl rfl
  · exact absurd hp hpc

lemma announces_step (h : Announces o as s) (hshape : Shape s.daemon.2) (hinform :
    s.client.pc ≠ .aborted → ∀ c ∈ calls s, Distributed o c → s.client.started = true) (x : Turn) :
    Announces o (as ++ made o s x) (informerStep o pton e s x) := by
  by_cases hpc : s.client.pc = .aborted
  · have hmade : made o s x = [] := by
      unfold made
      rw [hpc]
      cases x <;> rfl
    rw [aborted_step hpc, hmade, List.append_nil]
    exact h
  · cases x with
    | go access =>
      rw [informerStep, if_neg hpc]
      exact h.goOn hpc (hinform hpc) access
    | take k =>
      have hmade : made o s (.take k) = [] := rfl
      rw [informerStep, if_neg hpc, hmade, List.append_nil]
      exact h.goesOn hpc rfl rfl
    | moment m =>
      have hmade : made o s (.moment m) = [] := rfl
      rw [informerStep, if_neg hpc, hmade, List.append_nil]
      split
      · exact h
      · rename_i hlock
        split
        · exact h.abort (not_not.mp (not_or.mp hlock).2)
        · exact h
        · split
          · exact h
          · exact h.vector hshape _
    | start =>
      have hmade : made o s .start = [] := rfl
      rw [informerStep, if_neg hpc, hmade, List.append_nil]
      split
      · rename_i hnot
        rcases h.client with hasleep | ⟨hstarted, -⟩
        · refine ⟨h.calls, ?_, fun r hr => (by cases hr),
            Or.inr ⟨rfl, fun _ => conserves_start _⟩⟩
          rw [h.taken, hasleep.accepted, hasleep.forced]
          rfl
        · exact absurd (hstarted.symm.trans hnot.1) (by decide)
      · exact h

lemma announces_run (hhost : ∀ x ∈ xs, HostNumeric x) (horder : InOrder xs) :
    Announces o (carried o pton e xs) (informer o pton e xs) := by
  refine run_hist (P := fun xs s => (∀ x ∈ xs, HostNumeric x) → InOrder xs →
    Announces o (carried o pton e xs) s) (fun _ _ => announces_init o) (fun xs x ih hhost horder =>
      ?_) xs hhost horder
  have hhost' : ∀ y ∈ xs, HostNumeric y := fun y hy => hhost y (List.mem_append_left _ hy)
  have horder' := inOrder_left horder
  have hadmits : ∀ x ∈ xs, Admits o pton e (fun _ => True) x := fun _ _ _ _ _ _ => trivial
  have hshape : Shape (informer o pton e xs).daemon.2 :=
    (informer_carries (S := fun _ => True) (Q := fun _ => True) hadmits
      (fun _ _ _ _ _ _ => trivial) fun _ _ _ _ => trivial).shape
  rw [carried, output_snoc]
  refine announces_step (ih hhost' horder') hshape (fun hpc c hc hd => ?_) x
  -- a record of this host comes after the start
  have hstart : Turn.start ∈ xs := by
    by_contra hno
    exact foreign_before hhost' horder' hno c hc hd.2.2.2
  exact (awake_of_start ⟨hd.2.1, hd.2.2.1⟩ hstart).resolve_left hpc

/-- Every queue of a client that goes on has got what is announced. -/
lemma Announces.queue (h : Announces o as s) (hstarted : s.client.started = true)
    (hpc : s.client.pc ≠ .aborted) :
    s.client.queues.length = min 256 o.informAgents ∧
      ∀ k q, s.client.queues[k]? = some q →
        q.taken.flatten ++ q.head ++ outstanding s.client k ++ (forced s.client).toList =
          announced o as := by
  rcases h.client with hasleep | ⟨-, hconserves⟩
  · exact absurd (hasleep.started.symm.trans hstarted) (by decide)
  · have hclient := hconserves hpc
    exact ⟨hclient.count, fun k q hq => by rw [hclient.queue k q hq, h.taken]⟩

/-- **Every block is announced**: when `main` follows the log file after it has started the client
and the agent has not been stopped, the calls of the passes are carried out one after the other,
and every queue gets the records of those calls that block an address for this host, each once and
in order. None is lost before the client is started. -/
theorem blocks_announced (o : Options) (pton : InetPton) (e : Endian) (xs : List Turn)
    (hhost : ∀ x ∈ xs, HostNumeric x) (horder : InOrder xs) :
    (carried o pton e xs).map Prod.fst ++ calls (informer o pton e xs) =
        (informer o pton e xs).daemon.1.filter (fun c => c.type = .new) ∧
      ((informer o pton e xs).client.started = false →
        announced o (carried o pton e xs) = []) ∧
      ((informer o pton e xs).client.started = true →
        (informer o pton e xs).client.pc ≠ .aborted →
          (informer o pton e xs).client.queues.length = min 256 o.informAgents ∧
          ∀ k q, (informer o pton e xs).client.queues[k]? = some q →
            q.taken.flatten ++ q.head ++ outstanding (informer o pton e xs).client k ++
              (forced (informer o pton e xs).client).toList =
                announced o (carried o pton e xs)) := by
  have h : Announces o (carried o pton e xs) (informer o pton e xs) := announces_run hhost horder
  refine ⟨h.calls, fun hnot => ?_, h.queue⟩
  rcases h.client with hasleep | ⟨hstarted, -⟩
  · rw [h.taken, hasleep.accepted, hasleep.forced]
    rfl
  · exact absurd (hstarted.symm.trans hnot) (by decide)

/-- What is in order from its first turn on. -/
lemma inOrder_start (xs : List Turn) : InOrder (.start :: xs) := by
  rintro pre x post hxs hline
  rcases pre with _ | ⟨y, pre⟩
  · obtain ⟨rfl, -⟩ := List.cons.inj hxs
    exact absurd hline id
  · obtain ⟨rfl, -⟩ := List.cons.inj hxs
    exact List.mem_cons_self

/-- One block, which the worker of the one queue has taken. -/
theorem blocks_announced_run :
    announced informs (carried informs quadPton .little reporting) = [sent] ∧
      (informer informs quadPton .little reporting).client.started = true ∧
      (informer informs quadPton .little reporting).client.queues.length = 1 ∧
      ∀ k q, (informer informs quadPton .little reporting).client.queues[k]? = some q →
        q.taken.flatten ++ q.head ++
          outstanding (informer informs quadPton .little reporting).client k ++
          (forced (informer informs quadPton .little reporting).client).toList = [sent] := by
  have hannounced : announced informs (carried informs quadPton .little reporting) = [sent] := by
    decide +kernel
  have hstarted : (informer informs quadPton .little reporting).client.started = true := by
    decide +kernel
  have hpc : (informer informs quadPton .little reporting).client.pc ≠ .aborted := by
    decide +kernel
  obtain ⟨hcount, hqueue⟩ := (blocks_announced informs quadPton .little reporting (by decide)
    (inOrder_start _)).2.2 hstarted hpc
  exact ⟨hannounced, hstarted, hcount, fun k q hq => (hqueue k q hq).trans hannounced⟩

end Agentsmith.Announced
