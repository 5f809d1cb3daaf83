import Agentsmith.Intake
import Agentsmith.Lib.Permits

/-!
The server: the thread of `network_start_server`, which accepts connections, and a thread of
`network_server_worker` for each of them.

A worker waits for `worker_semaphore` before it looks at its connection, and posts it at the
label `END`. The threads may take their calls in any order. Where the process ends, or the
semaphore is used after `sem_destroy`, the run has no state.
-/

namespace Agentsmith.ServerWorkers

open Agentsmith.Lib.CStrings Agentsmith.Lib.Words Agentsmith.Lib.Runs Agentsmith.Lib.Permits
open Agentsmith.Globals Agentsmith.Daemon
open Agentsmith.Exclude (InetPton)
open Agentsmith.Intake (networkServerWorker frame)

/-! ### Configuration -/

def maxInconn : Int32 := 256
def defaultMaxinconnections : Int32 := 5
def maxWaitWorker : ℕ := 10

/-- What `_config_sanitize` makes of `maxinconnections`. -/
def configSanitize (maxinconnections : Int32) : Int32 :=
  let maxinconnections := if maxinconnections > maxInconn then maxInconn else maxinconnections
  if maxinconnections < 1 then defaultMaxinconnections else maxinconnections

/-! ### The threads -/

/-- The next call of a worker: `sem_wait`, `select`, `netssl_server`, the read, what a command
asks for, `sem_post` at `END`, the shutdown of the connection at `ENDNOPOST`. -/
inductive Pc
  | waiting | selecting | handshake | reading
  | dispatching (buff : Field remoteCommandSize)
  | posting | closing | exited
  deriving DecidableEq

/-- `ssl` says whether it is not `NULL`. Next to the variables of the worker stand whether its
`sem_wait` has succeeded, and how often it has posted. -/
structure Worker where
  pc : Pc
  host : CStr
  ssl : Bool
  waited : Bool
  posts : ℕ

/-- The next call of the server: `select`; the `n`-th look at the semaphore before the next
connection, and `accept`, with the connections pending behind it; after a cancellation the
`n`-th look at the semaphore, and `sem_destroy`. -/
inductive ServerPc
  | multiplexing
  | checking (pending n : ℕ)
  | accepting (pending : ℕ)
  | shutdown (n : ℕ)
  | destroying
  | gone
  deriving DecidableEq

/-- `value` is that of `worker_semaphore`. -/
structure St where
  value : ℕ
  destroyed : Bool
  workers : List Worker
  server : ServerPc
  records : Daemon.St

def St.put (s : St) (i : ℕ) (w : Worker) : St := { s with workers := s.workers.set i w }

/-! ### A worker -/

inductive Select
  | ready (isset : Bool)
  | timeOut
  | interrupted
  | error

/-- How a call of a worker comes out. -/
inductive WorkerInput
  | semWait (ok : Bool)
  | select (r : Select)
  | netsslServer (retval : ℤ)
  | read (nread : ℤ) (buff : Field remoteCommandSize)
  | command (now : Int64) (list : Exclude.Store) (mem : Bool)
  | semPost
  | sslShutdown (retval : ℤ)

def afterSelect (nossl : Bool) : Select → Pc
  | .interrupted => .selecting
  | .ready true => if nossl then .reading else .handshake
  | .ready false | .timeOut | .error => .posting

def afterRead (nread : ℤ) (buff : Field remoteCommandSize) : Pc :=
  if nread = 0 then .posting
  else if nread < 0 then .posting
  else if nread ≠ remoteCommandSize then .posting
  else .dispatching buff

section

variable (nossl : Bool) (o : Options) (pton : InetPton) (e : Endian)

/-- `network_server_worker`, from one call to the next, for worker `i`. -/
def workerStep (s : St) (i : ℕ) (w : Worker) (x : WorkerInput) : Option St :=
  match w.pc, x with
  | .waiting, .semWait true =>
    if s.destroyed then none
    else
      match s.value with
      | 0 => some s
      | v + 1 => some ({ s with value := v }.put i { w with pc := .selecting, waited := true })
  | .waiting, .semWait false => some (s.put i { w with pc := .closing })
  | .selecting, .select r => some (s.put i { w with pc := afterSelect nossl r })
  | .handshake, .netsslServer retval =>
    if retval ≠ retvalOk then some (s.put i { w with pc := .posting })
    else some (s.put i { w with pc := .reading, ssl := true })
  | .reading, .read nread buff => some (s.put i { w with pc := afterRead nread buff })
  | .dispatching buff, .command now list mem =>
    match networkServerWorker o pton e list mem w.host buff.1 with
    | none => none
    | some .hangUp => some (s.put i { w with pc := .posting })
    | some .ignored => some (s.put i { w with pc := .reading })
    | some (.call a) =>
      some ({ s with records := daemonStep o.toConfig s.records ⟨now, a⟩ }.put i
        { w with pc := .reading })
  | .posting, .semPost =>
    if s.destroyed then none
    else
      some ({ s with value := s.value + 1 }.put i { w with pc := .closing, posts := w.posts + 1 })
  | .closing, .sslShutdown retval =>
    if w.ssl ∧ retval = 0 then some s else some (s.put i { w with pc := .exited })
  | _, _ => some s

/-! ### The server -/

/-- How a call of the server comes out. -/
inductive ServerInput
  | pending (n : ℕ)
  | interrupted
  | error
  | semGetvalue (ok : Bool)
  | accept (ok created : Bool) (host : CStr)
  | noMemory
  | cancel
  | semDestroy (ok : Bool)

/-- The loop over the descriptors, with so many of them ready. -/
def nextPending : ℕ → ServerPc
  | 0 => .multiplexing
  | pending + 1 => .checking pending 1

/-- `network_start_server` from its loop on, and `_network_server_shutdown_and_cleanup`. -/
def serverStep (maxinconnections : Int32) (s : St) (x : ServerInput) : Option St :=
  match s.server, x with
  | .multiplexing, .interrupted => some s
  | .multiplexing, .error => some { s with server := .shutdown 1 }
  | .multiplexing, .pending n => some { s with server := nextPending n }
  | .checking pending n, .semGetvalue ok =>
    -- on failure `sem_val` is as it was before, below 1
    let semVal := if ok then s.value else 0
    if semVal < 1 ∧ ok ∧ n < maxWaitWorker then
      some { s with server := .checking pending (n + 1) }
    else some { s with server := .accepting pending }
  | .accepting pending, .accept ok created host =>
    let s := { s with server := nextPending pending }
    if ok ∧ created then
      some { s with workers := s.workers ++ [⟨.waiting, host, false, false, 0⟩] }
    else some s
  | .checking _ _, .noMemory | .accepting _, .noMemory => none
  | .multiplexing, .cancel | .checking _ _, .cancel | .accepting _, .cancel =>
    some { s with server := .shutdown 1 }
  | .shutdown n, .semGetvalue ok =>
    if (s.value : ℤ) < maxinconnections.toInt ∧ ok ∧ n < maxWaitWorker then
      some { s with server := .shutdown (n + 1) }
    else some { s with server := .destroying }
  | .destroying, .semDestroy ok => some { s with server := .gone, destroyed := ok }
  | _, _ => some s

/-! ### Runs -/

/-- A call of the server, of a worker, or of another thread into the vector. -/
inductive Event
  | server (x : ServerInput)
  | worker (i : ℕ) (x : WorkerInput)
  | other (ev : Daemon.Event)

/-- The server after `sem_init`. -/
def serverInit (maxinconnections : Int32) : St where
  value := maxinconnections.toInt.toNat
  destroyed := false
  workers := []
  server := .multiplexing
  records := ([], Records.recordsInit)

def step (maxinconnections : Int32) (s : Option St) (ev : Event) : Option St :=
  match s, ev with
  | none, _ => none
  | some s, .server x => serverStep maxinconnections s x
  | some s, .worker i x =>
    match s.workers[i]? with
    | none => some s
    | some w => workerStep nossl o pton e s i w x
  | some s, .other ev => some { s with records := daemonStep o.toConfig s.records ev }

/-- The server with the option `maxinconnections` as it is configured. -/
def networkServer (maxinconnections : Int32) (evs : List Event) : Option St :=
  run (step nossl o pton e (configSanitize maxinconnections))
    (some (serverInit (configSanitize maxinconnections))) evs

end

/-! ### The permits -/

/-- The worker is at its connection: behind the wait, and not yet at `END`. -/
def Pc.serves : Pc → Bool
  | .selecting | .handshake | .reading | .dispatching _ => true
  | _ => false

/-- The worker is between its successful `sem_wait` and its `sem_post`. -/
def Worker.between (w : Worker) : Bool := w.waited && w.posts == 0

def St.pool (s : St) : Pool Worker := ⟨s.value, s.workers⟩

/-- What a worker has done to the semaphore, by the call it is at. -/
def Worker.Sound (w : Worker) : Prop :=
  match w.pc with
  | .waiting => w.waited = false ∧ w.posts = 0
  | .closing | .exited => w.posts = if w.waited then 1 else 0
  | _ => w.waited = true ∧ w.posts = 0

variable {nossl : Bool} {o : Options} {pton : InetPton} {e : Endian} {s s' : St} {i : ℕ}
  {w : Worker}

/-- A worker at its connection stays there or goes to `END`; one without a permit is on its way
out. -/
def Goes (p q : Pc) : Prop :=
  (p.serves = true ∧ (q.serves = true ∨ q = .posting)) ∨
    ((p = .waiting ∨ p = .closing) ∧ (q = .closing ∨ q = .exited))

/-- All that a call of worker `i` may do. -/
inductive Moved (s : St) (i : ℕ) (w : Worker) : St → Prop
  | rest : Moved s i w s
  | acquired {v : ℕ} (hpc : w.pc = .waiting) (hv : s.value = v + 1) :
      Moved s i w ({ s with value := v }.put i { w with pc := .selecting, waited := true })
  | posted (hpc : w.pc = .posting) :
      Moved s i w
        ({ s with value := s.value + 1 }.put i { w with pc := .closing, posts := w.posts + 1 })
  | went {pc : Pc} {ssl : Bool} {records : Daemon.St} (hgo : Goes w.pc pc)
      (hrec : records = s.records ∨ w.pc.serves = true) :
      Moved s i w ({ s with records := records }.put i { w with pc := pc, ssl := ssl })

lemma afterSelect_goes (r : Select) : Goes .selecting (afterSelect nossl r) := by
  refine Or.inl ⟨rfl, ?_⟩
  rcases r with isset | _ | _ | _
  · cases isset
    · exact Or.inr rfl
    · cases nossl <;> exact Or.inl rfl
  · exact Or.inr rfl
  · exact Or.inl rfl
  · exact Or.inr rfl

lemma afterRead_goes (nread : ℤ) (buff : Field remoteCommandSize) :
    Goes .reading (afterRead nread buff) := by
  refine Or.inl ⟨rfl, ?_⟩
  unfold afterRead
  split_ifs
  · exact Or.inr rfl
  · exact Or.inr rfl
  · exact Or.inr rfl
  · exact Or.inl rfl

lemma workerStep_moved {x : WorkerInput} (h : workerStep nossl o pton e s i w x = some s') :
    Moved s i w s' := by
  obtain ⟨pc, host, ssl, waited, posts⟩ := w
  unfold workerStep at h
  dsimp only at h
  split at h
  · split at h
    · cases h
    · split at h
      · cases h
        exact .rest
      · rename_i v hv
        cases h
        exact .acquired rfl hv
  · cases h
    exact .went (Or.inr ⟨Or.inl rfl, Or.inl rfl⟩) (Or.inl rfl)
  · cases h
    exact .went (afterSelect_goes _) (Or.inl rfl)
  · split at h
    · cases h
      exact .went (Or.inl ⟨rfl, Or.inr rfl⟩) (Or.inl rfl)
    · cases h
      exact .went (Or.inl ⟨rfl, Or.inl rfl⟩) (Or.inl rfl)
  · cases h
    exact .went (afterRead_goes _ _) (Or.inl rfl)
  · split at h
    · cases h
    · cases h
      exact .went (Or.inl ⟨rfl, Or.inr rfl⟩) (Or.inl rfl)
    · cases h
      exact .went (Or.inl ⟨rfl, Or.inl rfl⟩) (Or.inl rfl)
    · cases h
      exact .went (Or.inl ⟨rfl, Or.inl rfl⟩) (Or.inr rfl)
  · split at h
    · cases h
    · cases h
      exact .posted rfl
  · split at h
    · cases h
      exact .rest
    · cases h
      exact .went (Or.inr ⟨Or.inr rfl, Or.inr rfl⟩) (Or.inl rfl)
  · cases h
    exact .rest

/-- The server starts a worker, or leaves the workers and the semaphore's value alone. -/
lemma serverStep_cases {maxinconnections : Int32} {x : ServerInput}
    (h : serverStep maxinconnections s x = some s') :
    s'.value = s.value ∧ s'.records = s.records ∧
      (s'.workers = s.workers ∨
        ∃ host, s'.workers = s.workers ++ [⟨.waiting, host, false, false, 0⟩]) := by
  have hsame : ∀ pc, some { s with server := pc } = some s' →
      s'.value = s.value ∧ s'.records = s.records ∧ (s'.workers = s.workers ∨
        ∃ host, s'.workers = s.workers ++ [⟨.waiting, host, false, false, 0⟩]) := by
    intro pc hs
    cases hs
    exact ⟨rfl, rfl, Or.inl rfl⟩
  unfold serverStep at h
  split at h
  case h_4 =>
    -- the look at the semaphore
    dsimp only at h
    split_ifs at h <;> exact hsame _ h
  case h_5 =>
    -- a connection
    dsimp only at h
    split at h
    · cases h
      exact ⟨rfl, rfl, Or.inr ⟨_, rfl⟩⟩
    · exact hsame _ h
  case h_11 => split at h <;> exact hsame _ h
  case h_12 =>
    -- `sem_destroy`
    cases h
    exact ⟨rfl, rfl, Or.inl rfl⟩
  all_goals first
    | exact hsame _ h
    | cases h

lemma Worker.Sound.fresh (h : w.Sound) (hpc : w.pc = .waiting) :
    w.waited = false ∧ w.posts = 0 := by
  unfold Worker.Sound at h
  rwa [hpc] at h

lemma Worker.Sound.holding (h : w.Sound) (hpc : w.pc.serves = true ∨ w.pc = .posting) :
    w.waited = true ∧ w.posts = 0 := by
  obtain ⟨pc, host, ssl, waited, posts⟩ := w
  rcases hpc with hserves | rfl
  · cases pc <;> first | exact h | cases hserves
  · exact h

lemma Worker.Sound.settled (h : w.Sound)
    (hpc : w.pc = .waiting ∨ w.pc = .closing ∨ w.pc = .exited) :
    w.posts = if w.waited then 1 else 0 := by
  rcases hpc with hpc | hpc | hpc
  · obtain ⟨hwaited, hposts⟩ := h.fresh hpc
    rw [hwaited, hposts]
    rfl
  all_goals
    unfold Worker.Sound at h
    rwa [hpc] at h

lemma Worker.Sound.between_of_serves (h : w.Sound) (hpc : w.pc.serves = true ∨ w.pc = .posting) :
    w.between = true := by
  obtain ⟨hwaited, hposts⟩ := h.holding hpc
  rw [Worker.between, hwaited, hposts]
  rfl

lemma Worker.Sound.not_between (h : w.Sound)
    (hpc : w.pc = .waiting ∨ w.pc = .closing ∨ w.pc = .exited) : w.between = false := by
  rw [Worker.between, h.settled hpc]
  cases w.waited <;> rfl

/-- A worker goes on with the permit it has, or without. -/
lemma Worker.Sound.goes {pc : Pc} {ssl : Bool} (h : w.Sound) (hgo : Goes w.pc pc) :
    Worker.Sound { w with pc := pc, ssl := ssl } := by
  rcases hgo with ⟨hserves, hto⟩ | ⟨hfrom, hto⟩
  · have hboth := h.holding (Or.inl hserves)
    rcases hto with hto | rfl
    · cases pc <;> first | exact hboth | cases hto
    · exact hboth
  · have hposts := h.settled (hfrom.imp id Or.inl)
    rcases hto with rfl | rfl
    · exact hposts
    · exact hposts

lemma Moved.sound (h : Moved s i w s') (hw : w.Sound) (hs : ∀ w ∈ s.workers, w.Sound) :
    ∀ w ∈ s'.workers, w.Sound := by
  have hput : ∀ w', w'.Sound → ∀ x ∈ s.workers.set i w', x.Sound := by
    intro w' hw' x hx
    rcases List.mem_or_eq_of_mem_set hx with hold | rfl
    · exact hs x hold
    · exact hw'
  cases h with
  | rest => exact hs
  | acquired hpc hv => exact hput _ ⟨rfl, (hw.fresh hpc).2⟩
  | posted hpc =>
    obtain ⟨hwaited, hposts⟩ := hw.holding (Or.inr hpc)
    refine hput _ ?_
    show w.posts + 1 = if w.waited then 1 else 0
    rw [hwaited, hposts]
    rfl
  | went hgo hrec => exact hput _ (hw.goes hgo)

/-- **A call of a worker is a step of the pool**, in which its permit is the one it holds. -/
theorem Moved.pool_step (h : Moved s i w s') (hi : s.workers[i]? = some w) (hw : w.Sound) :
    Step Worker.between s.pool s'.pool := by
  cases h with
  | rest => exact .rest
  | acquired hpc hv =>
    refine .acquire _ hi (hw.not_between (Or.inl hpc)) ?_ hv
    rw [Worker.between, (hw.fresh hpc).2]
    rfl
  | posted hpc =>
    refine .release _ hi (hw.between_of_serves (Or.inr hpc)) ?_
    unfold Worker.between
    exact Bool.and_eq_false_iff.mpr (Or.inr rfl)
  | went hgo hrec => exact .keep _ hi rfl

lemma Moved.records (h : Moved s i w s') : s'.records = s.records ∨ w.pc.serves = true := by
  cases h with
  | rest => exact Or.inl rfl
  | acquired hpc hv => exact Or.inl rfl
  | posted hpc => exact Or.inl rfl
  | went hgo hrec => exact hrec

/-- The workers have done to the semaphore what they should, and no permit is lost. -/
structure Inv (permits : ℕ) (s : St) : Prop where
  sound : ∀ w ∈ s.workers, w.Sound
  total : s.pool.total Worker.between = permits

variable {permits : ℕ} {maxinconnections : Int32}

lemma inv_init : Inv maxinconnections.toInt.toNat (serverInit maxinconnections) :=
  ⟨fun _ h => absurd h List.not_mem_nil, rfl⟩

lemma inv_step {ev : Event} (h : Inv permits s)
    (hstep : step nossl o pton e maxinconnections (some s) ev = some s') : Inv permits s' := by
  cases ev with
  | server x =>
    obtain ⟨hvalue, -, hworkers⟩ := serverStep_cases hstep
    rcases hworkers with hsame | ⟨host, hnew⟩
    · refine ⟨by rw [hsame]; exact h.sound, ?_⟩
      rw [← h.total, St.pool, St.pool, hvalue, hsame]
    · have hpool : Step Worker.between s.pool s'.pool := by
        rw [St.pool, St.pool, hvalue, hnew]
        exact .join _ rfl
      refine ⟨fun w hw => ?_, (total_step hpool).trans h.total⟩
      rw [hnew] at hw
      rcases List.mem_append.mp hw with hold | hw
      · exact h.sound w hold
      · rw [List.mem_singleton.mp hw]
        exact ⟨rfl, rfl⟩
  | worker i x =>
    simp only [step] at hstep
    split at hstep
    · cases hstep
      exact h
    · rename_i w hw
      have hmoved := workerStep_moved hstep
      have hsound := h.sound w (List.mem_of_getElem? hw)
      exact ⟨hmoved.sound hsound h.sound,
        (total_step (hmoved.pool_step hw hsound)).trans h.total⟩
  | other ev =>
    cases hstep
    exact ⟨h.sound, h.total⟩

lemma networkServer_inv (evs : List Event)
    (h : networkServer nossl o pton e maxinconnections evs = some s) :
    Inv (configSanitize maxinconnections).toInt.toNat s := by
  refine run_some_hist (P := fun _ => Inv (configSanitize maxinconnections).toInt.toNat)
    (fun _ => rfl) (fun s hs => ?_) (fun _ ev s s' hs hstep => inv_step hs hstep) h
  cases hs
  exact inv_init

lemma configSanitize_pos (n : Int32) : 1 ≤ (configSanitize n).toInt := by
  unfold configSanitize
  extract_lets maxinconnections
  by_cases h : maxinconnections < 1
  · rw [if_pos h]
    decide
  · rw [if_neg h]
    exact Int32.le_iff_toInt_le.mp (Int32.not_lt.mp h)

/-- **Conservation of permits**: in every state that the server reaches. At a time no more
workers than permits are at their connections, and no other worker changes the vector. -/
theorem permits_conserved (nossl : Bool) (o : Options) (pton : InetPton) (e : Endian)
    (maxinconnections : Int32) (evs : List Event) {s : St}
    (h : networkServer nossl o pton e maxinconnections evs = some s) :
    (s.value : ℤ) + s.workers.countP Worker.between = (configSanitize maxinconnections).toInt ∧
      (s.workers.countP fun w => w.pc.serves : ℤ) ≤ (configSanitize maxinconnections).toInt ∧
      (∀ i w x s', s.workers[i]? = some w → workerStep nossl o pton e s i w x = some s' →
        s'.records ≠ s.records → w.pc.serves = true) ∧
      ∀ w ∈ s.workers, (w.pc.serves = true → w.between = true) ∧
        (w.pc = .exited → w.posts = if w.waited then 1 else 0) := by
  have hinv := networkServer_inv evs h
  have hpos := configSanitize_pos maxinconnections
  have hserves : ∀ w ∈ s.workers, w.pc.serves = true → w.between = true := fun w hw hpc =>
    (hinv.sound w hw).between_of_serves (Or.inl hpc)
  have htotal : s.value + s.workers.countP Worker.between =
      (configSanitize maxinconnections).toInt.toNat := hinv.total
  have hbound : s.workers.countP (fun w => w.pc.serves) ≤
      (configSanitize maxinconnections).toInt.toNat := by
    have hle := countP_le_total (p := s.pool) hserves
    rwa [hinv.total] at hle
  refine ⟨by omega, by omega, fun i w x s' hw hstep hne => ?_, fun w hw => ⟨hserves w hw, ?_⟩⟩
  · exact ((workerStep_moved hstep).records).resolve_left hne
  · exact fun hpc => (hinv.sound w hw).settled (Or.inr (Or.inr hpc))

/-- One permit, two connections: the second worker waits until the first has seen the end of
its stream, behind a command, and has posted. -/
def session : List Event :=
  let peer := ascii "192.0.2.1"
  let buff := frame Intake.informationCommand (Records.fresh initConfig.toConfig 1 peer)
  [.server (.pending 2), .server (.semGetvalue true), .server (.accept true true peer),
    .worker 0 (.semWait true), .server (.semGetvalue false), .server (.accept true true peer),
    .worker 1 (.semWait true), .worker 0 (.select .interrupted),
    .worker 0 (.select (.ready true)), .worker 0 (.netsslServer 0), .worker 0 (.read 144 buff),
    .worker 0 (.command 1 Exclude.excludeInit true), .worker 0 (.read 0 buff), .worker 0 .semPost,
    .worker 1 (.semWait true), .worker 0 (.sslShutdown 0), .worker 0 (.sslShutdown 1)]

theorem permits_conserved_run : ∃ s,
    networkServer false initConfig ExcludeCidr.quadPton .little 1 session = some s ∧
      s.workers.map (fun w => (w.pc, w.posts)) = [(.exited, 1), (.selecting, 0)] ∧
      (s.value : ℤ) + s.workers.countP Worker.between = 1 := by
  have hpcs : (networkServer false initConfig ExcludeCidr.quadPton .little 1 session).map
      (fun s => s.workers.map fun w => (w.pc, w.posts)) =
        some [(.exited, 1), (.selecting, 0)] := by decide +kernel
  obtain ⟨s, hs, hworkers⟩ := Option.map_eq_some_iff.mp hpcs
  exact ⟨s, hs, hworkers,
    (permits_conserved false initConfig ExcludeCidr.quadPton .little 1 session hs).1⟩

end Agentsmith.ServerWorkers
