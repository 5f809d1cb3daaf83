import Agentsmith.Intake

/-!
The worker that sends the records of one client queue: `clientqueue.c`.

A step of `_client_queue_worker` is what it does after one call of the system or of OpenSSL, up to
the next of them. Descriptors are numbered in the order in which they are opened. Beside the
variables the state holds what has been opened, closed, freed and offered, which decides nothing.
-/

namespace Agentsmith.ClientWorker

open Agentsmith.Lib.CStrings Agentsmith.Lib.Words Agentsmith.Lib.Runs Agentsmith.Globals
open Agentsmith.NetShared Agentsmith.Intake

/-! ### The worker -/

/-- What OpenSSL answers to the calls of `netssl_client`. -/
structure Handshake where
  sslNew : Bool
  bioNewSocket : Bool
  sslConnect : Int32
  deriving DecidableEq

/-- `netssl_client`: what it returns, and whether `*ssl` and `*sbio` are set. It asserts that they
are not. -/
def netsslClient (h : Handshake) (sockfd : Option ℕ) (ssl sbio : Bool) :
    Option (ℤ × Bool × Bool) :=
  if ssl = false ∧ sbio = false ∧ sockfd.isSome then
    if h.sslNew = false then some (retvalErr, false, false)
    else if h.bioNewSocket = false then some (retvalErr, false, false)
    else if h.sslConnect ≠ 1 then some (retvalErr, false, false)
    else some (retvalOk, true, true)
  else none

/-- The call the worker is in; `top` is the wait for the queue. -/
inductive Pc
  | top
  | socket
  | connect
  | handshake
  | write
  | shutdown
  deriving DecidableEq

/-- The outcome of a call. -/
inductive Input
  | taken (head : List HostRecord)
  | socket (ok : Bool)
  | connect (ok : Bool)
  | netsslClient (h : Handshake)
  | write (writeres : Int64)
  | sslShutdown (retval : Int32)
  deriving DecidableEq

/-- What became of a batch: whether there was a connection, and what was given to `SSL_write`, or
`net_write`. -/
structure Round where
  batch : List HostRecord
  connected : Bool
  offered : List (List UInt8)

structure St where
  pc : Pc
  sockfd : Option ℕ
  retries : Int32
  ptr : List HostRecord
  ssl : Bool
  sbio : Bool
  buff : List UInt8
  opened : ℕ
  closed : List ℕ
  freed : List HostRecord
  round : Round
  rounds : List Round

def start (buff : Field remoteCommandSize) : St where
  pc := .top
  sockfd := none
  retries := 0
  ptr := []
  ssl := false
  sbio := false
  buff := buff.1
  opened := 0
  closed := []
  freed := []
  round := ⟨[], false, []⟩
  rounds := []

/-- `_client_queue_disintegrate_queue`. -/
def clientQueueDisintegrateQueue (freed : List HostRecord) : List HostRecord → List HostRecord
  | [] => freed
  | ptr :: nextptr => clientQueueDisintegrateQueue (freed ++ [ptr]) nextptr

/-- `close(sockfd)`, which does nothing for `-1`, and back to the top of the loop. -/
def closeSockfd (s : St) : St :=
  { s with pc := .top, closed := s.closed ++ s.sockfd.toList, rounds := s.rounds ++ [s.round] }

/-- `SHUTDOWNCONN`. -/
def shutdownConn (s : St) : St := if s.ssl then { s with pc := .shutdown } else closeSockfd s

/-- The head of the loop that processes the queue. -/
def processQueue (s : St) : St :=
  match s.ptr with
  | [] => shutdownConn s
  | _ :: _ => { s with pc := .write }

section

variable (nossl : Bool) (informRetry : Int32) (e : Endian)

/-- The head of the loop that connects, and what is done after the last attempt. -/
def tryConnect (s : St) : St :=
  if s.retries < informRetry then { s with pc := .socket, retries := s.retries + 1 }
  else closeSockfd { s with freed := clientQueueDisintegrateQueue s.freed s.ptr }

/-- The body of the loop that processes the queue, without its assertion. -/
def sendRecord (s : St) (record : HostRecord) (nextptr : List HostRecord) : St :=
  let buff := (netCommandToBuff e addCommand record s.buff).1
  processQueue { s with
    ptr := nextptr
    buff := buff
    freed := s.freed ++ [record]
    round := { s.round with offered := s.round.offered ++ [buff] } }

/-- `_client_queue_worker`. Other outcomes than those of the call it is in do not come. -/
def clientQueueWorker : Option St → Input → Option St
  | none, _ => none
  | some s, i =>
    match s.pc, i with
    | .top, .taken (p :: ps) =>
      some (tryConnect informRetry
        { s with ptr := p :: ps, retries := 0, round := ⟨p :: ps, false, []⟩ })
    | .socket, .socket true =>
      some { s with pc := .connect, sockfd := some s.opened, opened := s.opened + 1 }
    | .socket, .socket false => some (tryConnect informRetry { s with sockfd := none })
    | .connect, .connect false => some (tryConnect informRetry s)
    | .connect, .connect true =>
      if nossl then some (processQueue { s with round := { s.round with connected := true } })
      else some { s with pc := .handshake }
    | .handshake, .netsslClient h =>
      match netsslClient h s.sockfd s.ssl s.sbio with
      | none => none
      | some (retval, ssl, sbio) =>
        let s := { s with ssl := ssl, sbio := sbio }
        if retval ≠ retvalOk then some (shutdownConn s)
        else some (processQueue { s with round := { s.round with connected := true } })
    | .write, .write _ =>
      match s.ptr with
      | [] => some s
      | p :: ps => if p.addr.1.length > 2 then some (sendRecord e s p ps) else none
    | .shutdown, .sslShutdown retval =>
      if retval = 0 then some s else some (closeSockfd { s with ssl := false, sbio := false })
    | _, _ => some s

/-- The worker after the outcomes `is`. -/
def worker (buff : Field remoteCommandSize) (is : List Input) : Option St :=
  run (clientQueueWorker nossl informRetry e) (some (start buff)) is

end

/-! ### What it gives back -/

/-- Every record of the batch has been offered once, or none where there was no connection. -/
def Round.Offers (r : Round) : Prop :=
  r.offered = if r.connected then r.batch.map fun hr => (frame addCommand hr).1 else []

/-- At the top of the loop: every descriptor opened has been closed once, every entry taken has
been freed once, and every batch has been offered. -/
structure GivesBack (s : St) : Prop where
  closed : s.closed.Perm (List.range s.opened)
  freed : s.freed.Perm (s.rounds.map fun r => r.batch).flatten
  offered : ∀ r ∈ s.rounds, r.Offers

def Handshake.Fails (h : Handshake) : Prop :=
  h.sslNew = false ∨ h.bioNewSocket = false ∨ h.sslConnect ≠ 1

/-- A step that loses what it holds: a connection is refused and there is another attempt, or the
handshake fails. -/
def Loses (informRetry : Int32) (s : St) : Input → Prop
  | .connect ok => s.pc = .connect ∧ ok = false ∧ s.retries < informRetry
  | .netsslClient h => s.pc = .handshake ∧ h.Fails
  | _ => False

section

variable {nossl : Bool} {informRetry : Int32} {e : Endian} {lost held : List ℕ}
  {todo taken left : List HostRecord} {s s' : St} {i : Input}

/-! ### The books -/

/-- Of the descriptors, `held` is still needed and `lost` will never be closed; of the entries
taken, the worker still has `todo`, and `left` will never be freed. -/
structure Books (lost : List ℕ) (left : List HostRecord) (held : List ℕ)
    (todo taken : List HostRecord) (s : St) : Prop where
  closed : (s.closed ++ held ++ lost).Perm (List.range s.opened)
  freed : (s.freed ++ todo ++ left).Perm ((s.rounds.map fun r => r.batch).flatten ++ taken)
  offered : ∀ r ∈ s.rounds, r.Offers
  buff : s.buff.length = remoteCommandSize

/-- No more is lost than before. -/
def Nothing (lost : List ℕ) (left : List HostRecord) : Prop := lost = [] ∧ left = []

/-- The batch has not been offered. -/
structure Fresh (s : St) : Prop where
  todo : s.ptr = s.round.batch
  some : s.ptr ≠ []
  round : s.round.connected = false ∧ s.round.offered = []
  ssl : s.ssl = false ∧ s.sbio = false

/-- Up to `ptr`, the batch has been offered. -/
def Sending (s : St) : Prop :=
  s.round.connected = true ∧ ∃ sent, s.round.batch = sent ++ s.ptr ∧
    s.round.offered = sent.map fun hr => (frame addCommand hr).1

/-- What the worker holds in each of its calls. -/
def At (informRetry : Int32) (lost : List ℕ) (left : List HostRecord) (s : St) : Prop :=
  match s.pc with
  | .top => Books lost left [] [] [] s ∧ (s.ssl = false ∧ s.sbio = false) ∧
      (0 < informRetry ∨ s.sockfd = none)
  | .socket => Books lost left [] s.ptr s.round.batch s ∧ Fresh s ∧ 0 < informRetry
  | .connect | .handshake => ∃ fd, s.sockfd = some fd ∧
      Books lost left [fd] s.ptr s.round.batch s ∧ Fresh s ∧ 0 < informRetry
  | .write => ∃ fd, s.sockfd = some fd ∧ Books lost left [fd] s.ptr s.round.batch s ∧
      Sending s ∧ (s.ssl = false → s.sbio = false) ∧ 0 < informRetry
  | .shutdown => ∃ fd, s.sockfd = some fd ∧ Books lost left [fd] [] s.round.batch s ∧
      s.round.Offers ∧ 0 < informRetry

lemma disintegrate_eq (freed ptr : List HostRecord) :
    clientQueueDisintegrateQueue freed ptr = freed ++ ptr := by
  induction ptr generalizing freed with
  | nil => exact (List.append_nil freed).symm
  | cons p ps ih => rw [clientQueueDisintegrateQueue, ih, List.append_assoc, List.singleton_append]

lemma Fresh.offers (h : Fresh s) : s.round.Offers := by
  rw [Round.Offers, h.round.1, h.round.2]
  rfl

lemma Sending.offers (h : Sending s) (hptr : s.ptr = []) : s.round.Offers := by
  obtain ⟨hconn, sent, hbatch, hoff⟩ := h
  rw [Round.Offers, hconn, if_pos rfl, hbatch, hptr, List.append_nil, hoff]

/-- A held descriptor is forgotten. -/
lemma Books.forget (h : Books lost left held todo taken s) :
    Books (held ++ lost) left [] todo taken s where
  closed := by
    rw [List.append_nil, ← List.append_assoc]
    exact h.closed
  freed := h.freed
  offered := h.offered
  buff := h.buff

/-- The batch is forgotten. -/
lemma Books.leave (h : Books lost left held todo taken s) :
    Books lost (todo ++ left) held [] taken s where
  closed := h.closed
  freed := by simpa using h.freed
  offered := h.offered
  buff := h.buff

/-! ### Steps -/

lemma closeSockfd_at (h : Books lost left s.sockfd.toList [] s.round.batch s)
    (hoff : s.round.Offers) (hssl : s.ssl = false ∧ s.sbio = false)
    (hfd : 0 < informRetry ∨ s.sockfd = none) : At informRetry lost left (closeSockfd s) := by
  refine ⟨⟨by simpa [closeSockfd] using h.closed, ?_, fun r hr => ?_, h.buff⟩, hssl, hfd⟩
  · simpa [closeSockfd] using h.freed
  · rcases List.mem_append.mp hr with hr | hr
    · exact h.offered r hr
    · rw [List.mem_singleton.mp hr]
      exact hoff

lemma tryConnect_again (hlt : s.retries < informRetry)
    (h : Books lost left [] s.ptr s.round.batch s) (hfresh : Fresh s) (hpos : 0 < informRetry) :
    At informRetry lost left (tryConnect informRetry s) := by
  rw [tryConnect, if_pos hlt]
  exact ⟨⟨h.closed, h.freed, h.offered, h.buff⟩, ⟨hfresh.todo, hfresh.some, hfresh.round,
    hfresh.ssl⟩, hpos⟩

lemma tryConnect_last (hge : ¬ s.retries < informRetry)
    (h : Books lost left s.sockfd.toList s.ptr s.round.batch s) (hfresh : Fresh s)
    (hfd : 0 < informRetry ∨ s.sockfd = none) :
    At informRetry lost left (tryConnect informRetry s) := by
  rw [tryConnect, if_neg hge]
  refine closeSockfd_at ⟨h.closed, ?_, h.offered, h.buff⟩ hfresh.offers hfresh.ssl hfd
  rw [disintegrate_eq, List.append_nil]
  exact h.freed

lemma shutdownConn_at {fd : ℕ} (hfd : s.sockfd = some fd)
    (h : Books lost left [fd] [] s.round.batch s) (hoff : s.round.Offers)
    (hssl : s.ssl = false → s.sbio = false) (hpos : 0 < informRetry) :
    At informRetry lost left (shutdownConn s) := by
  unfold shutdownConn
  split
  · exact ⟨fd, hfd, ⟨h.closed, h.freed, h.offered, h.buff⟩, hoff, hpos⟩
  · rename_i hnull
    rw [Bool.not_eq_true] at hnull
    refine closeSockfd_at ?_ hoff ⟨hnull, hssl hnull⟩ (Or.inl hpos)
    rw [hfd]
    exact h

lemma processQueue_at {fd : ℕ} (hfd : s.sockfd = some fd)
    (h : Books lost left [fd] s.ptr s.round.batch s) (hsend : Sending s)
    (hssl : s.ssl = false → s.sbio = false) (hpos : 0 < informRetry) :
    At informRetry lost left (processQueue s) := by
  unfold processQueue
  split
  · rename_i hptr
    rw [hptr] at h
    exact shutdownConn_at hfd h (hsend.offers hptr) hssl hpos
  · exact ⟨fd, hfd, ⟨h.closed, h.freed, h.offered, h.buff⟩, hsend, hssl, hpos⟩

lemma sendRecord_at {fd : ℕ} {p : HostRecord} {ps : List HostRecord} (hptr : s.ptr = p :: ps)
    (hfd : s.sockfd = some fd) (h : Books lost left [fd] s.ptr s.round.batch s)
    (hsend : Sending s) (hssl : s.ssl = false → s.sbio = false) (hpos : 0 < informRetry) :
    At informRetry lost left (sendRecord e s p ps) := by
  have hbuff : (netCommandToBuff e addCommand p s.buff).1 = (frame addCommand p).1 := by
    rw [netCommandToBuff_eq, List.drop_eq_nil_of_le (Nat.le_of_eq h.buff), List.append_nil]
    rfl
  obtain ⟨hconn, sent, hbatch, hoff⟩ := hsend
  refine processQueue_at hfd ⟨h.closed, ?_, h.offered, ?_⟩ ⟨hconn, sent ++ [p], ?_, ?_⟩ hssl hpos
  · have hfreed := h.freed
    rw [hptr] at hfreed
    simpa using hfreed
  · rw [hbuff]
    exact (frame addCommand p).2
  · rw [hbatch, hptr, List.append_assoc, List.singleton_append]
  · rw [hbuff, hoff, List.map_append]
    rfl

/-- `netssl_client` is called as it asks to be, and fails where one of the calls does. -/
lemma netsslClient_cases (h : Handshake) (fd : ℕ) :
    (h.Fails ∧ netsslClient h (some fd) false false = some (retvalErr, false, false)) ∨
      (¬ h.Fails ∧ netsslClient h (some fd) false false = some (retvalOk, true, true)) := by
  obtain ⟨new, bio, connect⟩ := h
  unfold Handshake.Fails netsslClient
  cases new
  · exact Or.inl ⟨Or.inl rfl, rfl⟩
  · cases bio
    · exact Or.inl ⟨Or.inr (Or.inl rfl), rfl⟩
    · by_cases hconnect : connect = 1
      · exact Or.inr ⟨by simp [hconnect], by simp [hconnect]⟩
      · exact Or.inl ⟨Or.inr (Or.inr hconnect), by simp [hconnect]⟩

/-- A batch is taken: none of it has been freed, and the old descriptor is not needed. -/
lemma taken_at (h : At informRetry lost left s) (hpc : s.pc = .top) (p : HostRecord)
    (ps : List HostRecord) : At informRetry lost left (tryConnect informRetry
      { s with ptr := p :: ps, retries := 0, round := ⟨p :: ps, false, []⟩ }) := by
  rw [At, hpc] at h
  obtain ⟨hbooks, hssl, hfd⟩ := h
  have hfresh : Fresh { s with ptr := p :: ps, retries := 0, round := ⟨p :: ps, false, []⟩ } :=
    ⟨rfl, List.cons_ne_nil p ps, ⟨rfl, rfl⟩, hssl⟩
  have hfreed : (s.freed ++ (p :: ps) ++ left).Perm
      ((s.rounds.map fun r => r.batch).flatten ++ (p :: ps)) := by
    have hperm := hbooks.freed
    rw [List.append_nil, List.append_nil] at hperm
    rw [List.append_assoc]
    exact (List.perm_append_comm_assoc _ _ _).trans
      (List.perm_append_comm.trans (hperm.append_right _))
  by_cases hpos : 0 < informRetry
  · exact tryConnect_again hpos ⟨hbooks.closed, hfreed, hbooks.offered, hbooks.buff⟩ hfresh hpos
  · have hclosed := hbooks.closed
    refine tryConnect_last hpos ⟨?_, hfreed, hbooks.offered, hbooks.buff⟩ hfresh hfd
    dsimp only
    rw [hfd.resolve_left hpos]
    exact hclosed

/-- A socket is opened, and held from then on. -/
lemma opened_at (h : At informRetry lost left s) (hpc : s.pc = .socket) :
    At informRetry lost left
      { s with pc := .connect, sockfd := some s.opened, opened := s.opened + 1 } := by
  rw [At, hpc] at h
  obtain ⟨hbooks, hfresh, hpos⟩ := h
  refine ⟨s.opened, rfl, ⟨?_, hbooks.freed, hbooks.offered, hbooks.buff⟩,
    ⟨hfresh.todo, hfresh.some, hfresh.round, hfresh.ssl⟩, hpos⟩
  have hclosed := hbooks.closed
  rw [List.append_nil] at hclosed
  dsimp only
  rw [List.range_succ, List.append_assoc]
  refine (List.perm_append_comm_assoc _ _ _).trans (List.perm_append_comm.trans ?_)
  exact hclosed.append_right _

/-- There is no socket: one attempt less. -/
lemma unopened_at (h : At informRetry lost left s) (hpc : s.pc = .socket) :
    At informRetry lost left (tryConnect informRetry { s with sockfd := none }) := by
  rw [At, hpc] at h
  obtain ⟨hbooks, hfresh, hpos⟩ := h
  have hbooks' : Books lost left [] s.ptr s.round.batch { s with sockfd := none } :=
    ⟨hbooks.closed, hbooks.freed, hbooks.offered, hbooks.buff⟩
  have hfresh' : Fresh { s with sockfd := none } :=
    ⟨hfresh.todo, hfresh.some, hfresh.round, hfresh.ssl⟩
  by_cases hlt : s.retries < informRetry
  · exact tryConnect_again hlt hbooks' hfresh' hpos
  · exact tryConnect_last hlt hbooks' hfresh' (Or.inl hpos)

/-- Refused, and there is another attempt: its descriptor takes the place of this one. -/
lemma refused_again (h : At informRetry lost left s) (hpc : s.pc = .connect)
    (hlt : s.retries < informRetry) :
    ∃ fd, At informRetry ([fd] ++ lost) left (tryConnect informRetry s) := by
  rw [At, hpc] at h
  obtain ⟨fd, -, hbooks, hfresh, hpos⟩ := h
  exact ⟨fd, tryConnect_again hlt hbooks.forget hfresh hpos⟩

/-- Refused for the last time: this descriptor is closed. -/
lemma refused_last (h : At informRetry lost left s) (hpc : s.pc = .connect)
    (hge : ¬ s.retries < informRetry) : At informRetry lost left (tryConnect informRetry s) := by
  rw [At, hpc] at h
  obtain ⟨fd, hfd, hbooks, hfresh, hpos⟩ := h
  refine tryConnect_last hge ?_ hfresh (Or.inl hpos)
  rw [hfd]
  exact hbooks

/-- There is a connection, over which the batch can be sent as it is. -/
lemma connected_at (h : At informRetry lost left s) (hpc : s.pc = .connect) :
    At informRetry lost left
      (processQueue { s with round := { s.round with connected := true } }) := by
  rw [At, hpc] at h
  obtain ⟨fd, hfd, hbooks, hfresh, hpos⟩ := h
  exact processQueue_at hfd ⟨hbooks.closed, hbooks.freed, hbooks.offered, hbooks.buff⟩
    ⟨rfl, [], hfresh.todo.symm, hfresh.round.2⟩ (fun _ => hfresh.ssl.2) hpos

/-- There is a connection, over which SSL is to be spoken. -/
lemma greeted_at (h : At informRetry lost left s) (hpc : s.pc = .connect) :
    At informRetry lost left { s with pc := .handshake } := by
  rw [At, hpc] at h
  obtain ⟨fd, hfd, hbooks, hfresh, hpos⟩ := h
  exact ⟨fd, hfd, ⟨hbooks.closed, hbooks.freed, hbooks.offered, hbooks.buff⟩,
    ⟨hfresh.todo, hfresh.some, hfresh.round, hfresh.ssl⟩, hpos⟩

/-- The handshake has failed: the batch is neither offered nor freed. -/
lemma failed_at (h : At informRetry lost left s) (hpc : s.pc = .handshake) :
    s.ptr ≠ [] ∧ At informRetry lost (s.ptr ++ left)
      (shutdownConn { s with ssl := false, sbio := false }) := by
  rw [At, hpc] at h
  obtain ⟨fd, hfd, hbooks, hfresh, hpos⟩ := h
  exact ⟨hfresh.some, shutdownConn_at hfd
    ⟨hbooks.closed, hbooks.leave.freed, hbooks.offered, hbooks.buff⟩ hfresh.offers
    (fun _ => rfl) hpos⟩

lemma secured_at (h : At informRetry lost left s) (hpc : s.pc = .handshake) :
    At informRetry lost left (processQueue
      { s with ssl := true, sbio := true, round := { s.round with connected := true } }) := by
  rw [At, hpc] at h
  obtain ⟨fd, hfd, hbooks, hfresh, hpos⟩ := h
  exact processQueue_at hfd ⟨hbooks.closed, hbooks.freed, hbooks.offered, hbooks.buff⟩
    ⟨rfl, [], hfresh.todo.symm, hfresh.round.2⟩ (fun hssl => Bool.noConfusion hssl) hpos

/-- A record is offered, and freed. -/
lemma sent_at (h : At informRetry lost left s) (hpc : s.pc = .write) {p : HostRecord}
    {ps : List HostRecord} (hptr : s.ptr = p :: ps) :
    At informRetry lost left (sendRecord e s p ps) := by
  rw [At, hpc] at h
  obtain ⟨fd, hfd, hbooks, hsend, hssl, hpos⟩ := h
  exact sendRecord_at hptr hfd hbooks hsend hssl hpos

/-- The connection is shut down, and the descriptor closed. -/
lemma shut_at (h : At informRetry lost left s) (hpc : s.pc = .shutdown) :
    At informRetry lost left (closeSockfd { s with ssl := false, sbio := false }) := by
  rw [At, hpc] at h
  obtain ⟨fd, hfd, hbooks, hoff, hpos⟩ := h
  refine closeSockfd_at ⟨?_, hbooks.freed, hbooks.offered, hbooks.buff⟩ hoff ⟨rfl, rfl⟩
    (Or.inl hpos)
  dsimp only
  rw [hfd]
  exact hbooks.closed

/-- In the handshake `netssl_client` is called as it asks to be. -/
lemma netsslClient_at (h : At informRetry lost left s) (hpc : s.pc = .handshake) (hs : Handshake) :
    (hs.Fails ∧ netsslClient hs s.sockfd s.ssl s.sbio = some (retvalErr, false, false)) ∨
      (¬ hs.Fails ∧ netsslClient hs s.sockfd s.ssl s.sbio = some (retvalOk, true, true)) := by
  rw [At, hpc] at h
  obtain ⟨fd, hfd, -, hfresh, -⟩ := h
  rw [hfd, hfresh.ssl.1, hfresh.ssl.2]
  exact netsslClient_cases hs fd

/-- **One step** keeps the books, and loses something just where it is one of those that do. -/
lemma worker_step (h : At informRetry lost left s)
    (hs : clientQueueWorker nossl informRetry e (some s) i = some s') :
    ∃ lost' left', At informRetry lost' left' s' ∧
      (Nothing lost' left' ↔ Nothing lost left ∧ ¬ Loses informRetry s i) := by
  -- a step that loses nothing
  have hkeep : At informRetry lost left s' → ¬ Loses informRetry s i →
      ∃ lost' left', At informRetry lost' left' s' ∧
        (Nothing lost' left' ↔ Nothing lost left ∧ ¬ Loses informRetry s i) :=
    fun hat hno => ⟨lost, left, hat, (and_iff_left hno).symm⟩
  unfold clientQueueWorker at hs
  dsimp only at hs
  split at hs
  · rename_i p ps hpc
    obtain rfl := Option.some.inj hs
    exact hkeep (taken_at h hpc p ps) id
  · rename_i hpc
    obtain rfl := Option.some.inj hs
    exact hkeep (opened_at h hpc) id
  · rename_i hpc
    obtain rfl := Option.some.inj hs
    exact hkeep (unopened_at h hpc) id
  · rename_i hpc
    obtain rfl := Option.some.inj hs
    by_cases hlt : s.retries < informRetry
    · -- the descriptor is lost
      obtain ⟨fd, hat⟩ := refused_again h hpc hlt
      refine ⟨_, _, hat, fun hn => absurd hn.1 (List.cons_ne_nil _ _), fun hn => ?_⟩
      exact absurd ⟨hpc, rfl, hlt⟩ hn.2
    · exact hkeep (refused_last h hpc hlt) fun hl => hlt hl.2.2
  · rename_i hpc
    refine hkeep ?_ fun hl => Bool.noConfusion hl.2.1
    split at hs
    · obtain rfl := Option.some.inj hs
      exact connected_at h hpc
    · obtain rfl := Option.some.inj hs
      exact greeted_at h hpc
  · rename_i hs' hpc
    obtain ⟨hfails, heq⟩ | ⟨hok, heq⟩ := netsslClient_at h hpc hs'
    · -- the batch is lost
      rw [heq] at hs
      obtain rfl := Option.some.inj hs
      obtain ⟨hsome, hat⟩ := failed_at h hpc
      refine ⟨_, _, hat, fun hn => absurd (List.append_eq_nil_iff.mp hn.2).1 hsome, fun hn => ?_⟩
      exact absurd ⟨hpc, hfails⟩ hn.2
    · rw [heq] at hs
      obtain rfl := Option.some.inj hs
      exact hkeep (secured_at h hpc) fun hl => hok hl.2
  · rename_i hpc
    refine hkeep ?_ id
    split at hs
    · obtain rfl := Option.some.inj hs
      exact h
    · rename_i p ps hptr
      split at hs
      · obtain rfl := Option.some.inj hs
        exact sent_at h hpc hptr
      · cases hs
  · rename_i hpc
    refine hkeep ?_ id
    split at hs
    · obtain rfl := Option.some.inj hs
      exact h
    · obtain rfl := Option.some.inj hs
      exact shut_at h hpc
  · -- no outcome of the call it is in
    rename_i i _ _ _ _ _ hrefused _ hshake _ _
    obtain rfl := Option.some.inj hs
    refine hkeep h fun hl => ?_
    cases i with
    | connect ok =>
      obtain ⟨hpc, rfl, -⟩ := hl
      exact hrefused hpc rfl
    | netsslClient h => exact hshake h hl.1 rfl
    | taken head => exact hl
    | socket ok => exact hl
    | write writeres => exact hl
    | sslShutdown retval => exact hl

/-! ### Runs -/

lemma start_at (buff : Field remoteCommandSize) : At informRetry [] [] (start buff) :=
  ⟨⟨List.Perm.refl _, List.Perm.refl _, List.forall_mem_nil _, buff.2⟩, ⟨rfl, rfl⟩, Or.inr rfl⟩

lemma worker_at (buff : Field remoteCommandSize) {is : List Input}
    (hs : worker nossl informRetry e buff is = some s) :
    ∃ lost left, At informRetry lost left s ∧ (Nothing lost left ↔ ∀ pre i post,
      is = pre ++ i :: post → ∀ q, worker nossl informRetry e buff pre = some q →
        ¬ Loses informRetry q i) := by
  induction is using List.reverseRecOn generalizing s with
  | nil =>
    obtain rfl := Option.some.inj hs
    exact ⟨[], [], start_at buff, fun _ pre i post h => by simp at h, fun _ => ⟨rfl, rfl⟩⟩
  | append_singleton is i ih =>
    obtain ⟨q, hq, hstep⟩ := run_snoc_some (fun _ => rfl) hs
    obtain ⟨lost, left, hat, hiff⟩ := ih hq
    obtain ⟨lost', left', hat', hiff'⟩ := worker_step hat hstep
    refine ⟨lost', left', hat', ?_⟩
    rw [hiff', hiff, forall_split_snoc]
    refine and_congr_right fun _ => ⟨fun hno q' hq' => ?_, fun hno => hno q hq⟩
    obtain rfl := Option.some.inj (hq.symm.trans hq')
    exact hno

lemma Books.givesBack (h : Books lost left [] [] [] s) : GivesBack s ↔ Nothing lost left := by
  have hclosed := h.closed
  have hfreed := h.freed
  rw [List.append_nil] at hclosed hfreed
  rw [List.append_nil] at hfreed
  refine ⟨fun hback => ⟨?_, ?_⟩, ?_⟩
  · have hlen := hclosed.length_eq.trans hback.closed.length_eq.symm
    rw [List.length_append] at hlen
    exact List.length_eq_zero_iff.mp (by omega)
  · have hlen := hfreed.length_eq.trans hback.freed.length_eq.symm
    rw [List.length_append] at hlen
    exact List.length_eq_zero_iff.mp (by omega)
  · rintro ⟨rfl, rfl⟩
    rw [List.append_nil] at hclosed hfreed
    exact ⟨hclosed, hfreed, h.offered⟩

/-- **The client worker gives back what it takes**, at the top of its loop, exactly in the runs
where no refused connection is tried again and no handshake fails. -/
theorem worker_gives_back (nossl : Bool) (informRetry : Int32) (e : Endian)
    (buff : Field remoteCommandSize) (is : List Input) (s : St)
    (hs : worker nossl informRetry e buff is = some s) (htop : s.pc = .top) :
    GivesBack s ↔ ∀ pre i post, is = pre ++ i :: post →
      ∀ q, worker nossl informRetry e buff pre = some q → ¬ Loses informRetry q i := by
  obtain ⟨lost, left, hat, hiff⟩ := worker_at buff hs
  rw [At, htop] at hat
  rw [← hiff]
  exact hat.1.givesBack

end

def queued : HostRecord :=
  ⟨copyCut ipaddrSize localhost, Field.copy ipaddrSize (ascii "192.0.2.7").1, 1000, 1010, 3600, 60,
    3, 3, 0, 0⟩

def blank : Field remoteCommandSize := Field.copy remoteCommandSize []

def accepted : Handshake := ⟨true, true, 1⟩

/-- Two batches, up to the last of the attempts to connect for the second. -/
def sampleRounds : List Input :=
  [.taken [queued, queued], .socket false, .socket true, .connect true, .netsslClient accepted,
    .write 144, .write (-1), .sslShutdown 0, .sslShutdown 1,
    .taken [queued], .socket false, .socket true]

theorem worker_gives_back_run : ∃ s,
    worker false 2 .little blank (sampleRounds ++ [.connect false]) = some s ∧
      s.pc = .top ∧ GivesBack s := by
  have hlast : (worker false 2 .little blank sampleRounds).map (·.retries) = some 2 := by
    decide +kernel
  have hend : (worker false 2 .little blank (sampleRounds ++ [.connect false])).map (·.pc) =
      some .top := by decide +kernel
  obtain ⟨s, hs, htop⟩ := Option.map_eq_some_iff.mp hend
  refine ⟨s, hs, htop, (worker_gives_back false 2 .little blank _ s hs htop).mpr ?_⟩
  refine (forall_split_snoc _ _).mpr ⟨?_, fun q hq hl => ?_⟩
  · have hok : ¬ accepted.Fails := by simp [Handshake.Fails, accepted]
    simp [sampleRounds, forall_split_cons, Loses, hok]
  · rw [hq] at hlast
    have hretries : q.retries = 2 := Option.some.inj hlast
    have hlt := hl.2.2
    rw [hretries] at hlt
    exact absurd hlt (by decide)

/-- A server that refuses the first connection and then fails the handshake. -/
def lossyRound : List Input :=
  [.taken [queued], .socket true, .connect false, .socket true, .connect true,
    .netsslClient ⟨true, true, -1⟩]

/-- The first descriptor stays open, and the batch is never freed. -/
theorem worker_loses : ∃ s, worker false 2 .little blank lossyRound = some s ∧ s.pc = .top ∧
    s.opened = 2 ∧ s.closed = [1] ∧ s.freed = [] ∧ ¬ GivesBack s := by
  have hend : (worker false 2 .little blank lossyRound).map
      (fun s => (s.pc, s.opened, s.closed, s.freed)) = some (.top, 2, [1], []) := by
    decide +kernel
  obtain ⟨s, hs, heq⟩ := Option.map_eq_some_iff.mp hend
  obtain ⟨hpc, hopened, hclosed, hfreed⟩ := by simpa using heq
  refine ⟨s, hs, hpc, hopened, hclosed, hfreed, fun hback => ?_⟩
  have hlen := hback.closed.length_eq
  rw [hclosed, hopened] at hlen
  cases hlen

end Agentsmith.ClientWorker
