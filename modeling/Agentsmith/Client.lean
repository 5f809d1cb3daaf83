import Agentsmith.Lib.Runs
import Agentsmith.Globals
import Mathlib.Logic.Function.Basic

/-!
The client: `client.c`, and the queues of `clientqueue.c`.

The action thread puts records into a vector of its own. When it is full, or after a pass,
the vector is copied to the queue of every agent, one queue after the other. The worker of a
queue takes the whole list at once. Each of these steps holds the mutex of one queue, so the
workers come in between them.
-/

namespace Agentsmith.Client

open Agentsmith.Lib.Runs Agentsmith.Globals

/-- `MAXCLIENTQUEUES`. -/
def maxClientQueues : ℕ := 256

/-- `HOSTRECORDVECTORLEN`. -/
def hostrecordVectorLen : ℕ := 25

/-- `client_queue_t`: the linked list at `head`. The batches its worker has taken are kept. -/
structure Queue where
  head : List HostRecord
  taken : List (List HostRecord)
  deriving DecidableEq

/-- Where the action thread is: outside `client.c`; in the loop of `client_queue_flush`, before
queue `i`, with the record to go on with if the flush was forced; or stopped by an assertion. -/
inductive Pc
  | idle
  | flushing (i : ℕ) (back : Option HostRecord)
  | aborted
  deriving DecidableEq

/-- `temp_hr_vector` is the memory from the first slot of the vector on. The records for which
`client_queue_record` has returned `RETVAL_OK` are kept. -/
structure St where
  started : Bool
  queues : List Queue
  vector : ℕ → Option HostRecord
  fill : ℕ
  pc : Pc
  accepted : List HostRecord

/-- `client_start`, for a list of `agents` addresses. -/
def clientStart (agents : ℕ) : St where
  started := true
  queues := List.replicate (min maxClientQueues agents) ⟨[], []⟩
  vector := fun _ => none
  fill := 0
  pc := .idle
  accepted := []

/-! ### The queue of an agent -/

/-- The copies of `record[i]` to `record[len - 1]`, each behind the last entry. (A `NULL` among
them would be dereferenced. Here it is passed over.) -/
def appendLoop (record : ℕ → Option HostRecord) (i len : ℕ) (list : List HostRecord) :
    List HostRecord :=
  (List.range' i (len - i)).foldl (fun list k => list ++ (record k).toList) list

def clientQueueAppend (record : ℕ → Option HostRecord) (len : ℕ) (head : List HostRecord) :
    List HostRecord :=
  match head with
  | [] => appendLoop record 1 len (record 0).toList
  | _ :: _ => appendLoop record 0 len head

/-- What the worker does when the queue is not empty. -/
def clientQueueTake (q : Queue) : Queue :=
  match q.head with
  | [] => q
  | _ :: _ => ⟨[], q.taken ++ [q.head]⟩

/-! ### The vector of the action thread -/

/-- The beginning of `client_queue_flush`. -/
def clientQueueFlush (back : Option HostRecord) (c : St) : St :=
  if !c.started then c
  else if c.fill < 1 then c
  else { c with pc := .flushing 0 back }

/-- `client_queue_record`, up to the loop of a forced flush. -/
def clientQueueRecord (hr : HostRecord) (c : St) : St :=
  if hr.addr.1.length ≤ 2 then { c with pc := .aborted }
  else if !c.started then c
  else if c.fill ≥ hostrecordVectorLen then clientQueueFlush (some hr) c
  else { c with
    vector := Function.update c.vector c.fill (some hr)
    fill := c.fill + 1
    accepted := c.accepted ++ [hr] }

/-- The end of `client_queue_flush`: the vector is emptied, and a record for which there was no
room is recorded now. -/
def clientQueueFlushed (back : Option HostRecord) (c : St) : St :=
  let c := { c with
    vector := fun k => if k < hostrecordVectorLen then none else c.vector k
    fill := 0
    pc := .idle }
  match back with
  | none => c
  | some hr => clientQueueRecord hr c

/-! ### Interleavings -/

/-- A step of the action thread (a call, or the next step inside `client_queue_flush`), or of
the worker of queue `i`. -/
inductive Move
  | record (hr : HostRecord)
  | flush
  | next
  | take (i : ℕ)
  deriving DecidableEq

def clientStep (c : St) (m : Move) : St :=
  match c.pc, m with
  | .aborted, _ => c
  | _, .take i => { c with queues := c.queues.modify i clientQueueTake }
  | .idle, .record hr => clientQueueRecord hr c
  | .idle, .flush => clientQueueFlush none c
  | .flushing i back, .next =>
    if i < maxClientQueues ∧ i < c.queues.length then
      { c with
        queues := c.queues.modify i fun q =>
          { q with head := clientQueueAppend c.vector c.fill q.head }
        pc := .flushing (i + 1) back }
    else clientQueueFlushed back c
  -- the action thread does one call after the other
  | _, _ => c

/-- The client after the moves, started for a list of `agents` addresses. -/
def client (agents : ℕ) (moves : List Move) : St := run clientStep (clientStart agents) moves

/-- `temp_hr_vector[0..fill)`. -/
def staged (c : St) : List HostRecord := (List.range c.fill).filterMap c.vector

/-! ### Appending -/

lemma appendLoop_eq (record : ℕ → Option HostRecord) (i len : ℕ) (list : List HostRecord) :
    appendLoop record i len list = list ++ (List.range' i (len - i)).filterMap record := by
  unfold appendLoop
  induction List.range' i (len - i) generalizing list with
  | nil => simp
  | cons k ks ih =>
    rw [List.foldl_cons, ih, List.filterMap_cons]
    rcases record k with _ | r <;> simp

/-- **Appending**, in both of its branches: the records of the vector behind the list. -/
theorem clientQueueAppend_eq (record : ℕ → Option HostRecord) {len : ℕ} (hlen : 0 < len)
    (head : List HostRecord) :
    clientQueueAppend record len head = head ++ (List.range len).filterMap record := by
  obtain ⟨n, rfl⟩ := Nat.exists_eq_succ_of_ne_zero (Nat.pos_iff_ne_zero.mp hlen)
  cases head with
  | nil =>
    rw [clientQueueAppend, appendLoop_eq, List.range_eq_range', List.range'_succ,
      List.filterMap_cons]
    rcases record 0 with _ | r <;> simp
  | cons r rs => rw [clientQueueAppend, appendLoop_eq, List.range_eq_range', Nat.sub_zero]

/-- Whatever the vector holds, the list gets nothing else. -/
lemma mem_clientQueueAppend {record : ℕ → Option HostRecord} {len : ℕ} {head : List HostRecord}
    {r : HostRecord} (h : r ∈ clientQueueAppend record len head) :
    r ∈ head ∨ ∃ k, record k = some r := by
  have hloop : ∀ i (list : List HostRecord), r ∈ appendLoop record i len list →
      r ∈ list ∨ ∃ k, record k = some r := by
    intro i list hr
    rw [appendLoop_eq, List.mem_append, List.mem_filterMap] at hr
    exact hr.imp_right fun ⟨k, _, hk⟩ => ⟨k, hk⟩
  cases head with
  | nil =>
    rcases hloop 1 _ h with hfirst | hrest
    · exact Or.inr ⟨0, Option.mem_toList.mp hfirst⟩
    · exact Or.inr hrest
  | cons a rs => exact hloop 0 _ h

lemma taken_append_head (q : Queue) :
    (clientQueueTake q).taken.flatten ++ (clientQueueTake q).head = q.taken.flatten ++ q.head := by
  unfold clientQueueTake
  rcases hq : q.head with _ | ⟨r, rs⟩
  · simp [hq]
  · simp

end Agentsmith.Client
