import Agentsmith.Announced

/-!
What one agent of a network blocks reaches the agents it informs.

Each worker of a queue sends what it has taken to its agent. So the commands of an agent that are
on their way, that have been handed over and that the network has lost are, for each agent
informed, the blocks that the worker of its queue has taken; the others still wait for it.
-/

namespace Agentsmith.Dissemination

open Agentsmith.Lib.CStrings Agentsmith.Lib.Words Agentsmith.Lib.Runs Agentsmith.Lib.Networks
open Agentsmith.Globals Agentsmith.NetShared Agentsmith.Daemon Agentsmith.Intake
open Agentsmith.DoAction Agentsmith.Distribution Agentsmith.Informer Agentsmith.Announced
open Agentsmith.NoRelay (Delivery Agents protocol batch forced_idle pair circle)
open Agentsmith.Client (Queue clientStart clientStep clientQueueFlush clientQueueRecord
  clientQueueFlushed clientQueueTake staged)
open Agentsmith.Exclude (InetPton)

variable {ι : Type*}

/-- What the workers have taken, for each agent in the list of those that are informed. -/
def gone (peers : List ι) (queues : List Queue) : List (ι × Field remoteCommandSize) :=
  (peers.zip queues).flatMap fun p => p.2.taken.flatten.map fun r => (p.1, frame addCommand r)

/-! ### One worker -/

lemma flatMap_modify {α β : Type*} {g : α → List β} {f : α → α} {new : List β} {l : List α}
    {k : ℕ} {a : α} (hk : l[k]? = some a) (hf : g (f a) = g a ++ new) :
    ((l.modify k f).flatMap g).Perm (l.flatMap g ++ new) := by
  induction l generalizing k with
  | nil => cases hk
  | cons b l ih =>
    rcases k with _ | k
    · obtain rfl : b = a := Option.some.inj hk
      rw [List.modify_zero_cons, List.flatMap_cons, List.flatMap_cons, hf, List.append_assoc,
        List.append_assoc]
      exact List.perm_append_comm.append_left _
    · rw [List.modify_succ_cons, List.flatMap_cons, List.flatMap_cons, List.append_assoc]
      exact (ih hk).append_left _

lemma zip_modify {α β : Type*} (l : List α) (l' : List β) (k : ℕ) (f : β → β) :
    l.zip (l'.modify k f) = (l.zip l').modify k (Prod.map id f) := by
  induction l generalizing l' k with
  | nil => simp
  | cons a l ih =>
    rcases l' with _ | ⟨b, l'⟩
    · simp
    · rcases k with _ | k
      · simp
      · simp [ih]

/-- The batch that a worker takes is gone. -/
lemma gone_take (peers : List ι) (queues : List Queue) (k : ℕ) :
    (gone peers (queues.modify k clientQueueTake)).Perm (gone peers queues ++
      match queues[k]?, peers[k]? with
      | some q, some j => q.head.map fun r => (j, frame addCommand r)
      | _, _ => []) := by
  rw [gone, zip_modify, gone]
  rcases hk : (peers.zip queues)[k]? with _ | ⟨j, q⟩
  · have hnone : (match queues[k]?, peers[k]? with
        | some q, some j => q.head.map fun r => (j, frame addCommand r)
        | _, _ => []) = ([] : List (ι × Field remoteCommandSize)) := by
      rcases hq : queues[k]? with _ | q
      · rfl
      · rcases hj : peers[k]? with _ | j
        · rfl
        · rw [List.getElem?_zip_eq_some (z := (j, q)) |>.mpr ⟨hj, hq⟩] at hk
          cases hk
    rw [List.modify_eq_self (List.getElem?_eq_none_iff.mp hk), hnone, List.append_nil]
  · obtain ⟨hj, hq⟩ := List.getElem?_zip_eq_some.mp hk
    rw [hj, hq]
    refine flatMap_modify hk ?_
    dsimp only [Prod.map, id]
    rw [← List.map_append]
    unfold clientQueueTake
    rcases hhead : q.head with _ | ⟨r, rs⟩
    · simp
    · simp

/-- What is gone depends on what the workers have taken only. -/
lemma gone_congr {peers : List ι} {queues queues' : List Queue}
    (h : queues.map Queue.taken = queues'.map Queue.taken) :
    gone peers queues = gone peers queues' := by
  have hmap : ∀ l : List Queue, gone peers l =
      (peers.zip (l.map Queue.taken)).flatMap fun p =>
        p.2.flatten.map fun r => (p.1, frame addCommand r) := by
    intro l
    rw [List.zip_map_right, List.flatMap_map]
    rfl
  rw [hmap, hmap, h]

/-! ### One agent -/

variable {c : Client.St}

lemma record_taken (r : HostRecord) : (clientQueueRecord r c).queues = c.queues := by
  unfold clientQueueRecord clientQueueFlush
  split_ifs <;> rfl

lemma map_modify {α β : Type*} {g : α → β} {f : α → α} (h : ∀ a, g (f a) = g a) (l : List α)
    (k : ℕ) : (l.modify k f).map g = l.map g := by
  induction l generalizing k with
  | nil => simp
  | cons a l ih =>
    rcases k with _ | k
    · simp [h]
    · simp [ih]

/-- Only a worker takes something from a queue. -/
lemma clientStep_taken {m : Client.Move} (hm : ∀ k, m ≠ .take k) :
    (clientStep c m).queues.map Queue.taken = c.queues.map Queue.taken := by
  unfold clientStep
  split
  · rfl
  · exact absurd rfl (hm _)
  · rw [record_taken]
  · unfold clientQueueFlush
    split_ifs <;> rfl
  · split
    · exact map_modify (f := fun q : Queue =>
        { q with head := Client.clientQueueAppend c.vector c.fill q.head }) (fun _ => rfl) _ _
    · unfold clientQueueFlushed
      split
      · rfl
      · rw [record_taken]
  · rfl

variable {o : Options} {pton : InetPton} {e : Endian} {s : Informer.St} {xs : List Turn}

/-- There are no queues before the client is started. -/
def Unqueued (c : Client.St) : Prop := c.started = false → c.queues = []

lemma unqueued_step (h : Unqueued c) (m : Client.Move) : Unqueued (clientStep c m) := by
  intro hnot
  have hnone := h ((clientStep_started c m).symm.trans hnot)
  have hlen : (clientStep c m).queues.length = c.queues.length := by
    cases m with
    | take k =>
      unfold clientStep
      split <;> simp_all
    | _ => simpa using congrArg List.length (clientStep_taken (c := c) (by simp))
  rw [hnone] at hlen
  exact List.length_eq_zero_iff.mp hlen

lemma gone_start (peers : List ι) (agents : ℕ) : gone peers (clientStart agents).queues = [] := by
  rw [gone, List.flatMap_eq_nil_iff]
  intro p hp
  have hq : p.2 ∈ (clientStart agents).queues := (List.of_mem_zip hp).2
  rw [List.eq_of_mem_replicate hq]
  rfl

lemma unqueued_informerStep (h : Unqueued s.client) (x : Turn) :
    Unqueued (informerStep o pton e s x).client := by
  have hgo : Goes o pton e s x (informerStep o pton e s x) := goes_step s x
  generalize informerStep o pton e s x = s' at hgo ⊢
  cases hgo with
  | stay | abort | vector | skip => exact h
  | start => exact fun hnot => Bool.noConfusion hnot
  | record | flush | next | take => exact unqueued_step h _

/-- A turn of any thread but the workers sends nothing, and nothing more is gone. -/
lemma gone_other (peers : List ι) (h : Unqueued s.client) {x : Turn} (hx : ∀ k, x ≠ .take k) :
    gone peers (informerStep o pton e s x).client.queues = gone peers s.client.queues := by
  have hgo : Goes o pton e s x (informerStep o pton e s x) := goes_step s x
  generalize informerStep o pton e s x = s' at hgo ⊢
  cases hgo with
  | stay | abort | vector | skip => rfl
  | start hnot =>
    rw [h hnot]
    exact (gone_start peers _).trans (by simp [gone])
  | record | flush | next => exact gone_congr (clientStep_taken (by simp))
  | take k => exact absurd rfl (hx k)

/-- What is sent in a turn is gone after it. -/
lemma gone_step (peers : List ι) (h : Unqueued s.client) (x : Turn) :
    (gone peers (informerStep o pton e s x).client.queues).Perm
      (gone peers s.client.queues ++ batch peers s x) := by
  by_cases hpc : s.client.pc = .aborted
  · have hnone : batch peers s x = [] := by
      unfold batch
      rw [hpc]
      cases x <;> rfl
    rw [aborted_step hpc, hnone, List.append_nil]
  · cases x with
    | take k =>
      have hstep : (informerStep o pton e s (.take k)).client.queues =
          s.client.queues.modify k clientQueueTake := by
        rw [informerStep, if_neg hpc]
        show (clientStep s.client (.take k)).queues = _
        unfold clientStep
        rcases hp : s.client.pc with _ | ⟨i, back⟩ | _
        · rfl
        · rfl
        · exact absurd hp hpc
      have hbatch : batch peers s (.take k) =
          match s.client.queues[k]?, peers[k]? with
          | some q, some j => q.head.map fun r => (j, frame addCommand r)
          | _, _ => [] := by
        rcases hq : s.client.queues[k]? with _ | q <;> rcases hj : peers[k]? with _ | j <;>
          simp [batch, hq, hj]
      rw [hstep, hbatch]
      exact gone_take peers _ k
    | _ =>
      rw [gone_other peers h (by simp)]
      exact List.Perm.of_eq (List.append_nil _).symm

/-- **What an agent sends** is what its workers have taken. -/
lemma gone_run (o : Options) (pton : InetPton) (e : Endian) (peers : List ι) (xs : List Turn) :
    (output (informerStep o pton e) (batch peers) informerInit xs).Perm
      (gone peers (informer o pton e xs).client.queues) := by
  refine (run_hist (P := fun xs (s : Informer.St) => Unqueued s.client ∧
    (output (informerStep o pton e) (batch peers) informerInit xs).Perm
      (gone peers s.client.queues)) ⟨fun _ => rfl, ?_⟩ (fun xs x ih => ?_) xs).2
  · exact List.Perm.of_eq (by simp [gone, output, informerInit])
  · rw [output_snoc]
    exact ⟨unqueued_informerStep ih.1 x, (ih.2.append_right _).trans (gone_step peers ih.1 x).symm⟩

/-- All workers have taken the same. -/
lemma gone_same {bs : List HostRecord} (peers : List ι) {queues : List Queue}
    (h : ∀ q ∈ queues, q.taken.flatten = bs) :
    gone peers queues =
      (peers.take queues.length).flatMap fun j => bs.map fun r => (j, frame addCommand r) := by
  induction queues generalizing peers with
  | nil => simp [gone]
  | cons q queues ih =>
    rcases peers with _ | ⟨j, peers⟩
    · simp [gone]
    · have hrest := ih peers fun p hp => h p (List.mem_cons_of_mem _ hp)
      rw [gone] at hrest ⊢
      rw [List.zip_cons_cons, List.flatMap_cons, hrest, List.length_cons, List.take_succ_cons,
        List.flatMap_cons, h q List.mem_cons_self]

/-! ### The network -/

variable [DecidableEq ι]

/-- Each agent follows its log file after it has started its client. -/
def Orderly (moves : List (Move ι Turn Delivery)) : Prop :=
  ∀ i pre x post, moves = pre ++ .own i x :: post → IsLine x → Move.own i .start ∈ pre

section

variable (A : Agents ι) (moves : List (Move ι Turn Delivery))

/-- The commands that the receivers have taken, each with its sender and its receiver. -/
def handedOver : List (ι × ι × Field remoteCommandSize) :=
  output (netStep (protocol A)) (handed (protocol A)) (start (protocol A)) moves

/-- The commands that the network has lost. -/
def strayed : List (ι × ι × Field remoteCommandSize) :=
  output (netStep (protocol A)) lost (start (protocol A)) moves

/-- What an agent blocks for itself, and is to tell the agents it informs. -/
def blocks (i : ι) : List HostRecord :=
  announced (A.options i)
    (carried (A.options i) (A.pton i) (A.endian i) (own i (inputs (protocol A) moves)))

end

variable {A : Agents ι} {moves : List (Move ι Turn Delivery)}

lemma inOrder_of_orderly (h : Orderly moves) (i : ι) :
    InOrder (own i (inputs (protocol A) moves)) := by
  induction moves using List.reverseRecOn with
  | nil => exact fun pre x post hxs => absurd hxs (by simp [own, inputs, output])
  | append_singleton ms m ih =>
    have hms : Orderly ms := fun i pre x post hm => h i pre x (post ++ [m]) (by rw [hm]; simp)
    have hinputs : inputs (protocol A) (ms ++ [m]) =
        inputs (protocol A) ms ++ (input (protocol A) (network (protocol A) ms) m).toList :=
      output_snoc ms m
    rw [hinputs]
    rcases netStep_cases (P := protocol A) (network (protocol A) ms) m with
      ⟨hnone, -⟩ | ⟨j, x, hsome, -, -, hfrom⟩
    · rw [hnone, Option.toList_none, List.append_nil]
      exact ih hms
    · rw [hsome, Option.toList_some]
      by_cases hij : j = i
      · subst hij
        rw [own_snoc_self]
        refine (forall_split_snoc (P := fun pre x => IsLine x → Turn.start ∈ pre) _ x).mpr
          ⟨ih hms, fun hline => ?_⟩
        rcases hfrom with rfl | ⟨k, msg, d, rfl, -⟩
        · exact mem_own.mpr (mem_inputs (h j ms x [] rfl hline))
        · exact absurd hline id
      · rw [own_snoc_ne _ hij]
        exact ih hms

/-- The client has nothing left to hand on, and its workers have taken everything. -/
def Drained (c : Client.St) : Prop :=
  c.started = true ∧ c.pc = .idle ∧ c.fill = 0 ∧ ∀ q ∈ c.queues, q.head = []

instance (c : Client.St) : Decidable (Drained c) := inferInstanceAs (Decidable (_ ∧ _))

lemma announces_network (hhost : ∀ i j, A.host i j ≠ localhost)
    (hown : ∀ i x, .own i x ∈ moves → HostNumeric x) (horder : Orderly moves) (i : ι) :
    Announces (A.options i)
      (carried (A.options i) (A.pton i) (A.endian i) (own i (inputs (protocol A) moves)))
      ((network (protocol A) moves).state i) := by
  have hstate : (network (protocol A) moves).state i =
      informer (A.options i) (A.pton i) (A.endian i) (own i (inputs (protocol A) moves)) :=
    network_own moves i
  rw [hstate]
  refine announces_run (fun x hx => ?_) (inOrder_of_orderly horder i)
  rcases inputs_cases (mem_own.mp hx) with hmove | ⟨j, msg, d, hmsg⟩
  · exact hown i x hmove
  · have hx : x = (protocol A).arrival j i msg d := hmsg
    subst hx
    exact hhost j i

/-- Each command that has been sent is where it can be. -/
lemma sent_gone (A : Agents ι) (moves : List (Move ι Turn Delivery)) (i : ι) :
    (((network (protocol A) moves).flight ++ (handedOver A moves ++ strayed A moves)).filter
      fun f => f.1 = i).Perm
        ((gone (A.peers i) ((network (protocol A) moves).state i).client.queues).map
          fun x => (i, x)) := by
  have hstate : (network (protocol A) moves).state i =
      informer (A.options i) (A.pton i) (A.endian i) (own i (inputs (protocol A) moves)) :=
    network_own moves i
  have hgone := (gone_run (A.options i) (A.pton i) (A.endian i) (A.peers i)
    (own i (inputs (protocol A) moves))).map fun x => (i, x)
  rw [← hstate] at hgone
  refine List.Perm.trans ?_ hgone
  have hsent := sent_own (P := protocol A) moves i
  exact ((network_conserves moves).symm.filter _).trans (List.Perm.of_eq hsent)

/-- **Blocks are disseminated**: in a network of agents of any topology, each block of an agent
has gone to each agent that it informs, or waits for the worker of its queue; and each command
that has gone is on its way, handed over or lost, once. So when the client has handed on all it
had and nothing of it is on its way or lost, each agent informed has been handed each block. -/
theorem blocks_disseminated (A : Agents ι) (moves : List (Move ι Turn Delivery))
    (hhost : ∀ i j, A.host i j ≠ localhost)
    (hown : ∀ i x, .own i x ∈ moves → HostNumeric x) (horder : Orderly moves) (i : ι) :
    (((network (protocol A) moves).flight ++ (handedOver A moves ++ strayed A moves)).filter
        fun f => f.1 = i).Perm
          ((gone (A.peers i) ((network (protocol A) moves).state i).client.queues).map
            fun x => (i, x)) ∧
      (((network (protocol A) moves).state i).client.started = true →
        ((network (protocol A) moves).state i).client.pc ≠ .aborted →
        ∀ k q, ((network (protocol A) moves).state i).client.queues[k]? = some q →
          q.taken.flatten ++ q.head ++
            outstanding ((network (protocol A) moves).state i).client k ++
            (forced ((network (protocol A) moves).state i).client).toList = blocks A moves i) ∧
      (Drained ((network (protocol A) moves).state i).client →
        (∀ f ∈ (network (protocol A) moves).flight ++ strayed A moves, f.1 ≠ i) →
        ((handedOver A moves).filter fun f => f.1 = i).Perm
          (((A.peers i).take 256).flatMap fun j =>
            (blocks A moves i).map fun r => (i, j, frame addCommand r))) := by
  have h := announces_network (A := A) hhost hown horder i
  have hsent := sent_gone A moves i
  refine ⟨hsent, fun hstarted hpc => (h.queue hstarted hpc).2, fun hdrained hnone => ?_⟩
  obtain ⟨hstarted, hpc, hfill, hheads⟩ := hdrained
  obtain ⟨hcount, hqueue⟩ := h.queue hstarted (by rw [hpc]; simp)
  have htaken : ∀ q ∈ ((network (protocol A) moves).state i).client.queues,
      q.taken.flatten = blocks A moves i := by
    intro q hq
    obtain ⟨k, hk⟩ := List.mem_iff_getElem?.mp hq
    have hall := hqueue k q hk
    rw [hheads q hq, outstanding_of_not_served (not_served_idle hpc k), staged, hfill,
      forced_idle hpc] at hall
    simpa [blocks] using hall
  rw [gone_same (A.peers i) htaken, hcount, A.informAgents_eq, List.map_flatMap] at hsent
  have hpeers : (A.peers i).take (min 256 (A.peers i).length) = (A.peers i).take 256 := by
    rw [← List.take_take, List.take_length]
  have hflight : (network (protocol A) moves).flight.filter (fun f => f.1 = i) = [] :=
    List.filter_eq_nil_iff.mpr fun f hf => by
      simpa using hnone f (List.mem_append_left _ hf)
  have hstrayed : (strayed A moves).filter (fun f => f.1 = i) = [] :=
    List.filter_eq_nil_iff.mpr fun f hf => by
      simpa using hnone f (List.mem_append_right _ hf)
  rw [hpeers, List.filter_append, List.filter_append, hflight, hstrayed, List.nil_append,
    List.append_nil] at hsent
  simpa [List.map_map, Function.comp_def] using hsent

/-- Both agents start their clients first. -/
lemma orderly_circle : Orderly circle := by
  rintro i pre x post h hline
  rcases pre with _ | ⟨a, _ | ⟨b, pre⟩⟩
  · obtain ⟨hx, -⟩ := List.cons.inj h
    cases hx
    exact absurd hline id
  · obtain ⟨-, hrest⟩ := List.cons.inj h
    obtain ⟨hx, -⟩ := List.cons.inj hrest
    cases hx
    exact absurd hline id
  · obtain ⟨rfl, hrest⟩ := List.cons.inj h
    obtain ⟨rfl, -⟩ := List.cons.inj hrest
    cases i with
    | false => exact List.mem_cons_self
    | true => exact List.mem_cons_of_mem _ List.mem_cons_self

lemma numeric_circle (i : Bool) (x : Turn) (h : .own i x ∈ circle) : HostNumeric x := by
  simp only [circle, List.mem_cons, List.not_mem_nil, or_false, Move.own.injEq, reduceCtorEq,
    false_or] at h
  rcases h with ⟨-, rfl⟩ | ⟨-, rfl⟩ | ⟨-, rfl⟩ | ⟨-, rfl⟩ | ⟨-, rfl⟩ | ⟨-, rfl⟩ | ⟨-, rfl⟩ |
    ⟨-, rfl⟩ | ⟨-, rfl⟩ | ⟨-, rfl⟩ | ⟨-, rfl⟩ | ⟨-, rfl⟩ | ⟨-, rfl⟩ | ⟨-, rfl⟩
  all_goals decide

/-- The first of the two agents has blocked an address, and the other one has been told. -/
theorem blocks_disseminated_run :
    ((handedOver pair circle).filter fun f => f.1 = false).Perm
      [(false, true, frame addCommand HonestReports.sent)] := by
  have hhost : ascii "198.51.100.1" ≠ localhost := by decide
  have hdrained : Drained ((network (protocol pair) circle).state false).client := by
    decide +kernel
  have hblocks : blocks pair circle false = [HonestReports.sent] := by decide +kernel
  have hall := (blocks_disseminated pair circle (fun _ _ => hhost) numeric_circle orderly_circle
    false).2.2 hdrained (by decide +kernel)
  rw [hblocks] at hall
  exact hall

end Agentsmith.Dissemination
