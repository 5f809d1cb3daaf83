import Agentsmith.Intake
import Agentsmith.NetTransfer

/-!
A batch on its way from the worker of a client queue to a worker of the server, in a build without
SSL.

The sender writes one record after the other and goes on when a write fails, for the entries have
to be freed anyway. The receiver reads whole commands and leaves its loop at the first read that
brings less. Once a write has failed for good the connection is broken, and no later one gets
anything out, so what the receiver has taken is a beginning of the batch.
-/

namespace Agentsmith.Delivery

open Agentsmith.Lib.CStrings Agentsmith.Lib.Words Agentsmith.Lib.Loops Agentsmith.Globals
open Agentsmith.NetShared Agentsmith.NetTransfer Agentsmith.Daemon Agentsmith.Intake
open Agentsmith.Exclude (InetPton)

/-! ### The two loops -/

/-- The loop of `_client_queue_worker` that processes the queue, begun after some calls: what
`net_write` returns for each entry, and what has gone out. -/
def processQueue (sys : ℕ → Sys) (fuel : ℕ) (e : Endian) :
    ℕ → List UInt8 → List UInt8 → List HostRecord → Option (List Int64 × List UInt8)
  | _, sent, _, [] => some ([], sent)
  | calls, sent, buff, ptr :: nextptr =>
    if ptr.addr.1.length > 2 then
      let buff := (netCommandToBuff e addCommand ptr buff).1
      (netWrite sys fuel calls sent buff (UInt64.ofNat remoteCommandSize)).bind fun r =>
        (processQueue sys fuel e r.2.calls r.2.sent buff nextptr).map fun q => (r.1 :: q.1, q.2)
    else none

/-- The variables of the loop of `network_server_worker`, with what has become of the commands. -/
structure Serving where
  calls : ℕ
  rest : List UInt8
  buff : List UInt8
  outcomes : List Outcome

section

variable (sys : ℕ → Sys) (fuel : ℕ) (o : Options) (pton : InetPton) (e : Endian) (host : CStr)
  (env : ℕ → Exclude.Store × Bool)

/-- One turn. `env` says which exclude list the worker finds at each command, and whether there is
memory for a record. -/
def serverBody (s : Serving) : Option (Serving ⊕ List Outcome) :=
  (netRead sys fuel s.calls s.rest s.buff (UInt64.ofNat remoteCommandSize)).bind fun r =>
    let nread := r.1
    if nread = 0 then some (.inr s.outcomes)
    else if nread = Int64.ofInt retvalErr then some (.inr s.outcomes)
    else if nread ≠ Int64.ofNat remoteCommandSize then some (.inr s.outcomes)
    else
      let found := env s.outcomes.length
      (networkServerWorker o pton e found.1 found.2 host r.2.buf).map fun outcome =>
        if outcome = .hangUp then .inr (s.outcomes ++ [outcome])
        else .inl ⟨r.2.calls, r.2.rest, r.2.buf, s.outcomes ++ [outcome]⟩

/-- The worker, for a connection over which these bytes will come. -/
def serverWorker (stream buff : List UInt8) : Option (List Outcome) :=
  loop (serverBody sys fuel o pton e host env) fuel ⟨0, stream, buff, []⟩

/-- What becomes of a record that arrives as it has been sent. -/
def arrival (found : Exclude.Store × Bool) (hr : HostRecord) : Outcome :=
  if workerExcluded o pton e found.1 hr = some true then .ignored
  else .call (.report found.2 host hr)

/-- What becomes of records that arrive one after another. -/
def arrivals (hrs : List HostRecord) : List Outcome :=
  hrs.zipIdx.map fun q => arrival o pton e host (env q.2) q.1

end

/-- After a call that has failed for good no call gets through. -/
def Broken (sys : ℕ → Sys) : Prop := ∀ c c', c ≤ c' → (sys c).Fatal → (sys c').Fatal

/-- A record that the client has queued: its address is one, and it has reached its threshold. -/
def Sendable (hr : HostRecord) : Prop :=
  2 < hr.addr.1.length ∧ hr.actionThreshold ≤ hr.occurrences

instance (hr : HostRecord) : Decidable (Sendable hr) := inferInstanceAs (Decidable (_ ∧ _))

/-- The bytes of some records. -/
def framed (hrs : List HostRecord) : List UInt8 := bytes (hrs.map (frame addCommand))

variable {sys : ℕ → Sys} {i n quiet fuel : ℕ} {sent buf buff : List UInt8} {e : Endian}

/-! ### Writing -/

/-- A turn of `net_write` that ends with an error leaves something to write. -/
lemma netWriteBody_err {s : Writing} {r : Int64 × Writing} (hn : n < 2 ^ 63)
    (h : WritesOn sys i n sent buf s) (hr : netWriteBody sys buf (UInt64.ofNat n) s = .inr r)
    (herr : r.1 = Int64.ofInt retvalErr) : ∃ k < n, r.2.sent = sent ++ buf.take k := by
  obtain ⟨k, hk, hout, hptr, hleft⟩ := h
  unfold netWriteBody at hr
  by_cases hpos : k < n
  · rw [if_pos (by rw [hleft]; exact (left_pos hn k).mpr hpos)] at hr
    dsimp only at hr
    refine ⟨k, hpos, ?_⟩
    rcases hc : sys s.calls with m | errno
    · -- something moves, and the loop goes on
      have hnat : s.nleft.toNat = n - k := by rw [hleft, left_toNat hn]
      have hret : (write (.moves m) buf s.ptr s.nleft).ret =
          Int64.ofNat (min (m + 1) s.nleft.toNat) := rfl
      rw [hc, if_neg (by rw [hret]; exact Int64.not_le.mpr (ofNat_pos (by omega) (by omega)))] at hr
      cases hr
    · have hneg : (write (.fails errno) buf s.ptr s.nleft).ret ≤ 0 := by
        show (-1 : Int64) ≤ 0
        decide
      rw [hc, if_pos hneg] at hr
      split at hr
      · cases hr
      · cases hr
        exact (List.append_nil _).trans hout.sent
  · rw [if_neg (by rw [hleft, left_pos hn]; exact hpos)] at hr
    cases hr
    have hval : (UInt64.ofNat n).toInt64 = Int64.ofNat n := UInt64.toInt64_ofNat'
    exact absurd (hval.symm.trans herr) (ofNat_ne_err hn)

/-- All of the buffer goes out, or a beginning of it and no call gets through any more. -/
lemma netWrite_part (hquiet : Quiet sys quiet) (hn : n < 2 ^ 63) (hfuel : quiet + n < fuel)
    (i : ℕ) (sent buf : List UInt8) :
    ∃ r, netWrite sys fuel i sent buf (UInt64.ofNat n) = some r ∧
      ((r.1 = Int64.ofNat n ∧ r.2.sent = sent ++ buf.take n) ∨
        (r.1 = Int64.ofInt retvalErr ∧ (∃ c < r.2.calls, (sys c).Fatal) ∧
          ∃ k < n, r.2.sent = sent ++ buf.take k)) := by
  have hloop : ∃ r, netWrite sys fuel i sent buf (UInt64.ofNat n) = some r ∧
      WriteEnds sys i n sent buf r ∧
        (r.1 = Int64.ofInt retvalErr → ∃ k < n, r.2.sent = sent ++ buf.take k) := by
    refine loop_rule (P := WritesOn sys i n sent buf)
      (m := fun s => (quiet - s.calls) + s.nleft.toNat) (fun s h => ?_) ?_ ?_
    · obtain ⟨s', hs, h', hlt⟩ | ⟨r, hr, hends⟩ := netWriteBody_cases hquiet hn h
      · exact Or.inl ⟨s', congrArg some hs, h', hlt⟩
      · exact Or.inr ⟨r, congrArg some hr, hends, netWriteBody_err hn h hr⟩
    · exact ⟨0, Nat.zero_le n, ⟨Nat.le_refl i, fun c hi hc => absurd hc (Nat.not_lt.mpr hi),
        (List.append_nil _).symm⟩, rfl, rfl⟩
    · have hnat := left_toNat hn 0
      rw [Nat.sub_zero] at hnat
      show (quiet - i) + (UInt64.ofNat n).toNat < fuel
      omega
  obtain ⟨r, hr, hends, herr⟩ := hloop
  refine ⟨r, hr, ?_⟩
  rcases hends with ⟨hout, hret⟩ | ⟨hret, c, -, hcalls, -, hc, hfatal⟩
  · exact Or.inl ⟨hret, hout.sent⟩
  · exact Or.inr ⟨hret, ⟨c, by omega, by rw [hc]; exact hfatal⟩, herr hret⟩

/-- Over a broken connection nothing goes out. -/
lemma netWrite_dead (hdead : (sys i).Fatal) (hn : 0 < n) (hlt : n < 2 ^ 63) (hfuel : 0 < fuel) :
    ∃ r, netWrite sys fuel i sent buf (UInt64.ofNat n) = some r ∧
      r.1 = Int64.ofInt retvalErr ∧ r.2.sent = sent ∧ i < r.2.calls := by
  obtain ⟨fuel, rfl⟩ := Nat.exists_eq_succ_of_ne_zero (Nat.pos_iff_ne_zero.mp hfuel)
  rcases hc : sys i with m | errno
  · rw [hc] at hdead
    exact absurd hdead id
  · rw [hc] at hdead
    have hpos : UInt64.ofNat n > 0 := by
      have h0 := (left_pos hlt 0).mpr hn
      rwa [Nat.sub_zero] at h0
    have hneg : (-1 : Int64) ≤ 0 := by decide
    have hne : errno ≠ eintr := hdead
    rw [netWrite, loop]
    simp only [netWriteBody, if_pos hpos, hc, write, if_pos hneg, if_neg hne, List.append_nil]
    exact ⟨_, rfl, rfl, rfl, Nat.lt_succ_self i⟩

/-! ### The sender -/

lemma framed_cons (hr : HostRecord) (hrs : List HostRecord) :
    framed (hr :: hrs) = (frame addCommand hr).1 ++ framed hrs := by
  rw [framed, List.map_cons, bytes, List.map_cons, List.flatten_cons]
  rfl

lemma framed_length (hrs : List HostRecord) :
    (framed hrs).length = remoteCommandSize * hrs.length := by
  induction hrs with
  | nil => rfl
  | cons hr hrs ih =>
    rw [framed_cons, List.length_append, ih, (frame addCommand hr).2, List.length_cons,
      Nat.mul_succ, Nat.add_comm]

lemma command_eq (e : Endian) (hr : HostRecord) (hbuff : buff.length = remoteCommandSize) :
    (netCommandToBuff e addCommand hr buff).1 = (frame addCommand hr).1 := by
  rw [netCommandToBuff_eq, List.drop_eq_nil_of_le hbuff.le, List.append_nil]
  rfl

/-- What `net_write` returns for each entry when `m` of them get through. -/
def returned (m left : ℕ) : List Int64 :=
  List.replicate m (Int64.ofNat remoteCommandSize) ++ List.replicate left (Int64.ofInt retvalErr)

/-- Over a broken connection every write fails. -/
lemma processQueue_dead (hbroken : Broken sys) (hfuel : 0 < fuel) (hrs : List HostRecord)
    (hsend : ∀ hr ∈ hrs, 2 < hr.addr.1.length) (hdead : (sys i).Fatal) :
    processQueue sys fuel e i sent buff hrs =
      some (List.replicate hrs.length (Int64.ofInt retvalErr), sent) := by
  induction hrs generalizing i buff with
  | nil => rfl
  | cons hr hrs ih =>
    have hrest : ∀ q ∈ hrs, 2 < q.addr.1.length := fun q hq => hsend q (List.mem_cons_of_mem _ hq)
    obtain ⟨r, hwrite, hret, hsent, hcalls⟩ := netWrite_dead (n := remoteCommandSize) hdead
      (by decide) (by decide) hfuel
    rw [processQueue, if_pos (hsend hr List.mem_cons_self)]
    dsimp only
    rw [hwrite, Option.bind_some, hsent,
      ih hrest (hbroken i _ (Nat.le_of_lt hcalls) hdead), Option.map_some, hret]
    rfl

/-- **The sender**: some records go out as a whole, and of the next one a beginning. -/
lemma processQueue_eq (hquiet : Quiet sys quiet) (hbroken : Broken sys)
    (hfuel : quiet + remoteCommandSize < fuel) (hrs : List HostRecord)
    (hsend : ∀ hr ∈ hrs, 2 < hr.addr.1.length) (i : ℕ) (sent : List UInt8)
    (hbuff : buff.length = remoteCommandSize) :
    ∃ m part, processQueue sys fuel e i sent buff hrs =
        some (returned m (hrs.length - m), sent ++ framed (hrs.take m) ++ part) ∧
      m ≤ hrs.length ∧ part.length < remoteCommandSize ∧
      ((∀ c, ¬ (sys c).Fatal) → m = hrs.length ∧ part = []) := by
  induction hrs generalizing i sent buff with
  | nil => exact ⟨0, [], by simp [processQueue, returned, framed, bytes], Nat.le_refl 0, by decide,
      fun _ => ⟨rfl, rfl⟩⟩
  | cons hr hrs ih =>
    have hrest : ∀ q ∈ hrs, 2 < q.addr.1.length := fun q hq => hsend q (List.mem_cons_of_mem _ hq)
    obtain ⟨r, hwrite, hr'⟩ := netWrite_part hquiet (n := remoteCommandSize) (by decide) hfuel i
      sent (netCommandToBuff e addCommand hr buff).1
    rw [processQueue, if_pos (hsend hr List.mem_cons_self)]
    dsimp only
    rw [hwrite, Option.bind_some]
    rw [command_eq e hr hbuff] at hr' ⊢
    rcases hr' with ⟨hret, hsent⟩ | ⟨hret, ⟨c, hc, hfatal⟩, k, hk, hsent⟩
    · -- the whole record has gone out
      rw [List.take_of_length_le (frame addCommand hr).2.le] at hsent
      obtain ⟨m, part, hmore, hm, hpart, hall⟩ :=
        ih hrest r.2.calls r.2.sent (frame addCommand hr).2
      refine ⟨m + 1, part, ?_, Nat.succ_le_succ hm, hpart, fun h => ?_⟩
      · rw [hmore, Option.map_some, hret, hsent, List.take_succ_cons, framed_cons,
          List.length_cons, Nat.add_sub_add_right]
        simp [returned, List.replicate_succ]
      · exact ⟨congrArg Nat.succ (hall h).1, (hall h).2⟩
    · -- a beginning of it, and then nothing
      refine ⟨0, (frame addCommand hr).1.take k, ?_, Nat.zero_le _, ?_,
        fun h => absurd hfatal (h c)⟩
      · rw [processQueue_dead hbroken (by omega) hrs hrest
          (hbroken c _ (Nat.le_of_lt hc) hfatal), Option.map_some, hret, hsent]
        simp [returned, framed, bytes, List.replicate_succ]
      · exact Nat.lt_of_le_of_lt (List.length_take_le _ _) hk

/-! ### The receiver -/

variable {sys' : ℕ → Sys} {o : Options} {pton : InetPton} {host : CStr}
  {env : ℕ → Exclude.Store × Bool} {hrs : List HostRecord} {part : List UInt8}

lemma arrivals_snoc (hrs : List HostRecord) (hr : HostRecord) :
    arrivals o pton e host env (hrs ++ [hr]) =
      arrivals o pton e host env hrs ++ [arrival o pton e host (env hrs.length) hr] := by
  rw [arrivals, List.zipIdx_append, List.map_append]
  simp [arrivals]

lemma arrivals_length (hrs : List HostRecord) :
    (arrivals o pton e host env hrs).length = hrs.length := by
  rw [arrivals, List.length_map, List.length_zipIdx]

/-- A record that arrives as it has been sent. -/
lemma command_arrives {found : Exclude.Store × Bool} {hr : HostRecord}
    (hle : hr.actionThreshold ≤ hr.occurrences)
    (hex : (workerExcluded o pton e found.1 hr).isSome) :
    networkServerWorker o pton e found.1 found.2 host (frame addCommand hr).1 =
      some (arrival o pton e host found hr) := by
  have hwire : (netBuffToCommand e (frame addCommand hr).1).1 = (addCommand, hr) := by
    rw [netBuffToCommand_eq e (frame addCommand hr).2]
    exact unwire_wire addCommand hr
  obtain ⟨b, hb⟩ := Option.isSome_iff_exists.mp hex
  unfold networkServerWorker arrival
  rw [hwire]
  dsimp only
  rw [if_pos rfl, hb]
  cases b with
  | true => rw [if_pos rfl]
  | false =>
    have hne : some false ≠ some true := by decide
    rw [if_neg hne]
    exact if_pos hle

lemma arrival_ne_hangUp (found : Exclude.Store × Bool) (hr : HostRecord) :
    arrival o pton e host found hr ≠ .hangUp := by
  unfold arrival
  split <;> exact Outcome.noConfusion

/-- The receiver has taken the first records of those on the stream. -/
structure Serves (o : Options) (pton : InetPton) (e : Endian) (host : CStr)
    (env : ℕ → Exclude.Store × Bool) (hrs : List HostRecord) (part : List UInt8) (s : Serving) :
    Prop where
  buff : s.buff.length = remoteCommandSize
  split : ∃ got todo, hrs = got ++ todo ∧ s.rest = framed todo ++ part ∧
    s.outcomes = arrivals o pton e host env got

/-- The receiver has left its loop, and has taken all of them unless a read has failed. -/
def Served (sys' : ℕ → Sys) (o : Options) (pton : InetPton) (e : Endian) (host : CStr)
    (env : ℕ → Exclude.Store × Bool) (hrs : List HostRecord) (outcomes : List Outcome) : Prop :=
  ∃ k ≤ hrs.length, outcomes = arrivals o pton e host env (hrs.take k) ∧
    ((∀ c, ¬ (sys' c).Fatal) → k = hrs.length)

lemma served_got {got todo : List HostRecord} (hall : (∀ c, ¬ (sys' c).Fatal) → todo = []) :
    Served sys' o pton e host env (got ++ todo) (arrivals o pton e host env got) := by
  refine ⟨got.length, by simp, by rw [List.take_left], fun h => ?_⟩
  rw [hall h, List.append_nil]

/-- One turn of the receiver. -/
lemma serverBody_cases {s : Serving} (hquiet : Quiet sys' quiet)
    (hfuel : quiet + remoteCommandSize < fuel) (hpart : part.length < remoteCommandSize)
    (hhonest : ∀ hr ∈ hrs, hr.actionThreshold ≤ hr.occurrences)
    (hex : ∀ n, ∀ hr ∈ hrs, (workerExcluded o pton e (env n).1 hr).isSome)
    (h : Serves o pton e host env hrs part s) :
    (∃ s', serverBody sys' fuel o pton e host env s = some (.inl s') ∧
      Serves o pton e host env hrs part s' ∧ s'.rest.length < s.rest.length) ∨
    ∃ r, serverBody sys' fuel o pton e host env s = some (.inr r) ∧
      Served sys' o pton e host env hrs r := by
  obtain ⟨hbuff, got, todo, rfl, hrest, hout⟩ := h
  obtain ⟨r, hr, hends⟩ := netRead_ends hquiet (n := remoteCommandSize) (by decide) hfuel s.calls
    s.rest s.buff
  unfold serverBody
  rw [hr, Option.bind_some]
  dsimp only
  obtain ⟨hgot, hret⟩ | ⟨hret, c, -, -, -, hc, hfatal⟩ := hends
  · rcases todo with _ | ⟨hr, todo⟩
    · -- less than a command is left
      have hmin : min remoteCommandSize s.rest.length = part.length := by
        rw [hrest]
        exact Nat.min_eq_right hpart.le
      rw [hmin] at hret
      have hend : Served sys' o pton e host env (got ++ []) s.outcomes := by
        rw [hout]
        exact served_got fun _ => rfl
      refine Or.inr ⟨s.outcomes, ?_, hend⟩
      split
      · rfl
      · split
        · rfl
        · rw [if_pos (by rw [hret]; exact ofNat_ne hpart (by decide))]
    · have hsplit : s.rest = (frame addCommand hr).1 ++ (framed todo ++ part) := by
        rw [hrest, framed_cons, List.append_assoc]
      have hlen : s.rest.length = remoteCommandSize + (framed todo ++ part).length := by
        rw [hsplit, List.length_append, (frame addCommand hr).2]
      have hmin : min remoteCommandSize s.rest.length = remoteCommandSize := by omega
      have hbuf : r.2.buf = (frame addCommand hr).1 := by
        rw [hgot.buf, hmin, hsplit, List.take_left' (frame addCommand hr).2,
          List.drop_of_length_le hbuff.le, List.append_nil]
      have hleft : r.2.rest = framed todo ++ part := by
        rw [hgot.rest, hmin, hsplit, List.drop_left' (frame addCommand hr).2]
      have hmem : hr ∈ got ++ hr :: todo := List.mem_append_right _ List.mem_cons_self
      rw [hmin] at hret
      rw [hret, if_neg (by decide), if_neg (by decide), if_neg (by decide), hbuf,
        command_arrives (hhonest hr hmem) (hex _ hr hmem), Option.map_some,
        if_neg (arrival_ne_hangUp _ _), hleft]
      refine Or.inl ⟨_, rfl, ⟨(frame addCommand hr).2, got ++ [hr], todo, by simp, rfl, ?_⟩, ?_⟩
      · rw [hout, arrivals_snoc, arrivals_length]
      · rw [hlen]
        exact Nat.lt_add_of_pos_left (by decide)
  · -- a read has failed
    have hend : Served sys' o pton e host env (got ++ todo) s.outcomes := by
      rw [hout]
      exact served_got fun hok => absurd (show (sys' c).Fatal by rw [hc]; exact hfatal) (hok c)
    refine Or.inr ⟨s.outcomes, ?_, hend⟩
    rw [hret, if_neg (by decide), if_pos rfl]

lemma serverWorker_eq (hquiet : Quiet sys' quiet) (hpart : part.length < remoteCommandSize)
    (hhonest : ∀ hr ∈ hrs, hr.actionThreshold ≤ hr.occurrences)
    (hex : ∀ n, ∀ hr ∈ hrs, (workerExcluded o pton e (env n).1 hr).isSome)
    (hbuff : buff.length = remoteCommandSize)
    (hfuel : quiet + remoteCommandSize + (framed hrs ++ part).length < fuel) :
    ∃ r, serverWorker sys' fuel o pton e host env (framed hrs ++ part) buff = some r ∧
      Served sys' o pton e host env hrs r := by
  have hlow : quiet + remoteCommandSize < fuel := by omega
  have hstart : Serves o pton e host env hrs part ⟨0, framed hrs ++ part, buff, []⟩ :=
    ⟨hbuff, [], hrs, rfl, rfl, rfl⟩
  have hlt : (framed hrs ++ part).length < fuel := by omega
  exact loop_rule (fun s h => serverBody_cases hquiet hlow hpart hhonest hex h) hstart hlt

/-- **Delivery in order**: however the calls on either side split and interrupt the stream, and
wherever the connection breaks, the receiver deals with the first records of the batch, each once,
in order and as they were sent, and with no others; a record whose write was reported as failed is
not among them. Where no call fails, it deals with the whole batch. -/
theorem delivered_in_order {sys sys' : ℕ → Sys} (hsend : ∃ quiet, Quiet sys quiet)
    (hreceive : ∃ quiet, Quiet sys' quiet) (hbroken : Broken sys) (e e' : Endian) (o : Options)
    (pton : InetPton) (host : CStr) (env : ℕ → Exclude.Store × Bool)
    (buff buff' : Field remoteCommandSize) (batch : List HostRecord)
    (hbatch : ∀ hr ∈ batch, Sendable hr)
    (hex : ∀ n, ∀ hr ∈ batch, (workerExcluded o pton e' (env n).1 hr).isSome) :
    ∃ enough, ∀ fuel ≥ enough, ∃ m k stream, k ≤ m ∧ m ≤ batch.length ∧
      processQueue sys fuel e 0 [] buff.1 batch =
        some (returned m (batch.length - m), stream) ∧
      serverWorker sys' fuel o pton e' host env stream buff'.1 =
        some (arrivals o pton e' host env (batch.take k)) ∧
      ((∀ c, ¬ (sys c).Fatal) → m = batch.length) ∧ ((∀ c, ¬ (sys' c).Fatal) → k = m) := by
  obtain ⟨quiet, hsend⟩ := hsend
  obtain ⟨quiet', hreceive⟩ := hreceive
  refine ⟨quiet + quiet' + 2 * remoteCommandSize + remoteCommandSize * batch.length + 1,
    fun fuel hfuel => ?_⟩
  obtain ⟨m, part, hsender, hm, hpart, hall⟩ := processQueue_eq (e := e) hsend hbroken
    (show quiet + remoteCommandSize < fuel by omega) batch (fun hr hh => (hbatch hr hh).1) 0 []
    buff.2
  have htaken : ∀ hr ∈ batch.take m, hr ∈ batch := fun hr hh => List.mem_of_mem_take hh
  have hlen : (framed (batch.take m) ++ part).length ≤
      remoteCommandSize * batch.length + remoteCommandSize := by
    have htake : (batch.take m).length = m := List.length_take_of_le hm
    have hmul := Nat.mul_le_mul_left remoteCommandSize hm
    rw [List.length_append, framed_length, htake]
    omega
  obtain ⟨r, hreceiver, k, hk, rfl, hk'⟩ := serverWorker_eq hreceive hpart
    (fun hr hh => (hbatch hr (htaken hr hh)).2) (fun n hr hh => hex n hr (htaken hr hh)) buff'.2
    (show quiet' + remoteCommandSize + (framed (batch.take m) ++ part).length < fuel by omega)
  rw [List.length_take_of_le hm] at hk hk'
  rw [List.nil_append] at hsender
  rw [List.take_take, Nat.min_eq_left hk] at hreceiver
  exact ⟨m, k, _, hk, hm, hsender, hreceiver, fun h => (hall h).1, hk'⟩

def reported : HostRecord :=
  { Records.fresh initConfig.toConfig 100 (ascii "192.0.2.7") with occurrences := 3 }

/-- One byte at a time out, and the largest pieces in: both records arrive. -/
theorem delivered_in_order_run : ∃ fuel stream,
    processQueue trickle fuel .little 0 [] blank.1 [reported, reported] =
      some ([144, 144], stream) ∧
    serverWorker flood fuel initConfig ExcludeCidr.quadPton .big (ascii "198.51.100.1")
        (fun _ => (Exclude.excludeInit, true)) stream blank.1 =
      some [.call (.report true (ascii "198.51.100.1") reported),
        .call (.report true (ascii "198.51.100.1") reported)] := by
  have hslow : ∃ quiet, Quiet trickle quiet := by
    refine ⟨4, fun c hc => ?_⟩
    unfold trickle
    rw [if_neg (by omega)]
    exact Sys.noConfusion
  have hwrite : ∀ c, ¬ (trickle c).Fatal := by
    intro c
    unfold trickle
    split
    · exact fun h => h rfl
    · exact id
  have hfast : ∃ quiet, Quiet flood quiet := ⟨0, fun c _ => Sys.noConfusion⟩
  have hbatch : ∀ hr ∈ [reported, reported], Sendable hr := by decide +kernel
  have hex : ∀ hr ∈ [reported, reported], (workerExcluded initConfig ExcludeCidr.quadPton .big
      Exclude.excludeInit hr).isSome := by decide +kernel
  obtain ⟨enough, hall⟩ := delivered_in_order hslow hfast
    (fun c _ _ hfatal => absurd hfatal (hwrite c)) .little .big initConfig ExcludeCidr.quadPton
    (ascii "198.51.100.1") (fun _ => (Exclude.excludeInit, true)) blank blank
    [reported, reported] hbatch fun _ => hex
  obtain ⟨m, k, stream, -, -, hsender, hreceiver, hm, hk⟩ := hall enough (Nat.le_refl _)
  obtain rfl : m = 2 := hm hwrite
  obtain rfl : k = 2 := hk fun _ => id
  refine ⟨enough, stream, hsender, hreceiver.trans ?_⟩
  decide +kernel

/-- Pieces of a hundred bytes, and a fourth call that fails, as all after it do. -/
def breaks (c : ℕ) : Sys := if c < 3 then .moves 99 else .fails 32

/-- Of the second record a part goes out, and the receiver does not take it. -/
example : ((processQueue breaks 300 .little 0 [] blank.1 [reported, reported]).bind fun q =>
    (serverWorker trickle 300 initConfig ExcludeCidr.quadPton .big (ascii "198.51.100.1")
      (fun _ => (Exclude.excludeInit, true)) q.2 blank.1).map fun r => (q.1, r)) =
    some ([144, -1], [.call (.report true (ascii "198.51.100.1") reported)]) := by
  decide +kernel

end Agentsmith.Delivery
