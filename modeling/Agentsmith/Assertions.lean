import Agentsmith.HonestReports
import Agentsmith.Terminated

/-!
The assertions on the text of an address.

A lookup in the exclude list parses its string as a line of the exclude file, and asserts that
the prefix has the full length of the family. The action thread and the client assert that an
address has more than two characters. Nothing on the way from a log line or from another host
makes sure of either.
-/

namespace Agentsmith.Assertions

open Agentsmith.Lib.CStrings Agentsmith.Lib.Slots Agentsmith.Lib.Words Agentsmith.Lib.Runs
open Agentsmith.Globals Agentsmith.Records Agentsmith.RecordsMap Agentsmith.NetShared
open Agentsmith.Daemon Agentsmith.PerAddress Agentsmith.Stored Agentsmith.Intake
open Agentsmith.DoAction Agentsmith.Informer Agentsmith.HonestReports
open Agentsmith.Terminated (copyCut_terminated)
open Agentsmith.Client (maxClientQueues staged)
open Agentsmith.Exclude (InetPton atoi strchr excludeParseIp excludeFind)
open Agentsmith.ExcludeLines (bits family parse_cidr parse_host)
open Agentsmith.ExcludeCidr (quadPton)

variable {o : Options} {pton : InetPton} {e : Endian} {S T : CStr → Prop} {x : CStr}

/-! ### The assertions of a step -/

/-- The string a step asks the exclude list for. -/
def asked (o : Options) (e : Endian) (m : Moment) : Option CStr :=
  match m.input with
  | .line _ x => some x
  | .command _ _ buff =>
    let cmd := (netBuffToCommand e buff.1).1
    if cmd.1 = addCommand ∧ o.remoteAuthoritative = 0 then some cmd.2.addr else none
  | _ => none

/-- The records whose addresses the action thread asserts on when it goes on: in
`client_queue_append` those of the vector, after a forced flush the one that `client_queue_record`
goes on with, and in `_do_action` the one it forwards. -/
def forwarded (o : Options) (s : Informer.St) (access : Bool) : List HostRecord :=
  match s.client.pc, s.todo with
  | .flushing i back, _ =>
    if i < maxClientQueues ∧ i < s.client.queues.length then staged s.client else back.toList
  | .idle, .call c :: _ => if access = true ∧ Distributed o c then [c.ptr] else []
  | _, _ => []

/-- `strlen(ipaddr) > 2`. -/
def LongEnough (r : HostRecord) : Prop := 2 < r.addr.1.length

instance (r : HostRecord) : Decidable (LongEnough r) := inferInstanceAs (Decidable (2 < _))

/-- The assertions of the step hold. -/
def Asserted (o : Options) (pton : InetPton) (e : Endian) (s : Informer.St) (t : Turn) : Prop :=
  match t with
  | .moment m => ∀ y, asked o e m = some y → (excludeFind pton e y m.list).isSome
  | .go access => ∀ r ∈ forwarded o s access, LongEnough r
  | _ => True

/-- The assertions hold in every state that the run reaches. -/
def AllAsserted (o : Options) (pton : InetPton) (e : Endian) (ts : List Turn) : Prop :=
  ∀ pre t post, ts = pre ++ t :: post → Asserted o pton e (informer o pton e pre) t

/-- The string has fewer than three characters, or no slash, or what `atoi` reads behind its
first slash, taken without a sign, is at least the number of bits of an address. -/
def Searchable (x : CStr) : Prop :=
  3 ≤ x.1.length → ∀ i, strchr x 47 = some i →
    bits (family x) ≤ (atoi (x.1.drop (i + 1))).toUInt32.toNat

instance (x : CStr) : Decidable (Searchable x) :=
  match h : strchr x 47 with
  | none => isTrue fun _ i hi => by rw [h] at hi; cases hi
  | some i => decidable_of_iff
      (3 ≤ x.1.length → bits (family x) ≤ (atoi (x.1.drop (i + 1))).toUInt32.toNat)
      (by simp [Searchable, h])

/-- Captured strings are in `S`, and the `ipaddr` of an `ADD` is NUL-terminated and in `T`. The
numeric name of a peer is not `localhost`. -/
def Arrives (e : Endian) (S T : CStr → Prop) (t : Turn) : Prop :=
  match t with
  | .moment ⟨_, _, .line _ x⟩ => S x
  | .moment ⟨_, _, .command _ host buff⟩ => host ≠ localhost ∧
      ((netBuffToCommand e buff.1).1.1 = addCommand →
        (netBuffToCommand e buff.1).1.2.ipaddr.Terminated ∧
          T (netBuffToCommand e buff.1).1.2.addr)
  | _ => True

/-! ### Lookups -/

/-- **The assertion of a lookup** does not depend on the list. -/
theorem find_isSome_iff (v : Exclude.Store) :
    (excludeFind pton e x v).isSome ↔ Searchable x := by
  unfold excludeFind Searchable
  by_cases hlen : 3 ≤ x.1.length
  swap
  · have hshort : excludeParseIp x = none := by
      unfold excludeParseIp
      rw [if_pos (by omega)]
    rw [hshort]
    simp [hlen]
  rcases hi : strchr x 47 with _ | i
  · rw [parse_host hlen hi]
    cases family x <;> simp
  · rw [parse_cidr hlen hi]
    simp only [hlen, Option.some.injEq, forall_eq', true_imp_iff]
    generalize (atoi (x.1.drop (i + 1))).toUInt32 = q
    have hiff : ((family x = .inet ∧ q = 32) ∨ (family x = .inet6 ∧ q = 128)) ↔
        q.toNat = bits (family x) := by
      have heq : ∀ w : UInt32, q = w ↔ q.toNat = w.toNat := fun w => UInt32.toNat_inj.symm
      cases family x with
      | inet => simpa [bits] using heq 32
      | inet6 => simpa [bits] using heq 128
    by_cases hle : q.toNat ≤ bits (family x)
    · rw [if_pos hle]
      dsimp only
      rw [if_congr hiff rfl rfl]
      split
      · rename_i heq
        exact ⟨fun _ => Nat.le_of_eq heq.symm, fun _ => rfl⟩
      · rename_i hne
        exact ⟨fun h => absurd h (by decide), fun h => absurd (Nat.le_antisymm hle h) hne⟩
    · rw [if_neg hle]
      exact ⟨fun _ => Nat.le_of_not_le hle, fun _ => rfl⟩

/-! ### Records on their way -/

/-- A record that may be distributed has an address of more than two characters. -/
def Sendable (o : Options) (f g : Field ipaddrSize) : Prop :=
  o.inform = 1 → o.informAgents ≠ 0 → f.str = localhost → 2 < g.str.1.length

lemma cut_length (x : CStr) : 2 < (copyCut ipaddrSize x).str.1.length ↔ 2 < x.1.length := by
  rw [copyCut_str (by decide), List.length_take]
  unfold ipaddrSize
  omega

lemma sendable_brought (hS : ∀ s, S s → o.inform = 1 → o.informAgents ≠ 0 → 2 < s.1.length)
    {m : Moment} (hm : Arrives e S T (.moment m)) {f g : Field ipaddrSize}
    (h : Brought o pton e m f g) : Sendable o f g := by
  obtain ⟨t, list, input⟩ := m
  cases h with
  | @line mem x hi hex =>
    obtain rfl : input = .line mem x := hi
    exact fun hinf hag _ => (cut_length x).mpr (hS x hm hinf hag)
  | @command mem host buff hr hi hcmd hex hle =>
    obtain rfl : input = .command mem host buff := hi
    exact fun _ _ horigin => absurd (localhost_of_cut horigin) hm.1

/-- Nothing short is stored for distribution, called for, or given to the client. -/
lemma carries (hS : ∀ s, S s → o.inform = 1 → o.informAgents ≠ 0 → 2 < s.1.length)
    {ts : List Turn} (hts : ∀ t ∈ ts, Arrives e S T t) :
    Carries (fun r => Sendable o r.origin r.ipaddr) LongEnough (informer o pton e ts) := by
  have hok : ∀ t ∈ ts, Admits o pton e (Brings (Sendable o)) t := by
    rintro t ht m ev rfl hev f g hfg
    exact sendable_brought hS (hts _ ht) (brought_of_strings (event_eq.mp hev).1 hfg)
  refine informer_carries hok ?_ ?_
  · intro ev old r hev hold hw
    rcases writes_strings hw with hf | ⟨q, hq, h1, h2⟩
    · exact hev _ _ hf
    · rw [h1, h2]
      exact hold q hq
  · intro c hdist _ hsend
    obtain ⟨-, hinf, hag, hlocal⟩ := hdist
    exact hsend hinf hag hlocal

lemma forwarded_long {Q : HostRecord → Prop} {s : Informer.St} (hclient : Keeps Q s.client)
    (hcalls : ∀ c ∈ calls s, Distributed o c → Q c.ptr) (access : Bool) :
    ∀ r ∈ forwarded o s access, Q r := by
  intro r hr
  unfold forwarded at hr
  split at hr
  · rename_i i back hpc
    split at hr
    · obtain ⟨k, -, hk⟩ := List.mem_filterMap.mp hr
      exact hclient.vector hk
    · exact hclient.back r (by rw [forced, hpc]; exact Option.mem_toList.mp hr)
  · rename_i c rest hpc htodo
    split at hr
    · rename_i hdist
      obtain rfl := List.mem_singleton.mp hr
      exact hcalls c (by rw [calls, htodo]; exact List.mem_cons_self) hdist.2
    · cases hr
  · cases hr

/-- Every step of a run of admissible strings. -/
lemma all_asserted (hS : ∀ s, S s →
      Searchable s ∧ (o.inform = 1 → o.informAgents ≠ 0 → 2 < s.1.length))
    (hT : o.remoteAuthoritative = 0 → ∀ s, T s → s.1.length < ipaddrSize → Searchable s)
    {ts : List Turn} (hts : ∀ t ∈ ts, Arrives e S T t) : AllAsserted o pton e ts := by
  rintro pre t post rfl
  have hcarries : Carries (fun r => Sendable o r.origin r.ipaddr) LongEnough
      (informer o pton e pre) :=
    carries (fun s hs => (hS s hs).2) fun u hu => hts u (List.mem_append_left _ hu)
  have ht := hts t (by simp)
  rcases t with m | _ | access | _
  · intro y hy
    rw [find_isSome_iff]
    obtain ⟨now, list, input⟩ := m
    cases input with
    | line mem x =>
      obtain rfl := Option.some.inj hy
      exact (hS x ht).1
    | command mem host buff =>
      unfold asked at hy
      dsimp only at hy
      split at hy
      · rename_i hadd
        obtain rfl := Option.some.inj hy
        obtain ⟨hterm, hTs⟩ := ht.2 hadd.1
        exact hT hadd.2 _ hTs (Field.str_length_lt hterm)
      · cases hy
    | actionPass => cases hy
    | maintenance => cases hy
    | purgeAll => cases hy
  · trivial
  · refine forwarded_long hcarries.client (fun c hc hdist => ?_) access
    obtain ⟨-, hinf, hag, hlocal⟩ := hdist
    exact (hcarries.calls c hc).2 hinf hag hlocal
  · trivial

/-! ### Short strings reach the action thread -/

/-- A line with the string, at the Epoch. -/
def sighting (x : CStr) : Turn := .moment ⟨0, Exclude.excludeInit, .line true x⟩

def pass : Turn := .moment ⟨0, Exclude.excludeInit, .actionPass⟩

/-- The record of a string that has been seen `n` times in one second. -/
def seenTimes (cfg : Config) (x : CStr) (n : ℕ) : HostRecord :=
  { fresh cfg 0 x with occurrences := Int32.ofNat n }

lemma short_act (hx : x.1.length < 3) :
    Moment.act o pton e ⟨0, Exclude.excludeInit, .line true x⟩ =
      some (some (.sighting true x)) := by
  have hshort : excludeParseIp x = none := by
    unfold excludeParseIp
    rw [if_pos hx]
  show regexDo pton e Exclude.excludeInit true x = _
  unfold regexDo Exclude.excludeIsexcluded excludeFind
  rw [hshort]
  rfl

/-- A call into the vector, while the action thread has nothing to do. -/
lemma informerStep_idle {s : Informer.St} (htodo : s.todo = [])
    (hclient : s.client = informerInit.client) {m : Moment} {a : Act}
    (hact : m.act o pton e = some (some a)) :
    informerStep o pton e s (.moment m) = vectorStep o s ⟨m.time, a⟩ := by
  have hpc : s.client.pc = .idle := by rw [hclient]; rfl
  have hlock : ¬ Locked s := by
    rintro (hcalls | hback)
    · exact hcalls (by rw [calls, htodo]; rfl)
    · exact hback (by rw [forced, hpc])
  unfold informerStep
  rw [if_neg (by rw [hpc]; exact Client.Pc.noConfusion)]
  dsimp only
  rw [if_neg hlock, hact]
  exact if_neg fun h => h.2.elim (fun h => h htodo) fun h => h hpc

/-- While nothing but lines comes in, the action thread has nothing to do. -/
lemma informer_sightings (hx : x.1.length < 3) (n : ℕ) :
    let s := informer o pton e (List.replicate n (sighting x))
    s.todo = [] ∧ s.client = informerInit.client ∧
      s.daemon = daemon o.toConfig (List.replicate n ⟨0, .sighting true x⟩) := by
  induction n with
  | zero => exact ⟨rfl, rfl, rfl⟩
  | succ n ih =>
    obtain ⟨htodo, hclient, hdaemon⟩ := ih
    rw [List.replicate_succ', List.replicate_succ']
    unfold informer at htodo hclient hdaemon ⊢
    unfold daemon at hdaemon ⊢
    have hstep : ∀ s, s.todo = [] → s.client = informerInit.client →
        informerStep o pton e s (sighting x) = vectorStep o s ⟨0, .sighting true x⟩ :=
      fun s h1 h2 => informerStep_idle h1 h2 (short_act hx)
    rw [run_snoc, run_snoc]
    dsimp only
    rw [hstep _ htodo hclient]
    refine ⟨?_, hclient, ?_⟩
    · show _ ++ jobs o _ _ = _
      rw [htodo]
      rfl
    · rw [← hdaemon]
      rfl

lemma view_sightings {cfg : Config} (hinterval : 1 ≤ cfg.timeInterval) (x : CStr) (n : ℕ) :
    (view cfg x (List.replicate (n + 1) ⟨0, .sighting true x⟩)).1 =
      some (seenTimes cfg x (n + 1)) := by
  induction n with
  | zero => simp [view, viewStep, addIpAt, seenTimes, fresh]
  | succ n ih =>
    have hwindow : (0 : Int64) - 0 ≤ cfg.timeInterval := by
      refine Int64.le_trans ?_ hinterval
      decide
    rw [List.replicate_succ', view_snoc]
    unfold viewStep
    rw [ih]
    simp only [addIpAt, seen, bump, seenTimes, fresh, hwindow, if_true, Int32.ofNat_add]
    rfl

/-- After as many sightings as the threshold asks for, a pass leaves the short record to be
distributed. -/
lemma short_called (pton : InetPton) (e : Endian) (hsane : o.toConfig.Sane)
    (hx : x.1.length < 3) : ∃ n c rest,
    let s := informer o pton e (List.replicate n (sighting x) ++ [pass])
    s.client.pc = .idle ∧ s.todo = .call c :: rest ∧ c.type = .new ∧
      c.ptr.origin.str = localhost ∧ c.ptr.addr = x := by
  obtain ⟨n, hn⟩ : ∃ n : ℕ, Int32.ofNat (n + 1) = o.actionThreshold := by
    have hpos := Int32.le_iff_toInt_le.mp hsane.actionThreshold
    have hone : (1 : Int32).toInt = 1 := rfl
    refine ⟨o.actionThreshold.toInt.toNat - 1, ?_⟩
    rw [← Int32.ofInt_eq_ofNat]
    have hval : ((o.actionThreshold.toInt.toNat - 1 + 1 : ℕ) : ℤ) = o.actionThreshold.toInt := by
      omega
    rw [hval, Int32.ofInt_toInt]
  set evs : List Event := List.replicate (n + 1) ⟨0, .sighting true x⟩ with hevs
  have hfits : ∀ ev ∈ evs, ev.Fits := by
    intro ev hev
    rw [List.eq_of_mem_replicate hev]
    show x.1.length < ipaddrSize
    unfold ipaddrSize
    omega
  have hsees : Sees x (daemon o.toConfig evs) (view o.toConfig x evs) :=
    sees_fits hfits x List.prefix_rfl
  -- the record is due, so the pass makes a call
  have hcall : (⟨.new, seenTimes o.toConfig x (n + 1)⟩ : Call) ∈
      passCalls o.toConfig (daemon o.toConfig evs) 0 := by
    refine ((mem_passCalls o.toConfig hsees 0 _).mpr ⟨_, view_sightings hsane.timeInterval x n,
      ⟨?_, rfl⟩, rfl⟩).1
    show o.actionThreshold ≤ Int32.ofNat (n + 1)
    rw [hn]
    exact Int32.le_refl _
  obtain ⟨c, cs, hcs⟩ := List.exists_cons_of_ne_nil (List.ne_nil_of_mem hcall)
  -- and every record there is comes from these lines
  have hbrings : ∀ ev ∈ evs, Brings (fun f g => f.str = localhost ∧ g.str = x) ev := by
    intro ev hev f g hfg
    rw [List.eq_of_mem_replicate hev] at hfg
    obtain ⟨rfl, rfl⟩ := Prod.mk.inj (Option.some.inj hfg)
    exact ⟨by decide, copyCut_str_of_lt (by unfold ipaddrSize; omega)⟩
  have hall := (all_strings o.toConfig hbrings).1
  have hc : c ∈ passCalls o.toConfig (daemon o.toConfig evs) 0 := by rw [hcs]; simp
  rw [passCalls_eq hsees.record.shape] at hc
  obtain ⟨r, hr, hcr⟩ := List.mem_flatMap.mp hc
  obtain ⟨rfl, htype, -⟩ := mem_newCalls.mp hcr
  refine ⟨n + 1, c, cs.map .call ++ if o.inform = 1 ∧ o.informAgents ≠ 0 then [.flush] else [], ?_⟩
  obtain ⟨htodo, hclient, hdaemon⟩ : (informer o pton e _).todo = [] ∧ _ :=
    informer_sightings hx (n + 1)
  unfold informer at htodo hclient hdaemon ⊢
  rw [run_snoc, pass, informerStep_idle htodo hclient rfl]
  refine ⟨?_, ?_, htype, (hall.live _ hr).1, (hall.live _ hr).2⟩
  · exact congrArg Client.St.pc hclient
  · show _ ++ jobs o _ _ = _
    rw [htodo, hdaemon, List.nil_append]
    show (passCalls o.toConfig (daemon o.toConfig evs) 0).map Job.call ++ _ = _
    rw [hcs]
    rfl

/-- If the agent informs others, the record is then put on the wire. -/
lemma short_forwarded (pton : InetPton) (e : Endian) (hsane : o.toConfig.Sane)
    (hx : x.1.length < 3) (hinf : o.inform = 1) (hag : o.informAgents ≠ 0) : ∃ n, ∃ r : HostRecord,
    r ∈ forwarded o (informer o pton e (List.replicate n (sighting x) ++ [pass])) true ∧
      r.addr = x := by
  obtain ⟨n, c, rest, hpc, htodo, htype, horigin, haddr⟩ := short_called pton e hsane hx
  refine ⟨n, c.ptr, ?_, haddr⟩
  unfold forwarded
  rw [hpc, htodo]
  dsimp only
  rw [if_pos ⟨rfl, htype, hinf, hag, horigin⟩]
  exact List.mem_singleton_self _

/-! ### All runs -/

/-- An `ADD` of a record for the string. -/
def report (x : CStr) : Turn :=
  .moment ⟨0, Exclude.excludeInit, .command true (ascii "198.51.100.1")
    (frame addCommand (fresh initConfig.toConfig 0 x))⟩

lemma report_command (e : Endian) (x : CStr) :
    (netBuffToCommand e (frame addCommand (fresh initConfig.toConfig 0 x)).1).1 =
      (addCommand, fresh initConfig.toConfig 0 x) := by
  rw [netBuffToCommand_eq e (frame addCommand _).2]
  exact unwire_wire addCommand _

/-- The exclude list is asked for the string in the report. -/
lemma asked_report (e : Endian) (hauth : o.remoteAuthoritative = 0) (hx : x.1.length < ipaddrSize) :
    asked o e ⟨0, Exclude.excludeInit, .command true (ascii "198.51.100.1")
      (frame addCommand (fresh initConfig.toConfig 0 x))⟩ = some x := by
  have haddr : (fresh initConfig.toConfig 0 x).addr = x := copyCut_str_of_lt hx
  unfold asked
  dsimp only
  rw [report_command, if_pos ⟨rfl, hauth⟩, haddr]

/-- **Untrusted text and the assertions**: they hold in every run of an agent just when every
string that may be captured, and every one that may come with an `ADD` while the exclude list is
asked for it, passes the assertion of a lookup, and no captured one is shorter than three
characters if the agent informs others. -/
theorem asserts_hold_iff (o : Options) (hsane : o.toConfig.Sane) (pton : InetPton) (e : Endian)
    (S T : CStr → Prop) :
    (∀ ts, (∀ t ∈ ts, Arrives e S T t) → AllAsserted o pton e ts) ↔
      (∀ x, S x → Searchable x ∧ (o.inform = 1 → o.informAgents ≠ 0 → 2 < x.1.length)) ∧
        (o.remoteAuthoritative = 0 → ∀ x, T x → x.1.length < ipaddrSize → Searchable x) := by
  refine ⟨fun h => ⟨fun x hx => ⟨?_, fun hinf hag => ?_⟩, fun hauth x hx hlen => ?_⟩,
    fun ⟨hS, hT⟩ ts hts => all_asserted hS hT hts⟩
  · have hts : ∀ t ∈ [sighting x], Arrives e S T t := fun t ht => by
      rw [List.mem_singleton.mp ht]
      exact hx
    have hrun := h [sighting x] hts [] (sighting x) [] rfl x rfl
    exact (find_isSome_iff Exclude.excludeInit).mp hrun
  · by_contra hshort
    obtain ⟨n, r, hr, haddr⟩ :=
      short_forwarded pton e hsane (Nat.lt_of_not_le hshort) hinf hag
    have hts : ∀ t ∈ List.replicate n (sighting x) ++ [pass, .go true], Arrives e S T t := by
      intro t ht
      rcases List.mem_append.mp ht with hs | hrest
      · rw [List.eq_of_mem_replicate hs]
        exact hx
      · rcases List.mem_cons.mp hrest with rfl | hlast
        · trivial
        · rw [List.mem_singleton.mp hlast]
          trivial
    have hrun := h _ hts (List.replicate n (sighting x) ++ [pass]) (.go true) [] (by simp)
    have hlong := hrun r hr
    unfold LongEnough at hlong
    rw [haddr] at hlong
    exact hshort hlong
  · have haddr : (fresh initConfig.toConfig 0 x).addr = x := copyCut_str_of_lt hlen
    have hts : ∀ t ∈ [report x], Arrives e S T t := by
      intro t ht
      rw [List.mem_singleton.mp ht]
      refine ⟨by decide, fun _ => ?_⟩
      rw [report_command, haddr]
      exact ⟨copyCut_terminated x, hx⟩
    have hrun := h [report x] hts [] (report x) [] rfl x (asked_report e hauth hlen)
    exact (find_isSome_iff Exclude.excludeInit).mp hrun

/-- Addresses without a prefix, of more than two characters. -/
def addresses : List CStr := [ascii "192.0.2.7", ascii "2001:db8::7", ascii "192.0.2.9/32"]

/-- Sightings, a report and a pass, after which the action thread goes on. -/
def addressTurns : List Turn :=
  [sighting (ascii "192.0.2.7"), sighting (ascii "192.0.2.9/32"), report (ascii "2001:db8::7"),
    pass, .go true]

theorem asserts_hold_iff_run : AllAsserted informs quadPton .little addressTurns := by
  have hall : ∀ x ∈ addresses, Searchable x ∧ 2 < x.1.length := by
    intro x hx
    simp only [addresses, List.mem_cons, List.not_mem_nil, or_false] at hx
    rcases hx with rfl | rfl | rfl <;> decide +kernel
  refine (asserts_hold_iff informs (by decide) quadPton .little (· ∈ addresses)
    (· ∈ addresses)).mpr ⟨fun x hx => ?_, fun _ x hx _ => (hall x hx).1⟩ addressTurns fun t ht => ?_
  · exact ⟨(hall x hx).1, fun _ _ => (hall x hx).2⟩
  · simp only [addressTurns, List.mem_cons, List.not_mem_nil, or_false] at ht
    rcases ht with rfl | rfl | rfl | rfl | rfl
    · exact (by decide +kernel : ascii "192.0.2.7" ∈ addresses)
    · exact (by decide +kernel : ascii "192.0.2.9/32" ∈ addresses)
    · refine ⟨by decide +kernel, fun _ => ?_⟩
      rw [report_command]
      decide +kernel
    · trivial
    · trivial

/-- **Texts that stop the agent**: a network where an address is expected, captured or received,
and an address of two characters that is to be distributed. -/
theorem asserts_fail :
    ¬ AllAsserted initConfig quadPton .little [sighting (ascii "192.0.2.7/24")] ∧
      ¬ AllAsserted initConfig quadPton .little [report (ascii "192.0.2.7/24")] ∧
      ¬ AllAsserted informs quadPton .little
        [sighting (ascii "::"), sighting (ascii "::"), sighting (ascii "::"), pass, .go true] := by
  have hnet : ¬ Searchable (ascii "192.0.2.7/24") := by decide +kernel
  refine ⟨fun h => hnet ?_, fun h => hnet ?_, fun h => ?_⟩
  · exact (find_isSome_iff Exclude.excludeInit).mp (h [] _ [] rfl _ rfl)
  · exact (find_isSome_iff Exclude.excludeInit).mp (h [] _ [] rfl _ (by decide +kernel))
  · have hlong := h [sighting (ascii "::"), sighting (ascii "::"), sighting (ascii "::"), pass]
      (.go true) [] rfl (seenTimes informs.toConfig (ascii "::") 3) (by decide +kernel)
    exact absurd hlong (by decide +kernel)

end Agentsmith.Assertions
