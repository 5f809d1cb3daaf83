import Agentsmith.Lib.Loops
import Agentsmith.NetShared

/-!
Whole commands over a byte stream: `net_read` and `net_write`.

One call of `read` or `write` may move fewer bytes than it is asked for, or be interrupted, so each
of the two functions calls it until it has moved all of them. What the calls do is given by a
schedule. A `read` waits until there are bytes or the other side has ended the stream, so the
reader's side of a connection is known by the bytes that will come over it.
-/

namespace Agentsmith.NetTransfer

open Agentsmith.Lib.CStrings Agentsmith.Lib.Words Agentsmith.Lib.Loops Agentsmith.Globals

def eintr : Int32 := 4

/-- What a call of `read` or `write` does: it moves at most `n + 1` bytes, or it fails. -/
inductive Sys
  | moves (n : ℕ)
  | fails (errno : Int32)
  deriving DecidableEq

/-- The result of a call: what it returns, `errno`, and the bytes moved. -/
structure Moved where
  ret : Int64
  errno : Int32
  bytes : List UInt8

/-- `write(fildes, ptr, nleft)`. -/
def write (c : Sys) (buf : List UInt8) (ptr : ℕ) (nleft : UInt64) : Moved :=
  match c with
  | .moves n =>
    let k := min (n + 1) nleft.toNat
    ⟨Int64.ofNat k, 0, peek buf ptr k⟩
  | .fails errno => ⟨-1, errno, []⟩

/-- `read(fildes, ptr, nleft)` from a stream with the bytes `rest`. -/
def read (c : Sys) (rest : List UInt8) (nleft : UInt64) : Moved :=
  match c with
  | .moves n =>
    let k := min (min (n + 1) nleft.toNat) rest.length
    ⟨Int64.ofNat k, 0, rest.take k⟩
  | .fails errno => ⟨-1, errno, []⟩

/-! ### The loops -/

/-- The variables of `net_read`, with the number of calls so far and what is left of the stream. -/
structure Reading where
  calls : ℕ
  rest : List UInt8
  buf : List UInt8
  ptr : ℕ
  nleft : UInt64
  err : Int32

def netReadBody (sys : ℕ → Sys) (nbyte : UInt64) (s : Reading) : Reading ⊕ Int64 × Reading :=
  if s.nleft > 0 then
    let r := read (sys s.calls) s.rest s.nleft
    let nread := r.ret
    let s := { s with
      calls := s.calls + 1
      rest := s.rest.drop r.bytes.length
      buf := (put (s.buf, s.ptr) r.bytes).1 }
    if nread < 0 then
      let s := { s with err := r.errno }
      if s.err = eintr then
        let nread : Int64 := 0
        .inl { s with nleft := s.nleft - nread.toUInt64, ptr := s.ptr + nread.toNatClampNeg }
      else .inr (Int64.ofInt retvalErr, s)
    else if nread = 0 then .inr ((nbyte - s.nleft).toInt64, s)
    else .inl { s with nleft := s.nleft - nread.toUInt64, ptr := s.ptr + nread.toNatClampNeg }
  else .inr ((nbyte - s.nleft).toInt64, s)

/-- `net_read(fildes, buf, nbyte, err)`, begun after some calls. -/
def netRead (sys : ℕ → Sys) (fuel calls : ℕ) (rest buf : List UInt8) (nbyte : UInt64) :
    Option (Int64 × Reading) :=
  loop (fun s => some (netReadBody sys nbyte s)) fuel ⟨calls, rest, buf, 0, nbyte, 0⟩

/-- The variables of `net_write`, and what has gone out. -/
structure Writing where
  calls : ℕ
  sent : List UInt8
  ptr : ℕ
  nleft : UInt64
  err : Int32

def netWriteBody (sys : ℕ → Sys) (buf : List UInt8) (nbyte : UInt64) (s : Writing) :
    Writing ⊕ Int64 × Writing :=
  if s.nleft > 0 then
    let r := write (sys s.calls) buf s.ptr s.nleft
    let nwritten := r.ret
    let s := { s with calls := s.calls + 1, sent := s.sent ++ r.bytes }
    if nwritten ≤ 0 then
      let s := { s with err := r.errno }
      if s.err = eintr then
        let nwritten : Int64 := 0
        .inl { s with nleft := s.nleft - nwritten.toUInt64, ptr := s.ptr + nwritten.toNatClampNeg }
      else .inr (Int64.ofInt retvalErr, s)
    else .inl { s with nleft := s.nleft - nwritten.toUInt64, ptr := s.ptr + nwritten.toNatClampNeg }
  else .inr (nbyte.toInt64, s)

/-- `net_write(fildes, buf, nbyte, err)`. -/
def netWrite (sys : ℕ → Sys) (fuel calls : ℕ) (sent buf : List UInt8) (nbyte : UInt64) :
    Option (Int64 × Writing) :=
  loop (fun s => some (netWriteBody sys buf nbyte s)) fuel ⟨calls, sent, 0, nbyte, 0⟩

/-! ### Commands -/

/-- Commands sent one after another: what `net_write` returns for each of them, and the stream. -/
def sendAll (sys : ℕ → Sys) (fuel : ℕ) : ℕ → List UInt8 → List (Field remoteCommandSize) →
    Option (List Int64 × List UInt8)
  | _, sent, [] => some ([], sent)
  | calls, sent, c :: cs =>
    (netWrite sys fuel calls sent c.1 (UInt64.ofNat remoteCommandSize)).bind fun r =>
      (sendAll sys fuel r.2.calls r.2.sent cs).map fun q => (r.1 :: q.1, q.2)

/-- The loop of a server worker, before what it does with a command: the calls so far, the stream,
`buff`, and for each call of `net_read` what it returns and what is in `buff` then. -/
structure Receiving where
  calls : ℕ
  rest : List UInt8
  buff : List UInt8
  log : List (Int64 × List UInt8)

def workerBody (sys : ℕ → Sys) (fuel : ℕ) (s : Receiving) :
    Option (Receiving ⊕ List (Int64 × List UInt8)) :=
  (netRead sys fuel s.calls s.rest s.buff (UInt64.ofNat remoteCommandSize)).map fun r =>
    let nread := r.1
    let s : Receiving := ⟨r.2.calls, r.2.rest, r.2.buf, s.log ++ [(nread, r.2.buf)]⟩
    if nread = 0 then .inr s.log
    else if nread = Int64.ofInt retvalErr then .inr s.log
    else if nread ≠ Int64.ofNat remoteCommandSize then .inr s.log
    else .inl s

def receiveAll (sys : ℕ → Sys) (fuel : ℕ) (rest buff : List UInt8) :
    Option (List (Int64 × List UInt8)) :=
  loop (workerBody sys fuel) fuel ⟨0, rest, buff, []⟩

/-! ### Schedules -/

/-- The call fails, and not because it was interrupted. -/
def Sys.Fatal : Sys → Prop
  | .moves _ => False
  | .fails errno => errno ≠ eintr

/-- From some call on, no one is interrupted. -/
def Quiet (sys : ℕ → Sys) (quiet : ℕ) : Prop := ∀ c, quiet ≤ c → sys c ≠ .fails eintr

/-- No call from `i` on and before `j` fails for good. -/
def Served (sys : ℕ → Sys) (i j : ℕ) : Prop := ∀ c, i ≤ c → c < j → ¬ (sys c).Fatal

/-- The last call before `j` has failed for good, and no one before it from `i` on. -/
def Failed (sys : ℕ → Sys) (i j : ℕ) (err : Int32) : Prop :=
  ∃ c, i ≤ c ∧ c + 1 = j ∧ Served sys i c ∧ sys c = .fails err ∧ err ≠ eintr

variable {sys : ℕ → Sys} {i j n k quiet : ℕ}

lemma Served.succ (h : Served sys i j) (hj : ¬ (sys j).Fatal) : Served sys i (j + 1) := by
  intro c hi hc
  rcases Nat.lt_succ_iff_lt_or_eq.mp hc with hlt | rfl
  · exact h c hi hlt
  · exact hj

lemma not_fatal_moves {m : ℕ} (hc : sys j = .moves m) : ¬ (sys j).Fatal := by
  rw [hc]
  exact id

lemma not_fatal_eintr {errno : Int32} (hc : sys j = .fails errno) (he : errno = eintr) :
    ¬ (sys j).Fatal := by
  rw [hc]
  exact fun h => h he

/-- An interruption is an early one. -/
lemma Quiet.early (h : Quiet sys quiet) {errno : Int32} (hc : sys j = .fails errno)
    (he : errno = eintr) : j < quiet := by
  by_contra hlate
  exact h j (Nat.le_of_not_lt hlate) (by rw [hc, he])

/-! ### Counts -/

lemma ofNat_pos (hk : 0 < k) (hlt : k < 2 ^ 63) : (0 : Int64) < Int64.ofNat k := by
  rw [Int64.lt_iff_toInt_lt, Int64.toInt_ofNat_of_lt hlt]
  show (0 : ℤ) < k
  omega

lemma ofNat_eq_zero (hlt : k < 2 ^ 63) : Int64.ofNat k = 0 ↔ k = 0 := by
  refine ⟨fun h => ?_, fun h => by rw [h]; rfl⟩
  by_contra hk
  have hpos := ofNat_pos (Nat.pos_of_ne_zero hk) hlt
  rw [h] at hpos
  exact absurd hpos (by decide)

lemma ofNat_not_neg (hlt : k < 2 ^ 63) : ¬ Int64.ofNat k < 0 := by
  rw [Int64.lt_iff_toInt_lt, Int64.toInt_ofNat_of_lt hlt]
  show ¬ (k : ℤ) < 0
  omega

lemma ofNat_ne (h : k < n) (hn : n < 2 ^ 63) : Int64.ofNat k ≠ Int64.ofNat n := by
  intro heq
  have hint := congrArg Int64.toInt heq
  rw [Int64.toInt_ofNat_of_lt (h.trans hn), Int64.toInt_ofNat_of_lt hn] at hint
  omega

lemma left_toNat (hn : n < 2 ^ 63) (k : ℕ) : (UInt64.ofNat (n - k)).toNat = n - k := by
  rw [UInt64.toNat_ofNat', Nat.mod_eq_of_lt]
  omega

lemma left_pos (hn : n < 2 ^ 63) (k : ℕ) : UInt64.ofNat (n - k) > 0 ↔ k < n := by
  rw [gt_iff_lt, UInt64.lt_iff_toNat_lt, left_toNat hn]
  show 0 < n - k ↔ k < n
  omega

lemma left_sub (hjk : j ≤ n - k) :
    UInt64.ofNat (n - k) - (Int64.ofNat j).toUInt64 = UInt64.ofNat (n - (k + j)) := by
  rw [Int64.toUInt64_ofNat', ← UInt64.ofNat_sub hjk, Nat.sub_sub]

/-- The pointer and the number of bytes left, when a call has moved `j` bytes. -/
lemma counts_moved (hn : n < 2 ^ 63) {ptr : ℕ} {nleft : UInt64} (hj : j ≤ n - k) (hptr : ptr = k)
    (hleft : nleft = UInt64.ofNat (n - k)) :
    ptr + (Int64.ofNat j).toNatClampNeg = k + j ∧
      nleft - (Int64.ofNat j).toUInt64 = UInt64.ofNat (n - (k + j)) ∧
      (nleft - (Int64.ofNat j).toUInt64).toNat + j = nleft.toNat := by
  have hj63 : j < 2 ^ 63 := by omega
  have hsub := left_sub hj
  refine ⟨?_, ?_, ?_⟩
  · rw [Int64.toNatClampNeg_ofNat_of_lt hj63, hptr]
  · rw [hleft, hsub]
  · rw [hleft, hsub, left_toNat hn, left_toNat hn]
    omega

/-- What `net_read` returns when `k` bytes have come. -/
lemma done_eq (hk : k ≤ n) :
    (UInt64.ofNat n - UInt64.ofNat (n - k)).toInt64 = Int64.ofNat k := by
  rw [← UInt64.ofNat_sub (Nat.sub_le n k), UInt64.toInt64_ofNat', Nat.sub_sub_self hk]

/-! ### Reading -/

/-- Since the call `i`, `k` bytes of the stream have come into the buffer. -/
structure Got (sys : ℕ → Sys) (i k : ℕ) (stream old : List UInt8) (s : Reading) : Prop where
  calls : i ≤ s.calls
  served : Served sys i s.calls
  le : k ≤ stream.length
  rest : s.rest = stream.drop k
  buf : s.buf = stream.take k ++ old.drop k

variable {stream old : List UInt8} {s : Reading}

/-- A call that moves `j` bytes. -/
lemma Got.moved (h : Got sys i k stream old s) (hptr : s.ptr = k) (hj : k + j ≤ stream.length)
    (hok : ¬ (sys s.calls).Fatal) (ptr : ℕ) (nleft : UInt64) (err : Int32) :
    Got sys i (k + j) stream old ⟨s.calls + 1, s.rest.drop (s.rest.take j).length,
      (put (s.buf, s.ptr) (s.rest.take j)).1, ptr, nleft, err⟩ := by
  have hlen : (stream.take k).length = k := List.length_take_of_le h.le
  have hjlen : (s.rest.take j).length = j := by
    rw [h.rest, List.length_take, List.length_drop]
    omega
  refine ⟨Nat.le_succ_of_le h.calls, h.served.succ hok, hj, ?_, ?_⟩
  · show s.rest.drop _ = _
    rw [hjlen, h.rest, List.drop_drop]
  · unfold put
    dsimp only
    have hcome : (stream.take k).drop (k + j) = [] := List.drop_of_length_le (by omega)
    rw [hjlen, hptr, h.buf, List.take_left' hlen, h.rest, List.take_add, List.drop_append, hlen,
      hcome, List.nil_append, List.drop_drop, Nat.add_sub_cancel_left]

/-- A call of `read` that does not fail moves something, unless there is nothing. -/
lemma read_moves (m : ℕ) (rest : List UInt8) (nleft : UInt64) :
    ∃ j, read (.moves m) rest nleft = ⟨Int64.ofNat j, 0, rest.take j⟩ ∧ j ≤ nleft.toNat ∧
      j ≤ rest.length ∧ (j = 0 → nleft.toNat = 0 ∨ rest.length = 0) := by
  refine ⟨_, rfl, ?_, ?_, ?_⟩
  all_goals omega

/-- What a call of `net_read` for `n` bytes comes to: all that the stream has for it, or an
error. -/
def ReadEnds (sys : ℕ → Sys) (i n : ℕ) (stream old : List UInt8) (r : Int64 × Reading) : Prop :=
  (Got sys i (min n stream.length) stream old r.2 ∧
    r.1 = Int64.ofNat (min n stream.length)) ∨
    (r.1 = Int64.ofInt retvalErr ∧ Failed sys i r.2.calls r.2.err)

/-- The loop of `net_read` when `k` bytes have come. -/
def ReadsOn (sys : ℕ → Sys) (i n : ℕ) (stream old : List UInt8) (s : Reading) : Prop :=
  ∃ k ≤ n, Got sys i k stream old s ∧ s.ptr = k ∧ s.nleft = UInt64.ofNat (n - k)

/-- One turn of the loop of `net_read`. -/
lemma netReadBody_cases (hquiet : Quiet sys quiet) (hn : n < 2 ^ 63)
    (h : ReadsOn sys i n stream old s) :
    (∃ s', netReadBody sys (UInt64.ofNat n) s = .inl s' ∧ ReadsOn sys i n stream old s' ∧
      (quiet - s'.calls) + s'.nleft.toNat < (quiet - s.calls) + s.nleft.toNat) ∨
    ∃ r, netReadBody sys (UInt64.ofNat n) s = .inr r ∧ ReadEnds sys i n stream old r := by
  obtain ⟨k, hk, hgot, hptr, hleft⟩ := h
  have hle := hgot.le
  have hnat : s.nleft.toNat = n - k := by rw [hleft, left_toNat hn]
  have hrest : s.rest.length = stream.length - k := by rw [hgot.rest, List.length_drop]
  unfold netReadBody
  by_cases hpos : k < n
  · rw [if_pos (by rw [hleft]; exact (left_pos hn k).mpr hpos)]
    dsimp only
    rcases hc : sys s.calls with m | errno
    · obtain ⟨j, hread, hjn, hjr, hj0⟩ := read_moves m s.rest s.nleft
      have hj63 : j < 2 ^ 63 := by omega
      have hmoved := hgot.moved hptr (j := j) (by omega) (not_fatal_moves hc)
      rw [hread]
      dsimp only
      rw [if_neg (ofNat_not_neg hj63)]
      by_cases hzero : j = 0
      · -- the end of the stream
        have hmin : min n stream.length = k := by omega
        rw [if_pos ((ofNat_eq_zero hj63).mpr hzero)]
        refine Or.inr ⟨_, rfl, Or.inl ⟨?_, ?_⟩⟩
        · rw [hmin]
          subst hzero
          exact hmoved _ _ _
        · rw [hmin, hleft, done_eq hk]
      · rw [if_neg ((ofNat_eq_zero hj63).not.mpr hzero)]
        obtain ⟨hptr', hleft', hfewer⟩ := counts_moved hn (hnat ▸ hjn) hptr hleft
        refine Or.inl ⟨_, rfl, ⟨k + j, by omega, hmoved _ _ _, hptr', hleft'⟩, ?_⟩
        dsimp only
        omega
    · have hneg : (-1 : Int64) < 0 := by decide
      unfold read
      dsimp only
      rw [if_pos hneg]
      by_cases he : errno = eintr
      · -- interrupted: nothing has moved
        have hearly := hquiet.early hc he
        have hmoved := hgot.moved hptr (j := 0) hle (not_fatal_eintr hc he)
        obtain ⟨hptr', hleft', hfewer⟩ := counts_moved hn (Nat.zero_le _) hptr hleft
        rw [if_pos he]
        refine Or.inl ⟨_, rfl, ⟨k, hk, hmoved _ _ _, hptr', hleft'⟩, ?_⟩
        show quiet - (s.calls + 1) + (s.nleft - (Int64.ofNat 0).toUInt64).toNat < _
        omega
      · rw [if_neg he]
        exact Or.inr ⟨_, rfl, Or.inr ⟨rfl, s.calls, hgot.calls, rfl, hgot.served, hc, he⟩⟩
  · have hmin : min n stream.length = k := by omega
    rw [if_neg (by rw [hleft, left_pos hn]; exact hpos)]
    refine Or.inr ⟨_, rfl, Or.inl ?_⟩
    rw [hmin]
    exact ⟨hgot, by rw [hleft, done_eq hk]⟩

/-- **`net_read`** gets all that the stream has for it, unless a call fails for good. -/
theorem netRead_ends (hquiet : Quiet sys quiet) (hn : n < 2 ^ 63) {fuel : ℕ}
    (hfuel : quiet + n < fuel) (i : ℕ) (stream old : List UInt8) :
    ∃ r, netRead sys fuel i stream old (UInt64.ofNat n) = some r ∧
      ReadEnds sys i n stream old r := by
  refine loop_rule (P := ReadsOn sys i n stream old)
    (m := fun s => (quiet - s.calls) + s.nleft.toNat) (fun s h => ?_) ?_ ?_
  · obtain ⟨s', hs, h', hlt⟩ | ⟨r, hr, hends⟩ := netReadBody_cases hquiet hn h
    · exact Or.inl ⟨s', congrArg some hs, h', hlt⟩
    · exact Or.inr ⟨r, congrArg some hr, hends⟩
  · exact ⟨0, Nat.zero_le n, ⟨Nat.le_refl i, fun c hi hc => absurd hc (Nat.not_lt.mpr hi),
      Nat.zero_le _, rfl, rfl⟩, rfl, rfl⟩
  · have hnat := left_toNat hn 0
    rw [Nat.sub_zero] at hnat
    show (quiet - i) + (UInt64.ofNat n).toNat < fuel
    omega

/-! ### Writing -/

/-- Since the call `i`, the first `k` bytes of the buffer have gone out. -/
structure Out (sys : ℕ → Sys) (i k : ℕ) (sent buf : List UInt8) (s : Writing) : Prop where
  calls : i ≤ s.calls
  served : Served sys i s.calls
  sent : s.sent = sent ++ buf.take k

/-- What a call of `net_write` for `n` bytes comes to: all of them, or an error. -/
def WriteEnds (sys : ℕ → Sys) (i n : ℕ) (sent buf : List UInt8) (r : Int64 × Writing) : Prop :=
  (Out sys i n sent buf r.2 ∧ r.1 = Int64.ofNat n) ∨
    (r.1 = Int64.ofInt retvalErr ∧ Failed sys i r.2.calls r.2.err)

/-- The loop of `net_write` when `k` bytes have gone. -/
def WritesOn (sys : ℕ → Sys) (i n : ℕ) (sent buf : List UInt8) (s : Writing) : Prop :=
  ∃ k ≤ n, Out sys i k sent buf s ∧ s.ptr = k ∧ s.nleft = UInt64.ofNat (n - k)

variable {sent buf : List UInt8}

/-- One turn of the loop of `net_write`. -/
lemma netWriteBody_cases {s : Writing} (hquiet : Quiet sys quiet) (hn : n < 2 ^ 63)
    (h : WritesOn sys i n sent buf s) :
    (∃ s', netWriteBody sys buf (UInt64.ofNat n) s = .inl s' ∧ WritesOn sys i n sent buf s' ∧
      (quiet - s'.calls) + s'.nleft.toNat < (quiet - s.calls) + s.nleft.toNat) ∨
    ∃ r, netWriteBody sys buf (UInt64.ofNat n) s = .inr r ∧ WriteEnds sys i n sent buf r := by
  obtain ⟨k, hk, hout, hptr, hleft⟩ := h
  have hnat : s.nleft.toNat = n - k := by rw [hleft, left_toNat hn]
  unfold netWriteBody
  by_cases hpos : k < n
  · rw [if_pos (by rw [hleft]; exact (left_pos hn k).mpr hpos)]
    dsimp only
    rcases hc : sys s.calls with m | errno
    · obtain ⟨j, hwrite, hj0, hjn⟩ : ∃ j, write (.moves m) buf s.ptr s.nleft =
          ⟨Int64.ofNat j, 0, peek buf s.ptr j⟩ ∧ 0 < j ∧ j ≤ n - k :=
        ⟨_, rfl, by omega, by omega⟩
      have hj63 : j < 2 ^ 63 := by omega
      obtain ⟨hptr', hleft', hfewer⟩ := counts_moved hn hjn hptr hleft
      rw [hwrite]
      dsimp only
      rw [if_neg (Int64.not_le.mpr (ofNat_pos hj0 hj63))]
      refine Or.inl ⟨_, rfl, ⟨k + j, by omega, ⟨Nat.le_succ_of_le hout.calls,
        hout.served.succ (not_fatal_moves hc), ?_⟩, hptr', hleft'⟩, ?_⟩
      · dsimp only
        rw [hout.sent, hptr, peek, List.append_assoc, ← List.take_add]
      · dsimp only
        omega
    · have hneg : (-1 : Int64) ≤ 0 := by decide
      unfold write
      dsimp only
      rw [if_pos hneg]
      by_cases he : errno = eintr
      · -- interrupted: nothing has moved
        have hearly := hquiet.early hc he
        obtain ⟨hptr', hleft', hfewer⟩ := counts_moved hn (Nat.zero_le _) hptr hleft
        rw [if_pos he]
        refine Or.inl ⟨_, rfl, ⟨k, hk, ⟨Nat.le_succ_of_le hout.calls,
          hout.served.succ (not_fatal_eintr hc he), ?_⟩, hptr', hleft'⟩, ?_⟩
        · rw [← hout.sent]
          exact List.append_nil _
        · show quiet - (s.calls + 1) + (s.nleft - (Int64.ofNat 0).toUInt64).toNat < _
          omega
      · rw [if_neg he]
        exact Or.inr ⟨_, rfl, Or.inr ⟨rfl, s.calls, hout.calls, rfl, hout.served, hc, he⟩⟩
  · have hkn : k = n := by omega
    rw [if_neg (by rw [hleft, left_pos hn]; exact hpos)]
    refine Or.inr ⟨_, rfl, Or.inl ⟨by rw [← hkn]; exact hout, ?_⟩⟩
    exact UInt64.toInt64_ofNat'

/-- **`net_write`** sends the whole buffer, unless a call fails for good. -/
theorem netWrite_ends (hquiet : Quiet sys quiet) (hn : n < 2 ^ 63) {fuel : ℕ}
    (hfuel : quiet + n < fuel) (i : ℕ) (sent buf : List UInt8) :
    ∃ r, netWrite sys fuel i sent buf (UInt64.ofNat n) = some r ∧
      WriteEnds sys i n sent buf r := by
  refine loop_rule (P := WritesOn sys i n sent buf)
    (m := fun s => (quiet - s.calls) + s.nleft.toNat) (fun s h => ?_) ?_ ?_
  · obtain ⟨s', hs, h', hlt⟩ | ⟨r, hr, hends⟩ := netWriteBody_cases hquiet hn h
    · exact Or.inl ⟨s', congrArg some hs, h', hlt⟩
    · exact Or.inr ⟨r, congrArg some hr, hends⟩
  · exact ⟨0, Nat.zero_le n, ⟨Nat.le_refl i, fun c hi hc => absurd hc (Nat.not_lt.mpr hi),
      (List.append_nil _).symm⟩, rfl, rfl⟩
  · have hnat := left_toNat hn 0
    rw [Nat.sub_zero] at hnat
    show (quiet - i) + (UInt64.ofNat n).toNat < fuel
    omega

/-! ### Errors -/

lemma ofNat_ne_err (hlt : k < 2 ^ 63) : Int64.ofNat k ≠ Int64.ofInt retvalErr := by
  intro h
  have hneg : Int64.ofInt retvalErr < 0 := by decide
  rw [← h] at hneg
  exact ofNat_not_neg hlt hneg

lemma not_failed (hok : ∀ c, ¬ (sys c).Fatal) {err : Int32} : ¬ Failed sys i j err := by
  rintro ⟨c, -, -, -, hc, herr⟩
  exact hok c (by rw [hc]; exact herr)

/-- A function returns `RETVAL_ERR` when one of its calls fails for good, and only then. -/
def Reports (sys : ℕ → Sys) (i j : ℕ) (ret : Int64) : Prop :=
  ret = Int64.ofInt retvalErr ↔ ∃ c, i ≤ c ∧ c < j ∧ (sys c).Fatal

lemma reports_served {ret : Int64} (h : Served sys i j) (hk : k < 2 ^ 63)
    (hret : ret = Int64.ofNat k) : Reports sys i j ret := by
  refine ⟨fun herr => absurd (hret.symm.trans herr) (ofNat_ne_err hk), ?_⟩
  rintro ⟨c, hi, hj, hfatal⟩
  exact absurd hfatal (h c hi hj)

lemma reports_failed {ret : Int64} {err : Int32} (h : Failed sys i j err)
    (hret : ret = Int64.ofInt retvalErr) : Reports sys i j ret := by
  obtain ⟨c, hi, hj, -, hc, herr⟩ := h
  exact ⟨fun _ => ⟨c, hi, by omega, by rw [hc]; exact herr⟩, fun _ => hret⟩

lemma ReadEnds.reports {r : Int64 × Reading} (h : ReadEnds sys i n stream old r)
    (hn : n < 2 ^ 63) : Reports sys i r.2.calls r.1 := by
  obtain ⟨hgot, hret⟩ | ⟨hret, hfailed⟩ := h
  · exact reports_served hgot.served (by omega) hret
  · exact reports_failed hfailed hret

lemma WriteEnds.reports {r : Int64 × Writing} (h : WriteEnds sys i n sent buf r)
    (hn : n < 2 ^ 63) : Reports sys i r.2.calls r.1 := by
  obtain ⟨hout, hret⟩ | ⟨hret, hfailed⟩ := h
  · exact reports_served hout.served hn hret
  · exact reports_failed hfailed hret

/-! ### One command after another -/

/-- The bytes of some commands. -/
def bytes (cs : List (Field remoteCommandSize)) : List UInt8 := (cs.map fun c => c.1).flatten

lemma sendAll_eq (hquiet : Quiet sys quiet) (hok : ∀ c, ¬ (sys c).Fatal) {fuel : ℕ}
    (hfuel : quiet + remoteCommandSize < fuel) (cs : List (Field remoteCommandSize)) (i : ℕ)
    (sent : List UInt8) : sendAll sys fuel i sent cs =
      some (cs.map fun _ => Int64.ofNat remoteCommandSize, sent ++ bytes cs) := by
  induction cs generalizing i sent with
  | nil => simp [sendAll, bytes]
  | cons c cs ih =>
    obtain ⟨r, hr, hends⟩ := netWrite_ends hquiet (by decide) hfuel i sent c.1
    obtain ⟨hout, hret⟩ | ⟨-, hfailed⟩ := hends
    · have hsent := hout.sent
      rw [List.take_of_length_le (Nat.le_of_eq c.2)] at hsent
      rw [sendAll, hr, Option.bind_some, ih, Option.map_some, hsent, hret, List.append_assoc]
      rfl
    · exact absurd hfailed (not_failed hok)

/-- The loop of a worker that has taken the commands `got`. -/
structure Taken (cs : List (Field remoteCommandSize)) (part : List UInt8) (s : Receiving) :
    Prop where
  buff : s.buff.length = remoteCommandSize
  split : ∃ got todo, cs = got ++ todo ∧ s.rest = bytes todo ++ part ∧
    s.log = got.map fun c => (Int64.ofNat remoteCommandSize, c.1)

lemma workerBody_cases {cs : List (Field remoteCommandSize)} {part : List UInt8} {s : Receiving}
    (hquiet : Quiet sys quiet) (hok : ∀ c, ¬ (sys c).Fatal) {fuel : ℕ}
    (hfuel : quiet + remoteCommandSize < fuel) (hpart : part.length < remoteCommandSize)
    (h : Taken cs part s) :
    (∃ s', workerBody sys fuel s = some (.inl s') ∧ Taken cs part s' ∧
      s'.rest.length < s.rest.length) ∨
    ∃ buff', workerBody sys fuel s = some (.inr (cs.map (fun c =>
        (Int64.ofNat remoteCommandSize, c.1)) ++ [(Int64.ofNat part.length, part ++ buff')])) := by
  obtain ⟨hbuff, got, todo, rfl, hrest, hlog⟩ := h
  obtain ⟨r, hr, hends⟩ := netRead_ends hquiet (n := remoteCommandSize) (by decide) hfuel s.calls
    s.rest s.buff
  obtain ⟨hgot, hret⟩ | ⟨-, hfailed⟩ := hends
  · unfold workerBody
    rw [hr, Option.map_some]
    dsimp only
    rcases todo with _ | ⟨c, todo⟩
    · -- less than a command is left
      have hmin : min remoteCommandSize s.rest.length = part.length := by
        rw [hrest]
        exact Nat.min_eq_right hpart.le
      have hbuf : r.2.buf = part ++ s.buff.drop part.length := by
        rw [hgot.buf, hmin, hrest]
        simp [bytes]
      rw [hmin] at hret
      refine Or.inr ⟨s.buff.drop part.length, ?_⟩
      rw [hlog, hbuf, List.append_nil]
      split
      · rw [hret]
      · split
        · rw [hret]
        · rw [if_pos (by rw [hret]; exact ofNat_ne hpart (by decide)), hret]
    · have hsplit : s.rest = c.1 ++ (bytes todo ++ part) := by
        rw [hrest]
        simp [bytes]
      have hlen : s.rest.length = remoteCommandSize + (bytes todo ++ part).length := by
        rw [hsplit, List.length_append, c.2]
      have hmin : min remoteCommandSize s.rest.length = remoteCommandSize := by omega
      have hbuf : r.2.buf = c.1 := by
        rw [hgot.buf, hmin, hsplit, List.take_left' c.2, List.drop_of_length_le hbuff.le,
          List.append_nil]
      have hleft : r.2.rest = bytes todo ++ part := by
        rw [hgot.rest, hmin, hsplit, List.drop_left' c.2]
      rw [hmin] at hret
      rw [hret, hbuf, hleft, if_neg (by decide), if_neg (by decide), if_neg (by decide)]
      refine Or.inl ⟨_, rfl, ⟨c.2, got ++ [c], todo, by simp, rfl, ?_⟩, ?_⟩
      · rw [hlog, List.map_append]
        rfl
      · rw [hlen]
        exact Nat.lt_add_of_pos_left (by decide)
  · exact absurd hfailed (not_failed hok)

lemma receiveAll_eq (hquiet : Quiet sys quiet) (hok : ∀ c, ¬ (sys c).Fatal)
    (cs : List (Field remoteCommandSize)) {part buff : List UInt8}
    (hpart : part.length < remoteCommandSize) (hbuff : buff.length = remoteCommandSize) {fuel : ℕ}
    (hfuel : quiet + remoteCommandSize + (bytes cs ++ part).length < fuel) :
    ∃ buff', receiveAll sys fuel (bytes cs ++ part) buff = some (cs.map (fun c =>
      (Int64.ofNat remoteCommandSize, c.1)) ++ [(Int64.ofNat part.length, part ++ buff')]) := by
  have hbody : ∀ s, Taken cs part s → (∃ s', workerBody sys fuel s = some (.inl s') ∧
      Taken cs part s' ∧ s'.rest.length < s.rest.length) ∨
      ∃ r, workerBody sys fuel s = some (.inr r) ∧ ∃ buff', r = cs.map (fun c =>
        (Int64.ofNat remoteCommandSize, c.1)) ++ [(Int64.ofNat part.length, part ++ buff')] := by
    intro s h
    have hlow : quiet + remoteCommandSize < fuel := by omega
    obtain hnext | ⟨buff', hend⟩ := workerBody_cases hquiet hok hlow hpart h
    · exact Or.inl hnext
    · exact Or.inr ⟨_, hend, buff', rfl⟩
  have hstart : Taken cs part ⟨0, bytes cs ++ part, buff, []⟩ :=
    ⟨hbuff, [], cs, rfl, rfl, rfl⟩
  have hlt : (bytes cs ++ part).length < fuel := by omega
  obtain ⟨r, hr, buff', rfl⟩ := loop_rule hbody hstart hlt
  exact ⟨buff', hr⟩

/-- **Commands over a stream**: however the calls split and interrupt it, `net_write` sends every
command and `net_read` gets every command, in order, then what is left of a last one that is not
complete, which is nothing at the end of a complete stream. Both report an error when a call fails
for another reason. -/
theorem commands_survive {sys sys' : ℕ → Sys} (hsend : ∃ quiet, Quiet sys quiet)
    (hreceive : ∃ quiet, Quiet sys' quiet) (cs : List (Field remoteCommandSize))
    (part : List UInt8) (hpart : part.length < remoteCommandSize)
    (buff : Field remoteCommandSize) :
    ∃ enough, ∀ fuel ≥ enough,
      ((∀ c, ¬ (sys c).Fatal) → sendAll sys fuel 0 [] cs =
        some (cs.map fun _ => Int64.ofNat remoteCommandSize, bytes cs)) ∧
      ((∀ c, ¬ (sys' c).Fatal) → ∃ buff', receiveAll sys' fuel (bytes cs ++ part) buff.1 =
        some (cs.map (fun c => (Int64.ofNat remoteCommandSize, c.1)) ++
          [(Int64.ofNat part.length, part ++ buff')])) ∧
      (∀ i sent buf, ∃ r,
        netWrite sys fuel i sent buf (UInt64.ofNat remoteCommandSize) = some r ∧
          Reports sys i r.2.calls r.1) ∧
      ∀ i stream old, ∃ r,
        netRead sys' fuel i stream old (UInt64.ofNat remoteCommandSize) = some r ∧
          Reports sys' i r.2.calls r.1 := by
  obtain ⟨quiet, hsend⟩ := hsend
  obtain ⟨quiet', hreceive⟩ := hreceive
  refine ⟨quiet + quiet' + remoteCommandSize + (bytes cs ++ part).length + 1,
    fun fuel hfuel => ⟨fun hok => ?_, fun hok => ?_, fun i sent buf => ?_,
      fun i stream old => ?_⟩⟩
  · exact sendAll_eq hsend hok (by omega) cs 0 []
  · exact receiveAll_eq hreceive hok cs hpart buff.2 (by omega)
  · have hlt : quiet + remoteCommandSize < fuel := by omega
    obtain ⟨r, hr, hends⟩ := netWrite_ends hsend (by decide) hlt i sent buf
    exact ⟨r, hr, hends.reports (by decide)⟩
  · have hlt : quiet' + remoteCommandSize < fuel := by omega
    obtain ⟨r, hr, hends⟩ := netRead_ends hreceive (by decide) hlt i stream old
    exact ⟨r, hr, hends.reports (by decide)⟩

/-- One byte at a time, and two interruptions. -/
def trickle (c : ℕ) : Sys := if c = 1 ∨ c = 3 then .fails eintr else .moves 0

/-- The largest pieces there can be. -/
def flood (_ : ℕ) : Sys := .moves 143

def blank : Field remoteCommandSize := Field.copy remoteCommandSize []

theorem commands_survive_run : ∃ fuel buff',
    sendAll trickle fuel 0 [] [blank] = some ([144], blank.1) ∧
      receiveAll flood fuel (blank.1 ++ [7, 8]) blank.1 =
        some [(144, blank.1), (2, [7, 8] ++ buff')] := by
  have hslow : ∃ quiet, Quiet trickle quiet := by
    refine ⟨4, fun c hc => ?_⟩
    unfold trickle
    rw [if_neg (by omega)]
    exact Sys.noConfusion
  have hfast : ∃ quiet, Quiet flood quiet := ⟨0, fun c _ => Sys.noConfusion⟩
  obtain ⟨enough, hall⟩ := commands_survive hslow hfast [blank] [7, 8] (by decide) blank
  obtain ⟨hsend, hreceive, -⟩ := hall enough (Nat.le_refl _)
  have hwrite : ∀ c, ¬ (trickle c).Fatal := by
    intro c
    unfold trickle
    split
    · exact fun h => h rfl
    · exact id
  obtain ⟨buff', hread⟩ := hreceive fun _ => id
  exact ⟨enough, buff', hsend hwrite, hread⟩

end Agentsmith.NetTransfer
