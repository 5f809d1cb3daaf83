import Agentsmith.Lib.Words
import Agentsmith.Globals

/-!
The remote command on the wire: `netshared.c`.

A host converts every integer to network byte order and copies it into the buffer, then the
other one copies it out and converts it back. What each of the two functions does to the
buffer does not depend on the byte order of its host: `wire` lists the fields as they stand
there.
-/

namespace Agentsmith.NetShared

open Agentsmith.Lib.CStrings Agentsmith.Lib.Words Agentsmith.Globals

/-- On a big-endian host this is the identity macro, elsewhere the loop over the bytes. -/
def htonll : Endian → UInt64 → UInt64
  | .big, a => a
  | .little, a => word64 .little (swapLoop 8 (bytes64 .little a) (bytes64 .little 0))

def ntohll : Endian → UInt64 → UInt64
  | .big, a => a
  | .little, a => htonll .little a

/-- The buffer, and the number of bytes used. -/
def netCommandToBuff (e : Endian) (command : UInt32) (hr : HostRecord) (buff : List UInt8) :
    List UInt8 × ℕ :=
  let s := (buff, 0)
  let s := put s (bytes32 e (htonl e command))
  let s := put s hr.origin.1
  let s := put s hr.ipaddr.1
  let s := put s (bytes64 e (htonll e hr.firstseen.toUInt64))
  let s := put s (bytes64 e (htonll e hr.lastseen.toUInt64))
  let s := put s (bytes64 e (htonll e hr.purgeAfter.toUInt64))
  let s := put s (bytes64 e (htonll e hr.timeInterval.toUInt64))
  let s := put s (bytes32 e (htonl e hr.occurrences.toUInt32))
  let s := put s (bytes32 e (htonl e hr.actionThreshold.toUInt32))
  let s := put s (bytes32 e (htonl e hr.remove.toUInt32))
  let s := put s (bytes32 e (htonl e hr.processed.toUInt32))
  s

/-- The command, the record, and the number of bytes used. -/
def netBuffToCommand (e : Endian) (buff : List UInt8) : (UInt32 × HostRecord) × ℕ :=
  let pos := 0
  let command := ntohl e (word32 e (peek buff pos 4))
  let pos := pos + 4
  let origin := Field.copy ipaddrSize (peek buff pos ipaddrSize)
  let pos := pos + ipaddrSize
  let ipaddr := Field.copy ipaddrSize (peek buff pos ipaddrSize)
  let pos := pos + ipaddrSize
  let firstseen := (ntohll e (word64 e (peek buff pos 8))).toInt64
  let pos := pos + 8
  let lastseen := (ntohll e (word64 e (peek buff pos 8))).toInt64
  let pos := pos + 8
  let purgeAfter := (ntohll e (word64 e (peek buff pos 8))).toInt64
  let pos := pos + 8
  let timeInterval := (ntohll e (word64 e (peek buff pos 8))).toInt64
  let pos := pos + 8
  let occurrences := (ntohl e (word32 e (peek buff pos 4))).toInt32
  let pos := pos + 4
  let actionThreshold := (ntohl e (word32 e (peek buff pos 4))).toInt32
  let pos := pos + 4
  let remove := (ntohl e (word32 e (peek buff pos 4))).toInt32
  let pos := pos + 4
  let processed := (ntohl e (word32 e (peek buff pos 4))).toInt32
  let pos := pos + 4
  ((command, ⟨origin, ipaddr, firstseen, lastseen, purgeAfter, timeInterval, occurrences,
    actionThreshold, remove, processed⟩), pos)

/-! ### The 64-bit conversions -/

lemma bytes64_htonll (e : Endian) (a : UInt64) : bytes64 e (htonll e a) = bytes64 .big a := by
  cases e with
  | big => rfl
  | little =>
    have hlen := bytes64_length .little a
    rw [htonll, swapLoop_eq hlen (bytes64_length _ _),
      bytes64_word64 _ (by rw [List.length_reverse, hlen])]
    exact store_little_reverse 8 a.toNat

lemma ntohll_word64 (e : Endian) {l : List UInt8} (h : l.length = 8) :
    ntohll e (word64 e l) = word64 .big l := by
  cases e with
  | big => rfl
  | little =>
    rw [ntohll, htonll, bytes64_word64 _ h, swapLoop_eq h (bytes64_length _ _), word64,
      load_little_reverse, word64]

/-! ### The wire -/

/-- The fields as they stand on the wire. -/
def wire (command : UInt32) (hr : HostRecord) : List (List UInt8) :=
  [bytes32 .big command, hr.origin.1, hr.ipaddr.1,
    bytes64 .big hr.firstseen.toUInt64, bytes64 .big hr.lastseen.toUInt64,
    bytes64 .big hr.purgeAfter.toUInt64, bytes64 .big hr.timeInterval.toUInt64,
    bytes32 .big hr.occurrences.toUInt32, bytes32 .big hr.actionThreshold.toUInt32,
    bytes32 .big hr.remove.toUInt32, bytes32 .big hr.processed.toUInt32]

lemma wire_length (command : UInt32) (hr : HostRecord) :
    (wire command hr).flatten.length = remoteCommandSize := by
  simp [wire, bytes32_length, bytes64_length, hr.origin.2, hr.ipaddr.2, ipaddrSize,
    remoteCommandSize]

/-- **Sending**: the wire, on every host, and nothing else of the buffer changes. -/
theorem netCommandToBuff_eq (e : Endian) (command : UInt32) (hr : HostRecord)
    (buff : List UInt8) :
    netCommandToBuff e command hr buff =
      ((wire command hr).flatten ++ buff.drop remoteCommandSize, remoteCommandSize) := by
  have hput := foldl_put (wire command hr) [] buff
  rw [wire_length] at hput
  simp only [netCommandToBuff, bytes32_htonl, bytes64_htonll]
  simpa [wire] using hput

/-- The command and the record that stand on the wire. -/
def unwire (buff : List UInt8) : UInt32 × HostRecord :=
  (word32 .big (peek buff 0 4),
    { origin := Field.copy ipaddrSize (peek buff 4 46)
      ipaddr := Field.copy ipaddrSize (peek buff 50 46)
      firstseen := (word64 .big (peek buff 96 8)).toInt64
      lastseen := (word64 .big (peek buff 104 8)).toInt64
      purgeAfter := (word64 .big (peek buff 112 8)).toInt64
      timeInterval := (word64 .big (peek buff 120 8)).toInt64
      occurrences := (word32 .big (peek buff 128 4)).toInt32
      actionThreshold := (word32 .big (peek buff 132 4)).toInt32
      remove := (word32 .big (peek buff 136 4)).toInt32
      processed := (word32 .big (peek buff 140 4)).toInt32 })

/-- **Receiving**: what stands on the wire, on every host. -/
theorem netBuffToCommand_eq (e : Endian) {buff : List UInt8}
    (h : buff.length = remoteCommandSize) :
    netBuffToCommand e buff = (unwire buff, remoteCommandSize) := by
  have h4 : ∀ p, p + 4 ≤ 144 → ntohl e (word32 e (peek buff p 4)) = word32 .big (peek buff p 4) :=
    fun p hp => ntohl_word32 e (peek_length (by rw [h]; exact hp))
  have h8 : ∀ p, p + 8 ≤ 144 →
      ntohll e (word64 e (peek buff p 8)) = word64 .big (peek buff p 8) :=
    fun p hp => ntohll_word64 e (peek_length (by rw [h]; exact hp))
  simp (disch := decide) only [netBuffToCommand, h4, h8]
  rfl

/-- A field of the wire, at its place. -/
lemma peek_wire {command : UInt32} {hr : HostRecord} {src : List UInt8} (i p : ℕ) {n : ℕ}
    (hi : (wire command hr)[i]? = some src)
    (hp : ((wire command hr).take i).flatten.length = p) (hn : src.length = n) :
    peek (wire command hr).flatten p n = src := peek_flatten hi hp hn

lemma unwire_wire (command : UInt32) (hr : HostRecord) :
    unwire (wire command hr).flatten = (command, hr) := by
  have hlen : ∀ i, ((wire command hr).take i).flatten.length =
      (([4, 46, 46, 8, 8, 8, 8, 4, 4, 4, 4] : List ℕ).take i).sum := by
    intro i
    rw [List.length_flatten, List.map_take]
    simp [wire, bytes32_length, bytes64_length, hr.origin.2, hr.ipaddr.2]
  have h32 := fun a => bytes32_length .big a
  have h64 := fun a => bytes64_length .big a
  unfold unwire
  rw [peek_wire 0 0 rfl (hlen 0) (h32 _), peek_wire 1 4 rfl (hlen 1) hr.origin.2,
    peek_wire 2 50 rfl (hlen 2) hr.ipaddr.2, peek_wire 3 96 rfl (hlen 3) (h64 _),
    peek_wire 4 104 rfl (hlen 4) (h64 _), peek_wire 5 112 rfl (hlen 5) (h64 _),
    peek_wire 6 120 rfl (hlen 6) (h64 _), peek_wire 7 128 rfl (hlen 7) (h32 _),
    peek_wire 8 132 rfl (hlen 8) (h32 _), peek_wire 9 136 rfl (hlen 9) (h32 _),
    peek_wire 10 140 rfl (hlen 10) (h32 _)]
  simp only [word32_bytes32, word64_bytes64, Field.copy_self]
  rfl

lemma wire_unwire {buff : List UInt8} (h : buff.length = remoteCommandSize) :
    (wire (unwire buff).1 (unwire buff).2).flatten = buff := by
  have h4 : ∀ p, p + 4 ≤ 144 → bytes32 .big (word32 .big (peek buff p 4)) = peek buff p 4 :=
    fun p hp => bytes32_word32 _ (peek_length (by rw [h]; exact hp))
  have h8 : ∀ p, p + 8 ≤ 144 → bytes64 .big (word64 .big (peek buff p 8)) = peek buff p 8 :=
    fun p hp => bytes64_word64 _ (peek_length (by rw [h]; exact hp))
  have h46 : ∀ p, p + 46 ≤ 144 → (Field.copy ipaddrSize (peek buff p 46)).1 = peek buff p 46 :=
    fun p hp => Field.copy_val (peek_length (by rw [h]; exact hp))
  simp (disch := decide) only [wire, unwire, UInt64.toUInt64_toInt64, UInt32.toUInt32_toInt32,
    h4, h8, h46]
  have hall := peek_all buff
  rw [h] at hall
  simp only [List.flatten_cons, List.flatten_nil, List.append_nil]
  rw [peek_append buff 136 4 4, peek_append buff 132 4 8, peek_append buff 128 4 12,
    peek_append buff 120 8 16, peek_append buff 112 8 24, peek_append buff 104 8 32,
    peek_append buff 96 8 40, peek_append buff 50 46 48, peek_append buff 4 46 94,
    peek_append buff 0 4 140]
  exact hall

/-- **The wire format**: what one host sends another one receives, whatever their byte
orders, every buffer is what is sent for the record it stands for, and both sides use all of
the command's bytes and no others. -/
theorem wire_format :
    (∀ (e e' : Endian) (command : UInt32) (hr : HostRecord) (buff : Field remoteCommandSize),
      (netCommandToBuff e command hr buff.1).1.length = remoteCommandSize ∧
      (netCommandToBuff e command hr buff.1).2 = remoteCommandSize ∧
      netBuffToCommand e' (netCommandToBuff e command hr buff.1).1 =
        ((command, hr), remoteCommandSize)) ∧
    ∀ (e e' : Endian) (sent buff : Field remoteCommandSize),
      netCommandToBuff e' (netBuffToCommand e sent.1).1.1 (netBuffToCommand e sent.1).1.2 buff.1 =
        (sent.1, remoteCommandSize) ∧
      (netBuffToCommand e sent.1).2 = remoteCommandSize := by
  have hnone : ∀ buff : Field remoteCommandSize, buff.1.drop remoteCommandSize = [] :=
    fun buff => List.drop_eq_nil_of_le (Nat.le_of_eq buff.2)
  refine ⟨fun e e' command hr buff => ?_, fun e e' sent buff => ?_⟩
  · rw [netCommandToBuff_eq, hnone, List.append_nil]
    refine ⟨wire_length command hr, rfl, ?_⟩
    rw [netBuffToCommand_eq e' (wire_length command hr), unwire_wire]
  · rw [netBuffToCommand_eq e sent.2, netCommandToBuff_eq, hnone, List.append_nil,
      wire_unwire sent.2]
    exact ⟨rfl, rfl⟩

end Agentsmith.NetShared
