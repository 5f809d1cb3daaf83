import Agentsmith.Lib.Chunks
import Agentsmith.Lib.Words
import Agentsmith.Globals

/-!
The exclude list: `exclude.c`, built with IPv6 addresses.

A line of the exclude file is an address, with or without the length of a network prefix.
It becomes a record of the network and its mask, both as the host keeps them in memory.
`inet_pton` is a parameter. A step whose behaviour C leaves undefined has no result.
-/

namespace Agentsmith.Exclude

open Agentsmith.Lib.CStrings Agentsmith.Lib.Slots Agentsmith.Lib.Chunks Agentsmith.Lib.Words
open Agentsmith.Globals

inductive Af | inet | inet6
  deriving DecidableEq

/-- An address as `inet_pton` stores it, in network order. -/
inductive Addr
  | inet (a : Field 4)
  | inet6 (a : Field 16)
  deriving DecidableEq

/-- `inet_pton`, and the characters of the strings it accepts: digits and dots, or
hexadecimal digits, dots and at least one colon. -/
structure InetPton where
  inet : CStr → Option (Field 4)
  inet6 : CStr → Option (Field 16)
  inet_chars : ∀ s a, inet s = some a → ∀ c ∈ s.1, (48 ≤ c ∧ c ≤ 57) ∨ c = 46
  inet6_chars : ∀ s a, inet6 s = some a → 58 ∈ s.1 ∧ ∀ c ∈ s.1,
    (48 ≤ c ∧ c ≤ 58) ∨ (65 ≤ c ∧ c ≤ 70) ∨ (97 ≤ c ∧ c ≤ 102) ∨ c = 46

def InetPton.addr (pton : InetPton) (af : Af) (ip : CStr) : Option Addr :=
  match af with
  | .inet => (pton.inet ip).map .inet
  | .inet6 => (pton.inet6 ip).map .inet6

/-! ### Lines -/

/-- `(int) strtol(s, NULL, 10)`, as the C library has it. -/
def atoi (s : List UInt8) : Int32 :=
  let s := s.dropWhile fun c => c = 32 ∨ (9 ≤ c ∧ c ≤ 13)
  let neg := s.head? = some 45
  let s := if s.head? = some 45 ∨ s.head? = some 43 then s.tail else s
  let n : ℕ := (s.takeWhile fun c => 48 ≤ c ∧ c ≤ 57).foldl (fun n c => 10 * n + (c.toNat - 48)) 0
  Int32.ofInt (if neg then max (-2 ^ 63) (-(n : ℤ)) else min (2 ^ 63 - 1) (n : ℤ))

def strchr (s : CStr) (c : UInt8) : Option ℕ := s.1.findIdx? fun b => b = c

/-- The address in the line, the length of the prefix, and the address family. -/
def excludeParseIp (str : CStr) : Option (CStr × UInt32 × Af) :=
  if str.1.length < 3 then none
  else
    let prefixptr := strchr str 47
    let af := if (strchr str 58).isSome then Af.inet6 else Af.inet
    match prefixptr with
    | some i =>
      let prefixLen := (atoi (str.1.drop (i + 1))).toUInt32
      if prefixLen > 32 ∧ af = .inet then none
      else if prefixLen > 128 ∧ af = .inet6 then none
      else some (upTo i str, prefixLen, af)
    | none =>
      let ip := if str.1.getLast? = some 10 then upTo (str.1.length - 1) str else str
      some (ip, if af = .inet6 then 128 else 32, af)

/-! ### Masks -/

/-- `a << n` on 32 bits, undefined from the width on. -/
def shl32 (a n : UInt32) : Option UInt32 := if n < 32 then some (a <<< n) else none

def excludePrefixToIpv6Mask (prefixLen : UInt32) : List UInt8 :=
  let mask := List.replicate 16 0
  let n := (prefixLen / 8).toNat
  let mask := (List.range n).foldl (fun mask i => mask.set i 0xff) mask
  let m := (prefixLen % 8).toNat
  if m = 0 then mask
  else
    let mask := mask.set n 0xff
    mask.set n (mask.getD n 0 <<< UInt8.ofNat (8 - m))

def excludeIpv4InNet (net mask ip : UInt32) : ℤ :=
  if net &&& mask = ip &&& mask then retvalOk else retvalErr

def excludeIpv6InNet (net mask ip : List UInt8) : ℤ :=
  if (List.range 16).any fun i => net.getD i 0 &&& mask.getD i 0 ≠ ip.getD i 0 &&& mask.getD i 0
  then retvalErr else retvalOk

/-! ### The vector -/

/-- `excluderecord_t`: the family selects the members of both unions. -/
inductive ExcludeRecord
  | inet (net mask : UInt32)
  | inet6 (net6 mask6 : List UInt8)
  deriving DecidableEq

abbrev Store := Table ExcludeRecord

/-- `er_vector_chunksize`. -/
def chunksize : ℕ := 100

def excludeInit : Store := init 100

def excludeVectorGrow (v : Store) : Store × ℕ := grow chunksize v

def excludeFindFree (v : Store) : ℕ × ℤ := freeSlot v

/-- The slot for a new record, in a longer vector when none is free. -/
def excludeSlot (v : Store) : Store × ℕ :=
  let p := excludeFindFree v
  if p.1 = 0 ∧ p.2 ≠ retvalOk then excludeVectorGrow v else (v, p.1)

/-- The record for a network. An `in_addr_t` holds the bytes of the address as they stand in
memory, the mask is computed as a number and converted. -/
def excludeRecord (e : Endian) (net : Addr) (prefixLen : UInt32) : Option ExcludeRecord :=
  match net with
  | .inet ipv4 => (shl32 0xffffffff (32 - prefixLen)).map fun mask =>
      .inet (word32 e ipv4.1) (htonl e mask)
  | .inet6 ipv6 => some (.inet6 ipv6.1 (excludePrefixToIpv6Mask prefixLen))

/-- The record fits the address searched for. -/
def excludeFits (e : Endian) (ip : Addr) (r : ExcludeRecord) : Bool :=
  match r, ip with
  | .inet net mask, .inet ipv4 => excludeIpv4InNet net mask (word32 e ipv4.1) ≠ retvalErr
  | .inet6 net6 mask6, .inet6 ipv6 => excludeIpv6InNet net6 mask6 ipv6.1 ≠ retvalErr
  | _, _ => false

/-- `_records_find`. Where its assertion fails there is no result. -/
def excludeFind (pton : InetPton) (e : Endian) (x : CStr) (v : Store) :
    Option (Option (ℕ × ExcludeRecord)) :=
  match excludeParseIp x with
  | none => some none
  | some (ip, prefixLen, af) =>
    if (af = .inet ∧ prefixLen = 32) ∨ (af = .inet6 ∧ prefixLen = 128) then
      some ((pton.addr af ip).bind fun a => find (excludeFits e a) (v.vec.take v.fill))
    else none

/-- `mem` says whether `malloc` gives memory for the record. Without it the slot is left
`NULL`, and no mask is computed. -/
def excludeAdd (pton : InetPton) (e : Endian) (mem : Bool) (line : CStr) (v : Store) :
    Option (Store × ℤ) :=
  match excludeParseIp line with
  | none => some (v, retvalErr)
  | some (ip, prefixLen, af) =>
    match pton.addr af ip with
    | none => some (v, retvalErr)
    | some net =>
      let s := excludeSlot v
      if mem then (excludeRecord e net prefixLen).map fun r => (place true r s, retvalOk)
      else some (⟨s.1.vec.set s.2 none, s.1.size, s.1.fill⟩, retvalErr)

def excludeClear (_ : Store) : Store × ℤ := (excludeInit, retvalOk)

def excludeIsexcluded (pton : InetPton) (e : Endian) (x : CStr) (v : Store) : Option ℤ :=
  (excludeFind pton e x v).map fun r => if r.isNone then retvalErr else retvalOk

/-! ### Sequences of calls -/

inductive Op
  | add (mem : Bool) (line : CStr)
  | clear
  deriving DecidableEq

/-- The vector, and the lines accepted since the last `exclude_clear`. -/
abbrev St := Store × List CStr

def excludeStep (pton : InetPton) (e : Endian) (s : St) : Op → Option St
  | .add mem line => (excludeAdd pton e mem line s.1).map fun r =>
      (r.1, if r.2 = retvalOk then s.2 ++ [line] else s.2)
  | .clear => some ((excludeClear s.1).1, [])

/-- The state after a sequence of calls, when all of them are defined. -/
def excludeRun (pton : InetPton) (e : Endian) : List Op → Option St :=
  List.foldl (fun s op => s.bind fun s => excludeStep pton e s op) (some (excludeInit, []))

end Agentsmith.Exclude
