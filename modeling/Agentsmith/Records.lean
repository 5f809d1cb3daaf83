import Agentsmith.Lib.Chunks
import Agentsmith.Globals

/-!
The host record vector: `records.c`.

The vector is an array of pointers, `NULL` for a free slot. Searches stop at the fill
value, the search for a free slot and the sweep go on to the size. Every function runs
under `vector_mutex`, so a call is one step here. The clock and the outcome of `malloc`
are arguments; `cb` is a callback with whatever state it works on.
-/

namespace Agentsmith.Records

open Agentsmith.Lib.CStrings Agentsmith.Lib.Slots Agentsmith.Lib.Chunks Agentsmith.Globals

variable {σ : Type*}

/-- `hr_vector`, `hr_vector_size` and `hr_vector_fill`. -/
abbrev Store := Table HostRecord

/-- `hr_vector_chunksize`. -/
def chunksize : ℕ := 100

def recordsInit : Store := init 100

def recordsVectorGrow (v : Store) : Store × ℕ := grow chunksize v

/-- The record with the address, and its position. -/
def recordsFind (v : Store) (x : CStr) : Option (ℕ × HostRecord) :=
  find (fun r => r.addr = x) (v.vec.take v.fill)

/-- The position of a free slot and the value for `nospace`. -/
def recordsFindFree (v : Store) : ℕ × ℤ := freeSlot v

/-- The slot for a new record, in a longer vector when none is free. -/
def recordsSlot (v : Store) : Store × ℕ :=
  let p := recordsFindFree v
  if p.1 = 0 ∧ p.2 ≠ retvalOk then recordsVectorGrow v else (v, p.1)

/-- A new record put into its slot, and what the call returns. -/
def recordsPlace (mem : Bool) (r : HostRecord) (p : Store × ℕ) : Store × ℤ :=
  (place mem r p, if mem then retvalOk else retvalErr)

/-- One occurrence more if the last one is within the time interval of the first. -/
def bump (r : HostRecord) : HostRecord :=
  if r.lastseen - r.firstseen ≤ r.timeInterval then
    { r with occurrences := r.occurrences + 1 }
  else r

lemma bump_eq (r : HostRecord) : bump r = { r with
    occurrences := if r.lastseen - r.firstseen ≤ r.timeInterval then r.occurrences + 1
      else r.occurrences } := by
  unfold bump
  split <;> rfl

/-- A record of `records_add_ip` for an address not seen before. -/
def fresh (cfg : Config) (now : Int64) (x : CStr) : HostRecord where
  origin := copyCut ipaddrSize localhost
  ipaddr := copyCut ipaddrSize x
  firstseen := now
  lastseen := 0
  timeInterval := cfg.timeInterval
  purgeAfter := cfg.purgeAfter
  actionThreshold := cfg.actionThreshold
  occurrences := 1
  remove := 0
  processed := 0

/-- The record of an address seen again. -/
def seen (now : Int64) (r : HostRecord) : HostRecord := bump { r with lastseen := now }

def recordsAddIp (cfg : Config) (now : Int64) (mem : Bool) (x : CStr) (v : Store) : Store × ℤ :=
  match recordsFind v x with
  | some (i, r) => ({ v with vec := v.vec.set i (some (seen now r)) }, retvalOk)
  | none => recordsPlace mem (fresh cfg now x) (recordsSlot v)

/-- A received record copied over the one in place: `processed` is kept, and the
occurrences are added up in a `uint32_t`. -/
def merge (now : Int64) (hr ptr : HostRecord) : HostRecord :=
  bump { hr with
    processed := ptr.processed
    occurrences := (hr.occurrences.toUInt32 + ptr.occurrences.toUInt32).toInt32
    lastseen := now }

def recordsAddRecord (now : Int64) (mem : Bool) (hr : HostRecord) (v : Store) : Store × ℤ :=
  match recordsFind v hr.addr with
  | some (i, r) => ({ v with vec := v.vec.set i (some (merge now hr r)) }, retvalOk)
  | none => recordsPlace mem hr (recordsSlot v)

def recordsRemove (x : CStr) (v : Store) : Store × ℤ :=
  match recordsFind v x with
  | some (i, _) => ({ v with vec := v.vec.set i none }, retvalOk)
  | none => (v, retvalErr)

def recordsGet (v : Store) (x : CStr) : Option HostRecord := (recordsFind v x).map Prod.snd

def recordsEnumerate (cb : σ → HostRecord → σ × HostRecord × ℤ) (e : σ) (v : Store) :
    σ × Store × ℤ :=
  let p := visit cb e (v.vec.take v.fill)
  (p.1, { v with vec := p.2 ++ v.vec.drop v.fill }, retvalOk)

/-- `ceil((double) last_used / (double) hr_vector_chunksize) * hr_vector_chunksize`, and at
least one chunk. -/
def shrunkSize (lastUsed : ℕ) : ℕ :=
  let n := (lastUsed + chunksize - 1) / chunksize * chunksize
  if n < chunksize then chunksize else n

/-- `cb` may be `NULL`. -/
def recordsMaintenance (cb : Option (σ → HostRecord → σ)) (e : σ) (v : Store) : σ × Store × ℤ :=
  let p := sweep (fun r => r.remove ≠ 0) (cb.getD fun e _ => e) e (v.vec.take v.size)
  let vec := p.2 ++ v.vec.drop v.size
  let last := lastUsed (vec.take v.size)
  if last = v.size then (p.1, { v with vec := vec }, retvalOk)
  else (p.1, ⟨resize vec (shrunkSize last), shrunkSize last, last⟩, retvalOk)

/-- The callbacks `records_destroy` makes before it frees everything. -/
def recordsDestroy (cb : Option (σ → HostRecord → σ)) (e : σ) (v : Store) : σ :=
  (sweep (fun _ => true) (cb.getD fun e _ => e) e (v.vec.take v.size)).1

/-! ### Sequences of calls -/

/-- A call into the vector. The clock is what the call reads; `mem` says whether `malloc`
gives memory for a new record. -/
inductive Op (σ : Type*)
  | addIp (now : Int64) (mem : Bool) (x : CStr)
  | addRecord (now : Int64) (mem : Bool) (hr : HostRecord)
  | remove (x : CStr)
  | maintenance (cb : Option (σ → HostRecord → σ))
  | enumerate (cb : σ → HostRecord → σ × HostRecord × ℤ)

/-- The state of the callbacks, the vector, and the answer of the call. -/
def exec (cfg : Config) (s : σ × Store) : Op σ → (σ × Store) × ℤ
  | .addIp now mem x => let r := recordsAddIp cfg now mem x s.2; ((s.1, r.1), r.2)
  | .addRecord now mem hr => let r := recordsAddRecord now mem hr s.2; ((s.1, r.1), r.2)
  | .remove x => let r := recordsRemove x s.2; ((s.1, r.1), r.2)
  | .maintenance cb => let r := recordsMaintenance cb s.1 s.2; ((r.1, r.2.1), r.2.2)
  | .enumerate cb => let r := recordsEnumerate cb s.1 s.2; ((r.1, r.2.1), r.2.2)

def step (cfg : Config) (s : σ × Store) (op : Op σ) : σ × Store := (exec cfg s op).1

end Agentsmith.Records
