import Mathlib.Data.List.Basic
import Mathlib.Logic.Function.Basic
import Agentsmith.Lib.Runs
import Agentsmith.Globals

/-!
Following a log file: `follow.c`.

The daemon and the programs that write to the disk take turns. A step of `follow` is what it
does up to and including its next call of the system or of stdio, so anything may happen to
the disk between any two of them. The flag that ends the loops is left out: a run is followed
as long as it lasts.
-/

namespace Agentsmith.Follow

open Agentsmith.Lib.CStrings Agentsmith.Lib.Runs Agentsmith.Globals

/-! ### Files and streams -/

/-- The contents of the files, by inode, and the inode that `fname` names. -/
structure Disk where
  data : ℕ → List UInt8
  path : Option ℕ

/-- What `stat` reports. -/
structure Stat where
  size : ℕ
  ino : ℕ

/-- A `FILE` open for reading. Behind the position stand bytes read ahead. -/
structure Stream where
  ino : ℕ
  pos : ℕ
  ahead : List UInt8
  eof : Bool
  err : Bool

def Disk.stat (d : Disk) (ok : Bool) : Option Stat :=
  if ok then d.path.map fun ino => ⟨(d.data ino).length, ino⟩ else none

def Disk.fopen (d : Disk) (ok : Bool) : Option Stream :=
  if ok then d.path.map fun ino => ⟨ino, 0, [], false, false⟩ else none

/-- `freopen`: the old stream is closed, whether the new one opens or not. -/
def Disk.freopen (d : Disk) (ok : Bool) (_ : Option Stream) : Option Stream := d.fopen ok

/-- `fseek(file, pos, SEEK_SET)`. -/
def Stream.fseek (f : Stream) (pos : ℕ) : Stream :=
  { f with pos := pos, ahead := [], eof := false }

def Stream.clearerr (f : Stream) : Stream := { f with eof := false, err := false }

/-- `fgetc`. Where nothing is read ahead it reads from the disk, which fails or gives up to
`n + 1` bytes. -/
def Stream.fgetc (f : Stream) (d : Disk) (ok : Bool) (n : ℕ) : Option UInt8 × Stream :=
  match f.ahead with
  | c :: ahead => (some c, { f with pos := f.pos + 1, ahead := ahead })
  | [] =>
    if ok then
      match ((d.data f.ino).drop f.pos).take (n + 1) with
      | c :: ahead => (some c, { f with pos := f.pos + 1, ahead := ahead })
      | [] => (none, { f with eof := true })
    else (none, { f with err := true })

/-! ### The line buffer -/

/-- `BUFF` and `buffpos`, and the strings that `regex_do` was given. -/
structure LineBuffer where
  buff : Field buffSize
  buffpos : ℕ
  given : List CStr

/-- The string is ended and handed on. -/
def LineBuffer.flush (b : LineBuffer) : LineBuffer :=
  let buff := b.buff.set b.buffpos 0
  { buff := buff, buffpos := 0, given := b.given ++ [buff.str] }

/-- What `readtoeof` does with a byte. -/
def LineBuffer.add (b : LineBuffer) (c : UInt8) : LineBuffer :=
  let b := { b with buff := b.buff.set b.buffpos c, buffpos := b.buffpos + 1 }
  if b.buffpos = buffSize - 1 then b.flush
  else if c = 10 then b.flush
  else b

/-! ### The loop -/

/-- The next call: the three before the loop, and after a failure of one of them none; the
`stat` at the head of the loop; the opening of a file that reappeared, of one whose inode
changed, and of one that shrunk; the comparison of the sizes; and `fgetc` in `readtoeof`. -/
inductive Pc
  | start | position | seek | exited
  | poll | reappeared | inode | compare | shrunk | read
  deriving DecidableEq

/-- Next to the variables of `follow` stand the inode and the byte of everything that has
been put into the line buffer, and the position at which the reading started. -/
structure St where
  pc : Pc
  file : Option Stream
  sb : Stat
  curpos : ℕ
  lastpos : ℕ
  curino : ℕ
  lastino : ℕ
  line : LineBuffer
  taken : List (ℕ × UInt8)
  start : ℕ

/-- `ok` says whether the call of the step succeeds, `n` how much a read gives. -/
def followStep (ok : Bool) (n : ℕ) (d : Disk) (s : St) : St :=
  match s.pc with
  | .start =>
    match d.fopen ok with
    | none => { s with pc := .exited }
    | some file => { s with file := some file, pc := .position }
  | .position =>
    match d.stat ok with
    | none => { s with pc := .exited }
    | some sb =>
      { s with
        sb := sb, lastpos := sb.size, curpos := sb.size, lastino := sb.ino, curino := sb.ino,
        start := sb.size, pc := .seek }
  | .seek =>
    if ok then { s with file := s.file.map fun file => file.fseek s.curpos, pc := .poll }
    else { s with pc := .exited }
  | .exited => s
  | .poll =>
    match d.stat ok with
    | none => { s with file := none }
    | some sb =>
      if s.file.isNone then { s with sb := sb, pc := .reappeared }
      else if s.lastino ≠ s.curino then { s with sb := sb, pc := .inode }
      else { s with sb := sb, pc := .compare }
  | .reappeared =>
    match d.fopen ok with
    | none => { s with file := none, pc := .poll }
    | some file => { s with file := some file, pc := .compare }
  | .inode =>
    match d.freopen ok s.file with
    | none => { s with file := none, pc := .poll }
    | some file => { s with file := some file, lastino := s.curino, pc := .compare }
  | .compare =>
    let s := { s with curpos := s.sb.size }
    if s.curpos > s.lastpos then { s with pc := .read }
    else if s.lastpos > s.curpos then { s with pc := .shrunk }
    else { s with pc := .poll }
  | .shrunk =>
    match d.freopen ok s.file with
    | none => { s with file := none, pc := .poll }
    -- `rewind` and `clearerr` change nothing on a new stream
    | some file => { s with file := some file, lastpos := 0, pc := .read }
  | .read =>
    match s.file with
    | none => s
    | some file =>
      let (c, file) := file.fgetc d ok n
      if file.eof then
        { s with file := some file.clearerr, lastpos := s.curpos, pc := .poll }
      else if file.err then { s with file := some file, lastpos := s.curpos, pc := .poll }
      else
        let c := c.getD 255
        { s with file := some file, line := s.line.add c, taken := s.taken ++ [(file.ino, c)] }

/-! ### Runs -/

/-- What happens next: a file grows or is cut, `fname` comes to name another file or none, or
`follow` takes a step. -/
inductive Ev
  | append (ino : ℕ) (bytes : List UInt8)
  | truncate (ino n : ℕ)
  | link (ino : ℕ)
  | unlink
  | run (ok : Bool) (n : ℕ)

structure World where
  d : Disk
  s : St

def step (w : World) : Ev → World
  | .append ino bytes =>
    { w with d.data := Function.update w.d.data ino (w.d.data ino ++ bytes) }
  | .truncate ino n => { w with d.data := Function.update w.d.data ino ((w.d.data ino).take n) }
  | .link ino => { w with d.path := some ino }
  | .unlink => { w with d.path := none }
  | .run ok n => { w with s := followStep ok n w.d w.s }

@[simp] lemma step_run_s (w : World) (ok : Bool) (n : ℕ) :
    (step w (.run ok n)).s = followStep ok n w.d w.s := rfl
@[simp] lemma step_run_d (w : World) (ok : Bool) (n : ℕ) : (step w (.run ok n)).d = w.d := rfl

/-- The start of `follow`, with `BUFF` and `buffpos` as C initialises them. -/
def init : St where
  pc := .start
  file := none
  sb := ⟨0, 0⟩
  curpos := 0
  lastpos := 0
  curino := 0
  lastino := 0
  line := ⟨⟨List.replicate buffSize 0, List.length_replicate⟩, 0, []⟩
  taken := []
  start := 0

/-- The world after a run that begins with the disk `d`. -/
def reached (d : Disk) (es : List Ev) : World := run step ⟨d, init⟩ es

end Agentsmith.Follow
