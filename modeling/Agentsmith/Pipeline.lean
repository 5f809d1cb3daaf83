import Agentsmith.ActionCalls
import Agentsmith.FollowAppend
import Agentsmith.Intake
import Agentsmith.Occurrences

/-!
From the bytes of the log file to the calls of the action.

The follower hands a string to `regex_do`, and takes no further step before that has come back;
the threads at the vector, the programs that write the log and a signal come in between. Whatever
the order is, what the vector gets to see are the captures of the text that has been read, cut into
lines, and the action is called only for an address that the text has often enough.
-/

namespace Agentsmith.Pipeline

open Agentsmith.Lib.CStrings Agentsmith.Lib.Words Agentsmith.Lib.Runs Agentsmith.Lib.Chunker
open Agentsmith.Globals Agentsmith.Follow Agentsmith.FollowFile Agentsmith.FollowAppend
open Agentsmith.Daemon Agentsmith.PerAddress Agentsmith.ActionCalls Agentsmith.Occurrences
open Agentsmith.Intake (Moment Input agent agentStep admitted)
open Agentsmith.Exclude (InetPton)

/-! ### The match -/

/-- `ovector[2]` and `ovector[3]`, where `pcre_exec` returns 2 for a string. -/
abbrev PcreExec := CStr → Option (ℕ × ℕ)

/-- The captured part of the string lies inside of it. -/
def PcreExec.Inside (pcreExec : PcreExec) : Prop :=
  ∀ s a b, pcreExec s = some (a, b) → a ≤ b ∧ b ≤ s.1.length

/-- The part of the string that is captured. -/
def capture (pcreExec : PcreExec) (buff : CStr) : Option CStr :=
  (pcreExec buff).map fun ovector => upTo (ovector.2 - ovector.1) (advance ovector.1 buff)

/-- `match` in `regex_do`, if there is one: the field is cleared and `strncpy` writes the captured
part into it. Undefined where that does not leave a NUL, or starts outside of the string. -/
def regexMatch (pcreExec : PcreExec) (buff : CStr) : Option (Option CStr) :=
  match pcreExec buff with
  | none => some none
  | some (a, b) =>
    let matchLen := b - a
    if a ≤ b ∧ a ≤ buff.1.length ∧ matchLen < buffSize then
      some (some (upToNul (strncpy (advance a buff) matchLen ++
        List.replicate (buffSize - matchLen) 0)))
    else none

/-! ### The threads -/

/-- `todo` is the string that `regex_do` has been given and is not done with, `returned` says that
`follow` has. -/
structure St where
  world : World
  stop : Bool
  returned : Bool
  todo : Option CStr
  agent : Option Daemon.St

def start (d : Disk) : St := ⟨⟨d, init⟩, false, false, none, some ([], Records.recordsInit)⟩

/-- `follow`, with the flag that both of its loops look at. `readtoeof` returns to it, and it goes
on as behind the end of the file. -/
def followOn (ok : Bool) (n : ℕ) (s : St) : St :=
  let w := s.world
  if s.stop = true ∧ w.s.pc = .poll then { s with stop := false, returned := true }
  else if s.stop = true ∧ w.s.pc = .read then
    { s with world.s := { w.s with lastpos := w.s.curpos, pc := .poll } }
  else
    let w' := step w (.run ok n)
    { s with world := w', todo := (w'.s.line.given.drop w.s.line.given.length).head? }

/-- A change of the disk, or a step of `follow`; `follow_stop` in a signal handler; the rest of
`regex_do`; a step of another thread. -/
inductive Turn
  | disk (ev : Ev)
  | followStop
  | regexDo (time : Int64) (list : Exclude.Store) (mem : Bool)
  | other (m : Moment)

def isLine : Input → Bool
  | .line _ _ => true
  | _ => false

section

variable (pcreExec : PcreExec) (o : Options) (pton : InetPton) (e : Endian)

/-- What a turn brings to the vector. -/
def brings (s : St) (t : Turn) : List Moment :=
  match t, s.todo with
  | .regexDo time list mem, some buff =>
    ((regexMatch pcreExec buff).join.map fun m => ⟨time, list, .line mem m⟩).toList
  -- when `follow` has called `exit` there are no other threads
  | .other m, _ => if isLine m.input = true ∨ s.world.s.pc = .exited then [] else [m]
  | _, _ => []

def pipelineStep (s : St) (t : Turn) : St :=
  match t with
  | .disk (.run ok n) =>
    if s.returned = true ∨ s.todo.isSome = true then s else followOn ok n s
  | .disk ev => { s with world := step s.world ev }
  | .followStop => { s with stop := true }
  | .regexDo _ _ _ =>
    match s.todo with
    | none => s
    | some buff =>
      if (regexMatch pcreExec buff).isNone then { s with todo := none, agent := none }
      else
        { s with todo := none, agent := run (agentStep o pton e) s.agent (brings pcreExec s t) }
  | .other _ => { s with agent := run (agentStep o pton e) s.agent (brings pcreExec s t) }

def pipeline (d : Disk) (ts : List Turn) : St := run (pipelineStep pcreExec o pton e) (start d) ts

/-- What a run has brought to the vector. -/
def brought (d : Disk) (ts : List Turn) : List Moment :=
  output (pipelineStep pcreExec o pton e) (brings pcreExec) (start d) ts

end

/-- The captured string of an input. -/
def Moment.line? (m : Moment) : Option CStr :=
  match m.input with
  | .line _ x => some x
  | _ => none

/-- The captures of a text, line by line. A line of more than `BUFFSIZE - 1` bytes is several. -/
def captures (pcreExec : PcreExec) (text : List UInt8) : List CStr :=
  (cut (buffSize - 1) 10 text).1.filterMap fun line => capture pcreExec (upToNul line)

variable {pcreExec : PcreExec} {o : Options} {pton : InetPton} {e : Endian} {d : Disk} {s : St}
  {t : Turn} {ts : List Turn}

/-- The string in `match` is the captured part: it holds no NUL, and the field has room for it. -/
lemma regexMatch_eq (h : pcreExec.Inside) {buff : CStr} (hlt : buff.1.length < buffSize) :
    regexMatch pcreExec buff = some (capture pcreExec buff) := by
  unfold regexMatch capture
  rcases hx : pcreExec buff with _ | ⟨a, b⟩
  · rfl
  · obtain ⟨hab, hb⟩ := h buff a b hx
    dsimp only
    rw [if_pos ⟨hab, by omega, by omega⟩, Option.map_some]
    refine congrArg (fun m => some (some m)) (Subtype.ext ?_)
    obtain ⟨k, hk⟩ : ∃ k, buffSize - (b - a) = k + 1 := ⟨buffSize - (b - a) - 1, by omega⟩
    have hfull : b - a - (advance a buff).1.length = 0 := by
      show b - a - (buff.1.drop a).length = 0
      rw [List.length_drop]
      omega
    rw [strncpy, hfull, List.replicate_zero, List.append_nil, hk, List.replicate_succ,
      upToNul_zero]
    exact upToNul_of_notMem (upTo (b - a) (advance a buff)).2

/-! ### What the vector gets to see -/

/-- A step of `follow` hands a string on, or leaves `regex_do` alone. -/
lemma followOn_cases (ok : Bool) (n : ℕ) (s : St) :
    ((followOn ok n s).world.s.line = s.world.s.line ∧
      (followOn ok n s).world.s.taken = s.world.s.taken ∧
      ((followOn ok n s).todo = s.todo ∨ (followOn ok n s).todo = none)) ∨
    ∃ i c, (followOn ok n s).world.s.line = s.world.s.line.add c ∧
      (followOn ok n s).world.s.taken = s.world.s.taken ++ [(i, c)] ∧
      (followOn ok n s).todo =
        ((s.world.s.line.add c).given.drop s.world.s.line.given.length).head? := by
  unfold followOn
  dsimp only
  split
  · exact Or.inl ⟨rfl, rfl, Or.inl rfl⟩
  · split
    · exact Or.inl ⟨rfl, rfl, Or.inl rfl⟩
    · rw [step_run_s]
      obtain ⟨hline, htaken⟩ | ⟨i, c, hline, htaken⟩ :=
        followStep_line ok n s.world.d s.world.s
      · refine Or.inl ⟨hline, htaken, Or.inr ?_⟩
        rw [hline, List.drop_length]
        rfl
      · exact Or.inr ⟨i, c, hline, htaken, by rw [hline]⟩

/-- What has been handed on has been dealt with, up to the string in `todo`. -/
structure Flow (pcreExec : PcreExec) (o : Options) (pton : InetPton) (e : Endian) (s : St)
    (ms : List Moment) : Prop where
  lines : Lines s.world.s.line (s.world.s.taken.map Prod.snd)
  dealt : ∃ dealt, s.world.s.line.given = dealt ++ s.todo.toList ∧
    ms.filterMap Moment.line? = dealt.filterMap (capture pcreExec)
  agent : s.agent = agent o pton e ms

lemma given_lt {b : LineBuffer} {l : List UInt8} (h : Lines b l) {buff : CStr}
    (hb : buff ∈ b.given) : buff.1.length < buffSize := by
  rw [h.given] at hb
  obtain ⟨piece, hp, rfl⟩ := List.mem_map.mp hb
  have hle := (cut_pieces 10 (by decide) _ piece hp).le
  have hsub : (upToNul piece).1.length ≤ piece.length := (List.takeWhile_sublist _).length_le
  have hsize : buffSize = 1024 := rfl
  omega

lemma Flow.disk {ms : List Moment} (h : Flow pcreExec o pton e s ms) {w : World}
    (hw : w.s = s.world.s) : Flow pcreExec o pton e { s with world := w } ms where
  lines := hw ▸ h.lines
  dealt := hw ▸ h.dealt
  agent := h.agent

lemma Flow.follow {ms : List Moment} (h : Flow pcreExec o pton e s ms) (htodo : s.todo = none)
    (ok : Bool) (n : ℕ) : Flow pcreExec o pton e (followOn ok n s) ms := by
  have hagent : (followOn ok n s).agent = s.agent := by
    unfold followOn
    dsimp only
    split
    · rfl
    · split <;> rfl
  obtain ⟨dealt, hgiven, hms⟩ := h.dealt
  rw [htodo, Option.toList_none, List.append_nil] at hgiven
  obtain ⟨hline, htaken, hsame⟩ | ⟨i, c, hline, htaken, hnew⟩ := followOn_cases ok n s
  · have hnone : (followOn ok n s).todo = none := hsame.elim (fun h => h.trans htodo) id
    refine ⟨by rw [hline, htaken]; exact h.lines, ⟨dealt, ?_, hms⟩, hagent.trans h.agent⟩
    rw [hline, hgiven, hnone, Option.toList_none, List.append_nil]
  · have hlines := h.lines.add c
    refine ⟨?_, ⟨dealt, ?_, hms⟩, hagent.trans h.agent⟩
    · rw [hline, htaken, List.map_append]
      exact hlines
    · rw [hnew, hline, ← hgiven]
      rcases add_cases h.lines.room c with ⟨-, -, hadd⟩ | ⟨-, -, -, hadd⟩
      · rw [hadd, List.drop_left]
        rfl
      · rw [hadd, List.drop_length]
        simp

lemma agent_append (ms ns : List Moment) :
    run (agentStep o pton e) (agent o pton e ms) ns = agent o pton e (ms ++ ns) :=
  (run_append ms ns).symm

variable (pcreExec o pton e) in
/-- The rest of `regex_do` leaves `follow` alone. -/
lemma regexDo_frame (s : St) (time : Int64) (list : Exclude.Store) (mem : Bool) :
    let q := pipelineStep pcreExec o pton e s (.regexDo time list mem)
    q.todo = none ∧ q.world = s.world ∧ q.stop = s.stop ∧ q.returned = s.returned := by
  intro q
  show (pipelineStep pcreExec o pton e s (.regexDo time list mem)).todo = none ∧ _
  unfold q pipelineStep
  dsimp only
  split
  · rename_i htodo
    exact ⟨htodo, rfl, rfl, rfl⟩
  · split <;> exact ⟨rfl, rfl, rfl, rfl⟩

/-- The rest of `regex_do` brings the capture of the string, if there is one. -/
lemma Flow.regexDo {ms : List Moment} (hin : pcreExec.Inside) (h : Flow pcreExec o pton e s ms)
    (time : Int64) (list : Exclude.Store) (mem : Bool) :
    Flow pcreExec o pton e (pipelineStep pcreExec o pton e s (.regexDo time list mem))
      (ms ++ brings pcreExec s (.regexDo time list mem)) := by
  obtain ⟨dealt, hgiven, hms⟩ := h.dealt
  rcases hs : s.todo with _ | buff
  · have hno : brings pcreExec s (.regexDo time list mem) = [] := by
      unfold brings
      rw [hs]
    have hstay : pipelineStep pcreExec o pton e s (.regexDo time list mem) = s := by
      unfold pipelineStep
      rw [hs]
    rw [hno, hstay, List.append_nil]
    exact h
  · rw [hs, Option.toList_some] at hgiven
    have hmatch : regexMatch pcreExec buff = some (capture pcreExec buff) :=
      regexMatch_eq hin (given_lt h.lines (by rw [hgiven]; simp))
    have hbrings : brings pcreExec s (.regexDo time list mem) =
        ((capture pcreExec buff).map fun m => ⟨time, list, .line mem m⟩).toList := by
      unfold brings
      rw [hs]
      dsimp only
      rw [hmatch]
      rfl
    have hagent : pipelineStep pcreExec o pton e s (.regexDo time list mem) =
        { s with
          todo := none
          agent :=
            run (agentStep o pton e) s.agent (brings pcreExec s (.regexDo time list mem)) } := by
      unfold pipelineStep
      rw [hs]
      dsimp only
      rw [hmatch]
      exact if_neg Bool.false_ne_true
    rw [hagent]
    refine ⟨h.lines, ⟨dealt ++ [buff], ?_, ?_⟩, ?_⟩
    · show s.world.s.line.given = _
      rw [hgiven, Option.toList_none, List.append_nil]
    · rw [List.filterMap_append, List.filterMap_append, hms, hbrings]
      congr 1
      rcases hc : capture pcreExec buff with _ | m
      · simp [hc]
      · simp [hc, Moment.line?]
    · show run (agentStep o pton e) s.agent _ = _
      rw [h.agent]
      exact agent_append ms _

/-- Another thread brings no capture. -/
lemma Flow.other {ms : List Moment} (h : Flow pcreExec o pton e s ms) (m : Moment) :
    Flow pcreExec o pton e (pipelineStep pcreExec o pton e s (.other m))
      (ms ++ brings pcreExec s (.other m)) := by
  obtain ⟨dealt, hgiven, hms⟩ := h.dealt
  refine ⟨h.lines, ⟨dealt, hgiven, ?_⟩, ?_⟩
  · have hno : (brings pcreExec s (.other m)).filterMap Moment.line? = [] := by
      unfold brings
      dsimp only
      split
      · rfl
      · rename_i hl
        obtain ⟨time, list, input⟩ := m
        cases input with
        | line mem x => exact absurd (Or.inl rfl) hl
        | command mem host buff => rfl
        | actionPass => rfl
        | maintenance => rfl
        | purgeAll => rfl
    rw [List.filterMap_append, hms, hno, List.append_nil]
  · show run (agentStep o pton e) s.agent _ = _
    rw [h.agent]
    exact agent_append ms _

/-- **One turn**: the captures keep step with the strings handed on. -/
lemma flow_step {ms : List Moment} (hin : pcreExec.Inside) (h : Flow pcreExec o pton e s ms)
    (t : Turn) :
    Flow pcreExec o pton e (pipelineStep pcreExec o pton e s t) (ms ++ brings pcreExec s t) := by
  cases t with
  | disk ev =>
    have hno : brings pcreExec s (.disk ev) = [] := rfl
    rw [hno, List.append_nil]
    cases ev with
    | run ok n =>
      show Flow pcreExec o pton e
        (if s.returned = true ∨ s.todo.isSome = true then s else followOn ok n s) ms
      split
      · exact h
      · rename_i hfree
        have htodo : s.todo = none := by
          rcases hs : s.todo with _ | buff
          · rfl
          · exact absurd (Or.inr (by rw [hs]; rfl)) hfree
        exact h.follow htodo ok n
    | append i bytes => exact h.disk rfl
    | truncate i n => exact h.disk rfl
    | link i => exact h.disk rfl
    | unlink => exact h.disk rfl
  | followStop =>
    rw [show brings pcreExec s .followStop = [] from rfl, List.append_nil]
    exact ⟨h.lines, h.dealt, h.agent⟩
  | regexDo time list mem => exact h.regexDo hin time list mem
  | other m => exact h.other m

lemma flow_run (hin : pcreExec.Inside) (d : Disk) (ts : List Turn) :
    Flow pcreExec o pton e (pipeline pcreExec o pton e d ts) (brought pcreExec o pton e d ts) := by
  refine run_hist (P := fun ts s => Flow pcreExec o pton e s (brought pcreExec o pton e d ts))
    ⟨⟨rfl, rfl, rfl⟩, ⟨[], rfl, rfl⟩, rfl⟩ (fun ts t h => ?_) ts
  rw [brought, output_snoc]
  exact flow_step hin h t

/-- What has been brought, and what is in `todo`, are the captures of what has been read. -/
lemma Flow.captures {ms : List Moment} (h : Flow pcreExec o pton e s ms) :
    ms.filterMap Moment.line? ++ s.todo.toList.filterMap (capture pcreExec) =
      captures pcreExec (s.world.s.taken.map Prod.snd) := by
  obtain ⟨dealt, hgiven, hms⟩ := h.dealt
  rw [hms, ← List.filterMap_append, ← hgiven, h.lines.given, List.filterMap_map]
  rfl

/-! ### The text -/

/-- What has been read is a stretch of the file, from behind its first `len` bytes. -/
def Stretch (ino len : ℕ) (w : World) : Prop :=
  ∃ a b, len ≤ a ∧ a ≤ b ∧ b ≤ (w.d.data ino).length ∧
    w.s.taken.map Prod.snd = ((w.d.data ino).take b).drop a

/-- The disk changes by appends, and no call of `follow` fails. -/
def Turn.Grows : Turn → Prop
  | .disk ev => FollowFile.Grows ev
  | _ => True

variable {ino len : ℕ} {w : World}

lemma Stretch.append (h : Stretch ino len w) (i : ℕ) (bytes : List UInt8) :
    Stretch ino len (step w (.append i bytes)) := by
  obtain ⟨a, b, ha, hab, hb, htaken⟩ := h
  refine ⟨a, b, ha, hab, hb.trans (length_append_le w i bytes ino), ?_⟩
  rw [data_append, List.take_append_of_le_length hb]
  exact htaken

lemma Stretch.nothing (hlen : len ≤ (w.d.data ino).length) (htaken : w.s.taken = []) :
    Stretch ino len w := by
  refine ⟨_, _, hlen, Nat.le_refl _, Nat.le_refl _, ?_⟩
  rw [htaken, List.take_length, List.drop_length, List.map_nil]

lemma stretch_of_phase (h : Phase ino len w) : Stretch ino len w := by
  cases h with
  | start hpc path taken hlen => exact .nothing hlen taken
  | position hpc opened hlen => exact .nothing hlen opened.taken
  | seek hpc opened inode hcur hlast hsb hstart hlen =>
    exact .nothing (hstart.trans hlen) opened.taken
  | loop f h hstart =>
    refine ⟨_, _, hstart, h.begun, h.clean.pos, ?_⟩
    rw [h.taken, List.nil_append, List.map_map]
    exact List.map_id _

/-- `follow` reads on, or has been told to stop and reads no more. -/
inductive Following (ino len : ℕ) (s : St) : Prop
  | reading (h : Phase ino len s.world)
  | stopped (hpc : s.world.s.pc = .poll) (hstop : s.stop = true ∨ s.returned = true)
      (h : Stretch ino len s.world)

lemma Following.stretch (h : Following ino len s) : Stretch ino len s.world := by
  cases h with
  | reading h => exact stretch_of_phase h
  | stopped hpc hstop h => exact h

lemma Following.turn (h : Following ino len s) (hfree : s.returned = false) (n : ℕ) :
    Following ino len (followOn true n s) := by
  have hstretch := h.stretch
  unfold followOn
  dsimp only
  split
  · rename_i hend
    exact .stopped hend.2 (Or.inr rfl) hstretch
  · rename_i hpoll
    split
    · rename_i hread
      exact .stopped rfl (Or.inl hread.1) hstretch
    · cases h with
      | reading h => exact .reading (h.turn n)
      | stopped hpc hstop h =>
        rcases hstop with hstop | hret
        · exact absurd ⟨hstop, hpc⟩ hpoll
        · rw [hfree] at hret
          cases hret

lemma following_step (h : Following ino len s) (ht : t.Grows) :
    Following ino len (pipelineStep pcreExec o pton e s t) := by
  cases t with
  | disk ev =>
    cases ev with
    | run ok n =>
      obtain rfl : ok = true := ht
      show Following ino len
        (if s.returned = true ∨ s.todo.isSome = true then s else followOn true n s)
      split
      · exact h
      · rename_i hfree
        exact h.turn (Bool.eq_false_iff.mpr fun hret => hfree (Or.inl hret)) n
    | append i bytes =>
      cases h with
      | reading h => exact .reading (h.append i bytes)
      | stopped hpc hstop h => exact .stopped hpc hstop (h.append i bytes)
    | truncate i n => exact absurd ht id
    | link i => exact absurd ht id
    | unlink => exact absurd ht id
  | followStop =>
    cases h with
    | reading h => exact .reading h
    | stopped hpc hstop h => exact .stopped hpc (Or.inl rfl) h
  | regexDo time list mem =>
    obtain ⟨-, hworld, hstop', hret⟩ := regexDo_frame pcreExec o pton e s time list mem
    cases h with
    | reading h => exact .reading (hworld ▸ h)
    | stopped hpc hstop h =>
      exact .stopped (hworld ▸ hpc) (by rw [hstop', hret]; exact hstop) (hworld ▸ h)
  | other m =>
    cases h with
    | reading h => exact .reading h
    | stopped hpc hstop h => exact .stopped hpc hstop h

/-- A pattern that captures a line of up to 15 characters, without its newline. -/
def wholeLine : PcreExec := fun s =>
  if 1 < s.1.length ∧ s.1.length ≤ 16 then some (0, s.1.length - 1) else none

lemma wholeLine_inside : wholeLine.Inside := by
  intro s a b h
  unfold wholeLine at h
  split at h
  · cases h
    exact ⟨Nat.zero_le _, Nat.sub_le _ _⟩
  · cases h

def address : CStr := ascii "192.0.2.7"

/-- `follow` opens the file, something is appended, and it reads `n` bytes. -/
def reads (bytes : List UInt8) (n : ℕ) : List Turn :=
  [.disk (.run true 0), .disk (.run true 0), .disk (.run true 0), .disk (.append 7 bytes),
    .disk (.run true 0), .disk (.run true 0)] ++
    List.replicate n (.disk (.run true 0))

/-- A line that comes in two parts, and the pass of the action thread before it is sighted. -/
def oneLine : List Turn :=
  reads (address.1.take 4) 4 ++ [.disk (.append 7 (address.1.drop 4 ++ [10, 49])),
    .disk (.run true 0), .disk (.run true 0)] ++
  List.replicate 9 (.disk (.run true 0)) ++ [.other ⟨5, Exclude.excludeInit, .actionPass⟩,
    .disk (.run true 0), .regexDo 6 Exclude.excludeInit true, .disk (.run true 0)]

variable {cfg : Config} {x : CStr} {evs : List Event}

lemma sightings_le (t v : Int64) (evs : List Event) :
    sightingsWithin x t v evs ≤ evs.countP fun ev => ev.Sights x :=
  List.countP_mono_left fun ev _ h => by
    simp only [decide_eq_true_eq] at h ⊢
    exact h.1

/-- An address for which the action has been called has had the sightings the threshold asks
for. -/
lemma calls_counted (hsane : cfg.Sane) (hclock : Clocked evs) (hloc : ∀ ev ∈ evs, ev.Local)
    (hne : (view cfg x evs).2 ≠ []) :
    cfg.actionThreshold.toInt ≤ evs.countP fun ev => ev.Sights x := by
  induction evs using List.reverseRecOn with
  | nil => exact absurd rfl hne
  | append_singleton evs ev ih =>
    have hloc' : ∀ f ∈ evs, f.Local := fun f hf => hloc f (List.mem_append_left _ hf)
    have hold : (view cfg x evs).2 ≠ [] →
        cfg.actionThreshold.toInt ≤ (evs ++ [ev]).countP fun ev => ev.Sights x := by
      intro h
      have hle := ih (clocked_left hclock) hloc' h
      rw [List.countP_append]
      omega
    by_cases hcalls : (view cfg x evs).2 = []
    · rw [view_snoc] at hne
      have hmatched : Matched (view cfg x evs).1 (view cfg x evs).2 := matched_view evs
      obtain ⟨now, act⟩ := ev
      cases act with
      | sighting mem y =>
        refine absurd ?_ hne
        unfold viewStep
        dsimp only
        split <;> exact hcalls
      | report mem host hr =>
        exact absurd (hloc _ (List.mem_append_right _ (List.mem_singleton_self _))) id
      | actionPass =>
        rcases hr : (view cfg x evs).1 with _ | r
        · simp [viewStep, hr, hcalls] at hne
        · -- the first call: the record is due
          have hdue : Due r := by
            by_contra hd
            simp [viewStep, hr, hcalls, newCalls, hd] at hne
          obtain ⟨pre, f, post, rfl, -, -, hthr, -, hcount⟩ :=
            counted_view hsane (clocked_left hclock) hloc' hr
          have hle := Int32.le_iff_toInt_le.mp hdue.1
          have hwithin := sightings_le (x := x) f.time cfg.timeInterval (f :: post)
          rw [hthr] at hle
          rw [List.countP_append, List.countP_append]
          omega
      | maintenance =>
        -- a processed record has been called for
        refine absurd ?_ hne
        rcases hr : (view cfg x evs).1 with _ | r
        · simp [viewStep, hr, hcalls]
        · have hproc : r.processed = 0 := by
            by_contra hp
            have hodd := hmatched.pending.mpr (hr ▸ processed_some.mpr hp)
            rw [hcalls] at hodd
            cases hodd
          simp [viewStep, hr, hcalls, sweptCalls, removalCalls, hproc]
      | purgeAll => exact absurd hcalls hne
    · exact hold hcalls

/-- The time at which a thread reads the clock in a turn. -/
def Turn.time? : Turn → Option Int64
  | .regexDo time _ _ => some time
  | .other m => some m.time
  | _ => none

/-- No command comes from another host. -/
def Turn.Alone : Turn → Prop
  | .other m => ∀ mem host buff, m.input ≠ .command mem host buff
  | _ => True

lemma brings_time (s : St) (t : Turn) :
    ((brings pcreExec s t).map Moment.time).Sublist t.time?.toList := by
  unfold brings Turn.time?
  rcases t with ev | _ | ⟨time, list, mem⟩ | m
  · exact List.Sublist.refl []
  · exact List.Sublist.refl []
  · rcases s.todo with _ | buff
    · exact List.nil_sublist _
    · dsimp only
      rcases (regexMatch pcreExec buff).join with _ | y
      · exact List.nil_sublist _
      · exact List.Sublist.refl [time]
  · dsimp only
    split
    · exact List.nil_sublist _
    · exact List.Sublist.refl [m.time]

/-- The calls into the vector come in the order of the clock. -/
lemma brought_time (d : Disk) (ts : List Turn) :
    ((brought pcreExec o pton e d ts).map Moment.time).Sublist (ts.filterMap Turn.time?) := by
  induction ts using List.reverseRecOn with
  | nil => exact List.Sublist.refl []
  | append_singleton ts t ih =>
    rw [brought, output_snoc, List.map_append, List.filterMap_append]
    refine ih.append ?_
    have hone : [t].filterMap Turn.time? = t.time?.toList := by
      rcases h : t.time? with _ | time <;> simp [h]
    rw [hone]
    exact brings_time _ t

lemma admitted_time (ms : List Moment) :
    ((admitted o pton e ms).map Event.time).Sublist (ms.map Moment.time) := by
  induction ms with
  | nil => exact List.Sublist.refl []
  | cons m ms ih =>
    unfold admitted
    rw [List.filterMap_cons]
    rcases hev : m.event o pton e with _ | ev
    · exact ih.cons _
    · have htime : m.time = ev.time := (Intake.event_eq.mp hev).2
      rw [List.map_cons, List.map_cons, htime]
      exact ih.cons_cons _

/-- A sighting let through is one of a captured string. -/
lemma sighted_le (x : CStr) (ms : List Moment) :
    ((admitted o pton e ms).countP fun ev => ev.Sights x) ≤
      (ms.filterMap Moment.line?).count x := by
  induction ms with
  | nil => exact Nat.le_refl 0
  | cons m ms ih =>
    rw [show m :: ms = [m] ++ ms from rfl, admitted, List.filterMap_append, List.filterMap_append,
      List.countP_append, List.count_append]
    refine Nat.add_le_add ?_ ih
    rcases hev : m.event o pton e with _ | ev
    · simp [hev]
    · by_cases hs : ev.Sights x
      · obtain ⟨now, act⟩ := ev
        cases act with
        | sighting mem y =>
          obtain rfl : y = x := hs
          have hline := (Intake.line_of_sighting (Intake.event_eq.mp hev).1).1
          have hcap : Moment.line? m = some y := by
            unfold Moment.line?
            rw [hline]
          have hhere : Event.Sights y ⟨now, .sighting mem y⟩ := rfl
          simp [hev, hcap, hhere]
        | report mem host hr => exact absurd hs id
        | actionPass => exact absurd hs id
        | maintenance => exact absurd hs id
        | purgeAll => exact absurd hs id
      · simp [hev, hs]

lemma brought_alone {m : Moment} (halone : ∀ t ∈ ts, t.Alone)
    (hm : m ∈ brought pcreExec o pton e d ts) (mem : Bool) (host : CStr)
    (buff : Field remoteCommandSize) : m.input ≠ .command mem host buff := by
  obtain ⟨t, ht, s, hin⟩ := mem_output hm
  rcases t with ev | _ | ⟨time, list, mem'⟩ | m'
  · cases hin
  · cases hin
  · intro hcmd
    rcases htodo : s.todo with _ | b
    · simp only [brings, htodo] at hin
      cases hin
    · simp only [brings, htodo] at hin
      obtain ⟨y, -, rfl⟩ := Option.map_eq_some_iff.mp (Option.mem_toList.mp hin)
      cases hcmd
  · unfold brings at hin
    dsimp only at hin
    split at hin
    · cases hin
    · rw [List.mem_singleton.mp hin]
      exact halone _ ht mem host buff

/-- The clock of the threads starts at the Epoch or later and does not go back. -/
def Ticks (ts : List Turn) : Prop :=
  (∀ t ∈ ts.filterMap Turn.time?, 0 ≤ t) ∧ (ts.filterMap Turn.time?).Pairwise (· ≤ ·)

lemma admitted_clocked (hclock : Ticks ts) (d : Disk) :
    Clocked (admitted o pton e (brought pcreExec o pton e d ts)) := by
  have htimes : ((admitted o pton e (brought pcreExec o pton e d ts)).map Event.time).Sublist
      (ts.filterMap Turn.time?) := (admitted_time _).trans (brought_time d ts)
  exact ⟨fun ev hev => hclock.1 _ (htimes.subset (List.mem_map_of_mem hev)),
    List.pairwise_map.mp (hclock.2.sublist htimes)⟩

lemma admitted_local (halone : ∀ t ∈ ts, t.Alone) (d : Disk) :
    ∀ ev ∈ admitted o pton e (brought pcreExec o pton e d ts), ev.Local := by
  rintro ⟨now, act⟩ hev
  obtain ⟨m, hm, hact, -⟩ := Intake.mem_admitted hev
  cases act with
  | report mem host hr =>
    obtain ⟨buff, hcmd, -⟩ := Intake.command_of_report hact
    exact absurd hcmd (brought_alone halone hm mem host buff)
  | _ => trivial

/-- Captures that fit make sightings that do. -/
lemma Flow.fits {ms : List Moment} (h : Flow pcreExec o pton e s ms)
    (hshort : ∀ s m, capture pcreExec s = some m → m.1.length < ipaddrSize)
    (hloc : ∀ ev ∈ admitted o pton e ms, ev.Local) : ∀ ev ∈ admitted o pton e ms, ev.Fits := by
  rintro ⟨now, act⟩ hev
  obtain ⟨m, hm, hact, -⟩ := Intake.mem_admitted hev
  obtain ⟨dealt, -, hlines⟩ := h.dealt
  cases act with
  | sighting mem y =>
    obtain ⟨hline, -⟩ := Intake.line_of_sighting hact
    have hy : y ∈ ms.filterMap Moment.line? := List.mem_filterMap.mpr ⟨m, hm, by
      unfold Moment.line?
      rw [hline]⟩
    rw [hlines] at hy
    obtain ⟨buff, -, hcap⟩ := List.mem_filterMap.mp hy
    exact hshort buff y hcap
  | report mem host hr => exact absurd (hloc _ hev) id
  | _ => trivial

/-- **No call without the text for it**: in a run of an agent to which no other host reports, an
address for which the action has been called is captured from as many lines of what has been read
as the threshold asks for, whatever else the threads have done and in whatever order. -/
theorem text_backs_calls (pcreExec : PcreExec) (hin : pcreExec.Inside)
    (hshort : ∀ s m, capture pcreExec s = some m → m.1.length < ipaddrSize) (o : Options)
    (hsane : o.toConfig.Sane) (pton : InetPton) (e : Endian) (d : Disk) (ts : List Turn)
    (halone : ∀ t ∈ ts, t.Alone) (hclock : Ticks ts) {s : Daemon.St}
    (hs : (pipeline pcreExec o pton e d ts).agent = some s) (c : Call) (hc : c ∈ s.1) :
    o.actionThreshold.toInt ≤ (captures pcreExec
      ((pipeline pcreExec o pton e d ts).world.s.taken.map Prod.snd)).count c.addr := by
  obtain ⟨ms, hms⟩ : ∃ ms, ms = brought pcreExec o pton e d ts := ⟨_, rfl⟩
  have hflow : Flow pcreExec o pton e (pipeline pcreExec o pton e d ts) ms :=
    hms ▸ flow_run hin d ts
  have hdaemon : s = daemon o.toConfig (admitted o pton e ms) :=
    Intake.agent_eq ms (hflow.agent.symm.trans hs)
  have hloc : ∀ ev ∈ admitted o pton e ms, ev.Local := hms ▸ admitted_local halone d
  have hfits : ∀ ev ∈ admitted o pton e ms, ev.Fits := hflow.fits hshort hloc
  have hsees : Sees c.addr s (view o.toConfig c.addr (admitted o pton e ms)) :=
    hdaemon ▸ sees_fits hfits c.addr List.prefix_rfl
  have hne : (view o.toConfig c.addr (admitted o pton e ms)).2 ≠ [] := by
    rw [← hsees.calls]
    exact List.ne_nil_of_mem (List.mem_filter.mpr ⟨hc, by simp⟩)
  have hcounted := calls_counted hsane (hms ▸ admitted_clocked hclock d) hloc hne
  have hsighted : ((admitted o pton e ms).countP fun ev => ev.Sights c.addr) ≤
      (ms.filterMap Moment.line?).count c.addr := sighted_le c.addr ms
  have hcaptured := congrArg (List.count c.addr) hflow.captures
  rw [List.count_append] at hcaptured
  omega

lemma wholeLine_short {s m : CStr} (h : capture wholeLine s = some m) :
    m.1.length < ipaddrSize := by
  obtain ⟨⟨a, b⟩, hab, rfl⟩ := Option.map_eq_some_iff.mp h
  unfold wholeLine at hab
  split at hab
  · rename_i hlen
    cases hab
    have hle : (upTo (s.1.length - 1 - 0) (advance 0 s)).1.length ≤ s.1.length - 1 - 0 :=
      List.length_take_le _ _
    exact Nat.lt_of_le_of_lt hle (by unfold ipaddrSize; omega)
  · cases hab

/-- A line is read, and `regex_do` has its time. -/
def sights (time : Int64) : List Turn :=
  List.replicate 10 (.disk (.run true 0)) ++ [.regexDo time Exclude.excludeInit true]

/-- Three lines with the address, and a pass. -/
def threeLines : List Turn :=
  reads ((address.1 ++ [10]) ++ (address.1 ++ [10]) ++ (address.1 ++ [10])) 0 ++
    sights 100 ++ sights 101 ++ sights 102 ++ [.other ⟨103, Exclude.excludeInit, .actionPass⟩]

theorem text_backs_calls_run : ∃ s c,
    (pipeline wholeLine initConfig ExcludeCidr.quadPton .little fourBytes threeLines).agent =
      some s ∧ c ∈ s.1 ∧ c.addr = address ∧
    initConfig.actionThreshold.toInt ≤ (captures wholeLine ((pipeline wholeLine initConfig
      ExcludeCidr.quadPton .little fourBytes threeLines).world.s.taken.map Prod.snd)).count
        c.addr := by
  have hcalls : (pipeline wholeLine initConfig ExcludeCidr.quadPton .little fourBytes
      threeLines).agent.map (fun s => s.1.map Call.addr) = some [address] := by decide +kernel
  obtain ⟨s, hs, hlog⟩ := Option.map_eq_some_iff.mp hcalls
  have hmem : address ∈ s.1.map Call.addr := by
    rw [hlog]
    exact List.mem_singleton_self _
  obtain ⟨c, hc, haddr⟩ := List.mem_map.mp hmem
  have halone : ∀ t ∈ threeLines, t.Alone := by
    simp [threeLines, reads, sights, List.replicate_succ, Turn.Alone]
  have hticks : Ticks threeLines := by
    unfold Ticks
    rw [show threeLines.filterMap Turn.time? = [100, 101, 102, 103] from rfl]
    simp only [List.forall_mem_cons, List.pairwise_cons, List.Pairwise.nil, List.not_mem_nil,
      false_implies, implies_true, and_true]
    decide
  exact ⟨s, c, hs, hc, haddr, text_backs_calls wholeLine wholeLine_inside
    (fun _ _ => wholeLine_short) initConfig (by decide) ExcludeCidr.quadPton .little fourBytes
    threeLines halone hticks hs c hc⟩

end Agentsmith.Pipeline
