import Agentsmith.Lib.Chunker
import Agentsmith.FollowFile

/-!
A log file that is only appended to is handed on completely, once and in order.

The line buffer cuts what it is given at newlines and where it is full, whatever the polls
that brought the bytes were. What it is given are the bytes of the file, from where the file
ended at the start.
-/

namespace Agentsmith.FollowAppend

open Agentsmith.Lib.CStrings Agentsmith.Lib.Runs Agentsmith.Lib.Chunker
open Agentsmith.Globals Agentsmith.Follow Agentsmith.FollowFile

variable {d : Disk} {ino len : ℕ} {w : World} {es : List Ev}

/-- What stands in `BUFF` and has not been handed on. -/
def unfinished (b : LineBuffer) : List UInt8 := b.buff.1.take b.buffpos

/-- The strings handed on, one behind the other. -/
def handed (b : LineBuffer) : List UInt8 := (b.given.map fun s => s.1).flatten

/-! ### The line buffer -/

/-- The buffer has cut the bytes `l`. -/
structure Lines (b : LineBuffer) (l : List UInt8) : Prop where
  given : b.given = (cut (buffSize - 1) 10 l).1.map upToNul
  pending : unfinished b = (cut (buffSize - 1) 10 l).2
  buffpos : b.buffpos = (cut (buffSize - 1) 10 l).2.length

lemma Lines.room {b : LineBuffer} {l : List UInt8} (h : Lines b l) :
    b.buffpos < buffSize - 1 := by
  rw [h.buffpos]
  exact (cut_pending 10 (by decide) l).1

/-- What a byte does to the buffer: it ends the string, or comes behind it. -/
lemma add_cases {b : LineBuffer} (hroom : b.buffpos < buffSize - 1) (c : UInt8) :
    ((b.buffpos + 1 = buffSize - 1 ∨ c = 10) ∧ (b.add c).buffpos = 0 ∧
      (b.add c).given = b.given ++ [upToNul (unfinished b ++ [c])]) ∨
    (¬ (b.buffpos + 1 = buffSize - 1 ∨ c = 10) ∧ (b.add c).buffpos = b.buffpos + 1 ∧
      unfinished (b.add c) = unfinished b ++ [c] ∧ (b.add c).given = b.given) := by
  have hsize : buffSize = 1024 := rfl
  have htake := Field.set_take (f := b.buff) (i := b.buffpos) (by omega) c
  have hstr := Field.set_str (f := b.buff.set b.buffpos c) (i := b.buffpos + 1) (by omega)
  rw [htake] at hstr
  unfold LineBuffer.add
  dsimp only
  split
  · exact Or.inl ⟨Or.inl ‹_›, rfl, congrArg (fun s => b.given ++ [s]) hstr⟩
  · split
    · exact Or.inl ⟨Or.inr ‹_›, rfl, congrArg (fun s => b.given ++ [s]) hstr⟩
    · exact Or.inr ⟨not_or.mpr ⟨‹_›, ‹_›⟩, rfl, htake, rfl⟩

/-- A byte more. -/
lemma Lines.add {b : LineBuffer} {l : List UInt8} (h : Lines b l) (c : UInt8) :
    Lines (b.add c) (l ++ [c]) := by
  have hlen : ((cut (buffSize - 1) 10 l).2 ++ [c]).length = b.buffpos + 1 := by
    rw [List.length_append, List.length_singleton, h.buffpos]
  obtain ⟨hend, hpos, hgiven⟩ | ⟨hend, hpos, hunfinished, hgiven⟩ := add_cases h.room c
  · have hcut : cut (buffSize - 1) 10 (l ++ [c]) =
        ((cut (buffSize - 1) 10 l).1 ++ [(cut (buffSize - 1) 10 l).2 ++ [c]], []) := by
      rw [cut_snoc, feed, if_pos (by rw [hlen]; exact hend)]
    refine ⟨?_, ?_, ?_⟩
    · rw [hcut, hgiven, List.map_append, List.map_singleton, ← h.given, h.pending]
    · rw [hcut, unfinished, hpos, List.take_zero]
    · rw [hcut, hpos]
      rfl
  · have hcut : cut (buffSize - 1) 10 (l ++ [c]) =
        ((cut (buffSize - 1) 10 l).1, (cut (buffSize - 1) 10 l).2 ++ [c]) := by
      rw [cut_snoc, feed, if_neg (by rw [hlen]; exact hend)]
    refine ⟨?_, ?_, ?_⟩
    · rw [hcut, hgiven]
      exact h.given
    · rw [hcut, hunfinished, h.pending]
    · rw [hcut, hlen, hpos]

/-- A step gives the buffer a byte, or leaves it alone. -/
lemma followStep_line (ok : Bool) (n : ℕ) (d : Disk) (s : St) :
    ((followStep ok n d s).line = s.line ∧ (followStep ok n d s).taken = s.taken) ∨
      ∃ i c, (followStep ok n d s).line = s.line.add c ∧
        (followStep ok n d s).taken = s.taken ++ [(i, c)] := by
  unfold followStep
  dsimp only
  repeat' split
  all_goals first
    | exact Or.inl ⟨rfl, rfl⟩
    | exact Or.inr ⟨_, _, rfl, rfl⟩

/-- **What `regex_do` is given** in every run: the bytes put into the buffer, cut. -/
theorem lines_reached (d : Disk) (es : List Ev) :
    Lines (reached d es).s.line ((reached d es).s.taken.map Prod.snd) := by
  refine run_all (P := fun w : World => Lines w.s.line (w.s.taken.map Prod.snd))
    ⟨rfl, rfl, rfl⟩ (fun w e h => ?_) es
  cases e with
  | run ok n =>
    rw [step_run_s]
    obtain ⟨hline, htaken⟩ | ⟨i, c, hline, htaken⟩ := followStep_line ok n w.d w.s
    · rw [hline, htaken]
      exact h
    · rw [hline, htaken, List.map_append]
      exact h.add c
  | append _ _ => exact h
  | truncate _ _ => exact h
  | link _ => exact h
  | unlink => exact h

/-! ### From the start -/

/-- The file has been opened, and nothing has been read. -/
structure Opened (ino : ℕ) (w : World) : Prop where
  path : w.d.path = some ino
  file : ∃ f, w.s.file = some f ∧ f.ino = ino ∧ f.err = false
  taken : w.s.taken = []

/-- How far a run has come: in the three calls before the loop, or in the loop. The position
at which the reading starts is not before `len`. -/
inductive Phase (ino len : ℕ) (w : World) : Prop
  | start (hpc : w.s.pc = .start) (path : w.d.path = some ino) (taken : w.s.taken = [])
      (hlen : len ≤ (w.d.data ino).length)
  | position (hpc : w.s.pc = .position) (opened : Opened ino w)
      (hlen : len ≤ (w.d.data ino).length)
  | seek (hpc : w.s.pc = .seek) (opened : Opened ino w) (inode : w.s.lastino = w.s.curino)
      (hcur : w.s.curpos = w.s.start) (hlast : w.s.lastpos = w.s.start)
      (hsb : w.s.sb.size = w.s.start) (hstart : len ≤ w.s.start)
      (hlen : w.s.start ≤ (w.d.data ino).length)
  | loop (f : Stream) (h : Tracks ino w.s.start [] f w) (hstart : len ≤ w.s.start)

/-- The calls before the loop have been made. -/
def InLoop (s : St) : Prop := s.pc ≠ .start ∧ s.pc ≠ .position ∧ s.pc ≠ .seek

/-- The calls before the loop are not made again. -/
lemma inLoop_step {s : St} (h : InLoop s) (ok : Bool) (n : ℕ) (d : Disk) :
    InLoop (followStep ok n d s) := by
  obtain ⟨hstart, hposition, hseek⟩ := h
  have hkeep : InLoop s := ⟨hstart, hposition, hseek⟩
  have hpc : ∀ s' : St, s'.pc ∈ [.poll, .reappeared, .inode, .compare, .shrunk, .read, .exited] →
      InLoop s' := by
    intro s' hs'
    refine ⟨?_, ?_, ?_⟩ <;> rintro heq <;> rw [heq] at hs' <;> revert hs' <;> decide
  unfold followStep
  cases hs : s.pc with
  | start => exact absurd hs hstart
  | position => exact absurd hs hposition
  | seek => exact absurd hs hseek
  | exited => exact hkeep
  | poll | reappeared | inode | compare | shrunk | read =>
    dsimp only
    repeat' split
    all_goals exact hpc _ (by simp [hs])

lemma Phase.append (h : Phase ino len w) (i : ℕ) (bytes : List UInt8) :
    Phase ino len (step w (.append i bytes)) := by
  have hgrow := length_append_le w i bytes ino
  cases h with
  | start hpc path taken hlen => exact .start hpc path taken (hlen.trans hgrow)
  | position hpc opened hlen =>
    exact .position hpc ⟨opened.path, opened.file, opened.taken⟩ (hlen.trans hgrow)
  | seek hpc opened inode hcur hlast hsb hstart hlen =>
    exact .seek hpc ⟨opened.path, opened.file, opened.taken⟩ inode hcur hlast hsb hstart
      (hlen.trans hgrow)
  | loop f h hstart => exact .loop f (h.append i bytes) hstart

lemma Phase.turn (h : Phase ino len w) (n : ℕ) : Phase ino len (step w (.run true n)) := by
  cases h with
  | start hpc path taken hlen =>
    have hs : (step w (.run true n)).s =
        { w.s with file := some ⟨ino, 0, [], false, false⟩, pc := .position } := by
      rw [step_run_s]
      unfold followStep Disk.fopen
      simp [hpc, path]
    exact .position (by rw [hs]) ⟨path, ⟨_, by rw [hs], rfl, rfl⟩, by rw [hs]; exact taken⟩ hlen
  | position hpc opened hlen =>
    have hs : (step w (.run true n)).s =
        { w.s with
          sb := ⟨(w.d.data ino).length, ino⟩, lastpos := (w.d.data ino).length,
          curpos := (w.d.data ino).length, lastino := ino, curino := ino,
          start := (w.d.data ino).length, pc := .seek } := by
      rw [step_run_s]
      unfold followStep Disk.stat
      simp [hpc, opened.path]
    refine .seek (by rw [hs]) ⟨opened.path, by rw [hs]; exact opened.file,
      by rw [hs]; exact opened.taken⟩ ?_ ?_ ?_ ?_ ?_ ?_
    all_goals rw [hs]
    · exact hlen
    · exact Nat.le_refl _
  | seek hpc opened inode hcur hlast hsb hstart hlen =>
    obtain ⟨f, hf, hon, herr⟩ := opened.file
    have hs : (step w (.run true n)).s =
        { w.s with file := some (f.fseek w.s.curpos), pc := .poll } := by
      rw [step_run_s]
      unfold followStep
      simp [hpc, hf]
    refine .loop (f.fseek w.s.curpos) ⟨by rw [hs], ?_, opened.path, by rw [hs]; exact inode,
      ?_, ?_, ?_, Or.inl ⟨by rw [hs], ?_⟩, ?_⟩ (by rw [hs]; exact hstart)
    · exact ⟨hon, rfl, herr, List.nil_prefix, by rw [← hcur] at hlen; exact hlen⟩
    · rw [hs]
      exact hcur.ge
    · rw [hs]
      exact (hlast.trans hcur.symm).le
    · rw [hs]
      exact hsb.le.trans hlen
    · rw [hs]
      exact (hsb.trans hcur.symm).le
    · rw [hs]
      show w.s.taken = [] ++ ((List.take w.s.curpos _).drop w.s.start).map _
      rw [opened.taken, hcur, List.drop_take, Nat.sub_self]
      rfl
  | loop f h hstart =>
    obtain ⟨f', h', -, heq, -⟩ := h.turn n
    exact .loop f' (by rw [heq]; exact h') (by rw [heq]; exact hstart)

lemma phase_reached (hpath : d.path = some ino) (hes : ∀ e ∈ es, Grows e) :
    Phase ino (d.data ino).length (reached d es) :=
  grows_run (P := Phase ino (d.data ino).length) (.start rfl hpath rfl (Nat.le_refl _))
    (fun _ i bytes h => h.append i bytes) (fun _ n h => h.turn n) hes

/-- In the loop, the stream follows the file. -/
lemma Phase.tracks (h : Phase ino len w) (hloop : InLoop w.s) :
    ∃ f, Tracks ino w.s.start [] f w ∧ len ≤ w.s.start := by
  obtain ⟨hstart, hposition, hseek⟩ := hloop
  cases h with
  | start hpc _ _ _ => exact absurd hpc hstart
  | position hpc _ _ => exact absurd hpc hposition
  | seek hpc _ _ _ _ _ _ _ => exact absurd hpc hseek
  | loop f h hlen => exact ⟨f, h, hlen⟩

/-! ### The file -/

/-- What is appended to the file holds no NUL. -/
def NoNul (ino : ℕ) : Ev → Prop
  | .append i bytes => i = ino → (0 : UInt8) ∉ bytes
  | _ => True

/-- The event appends nothing to the file. -/
def Quiet (ino : ℕ) : Ev → Prop
  | .append i _ => i ≠ ino
  | _ => True

lemma data_reached (d : Disk) (hes : ∀ e ∈ es, Grows e ∧ NoNul ino e) :
    ∃ more, (reached d es).d.data ino = d.data ino ++ more ∧ (0 : UInt8) ∉ more := by
  refine grows_run_of (P := fun w : World => ∃ more, w.d.data ino = d.data ino ++ more ∧
    (0 : UInt8) ∉ more) ⟨[], (List.append_nil _).symm, List.not_mem_nil⟩ ?_ (fun _ _ h => h) hes
  rintro w i bytes hno ⟨more, hmore, hnul⟩
  refine ⟨more ++ if i = ino then bytes else [], ?_, ?_⟩
  · rw [data_append, hmore, List.append_assoc]
  · split
    · rename_i hi
      exact fun h => (List.mem_append.mp h).elim hnul (hno hi)
    · rwa [List.append_nil]

/-- As long as nothing is appended, the size that the last `stat` reported is the size of
the file. -/
lemma quiet_run {p : ℕ} {base : List (ℕ × UInt8)} (h : ∃ f, Tracks ino p base f w)
    (hsize : w.s.sb.size = (w.d.data ino).length) (hes : ∀ e ∈ es, Grows e ∧ Quiet ino e) :
    (run step w es).s.sb.size = ((run step w es).d.data ino).length := by
  have hinv : (∃ f, Tracks ino p base f (run step w es)) ∧
      (run step w es).s.sb.size = ((run step w es).d.data ino).length := by
    refine grows_run_of (P := fun v : World => (∃ f, Tracks ino p base f v) ∧
      v.s.sb.size = (v.d.data ino).length) ⟨h, hsize⟩ ?_ ?_ hes
    · rintro v i bytes hquiet ⟨⟨f, h⟩, hsize⟩
      refine ⟨⟨f, h.append i bytes⟩, ?_⟩
      rw [data_append, if_neg hquiet, List.append_nil]
      exact hsize
    · rintro v n ⟨⟨f, h⟩, hsize⟩
      obtain ⟨f', h', -⟩ := h.turn n
      refine ⟨⟨f', h'⟩, ?_⟩
      rw [step_run_s, step_run_d]
      obtain ⟨-, hs⟩ | ⟨-, -, hs⟩ | ⟨-, -, hs⟩ | ⟨-, -, hs⟩ | ⟨-, c, f', -, -, -, hs⟩ := h.cases n
      · rw [hs]
      all_goals rw [hs]; exact hsize
  exact hinv.2

/-! ### Handing on -/

/-- The log data of a run is handed on completely, once and in order. -/
structure HandedOn (d : Disk) (ino : ℕ) (es : List Ev) : Prop where
  /-- What was handed on, and what is still in the buffer, is what has been read. -/
  bytes : handed (reached d es).s.line ++ unfinished (reached d es).s.line =
    (((reached d es).d.data ino).take (position (reached d es).s)).drop (reached d es).s.start
  within : (d.data ino).length ≤ (reached d es).s.start ∧
    (reached d es).s.start ≤ position (reached d es).s ∧
    position (reached d es).s ≤ ((reached d es).d.data ino).length
  /-- After a poll with nothing appended since its `stat`, everything has been read. -/
  polls : ∀ pre n post, es = pre ++ .run true n :: post → (reached d pre).s.pc = .poll →
    (∀ e ∈ post, Quiet ino e) → (reached d es).s.pc = .poll →
    position (reached d es).s = ((reached d es).d.data ino).length
  /-- If nothing more is appended, a poll with everything read does come to its end. -/
  ends : ∃ k, (reached d (es ++ List.replicate k (.run true 0))).s.pc = .poll ∧
    position (reached d (es ++ List.replicate k (.run true 0))).s =
      ((reached d es).d.data ino).length
  pieces : ∀ s ∈ (reached d es).s.line.given, Piece (buffSize - 1) 10 s.1
  room : (reached d es).s.line.buffpos < buffSize - 1

/-- The string ends of the buffer cut nothing off. -/
lemma Lines.handed {b : LineBuffer} {l : List UInt8} (h : Lines b l) (hnul : (0 : UInt8) ∉ l) :
    b.given.map (fun s => s.1) = (cut (buffSize - 1) 10 l).1 := by
  have hall := cut_flatten (n := buffSize - 1) 10 l
  rw [h.given, List.map_map]
  refine (List.map_congr_left fun q hq => ?_).trans (List.map_id _)
  refine upToNul_of_notMem fun h0 => hnul ?_
  rw [← hall]
  exact List.mem_append_left _ (List.mem_flatten.mpr ⟨q, hq, h0⟩)

lemma runs_data (w : World) (k : ℕ) :
    (run step w (List.replicate k (.run true 0))).d = w.d := by
  have hrun : ∀ e ∈ List.replicate k (Ev.run true 0), e = .run true 0 := fun _ he =>
    List.eq_of_mem_replicate he
  refine run_inv (P := fun v : World => v.d = w.d) rfl (fun v e h he => ?_) hrun
  rw [he]
  exact h

/-- When nothing more is appended, the polls read everything and come to an end. -/
lemma polls_end {p : ℕ} {base : List (ℕ × UInt8)} {f : Stream} (h : Tracks ino p base f w) :
    ∃ k, (run step w (List.replicate k (.run true 0))).s.pc = .poll ∧
      position (run step w (List.replicate k (.run true 0))).s = (w.d.data ino).length := by
  set k := rank (w.d.data ino).length w.s with hk
  obtain ⟨f₁, h₁, hall⟩ := taken_eventually h (Nat.le_refl _) (runs_grow k)
    (by rw [turns_replicate])
  have hend : f₁.pos = (w.d.data ino).length := by
    have hle := h₁.clean.pos
    rw [runs_data] at hle
    omega
  obtain ⟨k', hpoll⟩ := h₁.settle (by rw [runs_data]; exact hend)
  obtain ⟨f₂, h₂, hle⟩ := tracks_run h₁ (runs_grow k')
  refine ⟨k + k', ?_, ?_⟩
  · rw [List.replicate_add, run_append]
    exact hpoll
  · have hpos := h₂.clean.pos
    rw [runs_data, runs_data] at hpos
    rw [List.replicate_add, run_append, h₂.position]
    omega

/-- What has been read, as a stretch of the file. -/
lemma taken_eq (h : Tracks ino (reached d es).s.start [] f (reached d es)) :
    (reached d es).s.taken.map Prod.snd =
      (((reached d es).d.data ino).take f.pos).drop (reached d es).s.start := by
  rw [h.taken, List.nil_append, List.map_map]
  exact List.map_id _

/-- What has been read was appended in the run. -/
lemma taken_noNul (hes : ∀ e ∈ es, Grows e ∧ NoNul ino e)
    (h : Tracks ino (reached d es).s.start [] f (reached d es))
    (hstart : (d.data ino).length ≤ (reached d es).s.start) :
    (0 : UInt8) ∉ (reached d es).s.taken.map Prod.snd := by
  obtain ⟨more, hmore, hno⟩ := data_reached d hes
  rw [taken_eq h, hmore, List.drop_take, List.drop_append, List.drop_of_length_le hstart,
    List.nil_append]
  exact fun h0 => hno (List.mem_of_mem_drop (List.mem_of_mem_take h0))

/-- A poll knows of everything that is in the file at its `stat`. -/
lemma poll_stat (hpath : d.path = some ino) {pre : List Ev} (hgrows : ∀ e ∈ pre, Grows e)
    (hpoll : (reached d pre).s.pc = .poll) (n : ℕ) :
    (step (reached d pre) (.run true n)).s.sb.size = ((reached d pre).d.data ino).length ∧
      ∃ f, Tracks ino (reached d pre).s.start [] f (step (reached d pre) (.run true n)) := by
  obtain ⟨f, h, -⟩ := (phase_reached hpath hgrows).tracks (by
    refine ⟨?_, ?_, ?_⟩ <;> rw [hpoll] <;> decide)
  obtain ⟨f', h', -⟩ := h.turn n
  refine ⟨?_, f', h'⟩
  rw [step_run_s]
  obtain ⟨-, hs⟩ | ⟨hpc, -⟩ | ⟨hpc, -⟩ | ⟨hpc, -⟩ | ⟨hpc, -⟩ := h.cases n
  · rw [hs]
  all_goals rw [hpoll] at hpc; cases hpc

/-- **Appended log data is handed on completely, once and in order**, however the appends
fall between the calls of `follow`. -/
theorem appended_handed_on (hpath : d.path = some ino) (hes : ∀ e ∈ es, Grows e ∧ NoNul ino e)
    (hloop : InLoop (reached d es).s) : HandedOn d ino es := by
  have hgrows : ∀ e ∈ es, Grows e := fun e he => (hes e he).1
  have hlines := lines_reached d es
  obtain ⟨f, h, hstart⟩ := (phase_reached hpath hgrows).tracks hloop
  have hpos := h.position
  have hgiven := hlines.handed (taken_noNul hes h hstart)
  refine ⟨?_, ⟨hstart, ?_, ?_⟩, ?_, ?_, ?_, hlines.room⟩
  · calc handed (reached d es).s.line ++ unfinished (reached d es).s.line
        = (cut (buffSize - 1) 10 ((reached d es).s.taken.map Prod.snd)).1.flatten ++
            (cut (buffSize - 1) 10 ((reached d es).s.taken.map Prod.snd)).2 := by
          rw [handed, hgiven, hlines.pending]
      _ = (reached d es).s.taken.map Prod.snd := cut_flatten 10 _
      _ = _ := by rw [taken_eq h, hpos]
  · rw [hpos]
    exact h.begun
  · rw [hpos]
    exact h.clean.pos
  · rintro pre n post rfl hpre hquiet hpoll
    obtain ⟨hstat, f₁, h₁⟩ :=
      poll_stat hpath (fun e he => hgrows e (List.mem_append_left _ he)) hpre n
    have hpost : ∀ e ∈ post, Grows e := fun e he =>
      hgrows e (List.mem_append_right _ (List.mem_cons_of_mem _ he))
    have hsize := quiet_run ⟨f₁, h₁⟩ hstat fun e he => ⟨hpost e he, hquiet e he⟩
    have hw : run step (step (reached d pre) (.run true n)) post =
        reached d (pre ++ .run true n :: post) := by
      rw [reached_append, run_cons]
    rw [hw] at hsize
    rcases h.pc with ⟨-, hle⟩ | ⟨hpc, -⟩ | ⟨hpc, -⟩
    · have := h.clean.pos
      omega
    · rw [hpoll] at hpc; cases hpc
    · rw [hpoll] at hpc; cases hpc
  · obtain ⟨k, hpoll, hend⟩ := polls_end h
    refine ⟨k, ?_, ?_⟩
    · rw [reached_append]
      exact hpoll
    · rw [reached_append]
      exact hend
  · intro s hs
    have hmem : s.1 ∈ (reached d es).s.line.given.map (fun s => s.1) := List.mem_map_of_mem hs
    rw [hgiven] at hmem
    exact cut_pieces 10 (by decide) _ _ hmem

/-- A file that holds four bytes at the start. -/
def fourBytes : Disk := ⟨fun _ => [111, 108, 100, 10], some 7⟩

/-- A line that arrives in two parts, the second one between `stat` and the reading. -/
def twoParts : List Ev :=
  [.run true 0, .run true 0, .append 7 [104], .run true 0, .run true 0, .append 7 [105, 10],
    .run true 0, .run true 1, .run true 0, .run true 0]

theorem appended_handed_on_run : HandedOn fourBytes 7 twoParts ∧
    handed (reached fourBytes twoParts).s.line = [104, 105, 10] := by
  refine ⟨appended_handed_on rfl ?_ ?_, by decide +kernel⟩
  · simp [twoParts, Grows, NoNul]
  · refine ⟨?_, ?_, ?_⟩ <;> decide +kernel

end Agentsmith.FollowAppend
