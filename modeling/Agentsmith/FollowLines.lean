import Mathlib.Data.List.Chain
import Agentsmith.FollowAppend

/-!
Where the bytes of a line come from.

Beside a run of `follow` stands a trace: for every byte of the line buffer, and of the buffers
handed on, the position at which it was read, and the generation of the file. A new generation
begins when a file is opened and when the file that is open is cut.

The line buffer outlives the stream. So a line is of one piece unless the stream is changed, or a
byte of it is thrown away, while the buffer holds the beginning of a line.
-/

namespace Agentsmith.FollowLines

open Agentsmith.Lib.CStrings Agentsmith.Lib.Runs Agentsmith.Globals
open Agentsmith.Follow Agentsmith.FollowFile Agentsmith.FollowAppend

/-! ### The trace -/

/-- A byte, and where it was read. -/
structure Mark where
  generation : ℕ
  pos : ℕ
  byte : UInt8
  deriving DecidableEq

/-- The generation of the file, and of the bytes read ahead, the marks of what is in the line
buffer, and those of the buffers handed on. -/
structure Trace where
  generation : ℕ
  ahead : ℕ
  line : List Mark
  lines : List (List Mark)

def Trace.start : Trace := ⟨0, 0, [], []⟩

/-- A new generation. -/
def Trace.renew (t : Trace) : Trace := { t with generation := t.generation + 1 }

/-- The generation of the next byte of the stream. -/
def Trace.next (t : Trace) (f : Stream) : ℕ := if f.ahead = [] then t.generation else t.ahead

/-- A byte is put into the line buffer, and leaves it at `buffpos`. -/
def Trace.put (t : Trace) (m : Mark) (buffpos : ℕ) : Trace :=
  if buffpos = 0 then { t with line := [], lines := t.lines ++ [t.line ++ [m]] }
  else { t with line := t.line ++ [m] }

/-- What `fgetc` has given is put into the line buffer, or thrown away. -/
def Trace.get (t : Trace) (f : Stream) (r : Option UInt8 × Stream) (buffpos : ℕ) : Trace :=
  match r.1 with
  | none => t
  | some c =>
    let t' := { t with ahead := t.next f }
    if r.2.eof ∨ r.2.err then t' else t'.put ⟨t.next f, f.pos, c⟩ buffpos

/-- The step opens a file. -/
def Opens (ok : Bool) (w : World) : Prop :=
  w.s.pc ∈ [.start, .reappeared, .inode, .shrunk] ∧ (w.d.fopen ok).isSome

instance (ok : Bool) (w : World) : Decidable (Opens ok w) :=
  inferInstanceAs (Decidable (_ ∧ _))

def traceStep (w : World) (t : Trace) : Ev → Trace
  | .truncate ino n =>
    if (w.s.file.map fun f => f.ino) = some ino ∧ n < (w.d.data ino).length then t.renew else t
  | .run ok n =>
    if w.s.pc = .read then
      match w.s.file with
      | none => t
      | some f => t.get f (f.fgetc w.d ok n) (step w (.run ok n)).s.line.buffpos
    else if Opens ok w then t.renew else t
  | _ => t

/-- The world and the trace after a run. -/
def traced (d : Disk) (es : List Ev) : World × Trace :=
  run (fun p e => (step p.1 e, traceStep p.1 p.2 e)) (⟨d, init⟩, Trace.start) es

/-! ### Lines of one piece -/

/-- The second byte was read behind the first, in the same generation. -/
def Follows (m m' : Mark) : Prop := m.generation = m'.generation ∧ m'.pos = m.pos + 1

/-- A contiguous run of bytes of one generation of a file. -/
def Contiguous (l : List Mark) : Prop := l.IsChain Follows

/-- A step that is taken with the beginning of a line in the buffer, and opens a file, throws away
a byte because of an indicator, or reads on in a file that has been cut. -/
def Joins (p : World × Trace) : Ev → Prop
  | .run ok n => p.1.s.line.buffpos ≠ 0 ∧
      (Opens ok p.1 ∨ p.1.s.pc = .read ∧ ∃ f, p.1.s.file = some f ∧
        (f.fgetc p.1.d ok n).1.isSome ∧
          (f.eof ∨ f.err ∨ f.ahead = [] ∧ p.2.ahead ≠ p.2.generation))
  | _ => False

instance (p : World × Trace) : (e : Ev) → Decidable (Joins p e)
  | .run ok n => inferInstanceAs (Decidable (p.1.s.line.buffpos ≠ 0 ∧
      (Opens ok p.1 ∨ p.1.s.pc = .read ∧ ∃ f ∈ p.1.s.file, (f.fgetc p.1.d ok n).1.isSome ∧
        (f.eof ∨ f.err ∨ f.ahead = [] ∧ p.2.ahead ≠ p.2.generation))))
  | .append _ _ | .truncate _ _ | .link _ | .unlink => inferInstanceAs (Decidable False)

variable {d : Disk} {es : List Ev} {w : World} {t : Trace} {f : Stream} {m : Mark}

lemma traced_snoc (d : Disk) (es : List Ev) (e : Ev) : traced d (es ++ [e]) =
    (step (traced d es).1 e, traceStep (traced d es).1 (traced d es).2 e) := run_snoc es e

lemma traced_world (d : Disk) (es : List Ev) : (traced d es).1 = reached d es := by
  induction es using List.reverseRecOn with
  | nil => rfl
  | append_singleton es e ih => rw [traced_snoc, ih, reached, reached, run_snoc]

/-! ### Steps -/

lemma fgetc_cases (f : Stream) (d : Disk) (ok : Bool) (n : ℕ) :
    (∃ f', f.fgetc d ok n = (none, f') ∧ f'.pos = f.pos ∧ f'.ahead = f.ahead ∧
      (f'.eof ∨ f'.err)) ∨
    ∃ c f', f.fgetc d ok n = (some c, f') ∧ f'.pos = f.pos + 1 ∧ f'.eof = f.eof ∧
      f'.err = f.err := by
  unfold Stream.fgetc
  split
  · exact Or.inr ⟨_, _, rfl, rfl, rfl, rfl⟩
  · split
    · split
      · exact Or.inr ⟨_, _, rfl, rfl, rfl, rfl⟩
      · exact Or.inl ⟨_, rfl, rfl, rfl, Or.inl rfl⟩
    · exact Or.inl ⟨_, rfl, rfl, rfl, Or.inr rfl⟩

/-- The stream, if there is one, stands where the old one stood. -/
def Stays (s s' : St) : Prop :=
  ∀ f', s'.file = some f' → ∃ f, s.file = some f ∧ f'.pos = f.pos ∧ f'.ahead = f.ahead

/-- What a step of `follow` does to the stream, the line buffer and the trace. -/
inductive Does (ok : Bool) (n : ℕ) (w : World) (t : Trace) (s' : St) (t' : Trace) : Prop
  | opens (hopens : Opens ok w) (line : s'.line = w.s.line) (trace : t' = t.renew)
      (file : ∃ f, s'.file = some f ∧ f.ahead = [])
  | stays (line : s'.line = w.s.line) (trace : t' = t) (file : InLoop w.s → Stays w.s s')
  | drops (f f' g : Stream) (c : UInt8) (hpc : w.s.pc = .read) (file : w.s.file = some f)
      (get : f.fgetc w.d ok n = (some c, f')) (bad : f.eof ∨ f.err)
      (line : s'.line = w.s.line) (trace : t' = { t with ahead := t.next f })
      (file' : s'.file = some g) (hpos : g.pos = f.pos + 1)
  | puts (f f' : Stream) (c : UInt8) (hpc : w.s.pc = .read) (file : w.s.file = some f)
      (get : f.fgetc w.d ok n = (some c, f')) (good : ¬ (f.eof ∨ f.err))
      (line : s'.line = w.s.line.add c)
      (trace : t' =
        { t with ahead := t.next f }.put ⟨t.next f, f.pos, c⟩ (w.s.line.add c).buffpos)
      (file' : s'.file = some f') (hpos : f'.pos = f.pos + 1)

lemma read_trace (ok : Bool) (n : ℕ) (t : Trace) (hpc : w.s.pc = .read)
    (hfile : w.s.file = some f) : traceStep w t (.run ok n) =
      t.get f (f.fgetc w.d ok n) (followStep ok n w.d w.s).line.buffpos := by
  unfold traceStep
  simp [hpc, hfile]

/-- A byte that an indicator spoils. -/
lemma drop_run {ok : Bool} {n : ℕ} {f' : Stream} {c : UInt8} (t : Trace) (hpc : w.s.pc = .read)
    (hfile : w.s.file = some f) (hget : f.fgetc w.d ok n = (some c, f'))
    (hpos : f'.pos = f.pos + 1) (hbad : f'.eof ∨ f'.err) :
    (followStep ok n w.d w.s).line = w.s.line ∧
      traceStep w t (.run ok n) = { t with ahead := t.next f } ∧
      ∃ g, (followStep ok n w.d w.s).file = some g ∧ g.pos = f.pos + 1 := by
  have htrace : traceStep w t (.run ok n) = { t with ahead := t.next f } := by
    rw [read_trace ok n t hpc hfile, hget, Trace.get]
    exact if_pos hbad
  have hdone : (followStep ok n w.d w.s).line = w.s.line ∧
      ∃ g, (followStep ok n w.d w.s).file = some g ∧ g.pos = f.pos + 1 := by
    unfold followStep
    simp only [hpc, hfile, hget]
    split
    · exact ⟨rfl, _, rfl, hpos⟩
    · rw [if_pos (hbad.resolve_left ‹_›)]
      exact ⟨rfl, _, rfl, hpos⟩
  exact ⟨hdone.1, htrace, hdone.2⟩

lemma read_does (ok : Bool) (n : ℕ) (t : Trace) (hpc : w.s.pc = .read)
    (hfile : w.s.file = some f) :
    Does ok n w t (followStep ok n w.d w.s) (traceStep w t (.run ok n)) := by
  obtain ⟨f', hget, hpos, hahead, hend⟩ | ⟨c, f', hget, hpos, heof, herr⟩ :=
    fgetc_cases f w.d ok n
  · have hnone : traceStep w t (.run ok n) = t := by
      rw [read_trace ok n t hpc hfile, hget]
      rfl
    rw [hnone]
    unfold followStep
    simp only [hpc, hfile, hget]
    split
    · exact .stays rfl rfl fun _ f hf => ⟨_, hfile, by rw [← Option.some.inj hf]; exact hpos,
        by rw [← Option.some.inj hf]; exact hahead⟩
    · rw [if_pos (hend.resolve_left ‹_›)]
      exact .stays rfl rfl fun _ f hf => ⟨_, hfile, by rw [← Option.some.inj hf]; exact hpos,
        by rw [← Option.some.inj hf]; exact hahead⟩
  · by_cases hbad : f.eof ∨ f.err
    · have hbad' : f'.eof ∨ f'.err := by rwa [heof, herr]
      obtain ⟨hline, htrace, g, hg, hgpos⟩ := drop_run t hpc hfile hget hpos hbad'
      exact .drops f f' g c hpc hfile hget hbad hline htrace hg hgpos
    · have hgood : ¬ (f'.eof ∨ f'.err) := by rwa [heof, herr]
      have hs : followStep ok n w.d w.s =
          { w.s with
            file := some f', line := w.s.line.add c, taken := w.s.taken ++ [(f'.ino, c)] } := by
        unfold followStep
        simp only [hpc, hfile, hget]
        rw [if_neg (fun h => hgood (Or.inl h)), if_neg (fun h => hgood (Or.inr h))]
        rfl
      rw [read_trace ok n t hpc hfile, hs]
      refine .puts f f' c hpc hfile hget hbad rfl ?_ rfl hpos
      rw [hget, Trace.get]
      exact if_neg hgood

lemma fopen_ahead {ok : Bool} (h : d.fopen ok = some f) : f.ahead = [] := by
  unfold Disk.fopen at h
  split at h
  · obtain ⟨ino, -, rfl⟩ := Option.map_eq_some_iff.mp h
    rfl
  · cases h

/-- A file is opened, and nothing has been read ahead. -/
lemma open_run {ok : Bool} (n : ℕ) (t : Trace) (hopens : Opens ok w) :
    (followStep ok n w.d w.s).line = w.s.line ∧ traceStep w t (.run ok n) = t.renew ∧
      ∃ g, (followStep ok n w.d w.s).file = some g ∧ g.ahead = [] := by
  have htrace : traceStep w t (.run ok n) = t.renew := by
    have hread : w.s.pc ≠ .read := by
      intro hpc
      have hmem := hopens.1
      rw [hpc] at hmem
      revert hmem
      decide
    unfold traceStep
    simp only [if_neg hread, if_pos hopens]
  obtain ⟨hpc, hsome⟩ := hopens
  obtain ⟨g, hg⟩ := Option.isSome_iff_exists.mp hsome
  have hdone : (followStep ok n w.d w.s).line = w.s.line ∧
      (followStep ok n w.d w.s).file = some g := by
    unfold followStep Disk.freopen
    simp only [List.mem_cons, List.not_mem_nil, or_false] at hpc
    rcases hpc with hpc | hpc | hpc | hpc <;> simp [hpc, hg]
  exact ⟨hdone.1, htrace, g, hdone.2, fopen_ahead hg⟩

/-- The other calls leave the line buffer alone, and the stream, or close it. -/
lemma rests (ok : Bool) (n : ℕ) (hread : w.s.pc ≠ .read) (hclosed : ¬ Opens ok w) :
    (followStep ok n w.d w.s).line = w.s.line ∧
      (InLoop w.s → Stays w.s (followStep ok n w.d w.s)) := by
  have hsame : Stays w.s w.s := fun f hf => ⟨f, hf, rfl, rfl⟩
  have hnone : ∀ s' : St, s'.file = none → Stays w.s s' := by
    intro s' hs' f hf
    rw [hs'] at hf
    cases hf
  have hopen : w.s.pc ∈ [.start, .reappeared, .inode, .shrunk] → w.d.fopen ok = none :=
    fun hpc => Option.not_isSome_iff_eq_none.mp fun hsome => hclosed ⟨hpc, hsome⟩
  unfold followStep Disk.freopen
  cases hpc : w.s.pc with
  | start =>
    dsimp only
    rw [hopen (by rw [hpc]; decide)]
    exact ⟨rfl, fun _ => hsame⟩
  | reappeared | inode | shrunk =>
    dsimp only
    rw [hopen (by rw [hpc]; decide)]
    exact ⟨rfl, fun _ => hnone _ rfl⟩
  | read => exact absurd hpc hread
  | seek =>
    have hearly : ¬ InLoop w.s := fun h => h.2.2 hpc
    dsimp only
    split <;> exact ⟨rfl, fun h => absurd h hearly⟩
  | exited => exact ⟨rfl, fun _ => hsame⟩
  | position =>
    dsimp only
    split <;> exact ⟨rfl, fun _ => hsame⟩
  | compare =>
    dsimp only
    split
    · exact ⟨rfl, fun _ => hsame⟩
    · split <;> exact ⟨rfl, fun _ => hsame⟩
  | poll =>
    dsimp only
    split
    · exact ⟨rfl, fun _ => hnone _ rfl⟩
    · split
      · exact ⟨rfl, fun _ => hsame⟩
      · split <;> exact ⟨rfl, fun _ => hsame⟩

lemma run_does (ok : Bool) (n : ℕ) (w : World) (t : Trace) :
    Does ok n w t (followStep ok n w.d w.s) (traceStep w t (.run ok n)) := by
  by_cases hread : w.s.pc = .read
  · rcases hfile : w.s.file with _ | f
    · have hs : followStep ok n w.d w.s = w.s := by
        unfold followStep
        simp only [hread, hfile]
      have ht : traceStep w t (.run ok n) = t := by
        unfold traceStep
        simp [hread, hfile]
      rw [hs, ht]
      exact .stays rfl rfl fun _ f hf => ⟨f, hf, rfl, rfl⟩
    · exact read_does ok n t hread hfile
  · by_cases hopens : Opens ok w
    · obtain ⟨hline, htrace, hfile⟩ := open_run n t hopens
      exact .opens hopens hline htrace hfile
    · have ht : traceStep w t (.run ok n) = t := by
        unfold traceStep
        simp only [if_neg hread, if_neg hopens]
      obtain ⟨hline, hstays⟩ := rests ok n hread hopens
      exact .stays hline ht hstays

/-! ### What is always so -/

/-- The trace is one of the line buffer. -/
structure Told (b : LineBuffer) (t : Trace) : Prop where
  given : b.given = t.lines.map fun l => upToNul (l.map fun m => m.byte)
  pending : unfinished b = t.line.map fun m => m.byte
  buffpos : b.buffpos = t.line.length
  room : b.buffpos < buffSize - 1

lemma Told.put {b : LineBuffer} (h : Told b t) (m : Mark) :
    Told (b.add m.byte) (t.put m (b.add m.byte).buffpos) := by
  have hsize : buffSize = 1024 := rfl
  have hmarks : (t.line ++ [m]).map (fun m => m.byte) = unfinished b ++ [m.byte] := by
    rw [List.map_append, h.pending]
    rfl
  unfold Trace.put
  obtain ⟨-, hpos, hgiven⟩ | ⟨hno, hpos, hunfinished, hgiven⟩ := add_cases h.room m.byte
  · rw [if_pos hpos]
    refine ⟨?_, ?_, hpos, ?_⟩
    · rw [hgiven, List.map_append, List.map_singleton, hmarks, h.given]
    · rw [unfinished, hpos]
      rfl
    · rw [hpos]
      decide
  · rw [if_neg (by rw [hpos]; exact Nat.succ_ne_zero _)]
    refine ⟨hgiven.trans h.given, hunfinished.trans hmarks.symm, ?_, ?_⟩
    · rw [hpos, h.buffpos, List.length_append]
      rfl
    · have hroom := h.room
      have hlast : b.buffpos + 1 ≠ buffSize - 1 := fun heq => hno (Or.inl heq)
      omega

/-- The next byte is at least `k` places behind the mark, or of a later generation. -/
def Past (k : ℕ) (t : Trace) (f : Stream) (m : Mark) : Prop :=
  m.generation < t.next f ∨ m.pos + k ≤ f.pos

/-- So it is with the last byte in the line buffer. -/
def Last (k : ℕ) (s : St) (t : Trace) : Prop :=
  ∀ m ∈ t.line.getLast?, m.generation ≤ t.ahead ∧ ∀ f, s.file = some f → Past k t f m

variable {s s' : St} {g : Stream} {k : ℕ}

lemma next_le (hle : t.ahead ≤ t.generation) (f : Stream) :
    t.ahead ≤ t.next f ∧ t.next f ≤ t.generation := by
  unfold Trace.next
  split
  · exact ⟨hle, Nat.le_refl _⟩
  · exact ⟨Nat.le_refl _, hle⟩

lemma Last.opens (h : Last k s t) (hle : t.ahead ≤ t.generation) (hfile : s'.file = some f)
    (hahead : f.ahead = []) (j : ℕ) : Last j s' t.renew := by
  intro m hm
  obtain ⟨hgen, -⟩ := h m hm
  refine ⟨hgen, fun f' hf' => Or.inl ?_⟩
  obtain rfl := Option.some.inj (hfile.symm.trans hf')
  rw [Trace.next, if_pos hahead]
  exact Nat.lt_succ_of_le (hgen.trans hle)

lemma Last.stays (h : Last k s t) (hs : Stays s s') : Last k s' t := by
  intro m hm
  obtain ⟨hgen, hpast⟩ := h m hm
  refine ⟨hgen, fun f' hf' => ?_⟩
  obtain ⟨f, hf, hpos, hahead⟩ := hs f' hf'
  have hnow := hpast f hf
  unfold Past Trace.next at hnow ⊢
  rwa [hpos, hahead]

/-- A byte thrown away leaves a gap. -/
lemma Last.drops (h : Last k s t) (hle : t.ahead ≤ t.generation) (hfile : s.file = some f)
    (hg : s'.file = some g) (hpos : g.pos = f.pos + 1) :
    Last (k + 1) s' { t with ahead := t.next f } := by
  intro m hm
  obtain ⟨hgen, hpast⟩ := h m hm
  obtain ⟨hlow, hhigh⟩ := next_le hle f
  refine ⟨hgen.trans hlow, fun f' hf' => ?_⟩
  obtain rfl := Option.some.inj (hg.symm.trans hf')
  rcases hpast f hfile with hlt | hfar
  · refine Or.inl (Nat.lt_of_lt_of_le hlt ?_)
    exact (next_le (t := { t with ahead := t.next f }) hhigh g).1
  · refine Or.inr ?_
    rw [hpos]
    omega

lemma Last.cut (h : Last k s t) : Last k s t.renew := by
  intro m hm
  obtain ⟨hgen, hpast⟩ := h m hm
  refine ⟨hgen, fun f hf => ?_⟩
  rcases hpast f hf with hlt | hfar
  · refine Or.inl (Nat.lt_of_lt_of_le hlt ?_)
    unfold Trace.next
    split
    · exact Nat.le_succ _
    · exact Nat.le_refl _
  · exact Or.inr hfar

structure Sound (s : St) (t : Trace) : Prop where
  told : Told s.line t
  le : t.ahead ≤ t.generation
  early : ¬ InLoop s → t.line = []
  last : Last 1 s t

lemma Sound.line_nil (h : Sound s t) : t.line = [] ↔ s.line.buffpos = 0 := by
  rw [h.told.buffpos, List.length_eq_zero_iff]

lemma last_nil (hline : t.line = []) : Last k s t := by
  intro m hm
  rw [hline] at hm
  cases hm

lemma Sound.stays {k : ℕ} (h : Sound s t) (hlast : Last k s t)
    (hs : InLoop s → Stays s s') : Last k s' t := by
  by_cases hloop : InLoop s
  · exact hlast.stays (hs hloop)
  · exact last_nil (h.early hloop)

/-- A byte that is not thrown away, in front of those read ahead. -/
lemma put_eq (t : Trace) (m : Mark) (buffpos : ℕ) :
    (t.put m buffpos).generation = t.generation ∧ (t.put m buffpos).ahead = t.ahead ∧
      ((buffpos = 0 ∧ (t.put m buffpos).line = [] ∧
        (t.put m buffpos).lines = t.lines ++ [t.line ++ [m]]) ∨
      (buffpos ≠ 0 ∧ (t.put m buffpos).line = t.line ++ [m] ∧
        (t.put m buffpos).lines = t.lines)) := by
  unfold Trace.put
  split
  · exact ⟨rfl, rfl, Or.inl ⟨‹_›, rfl, rfl⟩⟩
  · exact ⟨rfl, rfl, Or.inr ⟨‹_›, rfl, rfl⟩⟩

lemma sound_run {ok : Bool} {n : ℕ} {t' : Trace} (h : Sound w.s t)
    (hloop : InLoop w.s → InLoop s') (hdoes : Does ok n w t s' t') : Sound s' t' := by
  have hearly : ∀ t'' : Trace, t''.line = t.line → ¬ InLoop s' → t''.line = [] := by
    intro t'' hline hno
    rw [hline]
    exact h.early fun hyes => hno (hloop hyes)
  cases hdoes with
  | opens hopens line trace file =>
    obtain ⟨f, hf, hahead⟩ := file
    subst trace
    exact ⟨by rw [line]; exact ⟨h.told.given, h.told.pending, h.told.buffpos, h.told.room⟩,
      h.le.trans (Nat.le_succ _), hearly _ rfl, h.last.opens h.le hf hahead 1⟩
  | stays line trace file =>
    subst trace
    exact ⟨by rw [line]; exact h.told, h.le, hearly _ rfl, h.stays h.last file⟩
  | drops f f' g c hpc file get bad line trace file' hpos =>
    subst trace
    have hlast := h.last.drops h.le file file' hpos
    refine ⟨by rw [line]; exact ⟨h.told.given, h.told.pending, h.told.buffpos, h.told.room⟩,
      (next_le h.le f).2, hearly _ rfl, fun m hm => ?_⟩
    obtain ⟨hgen, hpast⟩ := hlast m hm
    refine ⟨hgen, fun f' hf' => (hpast f' hf').imp_right fun hfar => ?_⟩
    omega
  | puts f f' c hpc file get good line trace file' hpos =>
    have htold : Told w.s.line { t with ahead := t.next f } :=
      ⟨h.told.given, h.told.pending, h.told.buffpos, h.told.room⟩
    have hput := htold.put ⟨t.next f, f.pos, c⟩
    obtain ⟨hgen, hahead, hcases⟩ := put_eq { t with ahead := t.next f } ⟨t.next f, f.pos, c⟩
      (w.s.line.add c).buffpos
    subst trace
    refine ⟨by rw [line]; exact hput, ?_, fun hno => ?_, ?_⟩
    · rw [hgen, hahead]
      exact (next_le h.le f).2
    · refine absurd (hloop ⟨?_, ?_, ?_⟩) hno <;> rw [hpc] <;> decide
    · rcases hcases with ⟨-, hline, -⟩ | ⟨-, hline, -⟩
      · exact last_nil hline
      · intro m hm
        rw [hline, List.getLast?_concat] at hm
        obtain rfl := Option.some.inj hm
        refine ⟨by rw [hahead], fun f'' hf'' => Or.inr ?_⟩
        obtain rfl := Option.some.inj (file'.symm.trans hf'')
        exact hpos.ge

/-- The events that are no steps of `follow`. -/
lemma other_step (w : World) (t : Trace) {e : Ev} (he : ∀ ok n, e ≠ .run ok n) :
    (step w e).s = w.s ∧ (traceStep w t e = t ∨ traceStep w t e = t.renew) := by
  cases e with
  | run ok n => exact absurd rfl (he ok n)
  | truncate ino n =>
    refine ⟨rfl, ?_⟩
    unfold traceStep
    dsimp only
    split
    · exact Or.inr rfl
    · exact Or.inl rfl
  | append _ _ => exact ⟨rfl, Or.inl rfl⟩
  | link _ => exact ⟨rfl, Or.inl rfl⟩
  | unlink => exact ⟨rfl, Or.inl rfl⟩

lemma Sound.renew (h : Sound s t) : Sound s t.renew :=
  ⟨⟨h.told.given, h.told.pending, h.told.buffpos, h.told.room⟩, h.le.trans (Nat.le_succ _),
    h.early, h.last.cut⟩

lemma sound_step (h : Sound w.s t) (e : Ev) : Sound (step w e).s (traceStep w t e) := by
  by_cases he : ∃ ok n, e = .run ok n
  · obtain ⟨ok, n, rfl⟩ := he
    exact sound_run h (fun hloop => inLoop_step hloop ok n w.d) (run_does ok n w t)
  · obtain ⟨hs, ht | ht⟩ := other_step w t fun ok n heq => he ⟨ok, n, heq⟩
    · rw [hs, ht]
      exact h
    · rw [hs, ht]
      exact h.renew

lemma sound_reached (d : Disk) (es : List Ev) :
    Sound (traced d es).1.s (traced d es).2 := by
  induction es using List.reverseRecOn with
  | nil =>
    have hroom : init.line.buffpos < buffSize - 1 := by decide
    exact ⟨⟨rfl, rfl, rfl, hroom⟩, Nat.le_refl _, fun _ => rfl, last_nil rfl⟩
  | append_singleton es e ih =>
    rw [traced_snoc]
    exact sound_step ih e

/-! ### Steps that join nothing -/

/-- What is in the buffer is of one piece, and the stream stands behind it. -/
structure Fits (s : St) (t : Trace) : Prop where
  lines : ∀ l ∈ t.lines, Contiguous l
  line : Contiguous t.line
  last : ∀ m ∈ t.line.getLast?, m.generation = t.ahead ∧
    ∀ f, s.file = some f → f.pos = m.pos + 1

lemma contiguous_snoc {l : List Mark} : Contiguous (l ++ [m]) ↔
    Contiguous l ∧ ∀ m' ∈ l.getLast?, Follows m' m := by
  unfold Contiguous
  rw [List.isChain_append]
  simp

lemma fits_nil (hlines : ∀ l ∈ t.lines, Contiguous l) (hline : t.line = []) : Fits s t := by
  refine ⟨hlines, ?_, fun m hm => ?_⟩
  · rw [hline]
    exact List.isChain_nil
  · rw [hline] at hm
    cases hm

/-- The next byte joins on, unless the file has been cut since the byte before. -/
lemma Fits.joined (h : Fits s t) (hfile : s.file = some f) (c : UInt8)
    (hcut : f.ahead = [] → t.ahead ≠ t.generation → t.line = []) :
    Contiguous (t.line ++ [⟨t.next f, f.pos, c⟩]) := by
  refine contiguous_snoc.mpr ⟨h.line, fun m hm => ?_⟩
  obtain ⟨hgen, hplace⟩ := h.last m hm
  have hnext : t.next f = t.ahead := by
    unfold Trace.next
    split
    · rename_i hahead
      by_contra hne
      rw [hcut hahead (Ne.symm hne)] at hm
      cases hm
    · rfl
  exact ⟨hgen.trans hnext.symm, hplace f hfile⟩

lemma fits_run {ok : Bool} {n : ℕ} {t' : Trace} (h : Fits w.s t) (hsound : Sound w.s t)
    (hno : ¬ Joins (w, t) (.run ok n)) (hdoes : Does ok n w t s' t') : Fits s' t' := by
  have hnil : Opens ok w ∨ w.s.pc = .read ∧ (∃ f, w.s.file = some f ∧
      (f.fgetc w.d ok n).1.isSome ∧ (f.eof ∨ f.err ∨ f.ahead = [] ∧ t.ahead ≠ t.generation)) →
      t.line = [] := by
    intro hjoin
    by_contra hne
    exact hno ⟨fun hzero => hne (hsound.line_nil.mpr hzero), hjoin⟩
  cases hdoes with
  | opens hopens line trace file =>
    subst trace
    exact fits_nil h.lines (hnil (Or.inl hopens))
  | stays line trace file =>
    subst trace
    by_cases hloop : InLoop w.s
    · refine ⟨h.lines, h.line, fun m hm => ⟨(h.last m hm).1, fun f' hf' => ?_⟩⟩
      obtain ⟨f, hf, hpos, -⟩ := file hloop f' hf'
      rw [hpos]
      exact (h.last m hm).2 f hf
    · exact fits_nil h.lines (hsound.early hloop)
  | drops f f' g c hpc file get bad line trace file' hpos =>
    subst trace
    have hsome : (f.fgetc w.d ok n).1.isSome := by rw [get]; rfl
    refine fits_nil h.lines (hnil (Or.inr ⟨hpc, f, file, hsome, ?_⟩))
    exact bad.imp_right Or.inl
  | puts f f' c hpc file get good line trace file' hpos =>
    have hsome : (f.fgetc w.d ok n).1.isSome := by rw [get]; rfl
    have hall := h.joined file c fun hahead hcut =>
      hnil (Or.inr ⟨hpc, f, file, hsome, Or.inr (Or.inr ⟨hahead, hcut⟩)⟩)
    obtain ⟨-, hahead, hcases⟩ := put_eq { t with ahead := t.next f } ⟨t.next f, f.pos, c⟩
      (w.s.line.add c).buffpos
    subst trace
    rcases hcases with ⟨-, hline, hlines⟩ | ⟨-, hline, hlines⟩
    · refine fits_nil (fun l hl => ?_) hline
      rw [hlines] at hl
      rcases List.mem_append.mp hl with hl | hl
      · exact h.lines l hl
      · rw [List.mem_singleton.mp hl]
        exact hall
    · refine ⟨by rw [hlines]; exact h.lines, by rw [hline]; exact hall, fun m hm => ?_⟩
      rw [hline, List.getLast?_concat] at hm
      obtain rfl := Option.some.inj hm
      refine ⟨by rw [hahead], fun f'' hf'' => ?_⟩
      obtain rfl := Option.some.inj (file'.symm.trans hf'')
      exact hpos

lemma fits_step (h : Fits w.s t) (hsound : Sound w.s t) {e : Ev} (hno : ¬ Joins (w, t) e) :
    Fits (step w e).s (traceStep w t e) := by
  by_cases he : ∃ ok n, e = .run ok n
  · obtain ⟨ok, n, rfl⟩ := he
    exact fits_run h hsound hno (run_does ok n w t)
  · obtain ⟨hs, ht | ht⟩ := other_step w t fun ok n heq => he ⟨ok, n, heq⟩
    · rw [hs, ht]
      exact h
    · rw [hs, ht]
      exact ⟨h.lines, h.line, h.last⟩

/-! ### Steps that join -/

/-- Since the buffers `old` were handed on, one that is not of one piece has been, or one is on
its way. -/
def Broken (old : List (List Mark)) (s : St) (t : Trace) : Prop :=
  (∃ l ∈ t.lines, ¬ Contiguous l) ∨
    (t.lines = old ∧ t.line ≠ [] ∧ (¬ Contiguous t.line ∨ Last 2 s t))

variable {old : List (List Mark)}

/-- Whatever is put behind a broken line, it stays one. -/
lemma gap_stays (hne : t.line ≠ []) (hbroken : ¬ Contiguous t.line ∨ Last 2 s t)
    (hfile : s.file = some f) (c : UInt8) :
    ¬ Contiguous (t.line ++ [⟨t.next f, f.pos, c⟩]) := by
  intro hall
  obtain ⟨hline, hlast⟩ := contiguous_snoc.mp hall
  obtain hnot | hfar := hbroken
  · exact hnot hline
  · have hm := List.getLast?_eq_some_getLast hne
    obtain ⟨hgen, hpos⟩ := hlast _ hm
    obtain ⟨-, hpast⟩ := hfar _ hm
    rcases hpast f hfile with hlt | hle
    · exact absurd hgen (Nat.ne_of_lt hlt)
    · dsimp only at hpos
      omega

lemma broken_run {ok : Bool} {n : ℕ} {t' : Trace} (h : Broken old w.s t) (hsound : Sound w.s t)
    (hdoes : Does ok n w t s' t') : Broken old s' t' := by
  cases hdoes with
  | opens hopens line trace file =>
    obtain ⟨f, hf, hahead⟩ := file
    subst trace
    refine h.imp_right fun ⟨hold, hne, hbroken⟩ => ⟨hold, hne, hbroken.imp_right fun hlast => ?_⟩
    exact hlast.opens hsound.le hf hahead 2
  | stays line trace file =>
    subst trace
    refine h.imp_right fun ⟨hold, hne, hbroken⟩ => ⟨hold, hne, hbroken.imp_right fun hlast => ?_⟩
    exact hsound.stays hlast file
  | drops f f' g c hpc file get bad line trace file' hpos =>
    subst trace
    refine h.imp_right fun ⟨hold, hne, _⟩ => ⟨hold, hne, Or.inr ?_⟩
    exact hsound.last.drops hsound.le file file' hpos
  | puts f f' c hpc file get good line trace file' hpos =>
    obtain ⟨-, -, hcases⟩ := put_eq { t with ahead := t.next f } ⟨t.next f, f.pos, c⟩
      (w.s.line.add c).buffpos
    subst trace
    rcases h with ⟨l, hl, hnot⟩ | ⟨hold, hne, hbroken⟩
    · refine Or.inl ⟨l, ?_, hnot⟩
      rcases hcases with ⟨-, -, hlines⟩ | ⟨-, -, hlines⟩
      · rw [hlines]
        exact List.mem_append_left _ hl
      · rw [hlines]
        exact hl
    · have hgap := gap_stays hne hbroken file c
      rcases hcases with ⟨-, -, hlines⟩ | ⟨-, hline, hlines⟩
      · refine Or.inl ⟨_, ?_, hgap⟩
        rw [hlines]
        exact List.mem_append_right _ (List.mem_singleton_self _)
      · refine Or.inr ⟨hlines.trans hold, ?_, Or.inl ?_⟩
        · rw [hline]
          exact List.append_ne_nil_of_right_ne_nil _ (List.cons_ne_nil _ _)
        · rw [hline]
          exact hgap

lemma broken_step (h : Broken old w.s t) (hsound : Sound w.s t) (e : Ev) :
    Broken old (step w e).s (traceStep w t e) := by
  by_cases he : ∃ ok n, e = .run ok n
  · obtain ⟨ok, n, rfl⟩ := he
    exact broken_run h hsound (run_does ok n w t)
  · obtain ⟨hs, ht | ht⟩ := other_step w t fun ok n heq => he ⟨ok, n, heq⟩
    · rw [hs, ht]
      exact h
    · rw [hs, ht]
      exact h.imp_right fun ⟨hold, hne, hbroken⟩ => ⟨hold, hne, hbroken.imp_right Last.cut⟩

/-- A step that joins is the beginning of a broken line. -/
lemma joins_broken (hsound : Sound w.s t) {e : Ev} (hjoins : Joins (w, t) e) :
    Broken t.lines (step w e).s (traceStep w t e) := by
  cases e with
  | run ok n =>
    obtain ⟨hbuff, hjoins⟩ := hjoins
    have hne : t.line ≠ [] := fun hnil => hbuff (hsound.line_nil.mp hnil)
    have hlast : (∀ m ∈ t.line.getLast?, m.generation ≤ t.ahead) := fun m hm =>
      (hsound.last m hm).1
    rw [step_run_s]
    obtain hopens | ⟨hpc, f, hfile, hsome, hbad⟩ := hjoins
    · obtain ⟨hline, htrace, g, hg, hahead⟩ := open_run n t hopens
      rw [htrace]
      exact Or.inr ⟨rfl, hne, Or.inr (hsound.last.opens hsound.le hg hahead 2)⟩
    · obtain ⟨f', hget, -⟩ | ⟨c, f', hget, hpos, heof, herr⟩ := fgetc_cases f w.d ok n
      · rw [hget] at hsome
        cases hsome
      · rw [← or_assoc] at hbad
        rcases hbad with hbad | ⟨hahead, hcut⟩
        · obtain ⟨-, htrace, g, hg, hgpos⟩ := drop_run t hpc hfile hget hpos
            (by rwa [heof, herr])
          rw [htrace]
          exact Or.inr ⟨rfl, hne, Or.inr (hsound.last.drops hsound.le hfile hg hgpos)⟩
        · -- the next byte is of a later generation already
          have hbroken : Broken t.lines w.s t := by
            refine Or.inr ⟨rfl, hne, Or.inr fun m hm => ⟨hlast m hm, fun f₁ hf₁ => Or.inl ?_⟩⟩
            obtain rfl := Option.some.inj (hfile.symm.trans hf₁)
            rw [Trace.next, if_pos hahead]
            exact Nat.lt_of_le_of_lt (hlast m hm) (Nat.lt_of_le_of_ne hsound.le hcut)
          exact broken_run hbroken hsound (run_does ok n w t)
  | append _ _ => exact hjoins.elim
  | truncate _ _ => exact hjoins.elim
  | link _ => exact hjoins.elim
  | unlink => exact hjoins.elim

/-! ### Runs -/

lemma fits_reached (hno : ∀ pre e post, es = pre ++ e :: post → ¬ Joins (traced d pre) e) :
    Fits (traced d es).1.s (traced d es).2 := by
  induction es using List.reverseRecOn with
  | nil => exact fits_nil (List.forall_mem_nil _) rfl
  | append_singleton es e ih =>
    obtain ⟨hbefore, hlast⟩ := (forall_split_snoc es e).mp hno
    rw [traced_snoc]
    exact fits_step (ih hbefore) (sound_reached d es) hlast

lemma broken_reached {old : List (List Mark)} {pre : List Ev}
    (h : Broken old (traced d pre).1.s (traced d pre).2) (post : List Ev) :
    Broken old (traced d (pre ++ post)).1.s (traced d (pre ++ post)).2 := by
  induction post using List.reverseRecOn with
  | nil => rwa [List.append_nil]
  | append_singleton post e ih =>
    rw [← List.append_assoc, traced_snoc]
    exact broken_step ih (sound_reached d (pre ++ post)) e

/-- What `regex_do` is given are the lines of the trace. -/
lemma given_eq (d : Disk) (es : List Ev) : (reached d es).s.line.given =
    (traced d es).2.lines.map fun l => upToNul (l.map fun m => m.byte) := by
  rw [← traced_world]
  exact (sound_reached d es).told.given

/-- **Lines of one piece**: in a run where no step joins, every buffer that `regex_do` is given is
a contiguous run of bytes of one generation of the file. After a step that joins, the next buffer
is not. -/
theorem lines_of_one_piece (d : Disk) (es : List Ev) :
    ((reached d es).s.line.given =
      (traced d es).2.lines.map fun l => upToNul (l.map fun m => m.byte)) ∧
    ((∀ pre e post, es = pre ++ e :: post → ¬ Joins (traced d pre) e) →
      ∀ l ∈ (traced d es).2.lines, Contiguous l) ∧
    ∀ pre e post, es = pre ++ e :: post → Joins (traced d pre) e →
      (reached d es).s.line.given ≠ (reached d pre).s.line.given →
        ∃ l ∈ (traced d es).2.lines, ¬ Contiguous l := by
  refine ⟨given_eq d es, fun hno => (fits_reached hno).lines, ?_⟩
  rintro pre e post rfl hjoins hgiven
  have hnext : Broken (traced d pre).2.lines (traced d (pre ++ [e])).1.s
      (traced d (pre ++ [e])).2 := by
    rw [traced_snoc]
    exact joins_broken (sound_reached d pre) hjoins
  have hend := broken_reached hnext post
  rw [List.append_assoc, List.singleton_append] at hend
  obtain hbad | ⟨hsame, -⟩ := hend
  · exact hbad
  · rw [given_eq, given_eq d pre, hsame] at hgiven
    exact absurd rfl hgiven

/-- A line that is ended before the file is cut, and one of the file after it. -/
def cutBetween : List Ev :=
  [.run true 0, .run true 0, .run true 0, .append 7 [97, 10], .run true 0, .run true 0,
    .run true 0, .run true 0, .run true 0, .truncate 7 0, .append 7 [98, 10], .run true 0,
    .run true 0, .run true 0, .run true 1, .run true 0]

/-- A line that is not ended when the file is cut. -/
def cutInside : List Ev :=
  [.run true 0, .run true 0, .run true 0, .append 7 [97], .run true 0, .run true 0,
    .run true 0, .run true 0, .truncate 7 0, .append 7 [98, 10], .run true 0, .run true 0,
    .run true 0, .run true 1, .run true 0]

theorem lines_of_one_piece_run : (traced fourBytes cutBetween).2.lines.length = 2 ∧
    ∀ l ∈ (traced fourBytes cutBetween).2.lines, Contiguous l := by
  have hno : ∀ k (hk : k < cutBetween.length),
      ¬ Joins (traced fourBytes (cutBetween.take k)) cutBetween[k] := by decide +kernel
  have hlen : (traced fourBytes cutBetween).2.lines.length = 2 := by decide +kernel
  exact ⟨hlen, (lines_of_one_piece fourBytes cutBetween).2.1 (forall_split_of_take hno)⟩

/-- The tail of the old file is joined with the first line of the new one. -/
theorem lines_joined :
    (reached fourBytes cutInside).s.line.given = [upToNul [97, 98, 10]] ∧
      ∃ l ∈ (traced fourBytes cutInside).2.lines, ¬ Contiguous l := by
  have hlines : (traced fourBytes cutInside).2.lines = [[⟨1, 4, 97⟩, ⟨3, 0, 98⟩, ⟨3, 1, 10⟩]] := by
    decide +kernel
  have hgiven : (reached fourBytes cutInside).s.line.given = [upToNul [97, 98, 10]] := by
    decide +kernel
  refine ⟨hgiven, [⟨1, 4, 97⟩, ⟨3, 0, 98⟩, ⟨3, 1, 10⟩], ?_, ?_⟩
  · rw [hlines]
    exact List.mem_singleton_self _
  · simp [Contiguous, Follows]

end Agentsmith.FollowLines
