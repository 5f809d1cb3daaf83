import Agentsmith.FollowAppend

/-!
Reads that fail.

A read that fails consumes nothing, but it leaves the error indicator of the stream set, and
`readtoeof` looks at the indicator behind every `fgetc`. So the next byte that is read is thrown
away. Only a read that finds the end of the file clears the indicator before.
-/

namespace Agentsmith.FollowErrors

open Agentsmith.Lib.Runs Agentsmith.Follow Agentsmith.FollowFile Agentsmith.FollowAppend

/-- Files grow, and of the calls of `follow` only reads may fail. -/
def Permitted (w : World) : Ev → Prop
  | .append _ _ => True
  | .run ok _ => ok = true ∨ w.s.pc = .read
  | _ => False

/-- A byte is read while the error indicator is set. -/
def Drops (w : World) : Ev → Prop
  | .run ok n => w.s.pc = .read ∧
      ∃ f, w.s.file = some f ∧ f.err = true ∧ (f.fgetc w.d ok n).1.isSome
  | _ => False

instance (w : World) : (e : Ev) → Decidable (Permitted w e)
  | .append _ _ => inferInstanceAs (Decidable True)
  | .run ok _ => inferInstanceAs (Decidable (ok = true ∨ w.s.pc = .read))
  | .truncate _ _ | .link _ | .unlink => inferInstanceAs (Decidable False)

instance (w : World) : (e : Ev) → Decidable (Drops w e)
  | .run ok n => inferInstanceAs (Decidable (w.s.pc = .read ∧
      ∃ f ∈ w.s.file, f.err = true ∧ (f.fgetc w.d ok n).1.isSome))
  | .append _ _ | .truncate _ _ | .link _ | .unlink => inferInstanceAs (Decidable False)

/-- The run has no other events than those permitted. -/
def Errors (d : Disk) (es : List Ev) : Prop :=
  ∀ pre e post, es = pre ++ e :: post → Permitted (reached d pre) e

def NoDrops (d : Disk) (es : List Ev) : Prop :=
  ∀ pre e post, es = pre ++ e :: post → ¬ Drops (reached d pre) e

/-- So far no byte has been read with the indicator set, and it is not set now. -/
structure Recovered (d : Disk) (es : List Ev) : Prop where
  before : NoDrops d es
  now : ∀ f, (reached d es).s.file = some f → f.err = false

/-- The first `m` bytes of the file have been read, and from the start on every byte of it has
been put into the line buffer, once and in order. -/
structure HandsAll (ino m : ℕ) (w : World) : Prop where
  read : m ≤ position w.s
  taken : w.s.taken =
    (((w.d.data ino).take (position w.s)).drop w.s.start).map fun c => (ino, c)

variable {d : Disk} {ino p : ℕ} {f : Stream} {w : World}

/-! ### Streams -/

def unset (f : Stream) : Stream := { f with err := false }

lemma fgetc_unset (f : Stream) (d : Disk) (n : ℕ) : f.fgetc d true n =
    (((unset f).fgetc d true n).1, { ((unset f).fgetc d true n).2 with err := f.err }) := by
  unfold Stream.fgetc unset
  dsimp only
  split
  · rfl
  · rw [if_pos rfl, if_pos rfl]
    split <;> rfl

/-- The bytes read ahead are there whatever the disk does. -/
lemma fgetc_ahead (hahead : f.ahead ≠ []) (d : Disk) (n : ℕ) :
    f.fgetc d false n = f.fgetc d true n := by
  unfold Stream.fgetc
  split
  · rfl
  · contradiction

lemma fgetc_fails (hahead : f.ahead = []) (d : Disk) (n : ℕ) :
    f.fgetc d false n = (none, { f with err := true }) := by
  unfold Stream.fgetc
  rw [hahead]
  rfl

lemma run_ahead (hfile : w.s.file = some f) (hpc : w.s.pc = .read) (hahead : f.ahead ≠ [])
    (n : ℕ) : followStep false n w.d w.s = followStep true n w.d w.s := by
  unfold followStep
  simp only [hpc, hfile, fgetc_ahead hahead]

/-! ### Steps -/

/-- The stream is on the file, whatever its error indicator says. -/
structure Following (ino p : ℕ) (f : Stream) (w : World) : Prop where
  file : w.s.file = some f
  clean : Clean w.d ino (unset f)
  path : w.d.path = some ino
  inode : w.s.lastino = w.s.curino
  begun : p ≤ f.pos
  last : w.s.lastpos ≤ (w.d.data ino).length
  size : w.s.sb.size ≤ (w.d.data ino).length
  pc : w.s.pc = .poll ∨ (w.s.pc = .compare ∧ w.s.lastpos ≤ w.s.sb.size) ∨
    (w.s.pc = .read ∧ w.s.curpos = w.s.sb.size)

lemma Following.fails (h : Following ino p f w) (hpc : w.s.pc = .read) (hahead : f.ahead = [])
    (n : ℕ) : followStep false n w.d w.s =
      { w.s with file := some { f with err := true }, lastpos := w.s.curpos, pc := .poll } := by
  have hget := fgetc_fails hahead w.d n
  have heof : f.eof = false := h.clean.eof
  unfold followStep
  simp [hpc, h.file, hget, heof]

/-- What a read does: it fails, it finds the end of the file, or it gives the next byte, which is
thrown away if the indicator is set. -/
lemma Following.reads (h : Following ino p f w) (hpc : w.s.pc = .read) (ok : Bool) (n : ℕ) :
    ((f.fgetc w.d ok n).1 = none ∧ ok = false ∧ f.ahead = [] ∧ followStep ok n w.d w.s =
        { w.s with file := some { f with err := true }, lastpos := w.s.curpos, pc := .poll }) ∨
      ((f.fgetc w.d ok n).1 = none ∧ f.pos = (w.d.data ino).length ∧ followStep ok n w.d w.s =
        { w.s with file := some (unset f), lastpos := w.s.curpos, pc := .poll }) ∨
      ((f.fgetc w.d ok n).1.isSome ∧ ∃ c f',
        (w.d.data ino).drop f.pos = c :: (w.d.data ino).drop (f.pos + 1) ∧
        f'.pos = f.pos + 1 ∧ f'.err = f.err ∧ Clean w.d ino (unset f') ∧
        followStep ok n w.d w.s =
          if f.err then { w.s with file := some f', lastpos := w.s.curpos, pc := .poll }
          else { w.s with
            file := some f', line := w.s.line.add c, taken := w.s.taken ++ [(ino, c)] }) := by
  have hfile := h.file
  by_cases hfails : ok = false ∧ f.ahead = []
  · obtain ⟨rfl, hahead⟩ := hfails
    exact Or.inl ⟨by rw [fgetc_fails hahead], rfl, hahead, h.fails hpc hahead n⟩
  · have htrue : f.fgetc w.d ok n = f.fgetc w.d true n := by
      cases ok with
      | true => rfl
      | false => exact fgetc_ahead (fun hahead => hfails ⟨rfl, hahead⟩) w.d n
    have hunset := fgetc_unset f w.d n
    obtain ⟨hpos, hget⟩ | ⟨c, g, hdrop, hget, hpos, hclean⟩ := h.clean.fgetc n
    · rw [hget] at hunset
      have hclear := h.clean.clearerr
      refine Or.inr (Or.inl ⟨by rw [htrue, hunset], hpos, ?_⟩)
      unfold followStep
      simp only [hpc, hfile, htrue, hunset]
      exact congrArg (fun g => { w.s with file := some g, lastpos := w.s.curpos, pc := .poll })
        hclear
    · rw [hget] at hunset
      have hgood : unset { g with err := f.err } = g := by
        have hgerr := hclean.err
        cases g
        simp only at hgerr
        rw [hgerr]
        rfl
      have heof := hclean.eof
      have hon := hclean.on
      refine Or.inr (Or.inr ⟨by rw [htrue, hunset]; rfl, c, { g with err := f.err }, hdrop, hpos,
        rfl, by rw [hgood]; exact hclean, ?_⟩)
      unfold followStep
      simp only [hpc, hfile, htrue, hunset]
      rw [if_neg (by rw [heof]; exact Bool.false_ne_true)]
      split
      · rfl
      · rw [hon]
        rfl

/-- What the other calls do. -/
lemma Following.rests (h : Following ino p f w) {ok : Bool} (n : ℕ) (hpc : w.s.pc ≠ .read)
    (hok : Permitted w (.run ok n)) :
    (w.s.pc = .poll ∧ followStep ok n w.d w.s =
        { w.s with sb := ⟨(w.d.data ino).length, ino⟩, pc := .compare }) ∨
      followStep ok n w.d w.s = { w.s with curpos := w.s.sb.size, pc := .read } ∨
      followStep ok n w.d w.s = { w.s with curpos := w.s.sb.size, pc := .poll } := by
  obtain rfl := hok.resolve_right hpc
  rcases h.pc with hpoll | ⟨hcompare, hle⟩ | ⟨hread, -⟩
  · refine Or.inl ⟨hpoll, ?_⟩
    unfold followStep Disk.stat
    simp [hpoll, h.path, h.file, h.inode]
  · refine Or.inr ?_
    rcases Nat.lt_or_ge w.s.lastpos w.s.sb.size with hlt | hge
    · refine Or.inl ?_
      unfold followStep
      simp [hcompare, hlt]
    · refine Or.inr ?_
      unfold followStep
      simp [hcompare, Nat.le_antisymm hle hge]
  · exact absurd hread hpc

/-- The calls that are no reads leave the stream and what has been taken alone. -/
lemma Following.rested (h : Following ino p f w) {ok : Bool} (n : ℕ) (hpc : w.s.pc ≠ .read)
    (hok : Permitted w (.run ok n)) : Following ino p f (step w (.run ok n)) ∧
      (step w (.run ok n)).s.taken = w.s.taken ∧ (step w (.run ok n)).s.start = w.s.start := by
  unfold step
  dsimp only
  obtain ⟨-, hs⟩ | hs | hs := h.rests n hpc hok
  · rw [hs]
    exact ⟨⟨h.file, h.clean, h.path, h.inode, h.begun, h.last, Nat.le_refl _,
      Or.inr (Or.inl ⟨rfl, h.last⟩)⟩, rfl, rfl⟩
  · rw [hs]
    exact ⟨⟨h.file, h.clean, h.path, h.inode, h.begun, h.last, h.size,
      Or.inr (Or.inr ⟨rfl, rfl⟩)⟩, rfl, rfl⟩
  · rw [hs]
    exact ⟨⟨h.file, h.clean, h.path, h.inode, h.begun, h.last, h.size, Or.inl rfl⟩, rfl, rfl⟩

lemma Following.append (h : Following ino p f w) (i : ℕ) (bytes : List UInt8) :
    Following ino p f (step w (.append i bytes)) := by
  have hgrow := length_append_le w i bytes ino
  exact ⟨h.file, h.clean.grow (data_append w i bytes ino), h.path, h.inode, h.begun,
    h.last.trans hgrow, h.size.trans hgrow, h.pc⟩

lemma Following.curpos (h : Following ino p f w) (hpc : w.s.pc = .read) :
    w.s.curpos ≤ (w.d.data ino).length := by
  rcases h.pc with hp | ⟨hp, -⟩ | ⟨-, hcur⟩
  · rw [hp] at hpc
    cases hpc
  · rw [hp] at hpc
    cases hpc
  · exact hcur.le.trans h.size

lemma tracks_following (h : Tracks ino p [] f w) : Following ino p f w := by
  have hunset : unset f = f := by
    have herr := h.clean.err
    cases f
    simp only at herr
    rw [herr]
    rfl
  have hlast := h.last
  have hpos := h.clean.pos
  refine ⟨h.file, by rw [hunset]; exact h.clean, h.path, h.inode, h.begun, hlast.trans hpos,
    h.size, ?_⟩
  exact h.pc.imp_left And.left

/-! ### What becomes of a failure -/

/-- A read has failed, and nothing has been read since. -/
structure Failing (ino p : ℕ) (f : Stream) (w : World) : Prop extends Following ino p f w where
  err : f.err = true
  ahead : f.ahead = []
  taken : w.s.taken = (((w.d.data ino).take f.pos).drop p).map fun c => (ino, c)

/-- Some byte has not been put into the line buffer. -/
def Lost (ino p : ℕ) (w : World) : Prop :=
  ∃ f, Following ino p f w ∧ w.s.taken.length + p < f.pos

/-- No byte has been thrown away. -/
def Intact (ino p : ℕ) (w : World) : Prop :=
  (∃ f, Tracks ino p [] f w) ∨ ∃ f, Failing ino p f w

variable {ok : Bool} {n : ℕ}

/-- The failure of a read. -/
lemma Following.failing (h : Following ino p f w) (hpc : w.s.pc = .read) (hahead : f.ahead = [])
    (htaken : w.s.taken = (((w.d.data ino).take f.pos).drop p).map fun c => (ino, c)) (n : ℕ) :
    Failing ino p { f with err := true } (step w (.run false n)) ∧
      (step w (.run false n)).s.start = w.s.start := by
  unfold step
  dsimp only
  rw [h.fails hpc hahead n]
  exact ⟨⟨⟨rfl, h.clean, h.path, h.inode, h.begun, h.curpos hpc, h.size, Or.inl rfl⟩, rfl, hahead,
    htaken⟩, rfl⟩

lemma tracks_turn (h : Tracks ino p [] f w) (hok : Permitted w (.run ok n)) :
    ¬ Drops w (.run ok n) ∧ Intact ino p (step w (.run ok n)) ∧
      (step w (.run ok n)).s.start = w.s.start := by
  have hno : ¬ Drops w (.run ok n) := by
    rintro ⟨-, f', hf', herr, -⟩
    obtain rfl := Option.some.inj (h.file.symm.trans hf')
    rw [h.clean.err] at herr
    cases herr
  refine ⟨hno, ?_⟩
  have hturn : followStep ok n w.d w.s = followStep true n w.d w.s →
      Intact ino p (step w (.run ok n)) ∧ (step w (.run ok n)).s.start = w.s.start := by
    intro hs
    have hstep : step w (.run ok n) = step w (.run true n) := by
      unfold step
      dsimp only
      rw [hs]
    obtain ⟨f', h', -, hstart, -⟩ := h.turn n
    rw [hstep]
    exact ⟨Or.inl ⟨f', h'⟩, hstart⟩
  cases ok with
  | true => exact hturn rfl
  | false =>
    have hpc : w.s.pc = .read := hok.resolve_left Bool.false_ne_true
    by_cases hahead : f.ahead = []
    · obtain ⟨hfailing, hstart⟩ := (tracks_following h).failing hpc hahead h.taken n
      exact ⟨Or.inr ⟨_, hfailing⟩, hstart⟩
    · exact hturn (run_ahead h.file hpc hahead n)

/-- The byte read next is thrown away. -/
lemma Failing.drops {f' : Stream} (h : Failing ino p f w) (hpc : w.s.pc = .read)
    (hpos : f'.pos = f.pos + 1) (hclean : Clean w.d ino (unset f'))
    (hs : followStep ok n w.d w.s =
      { w.s with file := some f', lastpos := w.s.curpos, pc := .poll }) :
    Lost ino p (step w (.run ok n)) ∧ (step w (.run ok n)).s.start = w.s.start := by
  have hbegun := h.begun
  have hle : f.pos ≤ (w.d.data ino).length := h.clean.pos
  have hlen : w.s.taken.length = f.pos - p := by
    rw [h.taken, List.length_map, List.length_drop, List.length_take, Nat.min_eq_left hle]
  unfold step
  dsimp only
  rw [hs]
  refine ⟨⟨f', ⟨rfl, hclean, h.path, h.inode, ?_, h.curpos hpc, h.size, Or.inl rfl⟩, ?_⟩, rfl⟩
  · omega
  · dsimp only
    omega

lemma failing_turn (h : Failing ino p f w) (hok : Permitted w (.run ok n)) :
    ((¬ Drops w (.run ok n) ∧ Intact ino p (step w (.run ok n))) ∨
      (Drops w (.run ok n) ∧ Lost ino p (step w (.run ok n)))) ∧
      (step w (.run ok n)).s.start = w.s.start := by
  by_cases hpc : w.s.pc = .read
  · have hno : (f.fgetc w.d ok n).1 = none → ¬ Drops w (.run ok n) := by
      rintro hnone ⟨-, f', hf', -, hget⟩
      obtain rfl := Option.some.inj (h.file.symm.trans hf')
      rw [hnone] at hget
      cases hget
    obtain ⟨hnone, rfl, hahead, -⟩ | ⟨hnone, hend, hs⟩ | ⟨hsome, c, f', -, hpos, -, hclean, hs⟩ :=
      h.reads hpc ok n
    · obtain ⟨hfailing, hstart⟩ := h.toFollowing.failing hpc hahead h.taken n
      exact ⟨Or.inl ⟨hno hnone, Or.inr ⟨_, hfailing⟩⟩, hstart⟩
    · -- the end of the file clears the indicator
      have hsize := h.size.trans hend.ge
      have hcur := (h.curpos hpc).trans hend.ge
      unfold step
      dsimp only
      rw [hs]
      exact ⟨Or.inl ⟨hno hnone, Or.inl ⟨unset f, ⟨rfl, h.clean, h.path, h.inode, h.begun, hcur,
        h.size, Or.inl ⟨rfl, hsize⟩, h.taken⟩⟩⟩, rfl⟩
    · rw [if_pos h.err] at hs
      obtain ⟨hlost, hstart⟩ := h.drops hpc hpos hclean hs
      exact ⟨Or.inr ⟨⟨hpc, f, h.file, h.err, hsome⟩, hlost⟩, hstart⟩
  · have hno : ¬ Drops w (.run ok n) := fun hdrops => hpc hdrops.1
    obtain ⟨hfollow, htaken, hstart⟩ := h.rested n hpc hok
    exact ⟨Or.inl ⟨hno, Or.inr ⟨f, hfollow, h.err, h.ahead, htaken.trans h.taken⟩⟩, hstart⟩

lemma lost_turn (h : Lost ino p w) (hok : Permitted w (.run ok n)) :
    Lost ino p (step w (.run ok n)) ∧ (step w (.run ok n)).s.start = w.s.start := by
  obtain ⟨f, h, hlost⟩ := h
  by_cases hpc : w.s.pc = .read
  · have hbegun := h.begun
    have hcur := h.curpos hpc
    unfold step
    dsimp only
    obtain ⟨-, -, -, hs⟩ | ⟨-, -, hs⟩ | ⟨-, c, f', -, hpos, -, hclean, hs⟩ := h.reads hpc ok n
    · rw [hs]
      exact ⟨⟨{ f with err := true }, ⟨rfl, h.clean, h.path, h.inode, hbegun, hcur, h.size,
        Or.inl rfl⟩, hlost⟩, rfl⟩
    · rw [hs]
      exact ⟨⟨unset f, ⟨rfl, h.clean, h.path, h.inode, hbegun, hcur, h.size, Or.inl rfl⟩, hlost⟩,
        rfl⟩
    · rw [hs]
      split
      · exact ⟨⟨f', ⟨rfl, hclean, h.path, h.inode, by omega, hcur, h.size, Or.inl rfl⟩,
          by dsimp only; omega⟩, rfl⟩
      · refine ⟨⟨f', ⟨rfl, hclean, h.path, h.inode, by omega, h.last, h.size, ?_⟩, ?_⟩, rfl⟩
        · exact h.pc
        · rw [List.length_append, List.length_singleton]
          omega
  · obtain ⟨hfollow, htaken, hstart⟩ := h.rested n hpc hok
    exact ⟨⟨f, hfollow, by rw [htaken]; exact hlost⟩, hstart⟩

lemma Failing.append (h : Failing ino p f w) (i : ℕ) (bytes : List UInt8) :
    Failing ino p f (step w (.append i bytes)) := by
  have hpos : f.pos ≤ (w.d.data ino).length := h.clean.pos
  refine ⟨h.toFollowing.append i bytes, h.err, h.ahead, ?_⟩
  rw [data_append, List.take_append_of_le_length hpos]
  exact h.taken

lemma Intact.append (h : Intact ino p w) (i : ℕ) (bytes : List UInt8) :
    Intact ino p (step w (.append i bytes)) :=
  h.imp (fun ⟨f, hf⟩ => ⟨f, hf.append i bytes⟩) fun ⟨f, hf⟩ => ⟨f, hf.append i bytes⟩

lemma Lost.append (h : Lost ino p w) (i : ℕ) (bytes : List UInt8) :
    Lost ino p (step w (.append i bytes)) :=
  h.imp fun _ hf => ⟨hf.1.append i bytes, hf.2⟩

lemma Intact.turn (h : Intact ino p w) (hok : Permitted w (.run ok n)) :
    ((¬ Drops w (.run ok n) ∧ Intact ino p (step w (.run ok n))) ∨
      (Drops w (.run ok n) ∧ Lost ino p (step w (.run ok n)))) ∧
      (step w (.run ok n)).s.start = w.s.start := by
  obtain ⟨f, hf⟩ | ⟨f, hf⟩ := h
  · obtain ⟨hno, hintact, hstart⟩ := tracks_turn hf hok
    exact ⟨Or.inl ⟨hno, hintact⟩, hstart⟩
  · exact failing_turn hf hok

/-! ### Runs -/

variable {es : List Ev}

lemma noDrops_snoc (d : Disk) (es : List Ev) (e : Ev) :
    NoDrops d (es ++ [e]) ↔ NoDrops d es ∧ ¬ Drops (reached d es) e := forall_split_snoc es e

/-- In the loop, nothing has been thrown away, or something is lost. -/
def Course (d : Disk) (ino : ℕ) (es : List Ev) : Prop :=
  (NoDrops d es ∧ Intact ino (reached d es).s.start (reached d es)) ∨
    (¬ NoDrops d es ∧ Lost ino (reached d es).s.start (reached d es))

lemma course_snoc {e : Ev} (h : Course d ino es) (he : Permitted (reached d es) e) :
    Course d ino (es ++ [e]) := by
  have hnext : reached d (es ++ [e]) = step (reached d es) e := run_snoc es e
  unfold Course
  rw [hnext, noDrops_snoc]
  cases e with
  | append i bytes =>
    have hno : ¬ Drops (reached d es) (.append i bytes) := id
    refine h.imp (fun ⟨hall, hintact⟩ => ⟨⟨hall, hno⟩, hintact.append i bytes⟩) ?_
    exact fun ⟨hsome, hlost⟩ => ⟨fun hall => hsome hall.1, hlost.append i bytes⟩
  | run ok n =>
    obtain ⟨hall, hintact⟩ | ⟨hsome, hlost⟩ := h
    · obtain ⟨⟨hno, hintact'⟩ | ⟨hdrops, hlost⟩, hstart⟩ := hintact.turn he
      · rw [hstart]
        exact Or.inl ⟨⟨hall, hno⟩, hintact'⟩
      · rw [hstart]
        exact Or.inr ⟨fun hboth => hboth.2 hdrops, hlost⟩
    · obtain ⟨hlost', hstart⟩ := lost_turn hlost he
      rw [hstart]
      exact Or.inr ⟨fun hall => hsome hall.1, hlost'⟩
  | truncate _ _ => exact he.elim
  | link _ => exact he.elim
  | unlink => exact he.elim

/-- **The run lemma**: up to the loop nothing fails, and in the loop the run takes its course. -/
lemma course_reached (hpath : d.path = some ino) (hes : Errors d es) :
    (¬ InLoop (reached d es).s ∧ Phase ino (d.data ino).length (reached d es) ∧ NoDrops d es) ∨
      (InLoop (reached d es).s ∧ Course d ino es) := by
  induction es using List.reverseRecOn with
  | nil =>
    have hstart : ¬ InLoop (reached d []).s := fun h => h.1 rfl
    exact Or.inl ⟨hstart, .start rfl hpath rfl (Nat.le_refl _),
      fun pre e post h => by simp at h⟩
  | append_singleton es e ih =>
    obtain ⟨hbefore, he⟩ := (forall_split_snoc es e).mp hes
    have hnext : reached d (es ++ [e]) = step (reached d es) e := run_snoc es e
    obtain ⟨hearly, hphase, hnone⟩ | ⟨hloop, hcourse⟩ := ih hbefore
    · have hno : (reached d es).s.pc ≠ .read := by
        intro hpc
        refine hearly ⟨?_, ?_, ?_⟩ <;> rw [hpc] <;> decide
      rw [hnext]
      cases e with
      | append i bytes =>
        have hdrop : ¬ Drops (reached d es) (.append i bytes) := id
        exact Or.inl ⟨hearly, hphase.append i bytes, (noDrops_snoc d es _).mpr ⟨hnone, hdrop⟩⟩
      | run ok n =>
        have hdrop : ¬ Drops (reached d es) (.run ok n) := fun h => hno h.1
        have hall : NoDrops d (es ++ [.run ok n]) := (noDrops_snoc d es _).mpr ⟨hnone, hdrop⟩
        obtain rfl := he.resolve_right hno
        have hturn := hphase.turn n
        by_cases hloop : InLoop (step (reached d es) (.run true n)).s
        · obtain ⟨f, h, -⟩ := hturn.tracks hloop
          refine Or.inr ⟨hloop, Or.inl ⟨hall, ?_⟩⟩
          rw [hnext]
          exact Or.inl ⟨f, h⟩
        · exact Or.inl ⟨hloop, hturn, hall⟩
      | truncate _ _ => exact he.elim
      | link _ => exact he.elim
      | unlink => exact he.elim
    · refine Or.inr ⟨?_, course_snoc hcourse he⟩
      rw [hnext]
      cases e with
      | append i bytes => exact hloop
      | run ok n => exact inLoop_step hloop ok n _
      | truncate _ _ => exact he.elim
      | link _ => exact he.elim
      | unlink => exact he.elim

/-! ### After the failures -/

/-- The indicator is set, and there is something to read. -/
def Stuck (ino p m : ℕ) (w : World) : Prop :=
  (∃ f, Failing ino p f w ∧ f.pos < m ∧ m ≤ (w.d.data ino).length) ∨ Lost ino p w

lemma stuck_run {m : ℕ} (h : Stuck ino w.s.start m w) (hes : ∀ e ∈ es, Grows e) :
    Stuck ino w.s.start m (run step w es) ∧ (run step w es).s.start = w.s.start := by
  refine grows_run (P := fun v => Stuck ino w.s.start m v ∧ v.s.start = w.s.start) ⟨h, rfl⟩ ?_ ?_
    hes
  · rintro v i bytes ⟨hstuck, hstart⟩
    refine ⟨?_, hstart⟩
    obtain ⟨f, hf, hlt, hle⟩ | hlost := hstuck
    · exact Or.inl ⟨f, hf.append i bytes, hlt, hle.trans (length_append_le v i bytes ino)⟩
    · exact Or.inr (hlost.append i bytes)
  · rintro v n ⟨hstuck, hstart⟩
    have hok : Permitted v (.run true n) := Or.inl rfl
    rw [← hstart] at hstuck ⊢
    obtain ⟨f, hf, hlt, hle⟩ | hlost := hstuck
    · by_cases hpc : v.s.pc = .read
      · obtain ⟨-, hfalse, -⟩ | ⟨-, hend, -⟩ | ⟨-, c, f', -, hpos, -, hclean, hs⟩ :=
          hf.reads hpc true n
        · cases hfalse
        · exact absurd (hlt.trans_le hle) (Nat.not_lt.mpr hend.ge)
        · rw [if_pos hf.err] at hs
          obtain ⟨hlost, hstart'⟩ := hf.drops hpc hpos hclean hs
          exact ⟨Or.inr hlost, hstart'⟩
      · obtain ⟨hfollow, htaken, hstart'⟩ := hf.rested n hpc hok
        exact ⟨Or.inl ⟨f, ⟨hfollow, hf.err, hf.ahead, htaken.trans hf.taken⟩, hlt, hle⟩, hstart'⟩
    · obtain ⟨hlost', hstart'⟩ := lost_turn hlost hok
      exact ⟨Or.inr hlost', hstart'⟩

lemma start_run (h : Tracks ino p [] f w) (hes : ∀ e ∈ es, Grows e) :
    (run step w es).s.start = w.s.start := by
  have hboth := grows_run (P := fun v => (∃ f, Tracks ino p [] f v) ∧ v.s.start = w.s.start)
    ⟨⟨f, h⟩, rfl⟩ (fun v i bytes ⟨⟨f, hf⟩, hstart⟩ => ⟨⟨f, hf.append i bytes⟩, hstart⟩)
    (fun v n ⟨⟨f, hf⟩, hstart⟩ => ?_) hes
  · exact hboth.2
  · obtain ⟨f', hf', -, hsame, -⟩ := hf.turn n
    exact ⟨⟨f', hf'⟩, hsame.trans hstart⟩

lemma handsAll_of_tracks {m : ℕ} (h : Tracks ino p [] f w) (hm : m ≤ f.pos)
    (hstart : w.s.start = p) : HandsAll ino m w := by
  have htaken := h.taken
  rw [List.nil_append, ← hstart] at htaken
  refine ⟨?_, ?_⟩
  · rw [h.position]
    exact hm
  · rw [h.position]
    exact htaken

/-- What is stuck is never handed on. -/
lemma Stuck.not_handsAll {m : ℕ} (h : Stuck ino w.s.start m w) : ¬ HandsAll ino m w := by
  rintro ⟨hread, htaken⟩
  obtain ⟨f, hf, hlt, -⟩ | ⟨f, hf, hlost⟩ := h
  · rw [position, hf.file, Option.elim_some] at hread
    exact absurd hlt (Nat.not_lt.mpr hread)
  · have hlen := congrArg List.length htaken
    have hle : f.pos ≤ (w.d.data ino).length := hf.clean.pos
    have hbegun := hf.begun
    rw [position, hf.file, Option.elim_some, List.length_map, List.length_drop, List.length_take]
      at hlen
    omega

/-- After the run `pre` and one append, everything is handed on after finitely many steps without
a failure. -/
def HandsOn (d : Disk) (ino : ℕ) (pre : List Ev) (bytes : List UInt8) : Prop :=
  ∃ k, ∀ post, (∀ e ∈ post, Grows e) → k ≤ turns post →
    HandsAll ino ((reached d (pre ++ [.append ino bytes])).d.data ino).length
      (reached d (pre ++ .append ino bytes :: post))

lemma reached_step (d : Disk) (pre : List Ev) (e : Ev) (post : List Ev) :
    reached d (pre ++ e :: post) = run step (step (reached d pre) e) post := run_append pre _

lemma not_handsOn {pre : List Ev} {bytes : List UInt8}
    (h : Stuck ino (reached d pre).s.start
      ((step (reached d pre) (.append ino bytes)).d.data ino).length
      (step (reached d pre) (.append ino bytes))) : ¬ HandsOn d ino pre bytes := by
  rintro ⟨k, hall⟩
  have hhands := hall _ (runs_grow k) (turns_replicate k).ge
  obtain ⟨hend, hstart⟩ := stuck_run (w := step (reached d pre) (.append ino bytes)) h (runs_grow k)
  rw [reached_step, reached_step, run_nil] at hhands
  rw [← hstart] at hend
  exact hend.not_handsAll hhands

lemma handsOn_of_tracks {pre : List Ev} {bytes : List UInt8}
    (h : Tracks ino (reached d pre).s.start [] f (reached d pre)) : HandsOn d ino pre bytes := by
  have happend := h.append ino bytes
  refine ⟨rank ((step (reached d pre) (.append ino bytes)).d.data ino).length
    (step (reached d pre) (.append ino bytes)).s, fun post hpost hturns => ?_⟩
  obtain ⟨f', h', hle⟩ := taken_eventually happend (Nat.le_refl _) hpost hturns
  rw [reached_step, reached_step, run_nil]
  exact handsAll_of_tracks h' hle (start_run happend hpost)

lemma Failing.stuck {pre : List Ev} {bytes : List UInt8}
    (h : Failing ino p f (reached d pre)) (hbytes : bytes ≠ []) :
    Stuck ino p ((step (reached d pre) (.append ino bytes)).d.data ino).length
      (step (reached d pre) (.append ino bytes)) := by
  have hle : f.pos ≤ ((reached d pre).d.data ino).length := h.clean.pos
  have hlong : 0 < bytes.length := List.length_pos_iff.mpr hbytes
  refine Or.inl ⟨f, h.append ino bytes, ?_, Nat.le_refl _⟩
  rw [data_append, if_pos rfl, List.length_append]
  omega

/-- **Reads that fail**: after them, what is appended is handed on completely and once just when no
byte has been read with the error indicator set, and it is not set when the append comes. -/
theorem errors_lose_nothing_iff (hpath : d.path = some ino) {pre : List Ev} (hpre : Errors d pre)
    (hloop : InLoop (reached d pre).s) {bytes : List UInt8} (hbytes : bytes ≠ []) :
    HandsOn d ino pre bytes ↔ Recovered d pre := by
  obtain ⟨hearly, -⟩ | ⟨-, ⟨hall, ⟨f, h⟩ | ⟨f, h⟩⟩ | ⟨hsome, hlost⟩⟩ := course_reached hpath hpre
  · exact absurd hloop hearly
  · -- nothing is left of the failures
    refine ⟨fun _ => ⟨hall, fun f' hf' => ?_⟩, fun _ => handsOn_of_tracks h⟩
    obtain rfl := Option.some.inj (h.file.symm.trans hf')
    exact h.clean.err
  · refine ⟨fun hhands => absurd hhands (not_handsOn (h.stuck hbytes)), fun hrec => ?_⟩
    have herr := hrec.now f h.file
    rw [h.err] at herr
    cases herr
  · have hnot := not_handsOn (Or.inr (hlost.append ino bytes))
    exact ⟨fun hhands => absurd hhands hnot, fun hrec => absurd hrec.before hsome⟩

/-- A read that fails behind the last byte, and a poll that finds nothing more there. -/
def failsAtEnd : List Ev :=
  [.run true 0, .run true 0, .run true 0, .append 7 [97], .run true 0, .append 7 [98],
    .run true 0, .run true 1, .run true 0, .run false 0, .run true 0, .run true 0, .run true 0]

/-- A read that fails in front of a byte. -/
def failsInside : List Ev :=
  [.run true 0, .run true 0, .run true 0, .append 7 [97], .run true 0, .run true 0, .run false 0]

theorem errors_lose_nothing_run : HandsOn fourBytes 7 failsAtEnd [99, 10] := by
  have hpermitted : ∀ k (hk : k < failsAtEnd.length),
      Permitted (reached fourBytes (failsAtEnd.take k)) failsAtEnd[k] := by decide +kernel
  have hdrops : ∀ k (hk : k < failsAtEnd.length),
      ¬ Drops (reached fourBytes (failsAtEnd.take k)) failsAtEnd[k] := by decide +kernel
  have hloop : InLoop (reached fourBytes failsAtEnd).s := by
    refine ⟨?_, ?_, ?_⟩ <;> decide +kernel
  have herr : (reached fourBytes failsAtEnd).s.file.map (fun f => f.err) = some false := by
    decide +kernel
  refine (errors_lose_nothing_iff rfl (forall_split_of_take hpermitted) hloop (by decide)).mpr
    ⟨forall_split_of_take hdrops, fun f hf => ?_⟩
  rw [hf] at herr
  exact Option.some.inj herr

/-- The byte in front of which the read failed is lost. -/
theorem errors_lose : ¬ HandsOn fourBytes 7 failsInside [98, 10] := by
  have h : Failing 7 4 ⟨7, 4, [], false, true⟩ (reached fourBytes failsInside) :=
    ⟨⟨rfl, ⟨rfl, rfl, rfl, List.nil_prefix, by decide +kernel⟩, rfl, rfl, Nat.le_refl _,
      by decide +kernel, by decide +kernel, Or.inl rfl⟩, rfl, rfl, rfl⟩
  exact not_handsOn (h.stuck (List.cons_ne_nil _ _))

end Agentsmith.FollowErrors
