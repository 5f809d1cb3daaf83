import Mathlib.Data.List.Infix
import Agentsmith.Follow

/-!
Following one file, as long as `fname` names it, it only grows, and no call fails.

From the state after an open on, the bytes put into the line buffer are those of the file up
to the position of the stream. The remembered position never passes the real one, so a poll
that finds something new reads to the end, and one that finds nothing new has nothing to read.
-/

namespace Agentsmith.FollowFile

open Agentsmith.Lib.Runs Agentsmith.Follow

/-- Files grow, and `follow` takes its steps without a failure. -/
def Grows : Ev → Prop
  | .append _ _ => True
  | .run ok _ => ok = true
  | _ => False

/-- The position of the stream. -/
def position (s : St) : ℕ := s.file.elim 0 fun f => f.pos

/-- A stream on the file, without an error, that has read ahead what stands there. -/
structure Clean (d : Disk) (ino : ℕ) (f : Stream) : Prop where
  on : f.ino = ino
  eof : f.eof = false
  err : f.err = false
  ahead : f.ahead <+: (d.data ino).drop f.pos
  pos : f.pos ≤ (d.data ino).length

/-- **The stream follows the file**: since the log of bytes was `base`, it has taken what
stands between `p` and its position. -/
structure Tracks (ino p : ℕ) (base : List (ℕ × UInt8)) (f : Stream) (w : World) : Prop where
  file : w.s.file = some f
  clean : Clean w.d ino f
  path : w.d.path = some ino
  inode : w.s.lastino = w.s.curino
  begun : p ≤ f.pos
  last : w.s.lastpos ≤ f.pos
  size : w.s.sb.size ≤ (w.d.data ino).length
  pc : (w.s.pc = .poll ∧ w.s.sb.size ≤ f.pos) ∨
    (w.s.pc = .compare ∧ w.s.lastpos ≤ w.s.sb.size) ∨ (w.s.pc = .read ∧ w.s.curpos = w.s.sb.size)
  taken : w.s.taken = base ++ (((w.d.data ino).take f.pos).drop p).map fun c => (ino, c)

variable {ino p : ℕ} {base : List (ℕ × UInt8)} {f : Stream} {w : World} {d : Disk}

/-! ### Streams -/

lemma Clean.grow (h : Clean d ino f) {bytes : List UInt8} {d' : Disk}
    (hd : d'.data ino = d.data ino ++ bytes) : Clean d' ino f where
  on := h.on
  eof := h.eof
  err := h.err
  ahead := by
    rw [hd, List.drop_append_of_le_length h.pos]
    exact h.ahead.trans (List.prefix_append _ _)
  pos := by
    rw [hd, List.length_append]
    exact Nat.le_add_right_of_le h.pos

lemma Clean.clearerr (h : Clean d ino f) : ({ f with eof := true } : Stream).clearerr = f := by
  obtain ⟨-, heof, herr, -, -⟩ := h
  cases f
  simp only at heof herr
  rw [heof, herr]
  rfl

/-- What `fgetc` returns: the byte at the position, or nothing at the end of the file. -/
lemma Clean.fgetc (h : Clean d ino f) (n : ℕ) :
    (f.pos = (d.data ino).length ∧ f.fgetc d true n = (none, { f with eof := true })) ∨
      ∃ c f', (d.data ino).drop f.pos = c :: (d.data ino).drop (f.pos + 1) ∧
        f.fgetc d true n = (some c, f') ∧ f'.pos = f.pos + 1 ∧ Clean d ino f' := by
  have hnext : ∀ c rest, (d.data ino).drop f.pos = c :: rest →
      (d.data ino).drop (f.pos + 1) = rest ∧ f.pos + 1 ≤ (d.data ino).length := by
    intro c rest hdrop
    have hlt : f.pos < (d.data ino).length := by
      by_contra hge
      rw [List.drop_of_length_le (by omega)] at hdrop
      cases hdrop
    rw [List.drop_eq_getElem_cons hlt] at hdrop
    exact ⟨(List.cons.inj hdrop).2, hlt⟩
  have hahead := h.ahead
  obtain rfl := h.on
  unfold Stream.fgetc
  rcases ha : f.ahead with _ | ⟨c, ahead⟩
  · dsimp only
    rcases hr : ((d.data f.ino).drop f.pos).take (n + 1) with _ | ⟨c, ahead⟩
    · -- nothing behind the position
      refine Or.inl ⟨?_, rfl⟩
      have hnil : (d.data f.ino).drop f.pos = [] := by simpa using hr
      have := List.drop_eq_nil_iff.mp hnil
      have := h.pos
      omega
    · refine Or.inr ⟨c, { f with pos := f.pos + 1, ahead := ahead }, ?_⟩
      rcases hdrop : (d.data f.ino).drop f.pos with _ | ⟨c', rest⟩
      · rw [hdrop] at hr
        cases hr
      · rw [hdrop, List.take_succ_cons] at hr
        obtain ⟨rfl, rfl⟩ := List.cons.inj hr
        obtain ⟨hrest, hle⟩ := hnext c' rest hdrop
        rw [hrest]
        refine ⟨rfl, rfl, rfl, rfl, h.eof, h.err, ?_, hle⟩
        rw [hrest]
        exact List.take_prefix n rest
  · -- a byte read ahead
    rw [ha] at hahead
    obtain ⟨rest, hrest⟩ := hahead
    rw [List.cons_append] at hrest
    obtain ⟨hdrop, hle⟩ := hnext c (ahead ++ rest) hrest.symm
    refine Or.inr ⟨c, { f with pos := f.pos + 1, ahead := ahead }, ?_, rfl, rfl, rfl, h.eof,
      h.err, ?_, hle⟩
    · rw [hdrop, hrest]
    · rw [hdrop]
      exact List.prefix_append _ _

/-! ### Steps -/

/-- What a step of `follow` does. -/
lemma Tracks.cases (h : Tracks ino p base f w) (n : ℕ) :
    (w.s.pc = .poll ∧ followStep true n w.d w.s =
        { w.s with sb := ⟨(w.d.data ino).length, ino⟩, pc := .compare }) ∨
      (w.s.pc = .compare ∧ w.s.lastpos < w.s.sb.size ∧
        followStep true n w.d w.s = { w.s with curpos := w.s.sb.size, pc := .read }) ∨
      (w.s.pc = .compare ∧ w.s.lastpos = w.s.sb.size ∧
        followStep true n w.d w.s = { w.s with curpos := w.s.sb.size, pc := .poll }) ∨
      (w.s.pc = .read ∧ f.pos = (w.d.data ino).length ∧
        followStep true n w.d w.s = { w.s with lastpos := w.s.curpos, pc := .poll }) ∨
      (w.s.pc = .read ∧ ∃ c f',
        (w.d.data ino).drop f.pos = c :: (w.d.data ino).drop (f.pos + 1) ∧
        f'.pos = f.pos + 1 ∧ Clean w.d ino f' ∧ followStep true n w.d w.s =
          { w.s with
            file := some f', line := w.s.line.add c, taken := w.s.taken ++ [(ino, c)] }) := by
  rcases h.pc with ⟨hpc, -⟩ | ⟨hpc, hle⟩ | ⟨hpc, -⟩
  · refine Or.inl ⟨hpc, ?_⟩
    unfold followStep Disk.stat
    simp [hpc, h.path, h.file, h.inode]
  · rcases Nat.lt_or_ge w.s.lastpos w.s.sb.size with hlt | hge
    · refine Or.inr (Or.inl ⟨hpc, hlt, ?_⟩)
      unfold followStep
      simp [hpc, hlt]
    · have heq : w.s.lastpos = w.s.sb.size := by omega
      refine Or.inr (Or.inr (Or.inl ⟨hpc, heq, ?_⟩))
      unfold followStep
      simp [hpc, heq]
  · obtain ⟨hpos, hget⟩ | ⟨c, f', hdrop, hget, hpos, hclean⟩ := h.clean.fgetc n
    · refine Or.inr (Or.inr (Or.inr (Or.inl ⟨hpc, hpos, ?_⟩)))
      unfold followStep
      simp [hpc, h.file, hget, h.clean.clearerr]
    · refine Or.inr (Or.inr (Or.inr (Or.inr ⟨hpc, c, f', hdrop, hpos, hclean, ?_⟩)))
      unfold followStep
      simp [hpc, h.file, hget, hclean.eof, hclean.err, hclean.on]

/-- A byte more, and the position behind it. -/
lemma taken_snoc {data : List UInt8} {c : UInt8} {pos : ℕ} (hp : p ≤ pos)
    (hdrop : data.drop pos = c :: data.drop (pos + 1)) :
    ((data.take (pos + 1)).drop p).map (fun c => (ino, c)) =
      ((data.take pos).drop p).map (fun c => (ino, c)) ++ [(ino, c)] := by
  have hlt : pos < data.length := by
    by_contra hge
    rw [List.drop_of_length_le (by omega)] at hdrop
    cases hdrop
  have hc : data[pos] = c := by
    rw [List.drop_eq_getElem_cons hlt] at hdrop
    exact (List.cons.inj hdrop).1
  have hp' : p ≤ (data.take pos).length := by
    rw [List.length_take]
    omega
  rw [List.take_succ_eq_append_getElem hlt, hc, List.drop_append_of_le_length hp', List.map_append,
    List.map_singleton]

/-- How many steps there are, at most, before the bytes up to `m` are taken. -/
def rank (m : ℕ) (s : St) : ℕ :=
  m - position s + match s.pc with
    | .read => 0
    | .compare => if s.lastpos < s.sb.size then 1 else 3
    | _ => 2

lemma Tracks.position (h : Tracks ino p base f w) : position w.s = f.pos := by
  rw [FollowFile.position, h.file, Option.elim_some]

lemma Tracks.curpos (h : Tracks ino p base f w) (hpc : w.s.pc = .read) :
    w.s.curpos = w.s.sb.size := by
  rcases h.pc with ⟨hp, -⟩ | ⟨hp, -⟩ | ⟨-, hcur⟩
  · rw [hp] at hpc
    cases hpc
  · rw [hp] at hpc
    cases hpc
  · exact hcur

/-- **One step of `follow`** goes on following, and comes nearer to every byte there is. -/
lemma Tracks.turn (h : Tracks ino p base f w) (n : ℕ) :
    ∃ f', Tracks ino p base f' (step w (.run true n)) ∧ f.pos ≤ f'.pos ∧
      (step w (.run true n)).s.start = w.s.start ∧
      ∀ m, f.pos < m → m ≤ (w.d.data ino).length →
        rank m (step w (.run true n)).s < rank m w.s := by
  have hpos := h.clean.pos
  have hlast := h.last
  have hrank : ∀ m, rank m w.s = m - f.pos + match w.s.pc with
      | .read => 0
      | .compare => if w.s.lastpos < w.s.sb.size then 1 else 3
      | _ => 2 := by
    intro m
    rw [rank, h.position]
  unfold step
  dsimp only
  obtain ⟨hpc, hs⟩ | ⟨hpc, hlt, hs⟩ | ⟨hpc, heq, hs⟩ | ⟨hpc, hend, hs⟩ |
    ⟨hpc, c, f', hdrop, hpos', hclean, hs⟩ := h.cases n
  · -- `stat`: a size that the position may have passed, or not yet
    rw [hs]
    refine ⟨f, ⟨h.file, h.clean, h.path, h.inode, h.begun, hlast, Nat.le_refl _,
      Or.inr (Or.inl ⟨rfl, hlast.trans hpos⟩), h.taken⟩, Nat.le_refl _, rfl, ?_⟩
    intro m hm hle
    rw [hrank, hpc, rank]
    dsimp only
    rw [FollowFile.position, h.file, Option.elim_some, if_pos (by omega)]
    omega
  · rw [hs]
    refine ⟨f, ⟨h.file, h.clean, h.path, h.inode, h.begun, hlast, h.size,
      Or.inr (Or.inr ⟨rfl, rfl⟩), h.taken⟩, Nat.le_refl _, rfl, ?_⟩
    intro m hm hle
    rw [hrank, hpc, rank]
    dsimp only
    rw [FollowFile.position, h.file, Option.elim_some, if_pos hlt]
    omega
  · rw [hs]
    refine ⟨f, ⟨h.file, h.clean, h.path, h.inode, h.begun, hlast, h.size,
      Or.inl ⟨rfl, by simp only; omega⟩, h.taken⟩, Nat.le_refl _, rfl, ?_⟩
    intro m hm hle
    rw [hrank, hpc, rank]
    dsimp only
    rw [FollowFile.position, h.file, Option.elim_some, if_neg (by omega)]
    omega
  · -- the end of the file
    have hcur := h.curpos hpc
    have hsize := h.size
    rw [hs]
    refine ⟨f, ⟨h.file, h.clean, h.path, h.inode, h.begun, by simp only; omega, hsize,
      Or.inl ⟨rfl, by simp only; omega⟩, h.taken⟩, Nat.le_refl _, rfl, ?_⟩
    intro m hm hle
    omega
  · -- a byte
    have hcur := h.curpos hpc
    have hbegun := h.begun
    rw [hs]
    refine ⟨f', ⟨rfl, hclean, h.path, h.inode, by omega, by simp only; omega, h.size,
      Or.inr (Or.inr ⟨hpc, hcur⟩), ?_⟩, by omega, rfl, ?_⟩
    · simp only
      rw [hpos', taken_snoc hbegun hdrop, h.taken, List.append_assoc]
    · intro m hm hle
      rw [hrank, hpc, rank]
      dsimp only
      rw [FollowFile.position, Option.elim_some, hpc]
      dsimp only
      omega

lemma data_append (w : World) (i : ℕ) (bytes : List UInt8) (ino : ℕ) :
    (step w (.append i bytes)).d.data ino =
      w.d.data ino ++ if i = ino then bytes else [] := by
  show Function.update w.d.data i (w.d.data i ++ bytes) ino = _
  by_cases hi : i = ino
  · subst hi
    rw [Function.update_self, if_pos rfl]
  · rw [Function.update_of_ne (Ne.symm hi), if_neg hi, List.append_nil]

/-- No file gets shorter by an append. -/
lemma length_append_le (w : World) (i : ℕ) (bytes : List UInt8) (ino : ℕ) :
    (w.d.data ino).length ≤ ((step w (.append i bytes)).d.data ino).length := by
  rw [data_append, List.length_append]
  exact Nat.le_add_right _ _

lemma Tracks.append (h : Tracks ino p base f w) (i : ℕ) (bytes : List UInt8) :
    Tracks ino p base f (step w (.append i bytes)) := by
  refine ⟨h.file, h.clean.grow (data_append w i bytes ino), h.path, h.inode, h.begun, h.last, ?_,
    h.pc, ?_⟩
  · exact h.size.trans (length_append_le w i bytes ino)
  · rw [data_append, List.take_append_of_le_length h.clean.pos]
    exact h.taken

/-! ### Runs -/

lemma reached_append (d : Disk) (pre es : List Ev) :
    reached d (pre ++ es) = run step (reached d pre) es := run_append pre es

/-- What permitted appends and the steps of `follow` keep, a run of them keeps. -/
lemma grows_run_of {P : World → Prop} {Q : Ev → Prop} (h : P w)
    (happend : ∀ w i bytes, Q (.append i bytes) → P w → P (step w (.append i bytes)))
    (hturn : ∀ w n, P w → P (step w (.run true n))) {es : List Ev}
    (hes : ∀ e ∈ es, Grows e ∧ Q e) : P (run step w es) := by
  refine run_inv h (fun w e h ⟨he, hq⟩ => ?_) hes
  cases e with
  | append i bytes => exact happend w i bytes hq h
  | run ok n =>
    obtain rfl := he
    exact hturn w n h
  | truncate _ _ => exact he.elim
  | link _ => exact he.elim
  | unlink => exact he.elim

lemma grows_run {P : World → Prop} (h : P w)
    (happend : ∀ w i bytes, P w → P (step w (.append i bytes)))
    (hturn : ∀ w n, P w → P (step w (.run true n))) {es : List Ev} (hes : ∀ e ∈ es, Grows e) :
    P (run step w es) :=
  grows_run_of (Q := fun _ => True) h (fun w i bytes _ => happend w i bytes) hturn
    fun e he => ⟨hes e he, trivial⟩

lemma data_grows (w : World) (ino : ℕ) {es : List Ev} (hes : ∀ e ∈ es, Grows e) :
    w.d.data ino <+: (run step w es).d.data ino := by
  refine grows_run (P := fun v => w.d.data ino <+: v.d.data ino) (List.prefix_refl _)
    (fun v i bytes hv => hv.trans ?_) (fun _ _ hv => hv) hes
  rw [data_append]
  exact List.prefix_append _ _

/-- **The run lemma**: the stream goes on following, and its position does not go back. -/
theorem tracks_run (h : Tracks ino p base f w) {es : List Ev} (hes : ∀ e ∈ es, Grows e) :
    ∃ f', Tracks ino p base f' (run step w es) ∧ f.pos ≤ f'.pos := by
  refine grows_run (P := fun v => ∃ f', Tracks ino p base f' v ∧ f.pos ≤ f'.pos)
    ⟨f, h, Nat.le_refl _⟩ ?_ ?_ hes
  · rintro v i bytes ⟨f', h', hle⟩
    exact ⟨f', h'.append i bytes, hle⟩
  · rintro v n ⟨f', h', hle⟩
    obtain ⟨f'', h'', hle', -⟩ := h'.turn n
    exact ⟨f'', h'', hle.trans hle'⟩

def isTurn : Ev → Bool
  | .run _ _ => true
  | _ => false

/-- How many steps of `follow` there are in a run. -/
def turns (es : List Ev) : ℕ := es.countP isTurn

lemma turns_replicate (k : ℕ) : turns (List.replicate k (.run true 0)) = k := by
  simp [turns, List.countP_replicate, isTurn]

lemma runs_grow (k : ℕ) : ∀ e ∈ List.replicate k (Ev.run true 0), Grows e := by
  intro e he
  rw [List.eq_of_mem_replicate he]
  rfl

lemma grows_one {e : Ev} (he : Grows e) : ∀ x ∈ [e], Grows x := by
  intro x hx
  rw [List.mem_singleton.mp hx]
  exact he

/-- A goal that turns of `follow` come nearer to is reached after finitely many of them,
however they are interleaved with appends. -/
lemma grows_variant {P G : World → Prop} {m : World → ℕ}
    (hP : ∀ w e, P w → Grows e → P (step w e)) (hG : ∀ w e, P w → Grows e → G w → G (step w e))
    (happend : ∀ w i bytes, P w → m (step w (.append i bytes)) ≤ m w)
    (hturn : ∀ w n, P w → ¬ G w → m (step w (.run true n)) < m w)
    (hzero : ∀ w, P w → m w = 0 → G w) (h : P w) {es : List Ev} (hes : ∀ e ∈ es, Grows e)
    (hturns : m w ≤ turns es) : G (run step w es) := by
  refine run_variant (P := P) hP hG (fun w e h he hgoal => ?_) hzero h hes hturns
  cases e with
  | append i bytes => exact happend w i bytes h
  | run ok n =>
    obtain rfl := he
    exact hturn w n h hgoal
  | truncate _ _ => exact he.elim
  | link _ => exact he.elim
  | unlink => exact he.elim

/-- **Every byte is taken after finitely many steps.** -/
theorem taken_eventually {m : ℕ} (h : Tracks ino p base f w) (hm : m ≤ (w.d.data ino).length)
    {es : List Ev} (hes : ∀ e ∈ es, Grows e) (hturns : rank m w.s ≤ turns es) :
    ∃ f', Tracks ino p base f' (run step w es) ∧ m ≤ f'.pos := by
  have hgoal := grows_variant
    (P := fun v => (∃ f, Tracks ino p base f v) ∧ m ≤ (v.d.data ino).length)
    (G := fun v => m ≤ position v.s) (m := fun v => rank m v.s) ?_ ?_ ?_ ?_ ?_ ⟨⟨f, h⟩, hm⟩ hes
    hturns
  · obtain ⟨f', h', -⟩ := tracks_run h hes
    exact ⟨f', h', by rw [← h'.position]; exact hgoal⟩
  · rintro v e ⟨⟨f, h⟩, hm⟩ he
    obtain ⟨f', h', -⟩ := tracks_run h (grows_one he)
    exact ⟨⟨f', h'⟩, hm.trans (data_grows v ino (grows_one he)).length_le⟩
  · -- the position does not go back
    rintro v e ⟨⟨f, h⟩, -⟩ he hpos
    obtain ⟨f', h', hle⟩ := tracks_run h (grows_one he)
    have hnow : position (step v e).s = f'.pos := h'.position
    rw [h.position] at hpos
    omega
  · intro v i bytes _
    exact Nat.le_refl _
  · rintro v n ⟨⟨f, h⟩, hm⟩ hpos
    obtain ⟨f', -, -, -, hrank⟩ := h.turn n
    rw [h.position] at hpos
    exact hrank m (by omega) hm
  · intro v _ hzero
    unfold rank at hzero
    omega

/-- At the end of the file `readtoeof` returns. -/
lemma Clean.ends {s : St} (h : Clean d ino f) (hend : f.pos = (d.data ino).length)
    (hfile : s.file = some f) (hpc : s.pc = .read) (n : ℕ) :
    (followStep true n d s).pc = .poll := by
  obtain ⟨-, hget⟩ | ⟨c, f', hdrop, -⟩ := h.fgetc n
  · unfold followStep
    simp [hpc, hfile, hget]
  · rw [List.drop_of_length_le (by omega)] at hdrop
    cases hdrop

/-- With everything read, the poll comes to its end. -/
lemma Tracks.settle (h : Tracks ino p base f w) (hend : f.pos = (w.d.data ino).length) :
    ∃ k, (run step w (List.replicate k (.run true 0))).s.pc = .poll := by
  obtain ⟨hpc, -⟩ | ⟨-, -, hs⟩ | ⟨-, -, hs⟩ | ⟨-, -, hs⟩ | ⟨-, c, f', hdrop, -⟩ := h.cases 0
  · exact ⟨0, hpc⟩
  · refine ⟨2, ?_⟩
    rw [List.replicate_succ, List.replicate_one, run_cons, run_cons, run_nil, step_run_s,
      step_run_s, step_run_d, hs]
    exact h.clean.ends (s := { w.s with curpos := w.s.sb.size, pc := .read }) hend h.file rfl 0
  · refine ⟨1, ?_⟩
    rw [List.replicate_one, run_cons, run_nil, step_run_s, hs]
  · refine ⟨1, ?_⟩
    rw [List.replicate_one, run_cons, run_nil, step_run_s, hs]
  · rw [List.drop_of_length_le (by omega)] at hdrop
    cases hdrop

end Agentsmith.FollowFile
