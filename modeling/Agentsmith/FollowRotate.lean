import Agentsmith.FollowFile

/-!
A log file that is rotated, and when the new one is read.

The loop compares two remembered inodes, and both come from the `stat` before the loop: a new
inode is never noticed. What is noticed is a file shorter than the position remembered. So
the new file is read from its first byte if the poll finds it shorter than that, and not at
all otherwise.
-/

namespace Agentsmith.FollowRotate

open Agentsmith.Lib.Runs Agentsmith.Follow Agentsmith.FollowFile

variable {d : Disk} {ino : ℕ} {base : List (ℕ × UInt8)} {w v : World} {es : List Ev}

/-- The bytes of the file put into the line buffer since the world `w`. -/
def since (ino : ℕ) (w v : World) : List UInt8 :=
  ((v.s.taken.drop w.s.taken.length).filter fun b => b.1 = ino).map Prod.snd

/-- What has been read of the file since `w` are its first bytes, and however things go on,
all that it holds has been read after finitely many steps. -/
structure ReadsAll (ino : ℕ) (w v : World) : Prop where
  first : since ino w v <+: v.d.data ino
  all : ∃ k, ∀ es, (∀ e ∈ es, Grows e) → k ≤ turns es →
    v.d.data ino <+: since ino w (run step v es)

/-- From the poll that begins in `w` on, the file is read from its first byte. -/
def LosesNothing (ino : ℕ) (w : World) : Prop :=
  ∀ n es, (∀ e ∈ es, Grows e) → ReadsAll ino w (run step w (.run true n :: es))

/-- The inode remembered is the one of the start, in every state. -/
lemma inode_reached (d : Disk) (es : List Ev) :
    (reached d es).s.lastino = (reached d es).s.curino := by
  refine run_all (P := fun w : World => w.s.lastino = w.s.curino) rfl (fun w e h => ?_) es
  cases e with
  | run ok n =>
    rw [step_run_s]
    unfold followStep
    dsimp only
    repeat' split
    all_goals first
      | exact h
      | rfl
  | append _ _ => exact h
  | truncate _ _ => exact h
  | link _ => exact h
  | unlink => exact h

/-! ### A shorter file -/

/-- The new file was found to be shorter: the comparison, the opening, and the reading. -/
inductive Rotating (ino : ℕ) (base : List (ℕ × UInt8)) (w : World) : Prop
  | compare (hpc : w.s.pc = .compare) (path : w.d.path = some ino)
      (inode : w.s.lastino = w.s.curino) (taken : w.s.taken = base)
      (hlt : w.s.sb.size < w.s.lastpos) (hle : w.s.sb.size ≤ (w.d.data ino).length)
  | shrunk (hpc : w.s.pc = .shrunk) (path : w.d.path = some ino)
      (inode : w.s.lastino = w.s.curino) (taken : w.s.taken = base)
      (hcur : w.s.curpos = w.s.sb.size) (hle : w.s.sb.size ≤ (w.d.data ino).length)
  | reading (f : Stream) (h : Tracks ino 0 base f w)

/-- How many steps there are, at most, before the bytes up to `m` are taken. -/
def delay (m : ℕ) (s : St) : ℕ :=
  match s.pc with
  | .compare => if s.sb.size < s.lastpos then m + 2 else rank m s
  | .shrunk => m + 1
  | _ => rank m s

lemma Rotating.append (h : Rotating ino base w) (i : ℕ) (bytes : List UInt8) :
    Rotating ino base (step w (.append i bytes)) := by
  have hgrow := length_append_le w i bytes ino
  cases h with
  | compare hpc path inode taken hlt hle =>
    exact .compare hpc path inode taken hlt (hle.trans hgrow)
  | shrunk hpc path inode taken hcur hle =>
    exact .shrunk hpc path inode taken hcur (hle.trans hgrow)
  | reading f h => exact .reading f (h.append i bytes)

lemma compare_turn (hpc : w.s.pc = .compare) (hlt : w.s.sb.size < w.s.lastpos) (n : ℕ) :
    (step w (.run true n)).s = { w.s with curpos := w.s.sb.size, pc := .shrunk } := by
  rw [step_run_s]
  unfold followStep
  simp [hpc, hlt, Nat.lt_asymm hlt]

/-- The new stream stands at the first byte. -/
lemma shrunk_turn (hpc : w.s.pc = .shrunk) (path : w.d.path = some ino)
    (inode : w.s.lastino = w.s.curino) (taken : w.s.taken = base)
    (hcur : w.s.curpos = w.s.sb.size) (hle : w.s.sb.size ≤ (w.d.data ino).length) (n : ℕ) :
    Tracks ino 0 base ⟨ino, 0, [], false, false⟩ (step w (.run true n)) ∧
      (step w (.run true n)).s.pc = .read := by
  have hs : (step w (.run true n)).s =
      { w.s with file := some ⟨ino, 0, [], false, false⟩, lastpos := 0, pc := .read } := by
    rw [step_run_s]
    unfold followStep Disk.freopen Disk.fopen
    simp [hpc, path]
  refine ⟨⟨by rw [hs], ⟨rfl, rfl, rfl, List.nil_prefix, Nat.zero_le _⟩, path, ?_, Nat.le_refl _,
    ?_, ?_, ?_, ?_⟩, by rw [hs]⟩
  all_goals rw [hs]
  · exact inode
  · exact hle
  · exact Or.inr (Or.inr ⟨rfl, hcur⟩)
  · simpa using taken

lemma Rotating.turn (h : Rotating ino base w) (n : ℕ) :
    Rotating ino base (step w (.run true n)) := by
  cases h with
  | compare hpc path inode taken hlt hle =>
    have hs := compare_turn hpc hlt n
    exact .shrunk (by rw [hs]) path (by rw [hs]; exact inode) (by rw [hs]; exact taken)
      (by rw [hs]) (by rw [hs]; exact hle)
  | shrunk hpc path inode taken hcur hle =>
    exact .reading _ (shrunk_turn hpc path inode taken hcur hle n).1
  | reading f h =>
    obtain ⟨f', h', -⟩ := h.turn n
    exact .reading f' h'

lemma rotating_run (h : Rotating ino base w) (hes : ∀ e ∈ es, Grows e) :
    Rotating ino base (run step w es) :=
  grows_run h (fun _ i bytes h => h.append i bytes) (fun _ n h => h.turn n) hes

/-- While the file is read, the delay is the one of the file alone. -/
lemma delay_reading {f : Stream} (h : Tracks ino 0 base f w) (m : ℕ) :
    delay m w.s = rank m w.s := by
  unfold delay
  rcases h.pc with ⟨hpc, -⟩ | ⟨hpc, hle⟩ | ⟨hpc, -⟩
  · rw [hpc]
  · rw [hpc]
    exact if_neg (by omega)
  · rw [hpc]

/-- **The new file is read** up to every byte it holds. -/
lemma rotating_eventually {m : ℕ} (h : Rotating ino base w) (hm : m ≤ (w.d.data ino).length)
    (hes : ∀ e ∈ es, Grows e) (hturns : delay m w.s ≤ turns es) :
    ∃ f, Tracks ino 0 base f (run step w es) ∧ m ≤ f.pos := by
  refine grows_variant
    (P := fun v => Rotating ino base v ∧ m ≤ (v.d.data ino).length)
    (G := fun v => ∃ f, Tracks ino 0 base f v ∧ m ≤ f.pos) (m := fun v => delay m v.s)
    ?_ ?_ ?_ ?_ ?_ ⟨h, hm⟩ hes hturns
  · rintro v e ⟨h, hm⟩ he
    exact ⟨rotating_run h (grows_one he), hm.trans (data_grows v ino (grows_one he)).length_le⟩
  · rintro v e - he ⟨f, h, hle⟩
    obtain ⟨f', h', hle'⟩ := tracks_run h (grows_one he)
    exact ⟨f', h', hle.trans hle'⟩
  · intro v i bytes _
    exact Nat.le_refl _
  · rintro v n ⟨h, hm⟩ hgoal
    cases h with
    | compare hpc path inode taken hlt hle =>
      have hnow : delay m v.s = m + 2 := by simp [delay, hpc, hlt]
      have hnext : delay m (step v (.run true n)).s = m + 1 := by
        rw [compare_turn hpc hlt n, delay]
      omega
    | shrunk hpc path inode taken hcur hle =>
      obtain ⟨h', hpc'⟩ := shrunk_turn hpc path inode taken hcur hle n
      have hnow : delay m v.s = m + 1 := by simp [delay, hpc]
      rw [hnow, delay_reading h', rank, h'.position, hpc']
      exact Nat.lt_succ_self m
    | reading f h =>
      obtain ⟨f', h', -, -, hrank⟩ := h.turn n
      rw [delay_reading h', delay_reading h]
      exact hrank m (Nat.not_le.mp fun hle => hgoal ⟨f, h, hle⟩) hm
  · rintro v ⟨h, -⟩ hzero
    cases h with
    | compare hpc _ _ _ hlt _ => simp [delay, hpc, hlt] at hzero
    | shrunk hpc _ _ _ _ _ => simp [delay, hpc] at hzero
    | reading f h =>
      rw [delay_reading h, rank, h.position] at hzero
      exact ⟨f, h, by omega⟩

/-! ### A file that is not shorter -/

/-- The stream stays on another file than `fname` names. -/
structure Misses (ino : ℕ) (base : List (ℕ × UInt8)) (w : World) : Prop where
  file : ∃ f, w.s.file = some f ∧ f.ino ≠ ino
  path : w.d.path = some ino
  inode : w.s.lastino = w.s.curino
  last : w.s.lastpos ≤ (w.d.data ino).length
  pc : w.s.pc = .poll ∨
    (w.s.pc = .compare ∧ w.s.lastpos ≤ w.s.sb.size ∧ w.s.sb.size ≤ (w.d.data ino).length) ∨
    (w.s.pc = .read ∧ w.s.curpos ≤ (w.d.data ino).length)
  taken : ∃ t, w.s.taken = base ++ t ∧ ∀ b ∈ t, b.1 ≠ ino

lemma fgetc_ino (f : Stream) (d : Disk) (ok : Bool) (n : ℕ) : (f.fgetc d ok n).2.ino = f.ino := by
  unfold Stream.fgetc
  repeat' split
  all_goals rfl

lemma Misses.append (h : Misses ino base w) (i : ℕ) (bytes : List UInt8) :
    Misses ino base (step w (.append i bytes)) := by
  have hgrow := length_append_le w i bytes ino
  refine ⟨h.file, h.path, h.inode, h.last.trans hgrow, ?_, h.taken⟩
  rcases h.pc with hpc | ⟨hpc, hlast, hle⟩ | ⟨hpc, hle⟩
  · exact Or.inl hpc
  · exact Or.inr (Or.inl ⟨hpc, hlast, hle.trans hgrow⟩)
  · exact Or.inr (Or.inr ⟨hpc, hle.trans hgrow⟩)

lemma Misses.turn (h : Misses ino base w) (n : ℕ) : Misses ino base (step w (.run true n)) := by
  obtain ⟨f, hf, hne⟩ := h.file
  obtain ⟨t, ht, hother⟩ := h.taken
  show Misses ino base ⟨w.d, followStep true n w.d w.s⟩
  rcases h.pc with hpc | ⟨hpc, hlast, hle⟩ | ⟨hpc, hle⟩
  · have hs : followStep true n w.d w.s =
        { w.s with sb := ⟨(w.d.data ino).length, ino⟩, pc := .compare } := by
      unfold followStep Disk.stat
      simp [hpc, h.path, hf, h.inode]
    rw [hs]
    exact ⟨⟨f, hf, hne⟩, h.path, h.inode, h.last, Or.inr (Or.inl ⟨rfl, h.last, Nat.le_refl _⟩),
      t, ht, hother⟩
  · -- the file is never found to be shorter
    rcases Nat.lt_or_ge w.s.lastpos w.s.sb.size with hlt | hge
    · have hs : followStep true n w.d w.s = { w.s with curpos := w.s.sb.size, pc := .read } := by
        unfold followStep
        simp [hpc, hlt]
      rw [hs]
      exact ⟨⟨f, hf, hne⟩, h.path, h.inode, h.last, Or.inr (Or.inr ⟨rfl, hle⟩), t, ht, hother⟩
    · have hs : followStep true n w.d w.s = { w.s with curpos := w.s.sb.size, pc := .poll } := by
        unfold followStep
        simp [hpc, Nat.le_antisymm hlast hge]
      rw [hs]
      exact ⟨⟨f, hf, hne⟩, h.path, h.inode, h.last, Or.inl rfl, t, ht, hother⟩
  · have hino := fgetc_ino f w.d true n
    unfold followStep
    simp only [hpc, hf]
    generalize f.fgetc w.d true n = r at hino
    obtain ⟨c, f'⟩ := r
    dsimp only at hino ⊢
    have hne' : f'.ino ≠ ino := by rw [hino]; exact hne
    split
    · exact ⟨⟨f'.clearerr, rfl, hne'⟩, h.path, h.inode, hle, Or.inl rfl, t, ht, hother⟩
    · split
      · exact ⟨⟨f', rfl, hne'⟩, h.path, h.inode, hle, Or.inl rfl, t, ht, hother⟩
      · refine ⟨⟨f', rfl, hne'⟩, h.path, h.inode, h.last, Or.inr (Or.inr ⟨rfl, hle⟩),
          t ++ [(f'.ino, c.getD 255)], ?_, fun b hb => ?_⟩
        · simp only
          rw [ht, List.append_assoc]
        · rcases List.mem_append.mp hb with hb | hb
          · exact hother b hb
          · rw [List.mem_singleton.mp hb]
            exact hne'

lemma misses_run (h : Misses ino base w) (hes : ∀ e ∈ es, Grows e) :
    Misses ino base (run step w es) :=
  grows_run h (fun _ i bytes h => h.append i bytes) (fun _ n h => h.turn n) hes

/-! ### Rotation -/

/-- While the new file is read, its first bytes have been taken. -/
lemma since_reading {f : Stream} (h : Tracks ino 0 w.s.taken f v) :
    since ino w v = (v.d.data ino).take f.pos := by
  unfold since
  rw [h.taken, List.drop_left, List.drop_zero, List.filter_eq_self.mpr, List.map_map]
  · exact List.map_id _
  · intro b hb
    obtain ⟨c, -, rfl⟩ := List.mem_map.mp hb
    exact decide_eq_true rfl

lemma since_same (h : v.s.taken = w.s.taken) : since ino w v = [] := by
  unfold since
  rw [h, List.drop_length]
  rfl

lemma since_misses (h : Misses ino w.s.taken v) : since ino w v = [] := by
  obtain ⟨t, ht, hother⟩ := h.taken
  unfold since
  rw [ht, List.drop_left, List.filter_eq_nil_iff.mpr]
  · rfl
  · intro b hb
    simpa using hother b hb

/-- Found to be shorter, the file is read from its first byte. -/
lemma readsAll_of_rotating (h : Rotating ino w.s.taken v) : ReadsAll ino w v where
  first := by
    cases h with
    | compare _ _ _ taken _ _ =>
      rw [since_same taken]
      exact List.nil_prefix
    | shrunk _ _ _ taken _ _ =>
      rw [since_same taken]
      exact List.nil_prefix
    | reading f h =>
      rw [since_reading h]
      exact List.take_prefix _ _
  all := by
    refine ⟨delay (v.d.data ino).length v.s, fun es hes hturns => ?_⟩
    obtain ⟨f, h', hle⟩ := rotating_eventually h (Nat.le_refl _) hes hturns
    rw [since_reading h']
    exact List.prefix_take_iff.mpr ⟨data_grows v ino hes, hle⟩

/-- The `stat` of the first poll. -/
lemma poll_turn {f : Stream} (hpc : w.s.pc = .poll) (hfile : w.s.file = some f)
    (hpath : w.d.path = some ino) (hinode : w.s.lastino = w.s.curino) (n : ℕ) :
    (step w (.run true n)).s =
      { w.s with sb := ⟨(w.d.data ino).length, ino⟩, pc := .compare } := by
  rw [step_run_s]
  unfold followStep Disk.stat
  simp [hpc, hpath, hfile, hinode]

/-- A file that is not shorter is never read: a byte appended to it is lost. -/
lemma loses {f : Stream} (hpc : w.s.pc = .poll) (hfile : w.s.file = some f)
    (hpath : w.d.path = some ino) (hne : f.ino ≠ ino) (hinode : w.s.lastino = w.s.curino)
    (hge : w.s.lastpos ≤ (w.d.data ino).length) : ¬ LosesNothing ino w := by
  intro h
  have hmiss : Misses ino w.s.taken w := ⟨⟨f, hfile, hne⟩, hpath, hinode, hge, Or.inl hpc, [],
    (List.append_nil _).symm, fun b hb => absurd hb List.not_mem_nil⟩
  have happend : ∀ e ∈ [Ev.append ino [97]], Grows e := by simp [Grows]
  obtain ⟨k, hall⟩ := (h 0 [.append ino [97]] happend).all
  have hfinal := hall _ (runs_grow k) (turns_replicate k).ge
  have hmiss' := misses_run ((hmiss.turn 0).append ino [97]) (runs_grow k)
  rw [run_cons, run_cons, run_nil, since_misses hmiss', List.prefix_nil, data_append,
    if_pos rfl] at hfinal
  simp at hfinal

/-- **Rotation**: in every run, at a poll that finds another file behind `fname` than the one
it reads, the new file is read from its first byte just when it is shorter than the position
remembered. -/
theorem rotation_iff (d : Disk) (es : List Ev) {f : Stream} (hpc : (reached d es).s.pc = .poll)
    (hfile : (reached d es).s.file = some f) (hpath : (reached d es).d.path = some ino)
    (hne : f.ino ≠ ino) :
    LosesNothing ino (reached d es) ↔
      ((reached d es).d.data ino).length < (reached d es).s.lastpos := by
  have hinode := inode_reached d es
  refine ⟨fun h => ?_, fun hlt n es' hes => ?_⟩
  · by_contra hge
    exact loses hpc hfile hpath hne hinode (by omega) h
  · have hstat := poll_turn hpc hfile hpath hinode n
    rw [run_cons]
    refine readsAll_of_rotating (rotating_run (.compare ?_ hpath ?_ ?_ ?_ ?_) hes)
    all_goals rw [hstat]
    · exact hinode
    · exact hlt
    · exact Nat.le_refl _

/-- A log file with five bytes, a file of two bytes and one of seven. -/
def threeFiles : Disk where
  data ino :=
    if ino = 1 then [97, 97, 97, 97, 10]
    else if ino = 2 then [98, 10]
    else [99, 99, 99, 99, 99, 99, 10]
  path := some 1

/-- The start, and then another file behind the name. -/
def rotateTo (ino : ℕ) : List Ev := [.run true 0, .run true 0, .run true 0, .link ino]

/-- A rotation to a shorter file. -/
theorem rotation_iff_run : LosesNothing 2 (reached threeFiles (rotateTo 2)) := by
  have h := rotation_iff threeFiles (rotateTo 2) (f := ⟨1, 5, [], false, false⟩) rfl rfl rfl
  refine (h ?_).mpr ?_
  · decide
  · decide

/-- **Rotation to a longer file**: nothing of it is ever read. -/
theorem rotation_missed : ¬ LosesNothing 3 (reached threeFiles (rotateTo 3)) := by
  refine loses (f := ⟨1, 5, [], false, false⟩) rfl rfl rfl ?_ rfl ?_
  · decide
  · decide

end Agentsmith.FollowRotate
