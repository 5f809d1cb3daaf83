import Agentsmith.Pipeline

/-!
A stop between two lines: `follow_stop`, called by the handler of a termination signal.

From the signal on nothing more is put into the line buffer, wherever `follow` is. The string that
`regex_do` is at is still dealt with, and a few calls later `follow` returns. So the lines that
have been read are sighted, all of them, and what stands in the buffer behind the last of them is
not.
-/

namespace Agentsmith.FollowStop

open Agentsmith.Lib.CStrings Agentsmith.Lib.Words Agentsmith.Lib.Runs
open Agentsmith.Globals Agentsmith.Follow Agentsmith.FollowAppend Agentsmith.Pipeline
open Agentsmith.Exclude (InetPton)

variable {pcreExec : PcreExec} {o : Options} {pton : InetPton} {e : Endian} {d : Disk}
  {s : Pipeline.St} {t : Turn} {ts : List Turn} {line : LineBuffer} {taken : List (ℕ × UInt8)}

/-- A step of `follow`. -/
def isFollow : Turn → Bool
  | .disk (.run _ _) => true
  | _ => false

/-- `follow` has been told to stop, and the buffer is as it was then. -/
structure Stopping (line : LineBuffer) (taken : List (ℕ × UInt8)) (s : Pipeline.St) : Prop where
  line : s.world.s.line = line
  taken : s.world.s.taken = taken
  told : s.stop = true ∨ s.returned = true

/-- `follow` has returned, or the process has come to its end. -/
def Over (s : Pipeline.St) : Prop := s.returned = true ∨ s.world.s.pc = .exited

/-- The number of steps from a call until `follow` returns, at most. -/
def stepsLeft : Pc → ℕ
  | .exited => 0
  | .poll => 1
  | .read | .seek => 2
  | .shrunk | .position => 3
  | .compare | .start => 4
  | .reappeared | .inode => 5

def left (s : Pipeline.St) : ℕ := if s.returned = true then 0 else stepsLeft s.world.s.pc

/-- Where nothing is read the buffer stays as it is. -/
lemma followStep_keeps {q : Follow.St} (hpc : q.pc ≠ .read) (ok : Bool) (n : ℕ) (d : Disk) :
    (followStep ok n d q).line = q.line ∧ (followStep ok n d q).taken = q.taken := by
  unfold followStep
  cases h : q.pc with
  | read => exact absurd h hpc
  | _ =>
    dsimp only
    repeat' split
    all_goals exact ⟨rfl, rfl⟩

/-- Elsewhere than at the heads of its loops, `follow` goes on to the head of one. -/
lemma followStep_left {q : Follow.St} (hpoll : q.pc ≠ .poll) (hread : q.pc ≠ .read)
    (hexited : q.pc ≠ .exited) (ok : Bool) (n : ℕ) (d : Disk) :
    stepsLeft (followStep ok n d q).pc + 1 ≤ stepsLeft q.pc := by
  unfold followStep
  cases h : q.pc with
  | poll => exact absurd h hpoll
  | read => exact absurd h hread
  | exited => exact absurd h hexited
  | _ =>
    dsimp only
    repeat' split
    all_goals simp only [stepsLeft, Nat.reduceAdd, Nat.reduceLeDiff, Nat.le_refl]

/-- A step of `follow` after the signal: it is nearer to its return. -/
lemma followOn_stop (hstop : s.stop = true) (hret : s.returned = false) (ok : Bool) (n : ℕ) :
    (followOn ok n s).world.s.line = s.world.s.line ∧
      (followOn ok n s).world.s.taken = s.world.s.taken ∧
      ((followOn ok n s).stop = true ∨ (followOn ok n s).returned = true) ∧
      (s.todo = none → (followOn ok n s).todo = none) ∧
      (¬ Over s → left (followOn ok n s) + 1 ≤ left s) := by
  unfold followOn
  dsimp only
  by_cases hpoll : s.world.s.pc = .poll
  · rw [if_pos ⟨hstop, hpoll⟩]
    refine ⟨rfl, rfl, Or.inr rfl, id, fun _ => ?_⟩
    simp [left, hret, hpoll, stepsLeft]
  · rw [if_neg fun h => hpoll h.2]
    by_cases hread : s.world.s.pc = .read
    · rw [if_pos ⟨hstop, hread⟩]
      refine ⟨rfl, rfl, Or.inl hstop, id, fun _ => ?_⟩
      simp [left, hret, hread, stepsLeft]
    · rw [if_neg fun h => hread h.2]
      obtain ⟨hline, htaken⟩ := followStep_keeps hread ok n s.world.d
      refine ⟨hline, htaken, Or.inl hstop, fun _ => ?_, fun hover => ?_⟩
      · show ((followStep ok n s.world.d s.world.s).line.given.drop _).head? = none
        rw [hline, List.drop_length]
        rfl
      · have hless := followStep_left hpoll hread (fun h => hover (Or.inr h)) ok n s.world.d
        unfold left
        rw [if_neg (by rw [hret]; exact Bool.false_ne_true),
          if_neg (by rw [hret]; exact Bool.false_ne_true)]
        exact hless

/-- No turn puts anything into the buffer any more. -/
lemma stopping_step (h : Stopping line taken s) (t : Turn) :
    Stopping line taken (pipelineStep pcreExec o pton e s t) := by
  cases t with
  | disk ev =>
    cases ev with
    | run ok n =>
      show Stopping line taken
        (if s.returned = true ∨ s.todo.isSome = true then s else followOn ok n s)
      split
      · exact h
      · rename_i hfree
        have hret : s.returned = false := Bool.eq_false_iff.mpr fun hr => hfree (Or.inl hr)
        have hstop : s.stop = true := h.told.resolve_right (by rw [hret]; exact Bool.false_ne_true)
        obtain ⟨hline, htaken, htold, -⟩ := followOn_stop hstop hret ok n
        exact ⟨hline.trans h.line, htaken.trans h.taken, htold⟩
    | append i bytes => exact ⟨h.line, h.taken, h.told⟩
    | truncate i n => exact ⟨h.line, h.taken, h.told⟩
    | link i => exact ⟨h.line, h.taken, h.told⟩
    | unlink => exact ⟨h.line, h.taken, h.told⟩
  | followStop => exact ⟨h.line, h.taken, Or.inl rfl⟩
  | regexDo time list mem =>
    obtain ⟨-, hworld, hstop, hret⟩ := regexDo_frame pcreExec o pton e s time list mem
    exact ⟨hworld ▸ h.line, hworld ▸ h.taken, by rw [hstop, hret]; exact h.told⟩
  | other m => exact ⟨h.line, h.taken, h.told⟩

/-- And the last string has been dealt with. -/
structure Settled (line : LineBuffer) (taken : List (ℕ × UInt8)) (s : Pipeline.St) : Prop
    extends Stopping line taken s where
  todo : s.todo = none

/-- When the last string has been dealt with, no other one comes. -/
lemma settled_step (h : Settled line taken s) (t : Turn) :
    Settled line taken (pipelineStep pcreExec o pton e s t) := by
  have htodo := h.todo
  refine ⟨stopping_step h.toStopping t, ?_⟩
  cases t with
  | disk ev =>
    cases ev with
    | run ok n =>
      show (if s.returned = true ∨ s.todo.isSome = true then s else followOn ok n s).todo = none
      split
      · exact htodo
      · rename_i hfree
        have hret : s.returned = false := Bool.eq_false_iff.mpr fun hr => hfree (Or.inl hr)
        have hstop : s.stop = true := h.told.resolve_right (by rw [hret]; exact Bool.false_ne_true)
        exact (followOn_stop hstop hret ok n).2.2.2.1 htodo
    | _ => exact htodo
  | followStop => exact htodo
  | regexDo time list mem => exact (regexDo_frame pcreExec o pton e s time list mem).1
  | other m => exact htodo

lemma over_step (h : Over s) (t : Turn) : Over (pipelineStep pcreExec o pton e s t) := by
  cases t with
  | disk ev =>
    cases ev with
    | run ok n =>
      show Over (if s.returned = true ∨ s.todo.isSome = true then s else followOn ok n s)
      split
      · exact h
      · rename_i hfree
        have hpc : s.world.s.pc = .exited := h.resolve_left fun hr => hfree (Or.inl hr)
        have hpoll : ¬ (s.stop = true ∧ s.world.s.pc = .poll) := by simp [hpc]
        have hread : ¬ (s.stop = true ∧ s.world.s.pc = .read) := by simp [hpc]
        refine Or.inr ?_
        unfold followOn
        dsimp only
        rw [if_neg hpoll, if_neg hread, step_run_s, followStep, hpc]
        exact hpc
    | _ => exact h
  | followStop => exact h
  | regexDo time list mem =>
    obtain ⟨-, hworld, -, hret⟩ := regexDo_frame pcreExec o pton e s time list mem
    exact h.imp hret.trans fun hpc => hworld ▸ hpc
  | other m => exact h

/-- A turn does not lead away from the return, and a step of `follow` leads to it. -/
lemma left_step (h : Settled line taken s) (hover : ¬ Over s) (t : Turn) :
    left (pipelineStep pcreExec o pton e s t) + (if isFollow t then 1 else 0) ≤ left s := by
  have hret : s.returned = false := Bool.eq_false_iff.mpr fun hr => hover (Or.inl hr)
  have hstop : s.stop = true := h.told.resolve_right (by rw [hret]; exact Bool.false_ne_true)
  cases t with
  | disk ev =>
    cases ev with
    | run ok n =>
      have hstep : pipelineStep pcreExec o pton e s (.disk (.run ok n)) = followOn ok n s :=
        if_neg (by simp [hret, h.todo])
      rw [hstep]
      exact (followOn_stop hstop hret ok n).2.2.2.2 hover
    | _ => exact Nat.le_refl _
  | followStop => exact Nat.le_refl _
  | regexDo time list mem =>
    obtain ⟨-, hworld, -, hret'⟩ := regexDo_frame pcreExec o pton e s time list mem
    unfold left
    rw [hworld, hret']
    exact Nat.le_refl _
  | other m => exact Nat.le_refl _

lemma over_of_left (h : left s = 0) : Over s := by
  unfold left at h
  split at h
  · exact Or.inl ‹_›
  · refine Or.inr ?_
    cases hpc : s.world.s.pc <;> rw [hpc] at h <;> first | rfl | cases h

lemma left_le (s : Pipeline.St) : left s ≤ 5 := by
  unfold left
  split
  · exact Nat.zero_le 5
  · cases s.world.s.pc <;> decide

lemma stopping_run (h : Stopping line taken s) (ts : List Turn) :
    Stopping line taken (run (pipelineStep pcreExec o pton e) s ts) :=
  run_all h (fun _ t hs => stopping_step hs t) ts

/-- **A stop between two lines**: after the signal nothing more is handed on. Once `regex_do` is
done with the string it was at, the captures of all that had been read are sighted, line by line,
and five more steps are enough for `follow` to return, wherever it was. -/
theorem stop_between_lines (pcreExec : PcreExec) (hin : pcreExec.Inside) (o : Options)
    (pton : InetPton) (e : Endian) (d : Disk) (pre post : List Turn) :
    let s := pipeline pcreExec o pton e d (pre ++ [.followStop])
    let s' := pipeline pcreExec o pton e d (pre ++ .followStop :: post)
    s'.world.s.line = s.world.s.line ∧
      ∀ a time list mem b, post = a ++ .regexDo time list mem :: b →
        (brought pcreExec o pton e d (pre ++ .followStop :: post)).filterMap Moment.line? =
          captures pcreExec (s.world.s.taken.map Prod.snd) ∧
        (5 ≤ b.countP isFollow → Over s') := by
  intro s s'
  have hs : Stopping s.world.s.line s.world.s.taken s := by
    refine ⟨rfl, rfl, Or.inl ?_⟩
    show (pipeline pcreExec o pton e d (pre ++ [.followStop])).stop = true
    rw [pipeline, run_snoc]
    rfl
  have hrun : s' = run (pipelineStep pcreExec o pton e) s post := by
    show pipeline pcreExec o pton e d (pre ++ .followStop :: post) = _
    rw [List.append_cons, pipeline, run_append]
    rfl
  have hs' : Stopping s.world.s.line s.world.s.taken s' := hrun ▸ stopping_run hs post
  refine ⟨hs'.line, ?_⟩
  rintro a time list mem b rfl
  -- from the end of `regex_do` on there is no string any more
  obtain ⟨q, hq⟩ : ∃ q, q =
      run (pipelineStep pcreExec o pton e) s (a ++ [.regexDo time list mem]) := ⟨_, rfl⟩
  have hq' : Settled s.world.s.line s.world.s.taken q := by
    refine ⟨hq ▸ stopping_run hs _, ?_⟩
    rw [hq, run_snoc]
    exact (regexDo_frame pcreExec o pton e _ time list mem).1
  have hb : s' = run (pipelineStep pcreExec o pton e) q b := by
    rw [hrun, hq, List.append_cons, run_append]
  refine ⟨?_, fun hturns => ?_⟩
  · have hflow : Flow pcreExec o pton e s' _ := flow_run hin d _
    have htodo : s'.todo = none := hb ▸ (run_all hq' (fun _ t hv => settled_step hv t) b).todo
    have hall := hflow.captures
    rw [htodo, Option.toList_none, List.filterMap_nil, List.append_nil, hs'.taken] at hall
    exact hall
  · rw [hb]
    exact run_variant (P := Settled s.world.s.line s.world.s.taken) (G := Over) (m := left)
      (fun v t hv _ => settled_step hv t) (fun v t _ _ hv => over_step hv t)
      (fun v t hv _ hover => left_step hv hover t) (fun v _ hv => over_of_left hv) hq'
      (fun t _ => trivial) ((left_le q).trans hturns)

/-- The signal comes while `regex_do` is at a line, and the beginning of another one follows. -/
theorem stop_between_lines_run :
    let pre := reads (address.1 ++ [10, 49]) 10
    let post : List Turn := .disk (.run true 0) :: .regexDo 6 Exclude.excludeInit true ::
      List.replicate 5 (.disk (.run true 0))
    (brought wholeLine initConfig ExcludeCidr.quadPton .little fourBytes
      (pre ++ .followStop :: post)).filterMap Moment.line? = [address] ∧
      Over (pipeline wholeLine initConfig ExcludeCidr.quadPton .little fourBytes
        (pre ++ .followStop :: post)) := by
  intro pre post
  obtain ⟨-, hstop⟩ := stop_between_lines wholeLine wholeLine_inside initConfig
    ExcludeCidr.quadPton .little fourBytes pre post
  obtain ⟨hlines, hover⟩ := hstop [.disk (.run true 0)] 6 Exclude.excludeInit true
    (List.replicate 5 (.disk (.run true 0))) rfl
  exact ⟨by decide +kernel, hover (by decide)⟩

end Agentsmith.FollowStop
