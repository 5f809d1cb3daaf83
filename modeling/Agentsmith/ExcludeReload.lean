import Agentsmith.ExcludeCidr
import Agentsmith.Lib.Chunker

/-!
Reading the exclude file again, while other threads look addresses up.

The reading thread clears the list and then adds the lines of the file one by one. Each of
these calls takes the mutex of the list for itself, so lookups fall between any two of them.
-/

namespace Agentsmith.ExcludeReload

open Agentsmith.Lib.CStrings Agentsmith.Lib.Slots Agentsmith.Lib.Words Agentsmith.Lib.Runs
open Agentsmith.Lib.Chunker
open Agentsmith.Globals Agentsmith.Exclude Agentsmith.ExcludeLines Agentsmith.ExcludeCidr

/-- `MAX_EXCLUDE_LINE_LENGTH`. -/
def maxExcludeLineLength : ℕ := 100

/-- What `fgets(line, size, file)` leaves in the buffer, call after call. -/
def fgets (size : ℕ) (file : List UInt8) : List (List UInt8) :=
  let c := cut (size - 1) 10 file
  if c.2 = [] then c.1 else c.1 ++ [c.2]

/-- The line without its newline, if it is not a comment. -/
def excludeLine (buff : List UInt8) : Option CStr :=
  let line := upToNul buff
  if line.1.head? = some 35 then none
  else if line.1.length > 1 ∧ line.1.getLast? = some 10 then
    some (upTo (line.1.length - 1) line)
  else some line

/-- `_exclude_readfile_thread`: the calls it makes one after the other. `mem` says for which of
the lines there is memory. Without the file the list is not changed. -/
def excludeReadfileThread (mem : ℕ → Bool) (file : Option (List UInt8)) : List Op :=
  match file with
  | none => []
  | some file => .clear ::
      ((fgets maxExcludeLineLength file).filterMap excludeLine).mapIdx fun k line =>
        .add (mem k) line

/-- The list, and the calls the reading thread has still to make. -/
structure St where
  list : Exclude.St
  todo : List Op

/-- The reading thread makes its next call, or another thread looks a string up. -/
inductive Turn
  | read
  | look (y : CStr)
  deriving DecidableEq

section

variable (pton : InetPton) (e : Endian)

def reloadStep (s : Option St) (t : Turn) : Option St :=
  match s, t with
  | none, _ => none
  | some s, .read =>
    match s.todo with
    | [] => some s
    | op :: rest => (excludeStep pton e s.list op).map fun l => ⟨l, rest⟩
  | some s, .look y => (excludeIsexcluded pton e y s.list.1).map fun _ => s

/-- The reload with the calls `new`, of the list that the calls `old` have left. -/
def reload (old new : List Op) (turns : List Turn) : Option St :=
  run (reloadStep pton e) ((excludeRun pton e old).map fun l => ⟨l, new⟩) turns

/-- The address that a lookup of the string searches for. -/
def searched (x : CStr) : Option Addr :=
  (excludeParseIp x).bind fun ⟨ip, prefixLen, af⟩ =>
    if (af = .inet ∧ prefixLen = 32) ∨ (af = .inet6 ∧ prefixLen = 128) then pton.addr af ip
    else none

/-- The calls leave a list that excludes `x`. -/
def Excludes (ops : List Op) (x : CStr) : Prop :=
  ∃ s, excludeRun pton e ops = some s ∧ excludeIsexcluded pton e x s.1 = some retvalOk

/-- Every lookup of `x` answers that it is excluded. -/
def NoGap (old new : List Op) (x : CStr) (turns : List Turn) : Prop :=
  ∀ pre post s, turns = pre ++ .look x :: post → reload pton e old new pre = some s →
    excludeIsexcluded pton e x s.list.1 = some retvalOk

/-- The call adds a line that covers `x`. -/
def Adds (x : CStr) (op : Op) : Prop :=
  ∃ line, op = .add true line ∧ 3 ≤ line.1.length ∧
    ∃ a, searched pton x = some a ∧ CoversLine pton a line

/-- After `n` calls of the reading thread the old list is gone, and no line added since covers
`x`. -/
def InGap (ops : List Op) (x : CStr) (n : ℕ) : Prop :=
  0 < n ∧ ∀ op ∈ ops.take n, ¬ Adds pton x op

end

instance (pton : InetPton) (e : Endian) (ops : List Op) (x : CStr) :
    Decidable (Excludes pton e ops x) :=
  decidable_of_iff ((excludeRun pton e ops).bind (fun s => excludeIsexcluded pton e x s.1) =
    some retvalOk) Option.bind_eq_some_iff

/-- The calls the reading thread has made. -/
def reads (turns : List Turn) : ℕ := turns.count .read

variable {pton : InetPton} {e : Endian} {old new : List Op} {x : CStr}

/-! ### The list after some of the calls -/

lemma excludeRun_snoc (ops : List Op) (op : Op) : excludeRun pton e (ops ++ [op]) =
    (excludeRun pton e ops).bind fun s => excludeStep pton e s op := by
  unfold excludeRun
  rw [List.foldl_append]
  rfl

/-- Lookups change nothing: the list is what the calls made so far have left. -/
lemma reload_state {turns : List Turn} {s : St} (h : reload pton e old new turns = some s) :
    s.todo = new.drop (reads turns) ∧
      excludeRun pton e (old ++ new.take (reads turns)) = some s.list := by
  refine run_some_hist (P := fun turns s => s.todo = new.drop (reads turns) ∧
    excludeRun pton e (old ++ new.take (reads turns)) = some s.list)
    (fun _ => rfl) (fun s hs => ?_) (fun turns t q s ⟨htodo, hrun⟩ hstep => ?_) h
  · obtain ⟨l, hl, rfl⟩ := Option.map_eq_some_iff.mp hs
    exact ⟨rfl, by simpa [reads] using hl⟩
  · cases t with
    | look y =>
      obtain ⟨_, -, rfl⟩ := Option.map_eq_some_iff.mp hstep
      have hreads : reads (turns ++ [.look y]) = reads turns := by simp [reads]
      rw [hreads]
      exact ⟨htodo, hrun⟩
    | read =>
      have hreads : reads (turns ++ [.read]) = reads turns + 1 := by simp [reads]
      rw [hreads]
      generalize reads turns = n at htodo hrun ⊢
      simp only [reloadStep] at hstep
      rcases hn : q.todo with _ | ⟨op, rest⟩
      · -- all calls are made
        rw [hn] at hstep htodo
        obtain rfl := Option.some.inj hstep
        have hlen : new.length ≤ n := List.drop_eq_nil_iff.mp htodo.symm
        rw [List.drop_of_length_le (by omega), List.take_of_length_le (by omega)]
        rw [List.take_of_length_le hlen] at hrun
        exact ⟨hn, hrun⟩
      · rw [hn] at hstep htodo
        obtain ⟨l, hl, rfl⟩ := Option.map_eq_some_iff.mp hstep
        have hlt : n < new.length := by
          by_contra hge
          rw [List.drop_of_length_le (by omega)] at htodo
          cases htodo
        rw [List.drop_eq_getElem_cons hlt] at htodo
        obtain ⟨rfl, rfl⟩ := List.cons.inj htodo
        refine ⟨rfl, ?_⟩
        rw [List.take_succ_eq_append_getElem hlt, ← List.append_assoc, excludeRun_snoc, hrun]
        exact hl

/-- A lookup succeeds if a line in the list covers what it searches for. -/
lemma isexcluded_searched {s : Exclude.St} (h : Holds pton e s) :
    excludeIsexcluded pton e x s.1 = some retvalOk ↔
      ∃ a, searched pton x = some a ∧ ∃ line ∈ s.2, CoversLine pton a line := by
  have hne : retvalErr ≠ retvalOk := by decide
  unfold excludeIsexcluded excludeFind searched
  rcases excludeParseIp x with _ | ⟨ip, q, f⟩
  · simp [hne]
  · rw [Option.bind_some]
    dsimp only
    split
    · rcases pton.addr f ip with _ | a
      · simp [hne]
      · have hfound : (∃ a', some a = some a' ∧ ∃ line ∈ s.2, CoversLine pton a' line) ↔
            (find (excludeFits e a) (s.1.vec.take s.1.fill)).isSome := by
          rw [find_isSome h a]
          simp only [Option.some.injEq, exists_eq_left']
        rw [hfound, Option.bind_some, Option.map_some]
        rcases find (excludeFits e a) (s.1.vec.take s.1.fill) with _ | r <;> simp [hne]
    · simp

lemma not_clear_mem {mem : ℕ → Bool} {file : List UInt8} :
    ∃ adds, excludeReadfileThread mem (some file) = .clear :: adds ∧ .clear ∉ adds :=
  ⟨_, rfl, fun h => by
    obtain ⟨k, hk, hc⟩ := List.mem_mapIdx.mp h
    cases hc⟩

/-- Since a clear the lines added are listed. -/
lemma listed_adds (old : List Op) {adds : List Op} (hadds : .clear ∉ adds) (line : CStr) :
    Listed pton (old ++ .clear :: adds) line ↔
      .add true line ∈ adds ∧ ∃ net p, Accepts pton line net p := by
  induction adds using List.reverseRecOn with
  | nil =>
    unfold Listed
    rw [since_snoc]
    simp
  | append_singleton adds op ih =>
    have hop : op ≠ .clear := fun h => hadds (by simp [h])
    have hrest : .clear ∉ adds := fun h => hadds (List.mem_append_left _ h)
    have hsplit : old ++ .clear :: (adds ++ [op]) = (old ++ .clear :: adds) ++ [op] := by simp
    unfold Listed at ih ⊢
    rw [hsplit, since_snoc, ih hrest, List.mem_append, List.mem_singleton]
    simp only [hop, not_false_eq_true, and_true, eq_comm, or_and_right]
    exact or_comm

/-- Since a clear, a lookup succeeds if a line that covers the string has been added. -/
lemma isexcluded_adds {adds : List Op} (hadds : .clear ∉ adds) {s : Exclude.St}
    (hrun : excludeRun pton e (old ++ .clear :: adds) = some s) :
    excludeIsexcluded pton e x s.1 = some retvalOk ↔ ∃ op ∈ adds, Adds pton x op := by
  obtain ⟨hholds, hlines⟩ := (run_spec pton e _).2 _ hrun
  rw [isexcluded_searched hholds]
  refine ⟨?_, ?_⟩
  · rintro ⟨a, ha, line, hline, hcov⟩
    obtain ⟨hmem, net, p, hlen, -⟩ := (listed_adds old hadds line).mp ((hlines line).mp hline)
    exact ⟨_, hmem, line, rfl, hlen, a, ha, hcov⟩
  · rintro ⟨op, hop, line, rfl, hlen, a, ha, hcov⟩
    obtain ⟨net, p, hd, hnet⟩ := hcov
    refine ⟨a, ha, line, ?_, net, p, hd, hnet⟩
    exact (hlines line).mpr ((listed_adds old hadds line).mpr ⟨hop, net, p, hlen, hd⟩)

lemma inGap_clear {adds : List Op} (n : ℕ) :
    InGap pton (.clear :: adds) x (n + 1) ↔ ¬ ∃ op ∈ adds.take n, Adds pton x op := by
  have hclear : ¬ Adds pton x .clear := fun ⟨line, h, _⟩ => by cases h
  unfold InGap
  rw [List.take_succ_cons, List.forall_mem_cons]
  simp [hclear]

/-- In the reload: the old list, and then the lines added so far. -/
lemma isexcluded_reload {adds : List Op} (hadds : .clear ∉ adds)
    (hold : Excludes pton e old x) {turns : List Turn} {s : St}
    (hs : reload pton e old (.clear :: adds) turns = some s) :
    excludeIsexcluded pton e x s.list.1 = some retvalOk ↔
      ¬ InGap pton (.clear :: adds) x (reads turns) := by
  obtain ⟨-, hrun⟩ := reload_state hs
  rcases hn : reads turns with _ | n
  · rw [hn, List.take_zero, List.append_nil] at hrun
    obtain ⟨l, hl, hex⟩ := hold
    obtain rfl := Option.some.inj (hrun.symm.trans hl)
    exact ⟨fun _ h => absurd h.1 (Nat.lt_irrefl 0), fun _ => hex⟩
  · rw [hn, List.take_succ_cons] at hrun
    have htake : .clear ∉ adds.take n := fun h => hadds (List.mem_of_mem_take h)
    rw [isexcluded_adds htake hrun, inGap_clear, not_not]

/-! ### The gap -/

/-- **The gap of a reload**: for a string that the old and the new file exclude, every lookup
made before, during and after the reload answers so just when none falls into the gap, which
begins when the list is cleared and is over when a line that covers the string has been added.
That is before the reload is over. -/
theorem reload_gap_iff (pton : InetPton) (e : Endian) (mem mem' : ℕ → Bool)
    (oldFile newFile : List UInt8) (x : CStr) (turns : List Turn) :
    let old := excludeReadfileThread mem (some oldFile)
    let new := excludeReadfileThread mem' (some newFile)
    Excludes pton e old x → Excludes pton e new x →
      (NoGap pton e old new x turns ↔ ∀ pre post, turns = pre ++ .look x :: post →
        (reload pton e old new pre).isSome → ¬ InGap pton new x (reads pre)) ∧
      ∀ n ≥ new.length, ¬ InGap pton new x n := by
  intro old new hold hnew
  obtain ⟨adds, hthread, hadds⟩ : ∃ adds, new = .clear :: adds ∧ .clear ∉ adds := not_clear_mem
  rw [hthread] at hnew ⊢
  refine ⟨⟨fun h pre post hturns hsome => ?_, fun h pre post s hturns hs => ?_⟩, fun n hn => ?_⟩
  · obtain ⟨s, hs⟩ := Option.isSome_iff_exists.mp hsome
    exact (isexcluded_reload hadds hold hs).mp (h pre post s hturns hs)
  · exact (isexcluded_reload hadds hold hs).mpr (h pre post hturns (by rw [hs]; rfl))
  · -- after the reload the list is the new one
    obtain ⟨s, hrun, hex⟩ := hnew
    obtain ⟨n, rfl⟩ := Nat.exists_eq_add_of_le' (Nat.le_trans (Nat.succ_pos adds.length) hn)
    have hlen : adds.length ≤ n := Nat.le_of_succ_le_succ hn
    have hadded : ∃ op ∈ adds, Adds pton x op :=
      (isexcluded_adds hadds (show excludeRun pton e ([] ++ .clear :: adds) = some s from hrun)).mp
        hex
    rw [inGap_clear, not_not, List.take_of_length_le hlen]
    exact hadded

/-- A file with two networks, the second one around `192.168.7.1`. -/
def file : List UInt8 := (ascii "# local\n10.0.0.0/8\n192.168.0.0/16\n").1

def host : CStr := ascii "192.168.7.1"

/-- The file read again. -/
def thread : List Op := excludeReadfileThread (fun _ => true) (some file)

/-- A lookup before the reload, and one after it. -/
theorem reload_gap_iff_run : NoGap quadPton .little thread thread host
    [.look host, .read, .read, .read, .look host] := by
  have hex : Excludes quadPton .little thread host := by decide +kernel
  have hlen : thread.length = 3 := by decide +kernel
  obtain ⟨hiff, hover⟩ := reload_gap_iff quadPton .little (fun _ => true) (fun _ => true) file file
    host [.look host, .read, .read, .read, .look host] hex hex
  refine hiff.mpr fun pre post hturns _ => ?_
  rcases pre with _ | ⟨_, _ | ⟨_, _ | ⟨_, _ | ⟨_, _ | ⟨_, pre⟩⟩⟩⟩⟩ <;>
    simp only [List.cons_append, List.nil_append, List.cons.injEq, reduceCtorEq, false_and,
      and_false, true_and] at hturns
  · exact fun h => Nat.lt_irrefl 0 h.1
  · obtain ⟨rfl, rfl, rfl, rfl, -⟩ := hturns
    exact hover 3 (Nat.le_of_eq hlen)
  · simp at hturns

/-- **A lookup in the gap**: the file has not changed, and the host is not excluded. -/
theorem reload_gap : Excludes quadPton .little thread host ∧
    ¬ NoGap quadPton .little thread thread host [.read, .look host] := by
  refine ⟨by decide +kernel, fun h => ?_⟩
  have hanswer : (reload quadPton .little thread thread [.read]).bind
      (fun s => excludeIsexcluded quadPton .little host s.list.1) = some retvalErr := by
    decide +kernel
  obtain ⟨s, hs, herr⟩ := Option.bind_eq_some_iff.mp hanswer
  rw [h [.read] [] s rfl hs] at herr
  exact absurd herr (by decide)

end Agentsmith.ExcludeReload
