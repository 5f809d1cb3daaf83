import Agentsmith.ExcludeReload

/-!
Several reloads of the exclude list at a time.

Every `SIGHUP` starts a reading thread of its own, and nothing keeps a second one from starting
while the first one reads: their calls fall between each other, so that one clears what the other
has added. The thread that clears last has all its lines still to add.
-/

namespace Agentsmith.ExcludeReloads

open Agentsmith.Lib.CStrings Agentsmith.Lib.Words Agentsmith.Lib.Runs
open Agentsmith.Globals Agentsmith.Exclude Agentsmith.ExcludeLines Agentsmith.ExcludeCidr
open Agentsmith.ExcludeReload (excludeReadfileThread searched Excludes Adds excludeRun_snoc
  isexcluded_adds isexcluded_searched not_clear_mem)

/-! ### The threads -/

/-- The list, and the calls each reading thread has still to make. -/
structure St where
  list : Exclude.St
  todos : List (List Op)

/-- `exclude_readfile` starts a thread on a file, a thread makes its next call, or another thread
looks a string up. -/
inductive Turn
  | signal (mem : ℕ → Bool) (file : Option (List UInt8))
  | read (i : ℕ)
  | look (y : CStr)

section

variable (pton : InetPton) (e : Endian)

def reloadsStep (s : Option St) (t : Turn) : Option St :=
  match s, t with
  | none, _ => none
  | some s, .signal mem file => some { s with todos := s.todos ++ [excludeReadfileThread mem file] }
  | some s, .read i =>
    match s.todos[i]? with
    | some (op :: rest) =>
      (excludeStep pton e s.list op).map fun l => ⟨l, s.todos.set i rest⟩
    | _ => some s
  | some s, .look y => (excludeIsexcluded pton e y s.list.1).map fun _ => s

/-- The threads, with the list that the calls `old` have left. -/
def reloads (old : List Op) (turns : List Turn) : Option St :=
  run (reloadsStep pton e) ((excludeRun pton e old).map fun l => ⟨l, []⟩) turns

/-- The call that is made in a turn, and the thread that makes it. -/
def call (s : Option St) (t : Turn) : List (ℕ × Op) :=
  match s, t with
  | some s, .read i =>
    match s.todos[i]? with
    | some (op :: _) => [(i, op)]
    | _ => []
  | _, _ => []

/-- The calls that are made, in order. -/
def calls (old : List Op) (turns : List Turn) : List (ℕ × Op) :=
  output (reloadsStep pton e) call ((excludeRun pton e old).map fun l => ⟨l, []⟩) turns

end

/-- The calls that each thread is started to make. -/
def started (turns : List Turn) : List (List Op) :=
  turns.filterMap fun
    | .signal mem file => some (excludeReadfileThread mem file)
    | _ => none

variable {pton : InetPton} {e : Endian} {old ops : List Op} {x : CStr} {turns : List Turn} {s : St}

/-! ### What the threads have done -/

lemma started_snoc (turns : List Turn) (t : Turn) :
    started (turns ++ [t]) = started turns ++ started [t] := List.filterMap_append

/-- What a thread has done and what it has still to do is what it was started to do. -/
structure Divided (turns : List Turn) (T : List (ℕ × Op)) (todos : List (List Op)) : Prop where
  length : todos.length = (started turns).length
  split : ∀ i, own i T ++ (todos[i]?).getD [] = ((started turns)[i]?).getD []

lemma Divided.quiet {T : List (ℕ × Op)} {todos : List (List Op)} {t : Turn}
    (h : Divided turns T todos) (ht : started [t] = []) : Divided (turns ++ [t]) T todos := by
  refine ⟨?_, ?_⟩
  · rw [started_snoc, ht, List.append_nil]
    exact h.length
  · rw [started_snoc, ht, List.append_nil]
    exact h.split

/-- One more thread, that has done nothing yet. -/
lemma Divided.signal {T : List (ℕ × Op)} {todos : List (List Op)} {mem : ℕ → Bool}
    {file : Option (List UInt8)} (h : Divided turns T todos) :
    Divided (turns ++ [.signal mem file]) T (todos ++ [excludeReadfileThread mem file]) := by
  have hone : started [.signal mem file] = [excludeReadfileThread mem file] := rfl
  refine ⟨?_, fun i => ?_⟩
  · simp [started_snoc, hone, h.length]
  · rw [started_snoc, hone]
    have hi := h.split i
    rcases Nat.lt_trichotomy i todos.length with hlt | rfl | hgt
    · rwa [List.getElem?_append_left hlt, List.getElem?_append_left (h.length ▸ hlt)]
    · rw [List.getElem?_eq_none (Nat.le_refl _), h.length,
        List.getElem?_eq_none (Nat.le_refl _)] at hi
      obtain ⟨hown, -⟩ := List.append_eq_nil_iff.mp hi
      rw [List.getElem?_concat_length, h.length, List.getElem?_concat_length, hown]
      rfl
    · -- no thread has this number
      have hlen := h.length
      rw [List.getElem?_eq_none (by omega), List.getElem?_eq_none (by omega)] at hi
      rw [List.getElem?_eq_none (by simp; omega), List.getElem?_eq_none (by simp; omega)]
      exact hi

/-- A thread makes its next call. -/
lemma Divided.read {T : List (ℕ × Op)} {todos : List (List Op)} {i : ℕ} {op : Op}
    {rest : List Op} (h : Divided turns T todos) (hi : todos[i]? = some (op :: rest)) :
    Divided (turns ++ [.read i]) (T ++ [(i, op)]) (todos.set i rest) := by
  have hlt : i < todos.length := (List.getElem?_eq_some_iff.mp hi).1
  refine Divided.quiet ⟨?_, fun j => ?_⟩ rfl
  · rw [List.length_set]
    exact h.length
  · have hj := h.split j
    by_cases hij : i = j
    · subst hij
      rw [hi, Option.getD_some] at hj
      rw [own_snoc_self, List.getElem?_set_self hlt, Option.getD_some, List.append_assoc]
      exact hj
    · rw [own_snoc_ne T hij, List.getElem?_set_ne hij]
      exact hj

/-- **The threads**: each is at what its calls so far have left it, and the list is what all of
them have made of it. -/
lemma reloads_state (h : reloads pton e old turns = some s) :
    Divided turns (calls pton e old turns) s.todos ∧
      excludeRun pton e (old ++ (calls pton e old turns).map Prod.snd) = some s.list := by
  induction turns using List.reverseRecOn generalizing s with
  | nil =>
    obtain ⟨l, hl, rfl⟩ := Option.map_eq_some_iff.mp h
    refine ⟨⟨rfl, fun i => rfl⟩, ?_⟩
    rw [calls, output, List.map_nil, List.append_nil]
    exact hl
  | append_singleton turns t ih =>
    obtain ⟨q, hq, hstep⟩ := run_snoc_some (fun _ => rfl) h
    obtain ⟨hdiv, hrun⟩ := ih hq
    have hcalls : calls pton e old (turns ++ [t]) =
        calls pton e old turns ++ call (some q) t := by
      rw [calls, output_snoc, ← calls]
      exact congrArg (fun s => calls pton e old turns ++ call s t) hq
    rw [hcalls]
    cases t with
    | signal mem file =>
      obtain rfl := Option.some.inj hstep
      have hnone : call (some q) (.signal mem file) = [] := rfl
      rw [hnone, List.append_nil]
      exact ⟨hdiv.signal, hrun⟩
    | look y =>
      obtain ⟨_, -, rfl⟩ := Option.map_eq_some_iff.mp hstep
      have hnone : call (some q) (.look y) = [] := rfl
      rw [hnone, List.append_nil]
      exact ⟨hdiv.quiet rfl, hrun⟩
    | read i =>
      simp only [reloadsStep] at hstep
      rcases hi : q.todos[i]? with _ | _ | ⟨op, rest⟩
      · rw [hi] at hstep
        obtain rfl := Option.some.inj hstep
        have hnone : call (some q) (.read i) = [] := by simp [call, hi]
        rw [hnone, List.append_nil]
        exact ⟨hdiv.quiet rfl, hrun⟩
      · rw [hi] at hstep
        obtain rfl := Option.some.inj hstep
        have hnone : call (some q) (.read i) = [] := by simp [call, hi]
        rw [hnone, List.append_nil]
        exact ⟨hdiv.quiet rfl, hrun⟩
      · rw [hi] at hstep
        obtain ⟨l, hl, rfl⟩ := Option.map_eq_some_iff.mp hstep
        have hone : call (some q) (.read i) = [(i, op)] := by simp [call, hi]
        rw [hone]
        refine ⟨hdiv.read hi, ?_⟩
        rw [List.map_append, List.map_singleton, ← List.append_assoc, excludeRun_snoc, hrun]
        exact hl

/-! ### The list in the end -/

/-- A lookup succeeds if a line that is listed covers what it searches for. -/
lemma isexcluded_listed {l : Exclude.St} (h : excludeRun pton e ops = some l) :
    excludeIsexcluded pton e x l.1 = some retvalOk ↔
      ∃ a, searched pton x = some a ∧ ∃ line, Listed pton ops line ∧ CoversLine pton a line := by
  obtain ⟨hholds, hlines⟩ := (run_spec pton e ops).2 l h
  rw [isexcluded_searched hholds]
  simp only [hlines]

/-- A line that is listed was listed before, or has been added since. -/
lemma listed_append {line : CStr} (h : Listed pton (old ++ ops) line) :
    Listed pton old line ∨ (.add true line ∈ ops ∧ ∃ net p, Accepts pton line net p) := by
  induction ops using List.reverseRecOn with
  | nil => exact Or.inl (by rwa [List.append_nil] at h)
  | append_singleton ops op ih =>
    unfold Listed at h
    rw [← List.append_assoc, since_snoc] at h
    rcases h with ⟨rfl, hacc⟩ | ⟨hlisted, -⟩
    · exact Or.inr ⟨by simp, hacc⟩
    · exact (ih hlisted).imp_right fun ⟨hmem, hacc⟩ => ⟨List.mem_append_left _ hmem, hacc⟩

/-- What is excluded was excluded before, or a line added since covers it. -/
lemma excludes_append {l : Exclude.St} (h : excludeRun pton e (old ++ ops) = some l)
    (hx : excludeIsexcluded pton e x l.1 = some retvalOk) :
    Excludes pton e old x ∨ ∃ op ∈ ops, Adds pton x op := by
  obtain ⟨a, ha, line, hline, hcov⟩ := (isexcluded_listed h).mp hx
  rcases listed_append hline with hold | ⟨hmem, net, p, hlen, -⟩
  · obtain ⟨q, hq⟩ := Option.isSome_iff_exists.mp
      (run_isSome_left (fun _ => rfl) (by rw [show run _ _ _ = _ from h]; rfl) :
        (excludeRun pton e old).isSome)
    exact Or.inl ⟨q, hq, (isexcluded_listed hq).mpr ⟨a, ha, line, hold, hcov⟩⟩
  · exact Or.inr ⟨_, hmem, line, rfl, hlen, a, ha, hcov⟩

/-- A thread clears the list once, before anything else. -/
lemma started_head {ops : List Op} (h : ops ∈ started turns) :
    ops = [] ∨ ∃ adds, ops = .clear :: adds ∧ .clear ∉ adds := by
  obtain ⟨t, -, ht⟩ := List.mem_filterMap.mp h
  cases t with
  | signal mem file =>
    obtain rfl := Option.some.inj ht
    cases file with
    | none => exact Or.inl rfl
    | some file => exact Or.inr not_clear_mem
  | read i => cases ht
  | look y => cases ht

lemma Divided.own_eq {T : List (ℕ × Op)} {todos : List (List Op)} (h : Divided turns T todos)
    (hdone : ∀ rest ∈ todos, rest = []) (i : ℕ) : own i T = ((started turns)[i]?).getD [] := by
  have hi := h.split i
  rcases hrest : todos[i]? with _ | rest
  · rwa [hrest, Option.getD_none, List.append_nil] at hi
  · rwa [hrest, hdone rest (List.mem_of_getElem? hrest), Option.getD_some, List.append_nil] at hi

lemma Divided.mem {T : List (ℕ × Op)} {todos : List (List Op)} (h : Divided turns T todos) {i : ℕ}
    {op : Op} (hop : (i, op) ∈ T) : ∃ ops ∈ started turns, op ∈ ops := by
  have hmem := List.mem_append_left ((todos[i]?).getD []) (mem_own.mpr hop)
  rw [h.split i] at hmem
  rcases hi : (started turns)[i]? with _ | ops
  · rw [hi] at hmem
    cases hmem
  · rw [hi, Option.getD_some] at hmem
    exact ⟨ops, List.mem_of_getElem? hi, hmem⟩

/-- When all threads are done, one of them has cleared last and then added all its lines. -/
lemma Divided.last {T : List (ℕ × Op)} {todos : List (List Op)} (h : Divided turns T todos)
    (hdone : ∀ rest ∈ todos, rest = []) (hsome : ∃ ops ∈ started turns, ops ≠ []) :
    ∃ i pre post adds, T = pre ++ (i, .clear) :: post ∧ .clear :: adds ∈ started turns ∧
      (∀ op ∈ adds, op ∈ post.map Prod.snd) ∧ .clear ∉ post.map Prod.snd := by
  have hown := h.own_eq hdone
  have hhead : ∀ i a as, own i T = a :: as → ∀ b ∈ as, b ≠ .clear := by
    intro i a as hi b hb hclear
    rw [hown] at hi
    rcases hget : (started turns)[i]? with _ | ops
    · rw [hget] at hi
      cases hi
    · rw [hget, Option.getD_some] at hi
      rcases started_head (List.mem_of_getElem? hget) with rfl | ⟨adds, rfl, hadds⟩
      · cases hi
      · obtain ⟨-, rfl⟩ := List.cons.inj hi
        exact hadds (hclear ▸ hb)
  have hclear : ∃ a ∈ T, a.2 = .clear := by
    obtain ⟨ops, hops, hne⟩ := hsome
    obtain ⟨i, hi⟩ := List.getElem?_of_mem hops
    rcases started_head hops with rfl | ⟨adds, rfl, -⟩
    · exact absurd rfl hne
    · have hmem : .clear ∈ own i T := by
        rw [hown, hi]
        exact List.mem_cons_self
      exact ⟨_, mem_own.mp hmem, rfl⟩
  obtain ⟨i, c, pre, post, rfl, rfl, hpost, hi⟩ := last_begins hhead hclear
  refine ⟨i, pre, post, own i post, rfl, ?_, fun op hop => ?_, fun hc => ?_⟩
  · rw [← hi, hown]
    rcases hget : (started turns)[i]? with _ | ops
    · rw [hown, hget] at hi
      cases hi
    · exact List.mem_of_getElem? hget
  · exact List.mem_map.mpr ⟨(i, op), mem_own.mp hop, rfl⟩
  · obtain ⟨a, ha, hac⟩ := List.mem_map.mp hc
    exact hpost a ha hac

/-- When all threads are done the list is what the calls behind the last clear have made of it:
all lines of the thread that has cleared last, and lines of others. -/
lemma reloads_last (hs : reloads pton e old turns = some s) (hdone : ∀ rest ∈ s.todos, rest = [])
    (hsome : ∃ ops ∈ started turns, ops ≠ []) :
    ∃ adds post : List Op, .clear :: adds ∈ started turns ∧ (∀ op ∈ adds, op ∈ post) ∧
      (∀ op ∈ post, ∃ ops ∈ started turns, op ∈ ops) ∧
      ∀ x, excludeIsexcluded pton e x s.list.1 = some retvalOk ↔
        ∃ op ∈ post, Adds pton x op := by
  obtain ⟨hdiv, hrun⟩ := reloads_state hs
  obtain ⟨i, pre, post, adds, hT, hthread, hall, hno⟩ := hdiv.last hdone hsome
  refine ⟨adds, post.map Prod.snd, hthread, hall, fun op hop => ?_, fun x => ?_⟩
  · obtain ⟨a, ha, rfl⟩ := List.mem_map.mp hop
    have hmem : (a.1, a.2) ∈ calls pton e old turns := by
      rw [hT]
      simp [ha]
    exact hdiv.mem hmem
  · rw [hT, List.map_append, List.map_cons, ← List.append_assoc] at hrun
    exact isexcluded_adds hno hrun

lemma not_adds_clear (x : CStr) : ¬ Adds pton x .clear := fun ⟨_, h, _⟩ => by cases h

/-- The list has the lines of a thread. -/
lemma adds_cons {adds post : List Op} (hall : ∀ op ∈ adds, op ∈ post)
    (h : ∃ op ∈ .clear :: adds, Adds pton x op) : ∃ op ∈ post, Adds pton x op := by
  obtain ⟨op, hop, hx⟩ := h
  rcases List.mem_cons.mp hop with rfl | hop
  · exact absurd hx (not_adds_clear x)
  · exact ⟨op, hall op hop, hx⟩

/-- **Reloads converge**: however the calls of any number of reading threads fall between each
other, a lookup finds an address only if the list excluded it before, or a line of one of the files
does. When all threads are done it finds every address that the file of one of them excludes, the
same one for all addresses; so threads on one file leave the list that one of them alone would. -/
theorem reloads_converge (pton : InetPton) (e : Endian) (old : List Op) (turns : List Turn) {s : St}
    (hs : reloads pton e old turns = some s) :
    (∀ x, excludeIsexcluded pton e x s.list.1 = some retvalOk →
      Excludes pton e old x ∨ ∃ ops ∈ started turns, ∃ op ∈ ops, Adds pton x op) ∧
    ((∀ rest ∈ s.todos, rest = []) → (∃ ops ∈ started turns, ops ≠ []) →
      (∃ ops ∈ started turns, ops ≠ [] ∧ ∀ x, (∃ op ∈ ops, Adds pton x op) →
        excludeIsexcluded pton e x s.list.1 = some retvalOk) ∧
      ∀ thread, (∀ ops ∈ started turns, ops = thread) → ∀ x,
        excludeIsexcluded pton e x s.list.1 = some retvalOk ↔ ∃ op ∈ thread, Adds pton x op) := by
  refine ⟨fun x hx => ?_, fun hdone hsome => ?_⟩
  · obtain ⟨hdiv, hrun⟩ := reloads_state hs
    refine (excludes_append hrun hx).imp_right fun ⟨op, hop, hadds⟩ => ?_
    obtain ⟨a, hmem, rfl⟩ := List.mem_map.mp hop
    obtain ⟨ops, hops, hin⟩ := hdiv.mem hmem
    exact ⟨ops, hops, a.2, hin, hadds⟩
  · obtain ⟨adds, post, hthread, hall, hpost, hiff⟩ := reloads_last hs hdone hsome
    refine ⟨⟨_, hthread, List.cons_ne_nil _ _, fun x h => (hiff x).mpr (adds_cons hall h)⟩,
      fun thread hsame x => (hiff x).trans ⟨fun ⟨op, hop, hx⟩ => ?_, fun h => ?_⟩⟩
    · obtain ⟨ops, hops, hin⟩ := hpost op hop
      exact ⟨op, hsame ops hops ▸ hin, hx⟩
    · rw [← hsame _ hthread] at h
      exact adds_cons hall h

/-- A file with one network, and one with another; two threads whose calls fall between each
other's. -/
def crossing : List Turn :=
  [.signal (fun _ => true) (some (ascii "10.0.0.0/8\n").1),
    .signal (fun _ => true) (some (ascii "192.168.0.0/16\n").1), .read 0, .read 1, .read 1,
    .read 0, .read 1, .read 0]

/-- Both have added their lines after the second one has cleared. -/
theorem reloads_converge_run : ∃ s, reloads quadPton .little [] crossing = some s ∧
    excludeIsexcluded quadPton .little (ascii "192.168.7.1") s.list.1 = some retvalOk ∧
    ∃ ops ∈ started crossing, ops ≠ [] ∧ ∀ x, (∃ op ∈ ops, Adds quadPton x op) →
      excludeIsexcluded quadPton .little x s.list.1 = some retvalOk := by
  have hend : (reloads quadPton .little [] crossing).bind (fun s =>
      if s.todos = [[], []] then excludeIsexcluded quadPton .little (ascii "192.168.7.1") s.list.1
      else none) = some retvalOk := by decide +kernel
  obtain ⟨s, hs, hx⟩ := Option.bind_eq_some_iff.mp hend
  split at hx
  · rename_i htodos
    have hdone : ∀ rest ∈ s.todos, rest = [] := by
      rw [htodos]
      decide
    have hsome : ∃ ops ∈ started crossing, ops ≠ [] := by decide +kernel
    exact ⟨s, hs, hx, ((reloads_converge quadPton .little [] crossing hs).2 hdone hsome).1⟩
  · cases hx

end Agentsmith.ExcludeReloads
