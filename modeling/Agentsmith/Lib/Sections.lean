import Agentsmith.Lib.Runs

/-!
Threads that share something under one mutex.

A call is a section: a thread takes the mutex, makes one access after the other to what is shared,
and gives the mutex back with the last of them. Steps of other threads may come in between, but
none of them gets into a section of its own. So the calls may be taken for atomic, in the order in
which the mutex was taken.
-/

namespace Agentsmith.Lib.Sections

open Agentsmith.Lib.Runs

variable {ι σ κ ω : Type*}

/-- Where the section of a call begins, and what is done at an access: what becomes of the shared
state, and where the section goes on, unless this was the last one. -/
structure Code (σ κ ω : Type*) where
  entry : ω → κ
  access : κ → σ → σ × Option κ

/-- The shared state, and the thread that has the mutex with its place in the section. -/
structure St (ι σ κ : Type*) where
  shared : σ
  holder : Option (ι × κ)

/-- A thread tries to take the mutex for a call, or it goes on to its next access. -/
inductive Move (ι ω : Type*)
  | lock (i : ι) (call : ω)
  | access (i : ι)

section

variable (C : Code σ κ ω) [DecidableEq ι]

/-- A thread that finds the mutex taken waits, and one that is in no section makes no access. -/
def step (s : St ι σ κ) : Move ι ω → St ι σ κ
  | .lock i call =>
    match s.holder with
    | none => { s with holder := some (i, C.entry call) }
    | some _ => s
  | .access i =>
    match s.holder with
    | none => s
    | some (j, k) =>
      if i = j then ⟨(C.access k s.shared).1, (C.access k s.shared).2.map fun k => (j, k)⟩ else s

/-- The call for which a thread gets the mutex. -/
def taken (s : St ι σ κ) : Move ι ω → List (ι × ω)
  | .lock i call => if s.holder.isNone then [(i, call)] else []
  | .access _ => []

/-- The calls in the order in which the mutex has been taken for them. -/
def sections (s : St ι σ κ) (moves : List (Move ι ω)) : List (ι × ω) :=
  output (step C) taken s moves

end

/-- From a place in a section to its end, by so many accesses. -/
inductive Ends (access : κ → σ → σ × Option κ) : κ → σ → ℕ → σ → Prop
  | last {k : κ} {s s' : σ} (h : access k s = (s', none)) : Ends access k s 1 s'
  | more {k k' : κ} {s t s' : σ} {n : ℕ} (h : access k s = (t, some k'))
      (hrest : Ends access k' t n s') : Ends access k s (n + 1) s'

variable {C : Code σ κ ω} {effect : σ → ω → σ} {Inv : σ → Prop} {s₀ : σ}

/-- What is so when a section, let alone, comes to an end. -/
structure Ordered (C : Code σ κ ω) (final : σ) (s : St ι σ κ) : Prop where
  free : s.holder = none → s.shared = final
  busy : ∀ i k, s.holder = some (i, k) → ∃ n, Ends C.access k s.shared n final

lemma ordered_lock {final : σ} {s : St ι σ κ} {i : ι} {call : ω} (h : Ordered C final s)
    (hfree : s.holder = none)
    (hends : ∃ n, Ends C.access (C.entry call) final n (effect final call)) :
    Ordered C (effect final call) ⟨s.shared, some (i, C.entry call)⟩ where
  free := fun hnone => by cases hnone
  busy := by
    intro j k hk
    cases hk
    rw [h.free hfree]
    exact hends

lemma ordered_access {final : σ} {s : St ι σ κ} {j : ι} {k : κ} (h : Ordered C final s)
    (hbusy : s.holder = some (j, k)) :
    Ordered C final ⟨(C.access k s.shared).1, (C.access k s.shared).2.map fun k => (j, k)⟩ := by
  obtain ⟨n, hends⟩ := h.busy j k hbusy
  cases hends with
  | last hlast =>
    rw [hlast]
    exact ⟨fun _ => rfl, fun i q hq => by cases hq⟩
  | more hmore hrest =>
    rw [hmore]
    refine ⟨fun hnone => (by cases hnone), fun i q hq => ?_⟩
    cases hq
    exact ⟨_, hrest⟩

variable [DecidableEq ι]

/-- A step of a thread: only one that gets the mutex changes what the sections will end in. -/
lemma ordered_step {final : σ} {s : St ι σ κ} (h : Ordered C final s) (hinv : Inv final)
    (hends : ∀ s call, Inv s → ∃ n, Ends C.access (C.entry call) s n (effect s call))
    (m : Move ι ω) :
    Ordered C (run effect final ((taken s m).map Prod.snd)) (step C s m) := by
  rcases hs : s.holder with _ | ⟨j, k⟩
  · cases m with
    | lock i call =>
      have htaken : taken s (.lock i call) = [(i, call)] := by rw [taken, hs]; rfl
      rw [htaken, step, hs]
      exact ordered_lock h hs (hends _ call hinv)
    | access i =>
      rw [step, hs]
      exact h
  · cases m with
    | lock i call =>
      have htaken : taken s (.lock i call) = [] := by rw [taken, hs]; rfl
      rw [htaken, step, hs]
      exact h
    | access i =>
      rw [step, hs]
      dsimp only
      split
      · exact ordered_access h hs
      · exact h

/-- **Calls are atomic**: whatever the threads do and however their steps interleave, the shared
state is what the calls have made of it one after the other, in the order in which the mutex was
taken for them; a call still on its way will make this of it. -/
theorem sections_atomic (hinit : Inv s₀) (hinv : ∀ s call, Inv s → Inv (effect s call))
    (hends : ∀ s call, Inv s → ∃ n, Ends C.access (C.entry call) s n (effect s call))
    (moves : List (Move ι ω)) :
    Ordered C (run effect s₀ ((sections C ⟨s₀, none⟩ moves).map Prod.snd))
      (run (step C) (⟨s₀, none⟩ : St ι σ κ) moves) := by
  refine run_hist (P := fun ms (s : St ι σ κ) =>
    Ordered C (run effect s₀ ((sections C ⟨s₀, none⟩ ms).map Prod.snd)) s)
    ⟨fun _ => rfl, fun i k hk => by cases hk⟩ (fun ms m ih => ?_) moves
  have hfinal : Inv (run effect s₀ ((sections C ⟨s₀, none⟩ ms).map Prod.snd)) :=
    run_all hinit hinv _
  rw [sections, output_snoc, ← sections, List.map_append, run_append]
  exact ordered_step ih hfinal hends m

/-- An access of the thread. -/
def Move.isAccess (i : ι) : Move ι ω → Bool
  | .access j => j = i
  | .lock _ _ => false

/-- A thread that makes accesses enough comes to the end of its section, whatever the others do
meanwhile. -/
lemma leaves {k : κ} {s s' : σ} {n : ℕ} (h : Ends C.access k s n s') (i : ι)
    {moves : List (Move ι ω)} (hcount : n ≤ moves.countP (Move.isAccess i)) :
    ∃ pre post, moves = pre ++ post ∧ run (step C) ⟨s, some (i, k)⟩ pre = ⟨s', none⟩ := by
  induction moves generalizing k s n with
  | nil => cases h <;> exact absurd hcount (by simp)
  | cons m ms ih =>
    cases m with
    | lock j call =>
      have hrest : n ≤ ms.countP (Move.isAccess i) := by simpa [Move.isAccess] using hcount
      obtain ⟨pre, post, rfl, hrun⟩ := ih h hrest
      exact ⟨.lock j call :: pre, post, rfl, hrun⟩
    | access j =>
      by_cases hij : j = i
      · subst hij
        have hstep : step C ⟨s, some (j, k)⟩ (.access j) =
            ⟨(C.access k s).1, (C.access k s).2.map fun k => (j, k)⟩ := if_pos rfl
        cases h with
        | last hlast =>
          refine ⟨[.access j], ms, rfl, ?_⟩
          rw [run_cons, hstep, hlast]
          rfl
        | more hmore hrest =>
          rw [List.countP_cons_of_pos (by simp [Move.isAccess])] at hcount
          obtain ⟨pre, post, rfl, hrun⟩ := ih hrest (Nat.le_of_succ_le_succ hcount)
          refine ⟨.access j :: pre, post, rfl, ?_⟩
          rw [run_cons, hstep, hmore]
          exact hrun
      · have hrest : n ≤ ms.countP (Move.isAccess i) := by
          simpa [Move.isAccess, hij] using hcount
        obtain ⟨pre, post, rfl, hrun⟩ := ih h hrest
        refine ⟨.access j :: pre, post, rfl, ?_⟩
        have hstep : step C ⟨s, some (i, k)⟩ (.access j) = ⟨s, some (i, k)⟩ := if_neg hij
        rw [run_cons, hstep]
        exact hrun

/-- So it is with every thread that is in a section. -/
lemma Ordered.leaves {final : σ} {s : St ι σ κ} {i : ι} {k : κ} (h : Ordered C final s)
    (hbusy : s.holder = some (i, k)) :
    ∃ n, ∀ moves : List (Move ι ω), n ≤ moves.countP (Move.isAccess i) →
      ∃ pre post, moves = pre ++ post ∧ run (step C) s pre = ⟨final, none⟩ := by
  obtain ⟨n, hends⟩ := h.busy i k hbusy
  refine ⟨n, fun moves hcount => ?_⟩
  obtain ⟨pre, post, rfl, hrun⟩ := Sections.leaves (C := C) hends i hcount
  exact ⟨pre, post, rfl, by rw [← hrun, ← hbusy]⟩

end Agentsmith.Lib.Sections
