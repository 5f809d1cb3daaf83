import Mathlib.Tactic.TypeStar
import Mathlib.Tactic.Lemma
import Mathlib.Data.List.Basic
import Mathlib.Data.List.Induction
import Mathlib.Data.Nat.Notation

/-!
Runs of a deterministic system: a state, a list of events, and one step for each event.
-/

namespace Agentsmith.Lib.Runs

variable {σ τ ε : Type*}

/-- The state after the events of a list, taken in order. -/
def run (step : σ → ε → σ) (s : σ) (es : List ε) : σ := es.foldl step s

variable {step : σ → ε → σ} {s : σ}

@[simp] lemma run_nil : run step s [] = s := rfl
@[simp] lemma run_cons (e : ε) (es : List ε) :
    run step s (e :: es) = run step (step s e) es := rfl
lemma run_append (as bs : List ε) :
    run step s (as ++ bs) = run step (run step s as) bs := by
  simp [run, List.foldl_append]
lemma run_snoc (es : List ε) (e : ε) : run step s (es ++ [e]) = step (run step s es) e := by
  simp [run_append]

/-- **The invariant rule**: what holds at the start and is kept by every permitted event
holds after every run of permitted events. -/
theorem run_inv {P : σ → Prop} {ok : ε → Prop} (h0 : P s)
    (hstep : ∀ s e, P s → ok e → P (step s e)) {es : List ε} (hok : ∀ e ∈ es, ok e) :
    P (run step s es) := by
  induction es using List.reverseRecOn with
  | nil => exact h0
  | append_singleton es e ih =>
    rw [run_snoc]
    exact hstep _ _ (ih fun x hx => hok x (by simp [hx])) (hok e (by simp))

/-- The invariant rule where every event is permitted. -/
lemma run_all {P : σ → Prop} (h0 : P s) (hstep : ∀ s e, P s → P (step s e)) (es : List ε) :
    P (run step s es) :=
  have hok : ∀ e ∈ es, True := fun _ _ => trivial
  run_inv h0 (fun s e h _ => hstep s e h) hok

/-- **The history rule**: an invariant that also speaks of the events taken so far. -/
theorem run_hist {P : List ε → σ → Prop} (h0 : P [] s)
    (hstep : ∀ es e, P es (run step s es) → P (es ++ [e]) (step (run step s es) e))
    (es : List ε) : P es (run step s es) := by
  induction es using List.reverseRecOn with
  | nil => exact h0
  | append_singleton es e ih =>
    rw [run_snoc]
    exact hstep _ _ ih

/-- **The simulation rule**: a relation that holds at the start and that one permitted step
on both sides keeps holds after every run of permitted events. -/
theorem run_sim {R : σ → τ → Prop} {step' : τ → ε → τ} {t : τ} {ok : ε → Prop} (h0 : R s t)
    (hstep : ∀ s t e, R s t → ok e → R (step s e) (step' t e)) {es : List ε}
    (hok : ∀ e ∈ es, ok e) : R (run step s es) (run step' t es) := by
  induction es using List.reverseRecOn with
  | nil => exact h0
  | append_singleton es e ih =>
    rw [run_snoc, run_snoc]
    exact hstep _ _ _ (ih fun x hx => hok x (by simp [hx])) (hok e (by simp))

/-- **The variant rule**: a measure that nothing raises, and that every turn lowers until the
goal is reached, bounds the turns it takes to reach the goal. -/
theorem run_variant {P G : σ → Prop} {ok : ε → Prop} {turn : ε → Bool} {m : σ → ℕ}
    (hP : ∀ s e, P s → ok e → P (step s e)) (hG : ∀ s e, P s → ok e → G s → G (step s e))
    (hm : ∀ s e, P s → ok e → ¬ G s → m (step s e) + (if turn e then 1 else 0) ≤ m s)
    (hzero : ∀ s, P s → m s = 0 → G s) (h : P s) {es : List ε} (hok : ∀ e ∈ es, ok e)
    (hturns : m s ≤ es.countP turn) : G (run step s es) := by
  induction es generalizing s with
  | nil => exact hzero s h (Nat.le_zero.mp hturns)
  | cons e es ih =>
    have he := hok e List.mem_cons_self
    have hrest : ∀ x ∈ es, ok x := fun x hx => hok x (List.mem_cons_of_mem _ hx)
    rw [run_cons]
    by_cases hgoal : G s
    · have hboth := run_inv (P := fun s => P s ∧ G s) ⟨hP s e h he, hG s e h he hgoal⟩
        (fun s e hs he => ⟨hP s e hs.1 he, hG s e hs.1 he hs.2⟩) hrest
      exact hboth.2
    · have hlow := hm s e h he hgoal
      rw [List.countP_cons] at hturns
      exact ih (hP s e h he) hrest (by omega)

/-! ### Steps that may have no result -/

section

variable {part : Option σ → ε → Option σ} {o : Option σ}

/-- The last step of a run with a result. -/
lemma run_snoc_some (hnone : ∀ e, part none e = none) {es : List ε} {e : ε} {s' : σ}
    (h : run part o (es ++ [e]) = some s') :
    ∃ s, run part o es = some s ∧ part (some s) e = some s' := by
  rw [run_snoc] at h
  rcases hs : run part o es with _ | s
  · rw [hs, hnone] at h
    cases h
  · rw [hs] at h
    exact ⟨s, rfl, h⟩

/-- **The partial history rule**: a run with a result has one after each of its steps. -/
theorem run_some_hist (hnone : ∀ e, part none e = none) {P : List ε → σ → Prop}
    (h0 : ∀ s, o = some s → P [] s)
    (hstep : ∀ es e s s', P es s → part (some s) e = some s' → P (es ++ [e]) s') {es : List ε}
    {s : σ} (h : run part o es = some s) : P es s := by
  induction es using List.reverseRecOn generalizing s with
  | nil => exact h0 s h
  | append_singleton es e ih =>
    obtain ⟨q, hq, hs⟩ := run_snoc_some hnone h
    exact hstep es e q s (ih hq) hs

lemma run_isSome_left (hnone : ∀ e, part none e = none) {as bs : List ε}
    (h : (run part o (as ++ bs)).isSome) : (run part o as).isSome := by
  induction bs using List.reverseRecOn with
  | nil => rwa [List.append_nil] at h
  | append_singleton bs e ih =>
    obtain ⟨s', hs'⟩ := Option.isSome_iff_exists.mp h
    rw [← List.append_assoc] at hs'
    obtain ⟨s, hs, -⟩ := run_snoc_some hnone hs'
    exact ih (by rw [hs]; rfl)

end

/-- What holds before each event of a list, event by event. -/
lemma forall_split_cons {P : List ε → ε → Prop} (e : ε) (es : List ε) :
    (∀ pre f post, e :: es = pre ++ f :: post → P pre f) ↔
      P [] e ∧ ∀ pre f post, es = pre ++ f :: post → P (e :: pre) f := by
  refine ⟨fun h => ⟨h [] e es rfl, fun pre f post hes => h (e :: pre) f post (by rw [hes]; rfl)⟩,
    fun ⟨h, ht⟩ pre f post hes => ?_⟩
  rcases pre with _ | ⟨g, pre⟩
  · obtain ⟨rfl, -⟩ := List.cons.inj hes
    exact h
  · obtain ⟨rfl, htail⟩ := List.cons.inj hes
    exact ht pre f post htail

/-- The same, where more has been appended. -/
lemma forall_split_append {P : List ε → ε → Prop} (es fs : List ε) :
    (∀ pre f post, es ++ fs = pre ++ f :: post → P pre f) ↔
      (∀ pre f post, es = pre ++ f :: post → P pre f) ∧
        ∀ pre f post, fs = pre ++ f :: post → P (es ++ pre) f := by
  induction es generalizing P with
  | nil => exact ⟨fun h => ⟨fun pre f post hes => by simp at hes, h⟩, fun h => h.2⟩
  | cons e es ih => rw [List.cons_append, forall_split_cons, forall_split_cons, ih, and_assoc]; rfl

/-- The same, from the end of the list. -/
lemma forall_split_snoc {P : List ε → ε → Prop} (es : List ε) (e : ε) :
    (∀ pre f post, es ++ [e] = pre ++ f :: post → P pre f) ↔
      (∀ pre f post, es = pre ++ f :: post → P pre f) ∧ P es e := by
  rw [forall_split_append, forall_split_cons, List.append_nil]
  exact and_congr_right fun _ => and_iff_left fun pre f post h => by simp at h

/-- The same, by the number of events before. -/
lemma forall_split_of_take {P : List ε → ε → Prop} {es : List ε}
    (h : ∀ k (hk : k < es.length), P (es.take k) es[k]) (pre : List ε) (e : ε) (post : List ε)
    (hes : es = pre ++ e :: post) : P pre e := by
  subst hes
  have hpre := h pre.length (by simp)
  rw [List.take_left] at hpre
  simpa using hpre

/-! ### Since -/

/-- In the run there was an event with `A`, and none with `D` since. Both may look at the
state in which the event is taken. -/
def Since (step : σ → ε → σ) (A D : σ → ε → Prop) (s : σ) (es : List ε) : Prop :=
  ∃ pre e post, es = pre ++ e :: post ∧ A (run step s pre) e ∧
    ∀ a d b, post = a ++ d :: b → ¬ D (run step s (pre ++ e :: a)) d

lemma not_since_nil {A D : σ → ε → Prop} : ¬ Since step A D s [] := by
  rintro ⟨pre, e, post, h, -⟩
  simp at h

lemma since_snoc {A D : σ → ε → Prop} (es : List ε) (e : ε) :
    Since step A D s (es ++ [e]) ↔
      A (run step s es) e ∨ (Since step A D s es ∧ ¬ D (run step s es) e) := by
  refine ⟨?_, ?_⟩
  · rintro ⟨pre, e', post, h, hA, hD⟩
    rcases List.eq_nil_or_concat' post with rfl | ⟨post, d, rfl⟩
    · obtain ⟨rfl, he⟩ := List.append_inj' h rfl
      obtain rfl : e = e' := by simpa using he
      exact Or.inl hA
    · rw [← List.cons_append, ← List.append_assoc] at h
      obtain ⟨rfl, he⟩ := List.append_inj' h rfl
      obtain rfl : e = d := by simpa using he
      refine Or.inr ⟨⟨pre, e', post, rfl, hA, fun a d b hp => ?_⟩, hD post e [] rfl⟩
      exact hD a d (b ++ [e]) (by rw [hp]; simp)
  · rintro (hA | ⟨⟨pre, e', post, rfl, hA, hD⟩, hn⟩)
    · exact ⟨es, e, [], rfl, hA, fun a d b h => by simp at h⟩
    · refine ⟨pre, e', post ++ [e], by simp, hA, fun a d b h => ?_⟩
      rcases List.eq_nil_or_concat' b with rfl | ⟨b, c, rfl⟩
      · obtain ⟨rfl, he⟩ := List.append_inj' h rfl
        obtain rfl : e = d := by simpa using he
        exact hn
      · rw [← List.cons_append, ← List.append_assoc] at h
        obtain ⟨hp, -⟩ := List.append_inj' h rfl
        exact hD a d b hp

/-- **The provenance rule**: a mark that is not there at the start, that only events with `A` set
and that does not outlast an event with `D`, stands for an `A` and no `D` since. -/
theorem since_of_mark {A D : σ → ε → Prop} {K : List ε → Prop} {M : σ → Prop} (h0 : ¬ M s)
    (hK : ∀ es e, K (es ++ [e]) → K es)
    (hstep : ∀ es e, K (es ++ [e]) → M (step (run step s es) e) →
      A (run step s es) e ∨ (M (run step s es) ∧ ¬ D (run step s es) e))
    {es : List ε} (h : K es) (hm : M (run step s es)) : Since step A D s es := by
  induction es using List.reverseRecOn with
  | nil => exact absurd hm h0
  | append_singleton es e ih =>
    rw [run_snoc] at hm
    rw [since_snoc]
    exact (hstep es e h hm).imp_right fun ⟨hold, hno⟩ => ⟨ih (hK es e h) hold, hno⟩

/-! ### What a run puts out -/

/-- What the steps of a run put out, in order. -/
def output {α : Type*} (step : σ → ε → σ) (out : σ → ε → List α) (s : σ) : List ε → List α
  | [] => []
  | e :: es => out s e ++ output step out (step s e) es

lemma output_append {α : Type*} {out : σ → ε → List α} (as bs : List ε) :
    output step out s (as ++ bs) =
      output step out s as ++ output step out (run step s as) bs := by
  induction as generalizing s with
  | nil => rfl
  | cons a as ih =>
    rw [List.cons_append, output, ih, output, List.append_assoc]
    rfl

lemma output_snoc {α : Type*} {out : σ → ε → List α} (es : List ε) (e : ε) :
    output step out s (es ++ [e]) = output step out s es ++ out (run step s es) e := by
  rw [output_append, output, output, List.append_nil]

lemma mem_output {α : Type*} {out : σ → ε → List α} {a : α} {es : List ε}
    (h : a ∈ output step out s es) : ∃ e ∈ es, ∃ q, a ∈ out q e := by
  induction es generalizing s with
  | nil => cases h
  | cons e es ih =>
    rcases List.mem_append.mp h with h | h
    · exact ⟨e, List.mem_cons_self, s, h⟩
    · obtain ⟨f, hf, hq⟩ := ih h
      exact ⟨f, List.mem_cons_of_mem _ hf, hq⟩

/-! ### The events of one of many -/

section

variable {ι α : Type*} [DecidableEq ι]

/-- The events of one component among those of all. -/
def own (i : ι) (T : List (ι × α)) : List α :=
  T.filterMap fun a => if a.1 = i then some a.2 else none

lemma own_append (i : ι) (T U : List (ι × α)) : own i (T ++ U) = own i T ++ own i U :=
  List.filterMap_append

lemma own_cons_self (i : ι) (x : α) (T : List (ι × α)) : own i ((i, x) :: T) = x :: own i T := by
  simp [own]

lemma own_snoc_self (i : ι) (T : List (ι × α)) (x : α) :
    own i (T ++ [(i, x)]) = own i T ++ [x] := by
  simp [own]

lemma own_snoc_ne {i : ι} (T : List (ι × α)) {a : ι × α} (h : a.1 ≠ i) :
    own i (T ++ [a]) = own i T := by
  simp [own, h]

lemma mem_own {i : ι} {x : α} {T : List (ι × α)} : x ∈ own i T ↔ (i, x) ∈ T := by
  simp [own]

/-- The last event with `C`. -/
lemma exists_last {C : α → Prop} {T : List α} (h : ∃ a ∈ T, C a) :
    ∃ pre a post, T = pre ++ a :: post ∧ C a ∧ ∀ b ∈ post, ¬ C b := by
  induction T using List.reverseRecOn with
  | nil =>
    obtain ⟨a, ha, -⟩ := h
    cases ha
  | append_singleton T b ih =>
    by_cases hb : C b
    · exact ⟨T, b, [], rfl, hb, fun _ hx => absurd hx List.not_mem_nil⟩
    · obtain ⟨a, ha, hC⟩ := h
      have hT : a ∈ T := by
        rcases List.mem_append.mp ha with hold | hnew
        · exact hold
        · exact absurd (List.mem_singleton.mp hnew ▸ hC) hb
      obtain ⟨pre, c, post, rfl, hc, hpost⟩ := ih ⟨a, hT, hC⟩
      refine ⟨pre, c, post ++ [b], by simp, hc, fun x hx => ?_⟩
      rcases List.mem_append.mp hx with hold | hnew
      · exact hpost x hold
      · exact List.mem_singleton.mp hnew ▸ hb

/-- **The last to begin**: where each component has at most one event with `C`, its first one, the
component with the last of them has all its other events after that one, with no other `C`. -/
theorem last_begins {C : α → Prop} {T : List (ι × α)}
    (hfirst : ∀ i a as, own i T = a :: as → ∀ b ∈ as, ¬ C b) (h : ∃ a ∈ T, C a.2) :
    ∃ i c pre post, T = pre ++ (i, c) :: post ∧ C c ∧ (∀ a ∈ post, ¬ C a.2) ∧
      own i T = c :: own i post := by
  obtain ⟨pre, ⟨i, c⟩, post, rfl, hc, hpost⟩ := exists_last (C := fun a : ι × α => C a.2) h
  have hown : own i (pre ++ (i, c) :: post) = own i pre ++ c :: own i post := by
    rw [own_append, own_cons_self]
  refine ⟨i, c, pre, post, rfl, hc, hpost, ?_⟩
  rcases hp : own i pre with _ | ⟨a, as⟩
  · rw [hown, hp, List.nil_append]
  · rw [hp, List.cons_append] at hown
    exact absurd hc (hfirst i a _ hown c (by simp))

end

end Agentsmith.Lib.Runs
