import Agentsmith.Lib.Runs
import Mathlib.Logic.Function.Basic

/-!
Networks: components that take one input after another, and messages on their way between
them. A message may be overtaken and may be lost; it is handed over when the component it is
for is ready.
-/

namespace Agentsmith.Lib.Networks

open Agentsmith.Lib.Runs

variable {ι σ ε μ δ : Type*}

/-- The components: the state each starts in, its steps, the messages it sends in a step and
to whom, and the input that a message from one component is for another. What the input also
depends on is a `δ`. -/
structure Protocol (ι σ ε μ δ : Type*) where
  init : ι → σ
  step : ι → σ → ε → σ
  sends : ι → σ → ε → List (ι × μ)
  arrival : ι → ι → μ → δ → ε
  ready : ι → σ → Bool

/-- The messages on their way have a sender and a receiver. -/
structure Net (ι σ μ : Type*) where
  state : ι → σ
  flight : List (ι × ι × μ)

/-- A component takes an input of its own, or a message, or a message is lost. -/
inductive Move (ι ε δ : Type*)
  | own (i : ι) (x : ε)
  | deliver (k : ℕ) (d : δ)
  | lose (k : ℕ)

variable [DecidableEq ι] (P : Protocol ι σ ε μ δ)

def start : Net ι σ μ := ⟨P.init, []⟩

/-- One component takes an input. -/
def act (n : Net ι σ μ) (i : ι) (x : ε) : Net ι σ μ where
  state := Function.update n.state i (P.step i (n.state i) x)
  flight := n.flight ++ (P.sends i (n.state i) x).map fun m => (i, m)

def netStep (n : Net ι σ μ) : Move ι ε δ → Net ι σ μ
  | .own i x => act P n i x
  | .deliver k d =>
    match n.flight[k]? with
    | none => n
    | some (i, j, m) =>
      if P.ready j (n.state j) then
        act P { n with flight := n.flight.eraseIdx k } j (P.arrival i j m d)
      else n
  | .lose k => { n with flight := n.flight.eraseIdx k }

def network (moves : List (Move ι ε δ)) : Net ι σ μ := run (netStep P) (start P) moves

variable {P} {n : Net ι σ μ}

lemma act_self (i : ι) (x : ε) : (act P n i x).state i = P.step i (n.state i) x :=
  Function.update_self ..

lemma act_ne {i j : ι} (h : j ≠ i) (x : ε) : (act P n i x).state j = n.state j :=
  Function.update_of_ne h ..

/-- The input that component `i` takes in a move, if it takes one. -/
lemma netStep_state (n : Net ι σ μ) (m : Move ι ε δ) (i : ι) :
    (netStep P n m).state i = n.state i ∨
      ∃ x, (m = .own i x ∨ ∃ j msg d, x = P.arrival j i msg d) ∧
        (netStep P n m).state i = P.step i (n.state i) x := by
  cases m with
  | own j x =>
    by_cases hij : i = j
    · subst hij
      exact Or.inr ⟨x, Or.inl rfl, act_self i x⟩
    · exact Or.inl (act_ne hij x)
  | deliver k d =>
    simp only [netStep]
    split
    · exact Or.inl rfl
    · rename_i j l msg hk
      split
      · by_cases hil : i = l
        · subst hil
          exact Or.inr ⟨_, Or.inr ⟨j, msg, d, rfl⟩, act_self i _⟩
        · exact Or.inl (act_ne hil _)
      · exact Or.inl rfl
  | lose k => exact Or.inl rfl

/-- **The component rule**: what an input keeps, be it a component's own or a message from
anyone, holds of every component in every run of the network. -/
theorem network_inv {Q : ι → σ → Prop} {ok : ι → ε → Prop} (h0 : ∀ i, Q i (P.init i))
    (hstep : ∀ i s x, Q i s → ok i x → Q i (P.step i s x))
    (harrival : ∀ j i msg d, ok i (P.arrival j i msg d)) {moves : List (Move ι ε δ)}
    (hown : ∀ i x, .own i x ∈ moves → ok i x) (i : ι) : Q i ((network P moves).state i) := by
  have hmoves : ∀ m ∈ moves, ∀ i x, m = .own i x → ok i x := fun m hm i x hx => hown i x (hx ▸ hm)
  refine run_inv (P := fun n : Net ι σ μ => ∀ i, Q i (n.state i)) h0 (fun n m hn hm i => ?_)
    hmoves i
  rcases netStep_state n m i with hsame | ⟨x, hx, hnew⟩
  · rw [hsame]
    exact hn i
  · rw [hnew]
    refine hstep i _ x (hn i) ?_
    rcases hx with hown | ⟨j, msg, d, rfl⟩
    · exact hm i x hown
    · exact harrival j i msg d

/-- Where a message that arrives is not answered, a delivery sends nothing. -/
lemma deliver_flight (hquiet : ∀ j i msg d s, P.sends i s (P.arrival j i msg d) = [])
    (n : Net ι σ μ) (k : ℕ) (d : δ) : (netStep P n (.deliver k d)).flight.Sublist n.flight := by
  simp only [netStep]
  split
  · exact List.Sublist.refl _
  · rename_i i j msg hk
    split
    · have hnone : (act P { n with flight := n.flight.eraseIdx k } j (P.arrival i j msg d)).flight =
          n.flight.eraseIdx k := by
        simp only [act, hquiet, List.map_nil, List.append_nil]
      rw [hnone]
      exact List.eraseIdx_sublist ..
    · exact List.Sublist.refl _

/-! ### What a component has been told -/

variable (P) in
/-- The component that takes an input in a move, and the input. -/
def input (n : Net ι σ μ) : Move ι ε δ → Option (ι × ε)
  | .own i x => some (i, x)
  | .deliver k d =>
    match n.flight[k]? with
    | none => none
    | some (i, j, m) => if P.ready j (n.state j) then some (j, P.arrival i j m d) else none
  | .lose _ => none

variable (P) in
/-- The inputs taken in a run of the network, in order. -/
def inputs (moves : List (Move ι ε δ)) : List (ι × ε) :=
  output (netStep P) (fun n m => (input P n m).toList) (start P) moves

/-- A move: nobody takes an input and no message is new, or one component takes one, of its own
or a message on its way, and the new messages are those it sends. -/
lemma netStep_cases (n : Net ι σ μ) (m : Move ι ε δ) :
    (input P n m = none ∧ (netStep P n m).state = n.state ∧
      ∀ f ∈ (netStep P n m).flight, f ∈ n.flight) ∨
    ∃ i x, input P n m = some (i, x) ∧
      (netStep P n m).state = Function.update n.state i (P.step i (n.state i) x) ∧
      (∀ f ∈ (netStep P n m).flight, f ∈ n.flight ∨ f.1 = i ∧ f.2 ∈ P.sends i (n.state i) x) ∧
      (m = .own i x ∨ ∃ j msg d, x = P.arrival j i msg d ∧ (j, i, msg) ∈ n.flight) := by
  have hsent : ∀ (n : Net ι σ μ) i x, ∀ f ∈ (act P n i x).flight,
      f ∈ n.flight ∨ f.1 = i ∧ f.2 ∈ P.sends i (n.state i) x := by
    intro n i x f hf
    rcases List.mem_append.mp hf with hold | hnew
    · exact Or.inl hold
    · obtain ⟨m, hm, rfl⟩ := List.mem_map.mp hnew
      exact Or.inr ⟨rfl, hm⟩
  cases m with
  | own i x => exact Or.inr ⟨i, x, rfl, rfl, hsent n i x, Or.inl rfl⟩
  | deliver k d =>
    simp only [netStep, input]
    split
    · exact Or.inl ⟨rfl, rfl, fun f hf => hf⟩
    · rename_i i j msg hk
      split
      · refine Or.inr ⟨j, _, rfl, rfl, fun f hf => ?_, Or.inr ⟨i, msg, d, rfl, ?_⟩⟩
        · rcases hsent _ _ _ f hf with hold | hnew
          · exact Or.inl (List.mem_of_mem_eraseIdx hold)
          · exact Or.inr hnew
        · exact List.mem_of_getElem? hk
      · exact Or.inl ⟨rfl, rfl, fun f hf => hf⟩
  | lose k => exact Or.inl ⟨rfl, rfl, fun f hf => List.mem_of_mem_eraseIdx hf⟩

/-- Each component is at what its inputs have made of it. -/
lemma network_own (moves : List (Move ι ε δ)) (i : ι) :
    (network P moves).state i = run (P.step i) (P.init i) (own i (inputs P moves)) := by
  refine run_hist (P := fun ms (n : Net ι σ μ) =>
    n.state i = run (P.step i) (P.init i) (own i (inputs P ms))) rfl (fun ms m hn => ?_) moves
  rw [inputs, output_snoc]
  rcases netStep_cases (P := P) (run (netStep P) (start P) ms) m with
    ⟨hnone, hstate, -⟩ | ⟨j, x, hsome, hstate, -⟩
  · rw [hnone, hstate, Option.toList_none, List.append_nil]
    exact hn
  · rw [hsome, hstate, Option.toList_some]
    by_cases hij : j = i
    · subst hij
      rw [own_snoc_self, run_snoc, Function.update_self, hn]
      rfl
    · rw [own_snoc_ne _ hij, Function.update_of_ne fun h => hij h.symm]
      exact hn

/-- **The evidence rule**: a component's state and the messages on their way are as the inputs
taken so far bear out. What more inputs do not refute and every step keeps, for an input of its own
and for a message that is borne out, holds in every run. -/
theorem network_evidence {Inv : List (ι × ε) → ι → σ → Prop} {Cert : List (ι × ε) → ι → μ → Prop}
    {ok : ι → ε → Prop} (h0 : ∀ i, Inv [] i (P.init i))
    (hother : ∀ T a i s, a.1 ≠ i → Inv T i s → Inv (T ++ [a]) i s)
    (hcert : ∀ T a i m, Cert T i m → Cert (T ++ [a]) i m)
    (hstep : ∀ T i s x, Inv T i s → (ok i x ∨ ∃ j m d, x = P.arrival j i m d ∧ Cert T j m) →
      Inv (T ++ [(i, x)]) i (P.step i s x) ∧ ∀ m ∈ P.sends i s x, Cert (T ++ [(i, x)]) i m.2)
    {moves : List (Move ι ε δ)} (hown : ∀ i x, .own i x ∈ moves → ok i x) :
    (∀ i, Inv (inputs P moves) i ((network P moves).state i)) ∧
      ∀ f ∈ (network P moves).flight, Cert (inputs P moves) f.1 f.2.2 := by
  induction moves using List.reverseRecOn with
  | nil => exact ⟨h0, fun f hf => absurd hf List.not_mem_nil⟩
  | append_singleton ms m ih =>
    obtain ⟨hinv, hflight⟩ := ih fun i x hx => hown i x (List.mem_append_left _ hx)
    have hnet : network P (ms ++ [m]) = netStep P (network P ms) m := run_snoc ms m
    have hinputs : inputs P (ms ++ [m]) = inputs P ms ++ (input P (network P ms) m).toList :=
      output_snoc ms m
    rw [hnet, hinputs]
    rcases netStep_cases (P := P) (network P ms) m with
      ⟨hnone, hstate, hkeep⟩ | ⟨i, x, hsome, hstate, hsent, hfrom⟩
    · rw [hnone, hstate, Option.toList_none, List.append_nil]
      exact ⟨hinv, fun f hf => hflight f (hkeep f hf)⟩
    · rw [hsome, hstate, Option.toList_some]
      have hx : ok i x ∨ ∃ j msg d, x = P.arrival j i msg d ∧ Cert (inputs P ms) j msg := by
        rcases hfrom with rfl | ⟨j, msg, d, hx, hmem⟩
        · exact Or.inl (hown i x (by simp))
        · exact Or.inr ⟨j, msg, d, hx, hflight _ hmem⟩
      obtain ⟨hself, hcerts⟩ := hstep _ i _ x (hinv i) hx
      refine ⟨fun j => ?_, fun f hf => ?_⟩
      · by_cases hij : j = i
        · subst hij
          rw [Function.update_self]
          exact hself
        · rw [Function.update_of_ne hij]
          exact hother _ _ _ _ (fun h => hij h.symm) (hinv j)
      · rcases hsent f hf with hold | ⟨rfl, hnew⟩
        · exact hcert _ _ _ _ (hflight f hold)
        · exact hcerts _ hnew

lemma mem_inputs {moves : List (Move ι ε δ)} {i : ι} {x : ε} (h : .own i x ∈ moves) :
    (i, x) ∈ inputs P moves := by
  obtain ⟨pre, post, rfl⟩ := List.append_of_mem h
  rw [inputs, output_append]
  exact List.mem_append_right _ (List.mem_append_left _ (List.mem_singleton_self _))

/-- An input is the component's own or a message from another. -/
lemma inputs_cases {moves : List (Move ι ε δ)} {a : ι × ε} (h : a ∈ inputs P moves) :
    .own a.1 a.2 ∈ moves ∨ ∃ j msg d, a.2 = P.arrival j a.1 msg d := by
  obtain ⟨m, hm, n, ha⟩ := mem_output h
  have hsome := Option.mem_toList.mp ha
  rcases netStep_cases (P := P) n m with ⟨hnone, -⟩ | ⟨i, x, hx, -, -, hfrom⟩
  · rw [hnone] at hsome
    cases hsome
  · obtain rfl := Option.some.inj (hx.symm.trans hsome)
    rcases hfrom with rfl | ⟨j, msg, d, hmsg, -⟩
    · exact Or.inl hm
    · exact Or.inr ⟨j, msg, d, hmsg⟩

/-! ### What becomes of a message -/

variable (P) in
/-- The messages sent in a move, each with its sender. -/
def sent (n : Net ι σ μ) (m : Move ι ε δ) : List (ι × ι × μ) :=
  (input P n m).toList.flatMap fun a => (P.sends a.1 (n.state a.1) a.2).map fun x => (a.1, x)

variable (P) in
/-- The message handed over in a move. -/
def handed (n : Net ι σ μ) : Move ι ε δ → List (ι × ι × μ)
  | .deliver k _ => n.flight[k]?.toList.filter fun f => P.ready f.2.1 (n.state f.2.1)
  | _ => []

/-- The message lost in a move. -/
def lost (n : Net ι σ μ) : Move ι ε δ → List (ι × ι × μ)
  | .lose k => n.flight[k]?.toList
  | _ => []

lemma eraseIdx_perm {α : Type*} (l : List α) (k : ℕ) :
    l.Perm (l.eraseIdx k ++ l[k]?.toList) := by
  induction l generalizing k with
  | nil => simp
  | cons a l ih =>
    rcases k with _ | k
    · simpa using (List.perm_append_singleton a l).symm
    · simpa using ih k

/-- What is on its way and what is sent is on its way afterwards, or is handed over or lost. -/
lemma netStep_flight (n : Net ι σ μ) (m : Move ι ε δ) :
    (n.flight ++ sent P n m).Perm ((netStep P n m).flight ++ (handed P n m ++ lost n m)) := by
  cases m with
  | own i x => simp [netStep, act, sent, handed, lost, input]
  | deliver k d =>
    have herase := eraseIdx_perm n.flight k
    rcases hk : n.flight[k]? with _ | ⟨i, j, m⟩
    · simp [netStep, sent, handed, lost, input, hk]
    · rw [hk] at herase
      by_cases hready : P.ready j (n.state j) = true
      · simp only [netStep, act, sent, handed, lost, input, hk, hready, if_true, Option.toList_some,
          List.flatMap_singleton, List.filter_cons_of_pos, List.filter_nil, List.append_nil,
          List.append_assoc]
        rw [Option.toList_some] at herase
        refine (herase.append_right _).trans ?_
        rw [List.append_assoc]
        exact List.perm_append_comm.append_left _
      · simp [netStep, sent, handed, lost, input, hk, hready]
  | lose k =>
    simp only [netStep, sent, handed, lost, input, Option.toList_none, List.flatMap_nil,
      List.append_nil, List.nil_append]
    exact eraseIdx_perm n.flight k

/-- **Conservation**: each message sent is on its way, or has been handed over or lost, once. -/
theorem network_conserves (moves : List (Move ι ε δ)) :
    (output (netStep P) (sent P) (start P) moves).Perm ((network P moves).flight ++
      (output (netStep P) (handed P) (start P) moves ++
        output (netStep P) lost (start P) moves)) := by
  refine run_hist (P := fun ms (n : Net ι σ μ) => (output (netStep P) (sent P) (start P) ms).Perm
    (n.flight ++ (output (netStep P) (handed P) (start P) ms ++
      output (netStep P) lost (start P) ms))) (List.Perm.refl _) (fun ms m ih => ?_) moves
  have hstep := netStep_flight (P := P) (run (netStep P) (start P) ms) m
  rw [output_snoc, output_snoc, output_snoc]
  classical
  rw [List.perm_iff_count] at ih hstep ⊢
  intro f
  have hf := hstep f
  have hold := ih f
  simp only [List.count_append] at hf hold ⊢
  omega

lemma filter_sender (i j : ι) (l : List (ι × μ)) :
    (l.map fun x => (j, x)).filter (fun f => f.1 = i) =
      if j = i then l.map (fun x => (i, x)) else [] := by
  split
  · rename_i hij
    subst hij
    rw [List.filter_eq_self]
    intro f hf
    obtain ⟨x, -, rfl⟩ := List.mem_map.mp hf
    exact decide_eq_true rfl
  · rename_i hij
    rw [List.filter_eq_nil_iff]
    intro f hf
    obtain ⟨x, -, rfl⟩ := List.mem_map.mp hf
    simpa using hij

/-- What a component sends is what it makes of its inputs. -/
lemma sent_own (moves : List (Move ι ε δ)) (i : ι) :
    (output (netStep P) (sent P) (start P) moves).filter (fun f => f.1 = i) =
      (output (P.step i) (P.sends i) (P.init i) (own i (inputs P moves))).map fun x => (i, x) := by
  induction moves using List.reverseRecOn with
  | nil => rfl
  | append_singleton ms m ih =>
    have hstate : (run (netStep P) (start P) ms).state i =
        run (P.step i) (P.init i) (own i (inputs P ms)) := network_own ms i
    have hinputs : inputs P (ms ++ [m]) =
        inputs P ms ++ (input P (run (netStep P) (start P) ms) m).toList := output_snoc ms m
    rw [output_snoc, List.filter_append, ih, hinputs, sent]
    rcases input P (run (netStep P) (start P) ms) m with _ | ⟨j, x⟩
    · simp
    · rw [Option.toList_some, List.flatMap_singleton, filter_sender]
      by_cases hij : j = i
      · subst hij
        rw [if_pos rfl, own_snoc_self, output_snoc, ← hstate, List.map_append]
      · rw [if_neg hij, own_snoc_ne _ hij, List.append_nil]

end Agentsmith.Lib.Networks
