import Mathlib.Data.List.Nodup
import Mathlib.Data.List.Pairwise
import Agentsmith.ConfigRepeat

/-!
The options that hold one value.

Each has a place of its own in the configuration, and what the sanitizing makes of a place depends
on that place alone. So options that are set once may be set in any order, and the first one that
is set brings every place into its range, also the one for which there is no default.
-/

namespace Agentsmith.ConfigScalars

open Agentsmith.Lib.CStrings Agentsmith.Globals Agentsmith.Config Agentsmith.ConfigRepeat

variable {α : Type*} {cfg : ConfigT α} {token value : CStr}

/-- The ranges in which the sanitizing leaves the options. -/
structure InRange (cfg : ConfigT α) : Prop where
  maxinconnections : 1 ≤ cfg.int32 .maxinconnections ∧ cfg.int32 .maxinconnections ≤ 256
  serverBacklog : 1 ≤ cfg.int32 .serverBacklog
  serverTimeout : 1 ≤ cfg.int32 .serverTimeout
  informRetryWait : 1 ≤ cfg.int32 .informRetryWait
  actionThreshold : 1 ≤ cfg.int32 .actionThreshold
  timeInterval : 1 ≤ cfg.int64 .timeInterval
  purgeAfter : 1 ≤ cfg.int64 .purgeAfter
  inform : cfg.int32 .inform = 0 ∨ cfg.int32 .inform = 1
  server : cfg.int32 .server = 0 ∨ cfg.int32 .server = 1

/-- A sequence of calls of `_set_config_option`. -/
def setOptions (getaddrinfo : CStr → CStr → Option α) (cfg : ConfigT α)
    (calls : List (CStr × CStr)) : Option (ConfigT α) :=
  calls.foldlM (fun cfg c => setConfigOption getaddrinfo cfg c.1 c.2) cfg

/-- No option is set twice. Names that are not known may come as often as they like. -/
def Distinct (calls : List (CStr × CStr)) : Prop :=
  calls.Pairwise fun c d => c.1 = d.1 → lookup cfgcfg c.1 = none

/-! ### Sanitizing -/

/-- What the sanitizing makes of the value in a place. -/
def place32 (o : Int32Option) (n : Int32) : Int32 :=
  match o with
  | .serverBacklog => if n < 1 then 64 else n
  | .maxinconnections =>
    let n := if n > maxInconn then maxInconn else n
    if n < 1 then 5 else n
  | .serverTimeout => if n < 1 then 5 else n
  | .informRetryWait => if n < 1 then 3 else n
  | .inform => if n ≠ 0 then 1 else 0
  | .server => if n ≠ 0 then 1 else 0
  | .actionThreshold => if n < 1 then 3 else n
  | .informRetry => n
  | .remoteAuthoritative => n

def place64 (o : Int64Option) (n : Int64) : Int64 :=
  match o with
  | .timeInterval => if n < 1 then 60 else n
  | .purgeAfter => if n < 1 then 3600 else n

/-- **Every place is sanitized by itself.** -/
theorem configSanitize_eq (cfg : ConfigT α) : configSanitize cfg =
    { cfg with
      int32 := fun o => place32 o (cfg.int32 o)
      int64 := fun o => place64 o (cfg.int64 o) } := by
  have h32 : (configSanitize cfg).int32 = fun o => place32 o (cfg.int32 o) := by
    funext o
    cases o <;> rfl
  have h64 : (configSanitize cfg).int64 = fun o => place64 o (cfg.int64 o) := by
    funext o
    cases o <;> rfl
  rw [← h32, ← h64]
  rfl

/-- A default replaces what is below the least value, and is not below it itself. -/
lemma atLeast {β : Type*} [LT β] [DecidableLT β] {m n d : β} (hd : ¬ d < m) :
    ¬ (if n < m then d else n) < m := by
  split
  · exact hd
  · assumption

lemma flag_cases (n : Int32) : (if n ≠ 0 then (1 : Int32) else 0) = 0 ∨
    (if n ≠ 0 then (1 : Int32) else 0) = 1 := by
  split
  · exact Or.inr rfl
  · exact Or.inl rfl

lemma maxinconnections_le (n : Int32) : ¬ place32 .maxinconnections n > maxInconn := by
  have hcut : ¬ (if n > maxInconn then maxInconn else n) > maxInconn := by
    split
    · decide
    · assumption
  unfold place32
  dsimp only
  generalize (if n > maxInconn then maxInconn else n) = k at hcut
  split
  · decide
  · exact hcut

lemma place32_idem (o : Int32Option) (n : Int32) : place32 o (place32 o n) = place32 o n := by
  have hflag : ∀ n : Int32, n = 0 ∨ n = 1 → (if n ≠ 0 then (1 : Int32) else 0) = n := by
    rintro n (rfl | rfl)
    · decide
    · decide
  cases o with
  | serverBacklog => exact if_neg (atLeast (by decide))
  | serverTimeout => exact if_neg (atLeast (by decide))
  | informRetryWait => exact if_neg (atLeast (by decide))
  | actionThreshold => exact if_neg (atLeast (by decide))
  | inform => exact hflag _ (flag_cases n)
  | server => exact hflag _ (flag_cases n)
  | informRetry => rfl
  | remoteAuthoritative => rfl
  | maxinconnections =>
    have hle := maxinconnections_le n
    have hge : ¬ place32 .maxinconnections n < 1 := atLeast (by decide)
    generalize place32 .maxinconnections n = k at hle hge
    unfold place32
    dsimp only
    rw [if_neg hle, if_neg hge]

lemma place64_idem (o : Int64Option) (n : Int64) : place64 o (place64 o n) = place64 o n := by
  cases o with
  | timeInterval => exact if_neg (atLeast (by decide))
  | purgeAfter => exact if_neg (atLeast (by decide))

/-- **After the sanitizing every option is in its range.** -/
theorem inRange_sanitize (cfg : ConfigT α) : InRange (configSanitize cfg) := by
  have hsane := sanitize_sane cfg
  have hle := maxinconnections_le (cfg.int32 .maxinconnections)
  rw [configSanitize_eq] at hsane ⊢
  exact ⟨⟨Int32.not_lt.mp (atLeast (by decide)), Int32.not_lt.mp hle⟩,
    Int32.not_lt.mp (atLeast (by decide)), Int32.not_lt.mp (atLeast (by decide)),
    Int32.not_lt.mp (atLeast (by decide)), hsane.actionThreshold, hsane.timeInterval,
    hsane.purgeAfter, flag_cases _, flag_cases _⟩

lemma sanitize_sanitize (cfg : ConfigT α) :
    configSanitize (configSanitize cfg) = configSanitize cfg := by
  rw [configSanitize_eq (configSanitize cfg), configSanitize_eq cfg]
  simp only [place32_idem, place64_idem]

/-- One place is overwritten, and the others have been sanitized before, or have not. -/
lemma place_update {ι β : Type*} [DecidableEq ι] {f : ι → β → β}
    (hidem : ∀ i x, f i (f i x) = f i x) (g : ι → β) (i : ι) (x : β) :
    (fun j => f j (Function.update (fun k => f k (g k)) i x j)) =
      fun j => f j (Function.update g i x j) := by
  funext j
  by_cases hj : j = i
  · subst hj
    rw [Function.update_self, Function.update_self]
  · rw [Function.update_of_ne hj, Function.update_of_ne hj, hidem]

/-! ### One call -/

/-- What is stored, before the sanitizing. A value that does not scan leaves the older one. -/
def store (value : CStr) (cfg : ConfigT α) : CfgVal → ConfigT α
  | .path ptr => { cfg with path := Function.update cfg.path ptr (copyField maxPath value) }
  | .regex => { cfg with regex := copyField buffSize value }
  | .int32 ptr => (scanInt value).elim cfg fun n =>
      { cfg with int32 := Function.update cfg.int32 ptr (Int32.ofInt n) }
  | .int64 ptr => (scanInt value).elim cfg fun n =>
      { cfg with int64 := Function.update cfg.int64 ptr (Int64.ofInt n) }
  | .callback _ => cfg

/-- A call of `_set_config_option`. -/
def call (cfg : ConfigT α) (c : CStr × CStr) : ConfigT α :=
  configSanitize ((lookup cfgcfg c.1).elim cfg (store c.2 cfg))

lemma setConfigOption_scalar (getaddrinfo : CStr → CStr → Option α) (cfg : ConfigT α)
    {c : CStr × CStr} (h : ∀ cb, c.1 ≠ option cb) :
    setConfigOption getaddrinfo cfg c.1 c.2 = some (call cfg c) := by
  have hno := lookup_other h
  rw [setConfigOption_eq]
  unfold call
  rcases hval : lookup cfgcfg c.1 with _ | val
  · rfl
  · cases val with
    | path ptr => rfl
    | regex => rfl
    | int32 ptr => rfl
    | int64 ptr => rfl
    | callback cb => exact absurd hval (hno cb)

/-- It makes no difference whether the places have been sanitized before. -/
lemma sanitize_store (value : CStr) (cfg : ConfigT α) (val : CfgVal) :
    configSanitize (store value (configSanitize cfg) val) =
      configSanitize (store value cfg val) := by
  cases val with
  | callback cb => exact sanitize_sanitize cfg
  | path ptr => simp only [store, configSanitize_eq, place32_idem, place64_idem]
  | regex => simp only [store, configSanitize_eq, place32_idem, place64_idem]
  | int32 ptr =>
    unfold store
    rcases scanInt value with _ | n
    · exact sanitize_sanitize cfg
    · simp only [Option.elim_some, configSanitize_eq, place64_idem, place_update place32_idem]
  | int64 ptr =>
    unfold store
    rcases scanInt value with _ | n
    · exact sanitize_sanitize cfg
    · simp only [Option.elim_some, configSanitize_eq, place32_idem, place_update place64_idem]

/-- What goes to two places may be stored in either order. -/
lemma store_comm {val val' : CfgVal} (h : val' ≠ val) (x y : CStr) (cfg : ConfigT α) :
    store y (store x cfg val) val' = store x (store y cfg val') val := by
  have hpath : ∀ {p q}, CfgVal.path q ≠ .path p → q ≠ p := fun h hqp => h (congrArg _ hqp)
  have h32 : ∀ {p q}, CfgVal.int32 q ≠ .int32 p → q ≠ p := fun h hqp => h (congrArg _ hqp)
  have h64 : ∀ {p q}, CfgVal.int64 q ≠ .int64 p → q ≠ p := fun h hqp => h (congrArg _ hqp)
  unfold store
  -- only where both are of one type do they touch the same function
  cases val <;> cases val' <;> cases scanInt x <;> cases scanInt y
  all_goals first
    | rfl
    | exact absurd rfl h
    | simp only [Function.update_comm (hpath h)]
    | simp only [Option.elim_some, Function.update_comm (h32 h)]
    | simp only [Option.elim_some, Function.update_comm (h64 h)]

/-- The table has one place for each option. -/
lemma lookup_inj {a b : CStr} {val : CfgVal} (ha : lookup cfgcfg a = some val)
    (hb : lookup cfgcfg b = some val) : a = b := by
  have hvals : (cfgcfg.map CfgEntry.val).Nodup := by decide +kernel
  have hentry : ∀ {token}, lookup cfgcfg token = some val →
      ∃ e ∈ cfgcfg, e.name = token ∧ e.val = val := by
    intro token h
    obtain ⟨e, he, hval⟩ := Option.map_eq_some_iff.mp h
    exact ⟨e, List.mem_of_find?_eq_some he, by simpa using List.find?_some he, hval⟩
  obtain ⟨e, he, rfl, hval⟩ := hentry ha
  obtain ⟨e', he', rfl, hval'⟩ := hentry hb
  rw [List.inj_on_of_nodup_map hvals he he' (hval.trans hval'.symm)]

/-! ### A sequence of calls -/

/-- Calls for different options may be made in either order. -/
lemma call_comm {c d : CStr × CStr} (h : c.1 = d.1 → lookup cfgcfg c.1 = none)
    (cfg : ConfigT α) : call (call cfg c) d = call (call cfg d) c := by
  unfold call
  rcases hc : lookup cfgcfg c.1 with _ | val
  · rcases lookup cfgcfg d.1 with _ | val'
    · rfl
    · simp only [Option.elim_none, Option.elim_some]
      rw [sanitize_store, sanitize_sanitize]
  · rcases hd : lookup cfgcfg d.1 with _ | val'
    · simp only [Option.elim_none, Option.elim_some]
      rw [sanitize_store, sanitize_sanitize]
    · have hne : val' ≠ val := by
        rintro rfl
        rw [h (lookup_inj hc hd)] at hc
        cases hc
      simp only [Option.elim_some]
      rw [sanitize_store, sanitize_store, store_comm hne]

lemma setOptions_eq (getaddrinfo : CStr → CStr → Option α) {calls : List (CStr × CStr)}
    (h : ∀ c ∈ calls, ∀ cb, c.1 ≠ option cb) (cfg : ConfigT α) :
    setOptions getaddrinfo cfg calls = some (calls.foldl call cfg) := by
  induction calls generalizing cfg with
  | nil => rfl
  | cons c calls ih =>
    have hc := setConfigOption_scalar getaddrinfo cfg (h c List.mem_cons_self)
    unfold setOptions at ih ⊢
    rw [List.foldlM_cons, hc, Option.bind_eq_bind, Option.bind_some,
      ih fun d hd => h d (List.mem_cons_of_mem _ hd)]
    rfl

lemma inRange_calls {calls : List (CStr × CStr)} (hne : calls ≠ []) (cfg : ConfigT α) :
    InRange (calls.foldl call cfg) := by
  obtain ⟨init, c, rfl⟩ := (List.eq_nil_or_concat' calls).resolve_left hne
  rw [List.foldl_append]
  exact inRange_sanitize _

lemma foldl_perm {calls calls' : List (CStr × CStr)} (hdistinct : Distinct calls)
    (hperm : calls.Perm calls') (cfg : ConfigT α) :
    calls.foldl call cfg = calls'.foldl call cfg := by
  have hcomm : calls.Pairwise fun c d => ∀ cfg : ConfigT α,
      call (call cfg c) d = call (call cfg d) c :=
    hdistinct.imp fun h cfg => call_comm h cfg
  have hsymm : Std.Symm fun c d => ∀ cfg : ConfigT α, call (call cfg c) d = call (call cfg d) c :=
    ⟨fun _ _ h cfg => (h cfg).symm⟩
  refine hperm.foldl_eq' (fun c hc d hd => ?_) cfg
  exact hcomm.forall_of_forall (fun _ _ _ => rfl) hc hd

/-- **Scalar options**: whatever the configuration held, after any number of calls that set one
value each every option is in its range, and calls for different options may come in any order. -/
theorem scalars_stay_and_commute (getaddrinfo : CStr → CStr → Option α) (cfg : ConfigT α)
    {calls : List (CStr × CStr)} (hne : calls ≠ [])
    (hscalar : ∀ c ∈ calls, ∀ cb, c.1 ≠ option cb) :
    ∃ cfg', setOptions getaddrinfo cfg calls = some cfg' ∧ InRange cfg' ∧
      (Distinct calls → ∀ calls', calls.Perm calls' →
        setOptions getaddrinfo cfg calls' = some cfg') := by
  refine ⟨_, setOptions_eq getaddrinfo hscalar cfg, inRange_calls hne cfg, ?_⟩
  intro hdistinct calls' hperm
  have hscalar' : ∀ c ∈ calls', ∀ cb, c.1 ≠ option cb :=
    fun c hc => hscalar c (hperm.mem_iff.mpr hc)
  rw [setOptions_eq getaddrinfo hscalar' cfg, foldl_perm hdistinct hperm]

/-- A value that does not scan, one that is too large, a flag, and a name that is not known. -/
def sampleCalls : List (CStr × CStr) :=
  [(ascii "server_backlog", ascii "many"), (ascii "maxinconnections", ascii "0x1000"),
    (ascii "inform", ascii "-7"), (ascii "port", ascii "22"), (ascii "port", ascii "23")]

/-- The calls in the order given and in the opposite one. -/
theorem scalars_stay_and_commute_run : ∃ cfg' : ConfigT Unit,
    setOptions (fun _ _ => none) (initConfigT Unit (ascii "")) sampleCalls = some cfg' ∧
      setOptions (fun _ _ => none) (initConfigT Unit (ascii "")) sampleCalls.reverse =
        some cfg' ∧ InRange cfg' := by
  have hscalar : ∀ c ∈ sampleCalls, ∀ cb, c.1 ≠ option cb := by
    intro c hc cb
    cases cb <;> revert c hc <;> decide +kernel
  have hdistinct : Distinct sampleCalls := by
    unfold Distinct
    decide +kernel
  obtain ⟨cfg', hset, hrange, hcomm⟩ := scalars_stay_and_commute (fun _ _ => none)
    (initConfigT Unit (ascii "")) (List.cons_ne_nil _ _) hscalar
  exact ⟨cfg', hset, hcomm hdistinct _ (List.reverse_perm sampleCalls).symm, hrange⟩

end Agentsmith.ConfigScalars
