import Agentsmith.ConfigRead
import Agentsmith.ConfigAddresses

/-!
Address directives that are repeated.

A callback expects that its list is empty, and sets its tail pointer to nothing when it begins. A
second line of the same option is safe only if the first has put nothing in the list.
-/

namespace Agentsmith.ConfigRepeat

open Agentsmith.Lib.CStrings Agentsmith.Lib.Chunker
open Agentsmith.Globals Agentsmith.Config Agentsmith.ConfigRead Agentsmith.ConfigAddresses

/-- The option that a callback is for. -/
def option : CfgCallback → CStr
  | .listen => ascii "listen"
  | .inform => ascii "inform_agent"

def limit : CfgCallback → Option ℕ
  | .listen => some maxListen
  | .inform => none

section

variable {α : Type*}

/-- The list that a callback works on. -/
def list (cfg : ConfigT α) : CfgCallback → List α
  | .listen => cfg.listen
  | .inform => cfg.informAgents

def setList (cfg : ConfigT α) (l : List α) : CfgCallback → ConfigT α
  | .listen => { cfg with listen := l }
  | .inform => { cfg with informAgents := l }

variable (getaddrinfo : CStr → CStr → Option α)

/-- What a value puts in an empty list. -/
def entries (cb : CfgCallback) (value : CStr) : List α :=
  limited (limit cb) (resolved getaddrinfo value)

/-- What each line for the option puts in an empty list. -/
def directives (cb : CfgCallback) (calls : List (CStr × CStr)) : List (List α) :=
  (calls.filter fun c => c.1 = option cb).map fun c => entries getaddrinfo cb c.2

/-- The list has what all lines put in it, or what the last one does. -/
def Kept (lines : List (List α)) (l : List α) : Prop :=
  l = lines.flatten ∨ l = lines.getLast?.getD []

/-- `config_read` comes to its end, and what it leaves in the lists is what the lines put there.
Without an address to listen on it takes the default. -/
def ReadsAll (b : Build) (access : CStr → Amode → Bool) (defaultPidfile : CStr)
    (file : List UInt8) : Prop :=
  ∃ out, configRead b getaddrinfo access defaultPidfile (some file) = some out ∧
    ∀ cfg, out = .config cfg →
      Kept (directives getaddrinfo .inform (applied file)) cfg.informAgents ∧
        ∃ l, Kept (directives getaddrinfo .listen (applied file)) l ∧
          cfg.listen = if l.isEmpty then entries getaddrinfo .listen defaultListen else l

/-- No line of an option comes behind one of the same option that puts something in the list. -/
def Alone (calls : List (CStr × CStr)) : Prop :=
  calls.Pairwise fun c d => ∀ cb, c.1 = option cb → d.1 = option cb →
    entries getaddrinfo cb c.2 = []

end

variable {α : Type*} {getaddrinfo : CStr → CStr → Option α} {cfg : ConfigT α} {token value : CStr}

/-! ### One option -/

lemma option_inj {cb cb' : CfgCallback} (h : option cb = option cb') : cb = cb' := by
  have hne : option .listen ≠ option .inform := by decide +kernel
  cases cb <;> cases cb'
  · rfl
  · exact absurd h hne
  · exact absurd h.symm hne
  · rfl

lemma lookup_option (cb : CfgCallback) : lookup cfgcfg (option cb) = some (.callback cb) := by
  cases cb <;> decide +kernel

/-- The other options have no callback. -/
lemma lookup_other (h : ∀ cb, token ≠ option cb) (cb : CfgCallback) :
    lookup cfgcfg token ≠ some (.callback cb) := by
  have hnames : ∀ e ∈ cfgcfg, e.val = .callback cb → e.name = option cb := by
    cases cb <;> decide +kernel
  intro hval
  obtain ⟨e, he, hcb⟩ := Option.map_eq_some_iff.mp hval
  have hname : e.name = token := by simpa using List.find?_some he
  exact h cb (hname.symm.trans (hnames e (List.mem_of_find?_eq_some he) hcb))

lemma list_sanitize (cfg : ConfigT α) : list (configSanitize cfg) = list cfg := by
  funext cb
  cases cb <;> rfl

/-- Any other option leaves the lists as they are. -/
lemma set_other (h : ∀ cb, token ≠ option cb) :
    ∃ cfg', setConfigOption getaddrinfo cfg token value = some cfg' ∧ list cfg' = list cfg := by
  have hno := lookup_other h
  have hstored : ∃ cfg', (lookup cfgcfg token).elim (some cfg) (storeValue getaddrinfo value cfg) =
      some cfg' ∧ list cfg' = list cfg := by
    rcases hval : lookup cfgcfg token with _ | val
    · exact ⟨cfg, rfl, rfl⟩
    · cases val with
      | path ptr => exact ⟨_, rfl, by funext cb; cases cb <;> rfl⟩
      | regex => exact ⟨_, rfl, by funext cb; cases cb <;> rfl⟩
      | int32 ptr =>
        refine ⟨_, rfl, ?_⟩
        cases scanInt value with
        | none => rfl
        | some n => funext cb; cases cb <;> rfl
      | int64 ptr =>
        refine ⟨_, rfl, ?_⟩
        cases scanInt value with
        | none => rfl
        | some n => funext cb; cases cb <;> rfl
      | callback cb => exact absurd hval (hno cb)
  obtain ⟨cfg', hcfg', hlist⟩ := hstored
  exact ⟨configSanitize cfg', by rw [setConfigOption_eq, hcfg', Option.map_some],
    (list_sanitize cfg').trans hlist⟩

lemma list_setList (cfg : ConfigT α) (l : List α) (cb : CfgCallback) :
    list (setList cfg l cb) = Function.update (list cfg) cb l := by
  funext cb'
  cases cb <;> cases cb' <;> rfl

lemma store_callback (cb : CfgCallback) : storeValue getaddrinfo value cfg (.callback cb) =
    (configCallback getaddrinfo (limit cb) value (list cfg cb)).map fun l => setList cfg l cb := by
  cases cb <;> rfl

/-- The option of a callback: its list has to be empty, and gets what is found. -/
lemma set_callback (cb : CfgCallback) (hlen : value.1.length < buffSize) :
    (list cfg cb ≠ [] → setConfigOption getaddrinfo cfg (option cb) value = none) ∧
      (list cfg cb = [] → ∃ cfg', setConfigOption getaddrinfo cfg (option cb) value = some cfg' ∧
        list cfg' = Function.update (list cfg) cb (entries getaddrinfo cb value)) := by
  rw [setConfigOption_eq, lookup_option, Option.elim_some, store_callback]
  refine ⟨fun h => ?_, fun h => ?_⟩
  · rw [configCallback, if_neg fun hempty => h (List.isEmpty_iff.mp hempty)]
    rfl
  · rw [h, callback_resolved getaddrinfo _ hlen]
    exact ⟨_, rfl, (list_sanitize _).trans (list_setList cfg _ cb)⟩

/-! ### The lines of a file -/

/-- What a line puts in the list of a callback. -/
def part (getaddrinfo : CStr → CStr → Option α) (cb : CfgCallback) (c : CStr × CStr) : List α :=
  if c.1 = option cb then entries getaddrinfo cb c.2 else []

lemma part_self (cb : CfgCallback) (value : CStr) :
    part getaddrinfo cb (option cb, value) = entries getaddrinfo cb value := if_pos rfl

lemma part_other {cb : CfgCallback} {c : CStr × CStr} (h : c.1 ≠ option cb) :
    part getaddrinfo cb c = [] := if_neg h

lemma flatten_directives (cb : CfgCallback) (calls : List (CStr × CStr)) :
    (directives getaddrinfo cb calls).flatten = calls.flatMap (part getaddrinfo cb) := by
  induction calls with
  | nil => rfl
  | cons c calls ih =>
    unfold directives at ih ⊢
    rw [List.flatMap_cons, ← ih]
    by_cases h : c.1 = option cb
    · rw [List.filter_cons_of_pos (by simpa using h), List.map_cons, List.flatten_cons, part,
        if_pos h]
    · rw [List.filter_cons_of_neg (by simpa using h), part_other h, List.nil_append]

/-- **One call**: it meets a list that is not empty, or adds to each list what the line puts
there. -/
lemma set_step (getaddrinfo : CStr → CStr → Option α) (cfg : ConfigT α) {c : CStr × CStr}
    (hlen : c.2.1.length < buffSize) : (∃ cb, c.1 = option cb ∧ list cfg cb ≠ [] ∧
      setConfigOption getaddrinfo cfg c.1 c.2 = none) ∨
    ((∀ cb, c.1 = option cb → list cfg cb = []) ∧
      ∃ cfg', setConfigOption getaddrinfo cfg c.1 c.2 = some cfg' ∧
        ∀ cb, list cfg' cb = list cfg cb ++ part getaddrinfo cb c) := by
  obtain ⟨token, value⟩ := c
  by_cases hcb : ∃ cb, token = option cb
  · obtain ⟨cb, rfl⟩ := hcb
    obtain ⟨hfull, hempty⟩ : _ ∧ (list cfg cb = [] → ∃ cfg', setConfigOption getaddrinfo cfg
      (option cb) value = some cfg' ∧ _) := set_callback cb hlen
    by_cases hlist : list cfg cb = []
    · obtain ⟨cfg', hset, hupdate⟩ := hempty hlist
      refine Or.inr ⟨fun cb' h => option_inj h ▸ hlist, cfg', hset, fun cb' => ?_⟩
      rw [hupdate]
      by_cases hne : cb' = cb
      · subst hne
        rw [Function.update_self, hlist, part_self, List.nil_append]
      · rw [Function.update_of_ne hne, part_other fun h => hne (option_inj h).symm,
          List.append_nil]
    · exact Or.inl ⟨cb, rfl, hlist, hfull hlist⟩
  · have hno : ∀ cb, token ≠ option cb := fun cb h => hcb ⟨cb, h⟩
    obtain ⟨cfg', hset, hlist⟩ : ∃ cfg', setConfigOption getaddrinfo cfg token value =
      some cfg' ∧ _ := set_other hno
    refine Or.inr ⟨fun cb h => absurd h (hno cb), cfg', hset, fun cb => ?_⟩
    rw [hlist, part_other (hno cb), List.append_nil]

/-- A list that is not empty is not to be met by a line of its option. -/
def Free (cfg : ConfigT α) (calls : List (CStr × CStr)) : Prop :=
  ∀ cb, list cfg cb ≠ [] → ∀ c ∈ calls, c.1 ≠ option cb

/-- Behind a line that could be taken the rest has to be safe from the lists as they are then. -/
lemma alone_cons {cfg cfg' : ConfigT α} {c : CStr × CStr} {calls : List (CStr × CStr)}
    (hempty : ∀ cb, c.1 = option cb → list cfg cb = [])
    (hlist : ∀ cb, list cfg' cb = list cfg cb ++ part getaddrinfo cb c) :
    Alone getaddrinfo (c :: calls) ∧ Free cfg (c :: calls) ↔
      Alone getaddrinfo calls ∧ Free cfg' calls := by
  unfold Alone
  rw [List.pairwise_cons]
  refine ⟨fun ⟨⟨hc, halone⟩, hfree⟩ => ⟨halone, fun cb hne d hd hopt => ?_⟩,
    fun ⟨halone, hfree⟩ => ⟨⟨fun d hd cb hcopt hdopt => ?_, halone⟩, fun cb hne => ?_⟩⟩
  · rw [hlist] at hne
    by_cases hold : list cfg cb = []
    · rw [hold, List.nil_append] at hne
      by_cases hcopt : c.1 = option cb
      · rw [part, if_pos hcopt] at hne
        exact hne (hc d hd cb hcopt hopt)
      · exact hne (part_other hcopt)
    · exact hfree cb hold d (List.mem_cons_of_mem c hd) hopt
  · by_contra hne
    refine hfree cb ?_ d hd hdopt
    rw [hlist, part, if_pos hcopt]
    exact List.append_ne_nil_of_right_ne_nil _ hne
  · rw [List.forall_mem_cons]
    refine ⟨fun hcopt => hne (hempty cb hcopt), hfree cb ?_⟩
    rw [hlist]
    exact List.append_ne_nil_of_left_ne_nil hne _

/-- **The options set one after another**, from any lists. -/
lemma run_calls {calls : List (CStr × CStr)} (hlen : ∀ c ∈ calls, c.2.1.length < buffSize)
    (cfg : ConfigT α) :
    (calls.foldlM (fun cfg c => setConfigOption getaddrinfo cfg c.1 c.2) cfg = none ↔
      ¬ (Alone getaddrinfo calls ∧ Free cfg calls)) ∧
    ∀ cfg', calls.foldlM (fun cfg c => setConfigOption getaddrinfo cfg c.1 c.2) cfg = some cfg' →
      ∀ cb, list cfg' cb = list cfg cb ++ calls.flatMap (part getaddrinfo cb) := by
  induction calls generalizing cfg with
  | nil =>
    refine ⟨?_, fun cfg' h cb => ?_⟩
    · simp [Alone, Free]
    · obtain rfl := Option.some.inj h
      simp
  | cons c calls ih =>
    obtain ⟨hc, hcalls⟩ := List.forall_mem_cons.mp hlen
    rw [List.foldlM_cons, Option.bind_eq_bind]
    rcases set_step getaddrinfo cfg hc with
      ⟨cb, hopt, hne, hset⟩ | ⟨hempty, cfg₁, hset, hlist⟩
    · rw [hset, Option.bind_none]
      refine ⟨iff_of_true rfl fun ⟨_, hfree⟩ => ?_, fun cfg' h => by cases h⟩
      exact hfree cb hne c List.mem_cons_self hopt
    · obtain ⟨hnone, hsome⟩ := ih hcalls cfg₁
      rw [hset, Option.bind_some, alone_cons hempty hlist]
      refine ⟨hnone, fun cfg' h cb => ?_⟩
      rw [hsome cfg' h cb, hlist, List.flatMap_cons, List.append_assoc]

/-! ### The file -/

/-- The values in a file are strings of the buffer. -/
lemma applied_length {file : List UInt8} : ∀ c ∈ applied file, c.2.1.length < buffSize := by
  intro c hc
  obtain ⟨chunk, hchunk, hchosen⟩ := List.mem_filterMap.mp hc
  have hlen : chunk.length < buffSize := by
    have hpieces : ∀ p ∈ (cut (buffSize - 1) 10 file).1, Piece (buffSize - 1) 10 p :=
      cut_pieces 10 (by decide) file
    have hpending : (cut (buffSize - 1) 10 file).2.length < buffSize - 1 :=
      (cut_pending 10 (by decide) file).1
    have hbuff : buffSize - 1 < buffSize := by decide
    unfold ExcludeReload.fgets at hchunk
    dsimp only at hchunk
    split at hchunk
    · exact Nat.lt_of_le_of_lt (hpieces chunk hchunk).le hbuff
    · rcases List.mem_append.mp hchunk with h | h
      · exact Nat.lt_of_le_of_lt (hpieces chunk h).le hbuff
      · rw [List.mem_singleton.mp h]
        exact hpending.trans hbuff
  unfold chosen at hchosen
  dsimp only at hchosen
  split at hchosen
  · rw [← Option.some.inj hchosen]
    have hvalue : (before 10 (behind 61 (upToNul chunk))).1.length ≤ (upToNul chunk).1.length :=
      (before_length 10 _).trans (behind_length 61 _)
    exact Nat.lt_of_le_of_lt (hvalue.trans (upToNul_length chunk)) hlen
  · cases hchosen

/-- The loop over the file, when it comes to its end. -/
lemma loop_some_iff (getaddrinfo : CStr → CStr → Option α) (b : Build) (file : List UInt8)
    (cfg : ConfigT α) :
    (configLoop b (setConfigOption getaddrinfo) ⟨file, false⟩ none cfg).isSome ↔
      file ≠ [] ∧ Alone getaddrinfo (applied file) ∧ Free cfg (applied file) := by
  rcases eq_or_ne file [] with rfl | hne
  · have hread : Config.fgets buffSize ⟨[], false⟩ none = (⟨[], true⟩, none) := if_pos rfl
    rw [configLoop, if_neg Bool.false_ne_true, hread]
    simp
  · rw [loop_applied b _ hne, Option.isSome_iff_ne_none, ne_eq, (run_calls applied_length cfg).1,
      not_not, and_iff_right hne]

/-- What comes to its end has met no list that is not empty. -/
lemma alone_of_reads {b : Build} {access : CStr → Amode → Bool} {defaultPidfile : CStr}
    {file : List UInt8} (h : ReadsAll getaddrinfo b access defaultPidfile file) :
    file ≠ [] ∧ Alone getaddrinfo (applied file) := by
  obtain ⟨out, hread, -⟩ := h
  obtain ⟨cfg, hcfg, -⟩ := Option.bind_eq_some_iff.mp hread
  obtain ⟨hne, halone, -⟩ := (loop_some_iff getaddrinfo b file _).mp (by rw [hcfg]; rfl)
  exact ⟨hne, halone⟩

/-- Each list has what the lines put in it. -/
lemma list_applied {b : Build} {defaultPidfile : CStr} {file : List UInt8} {cfg : ConfigT α}
    (hne : file ≠ []) (h : configLoop b (setConfigOption getaddrinfo) ⟨file, false⟩ none
      (initConfigT α defaultPidfile) = some cfg) (cb : CfgCallback) :
    list cfg cb = (directives getaddrinfo cb (applied file)).flatten := by
  have hinit : list (initConfigT α defaultPidfile) cb = [] := by cases cb <;> rfl
  rw [loop_applied b _ hne] at h
  rw [(run_calls applied_length _).2 cfg h cb, hinit, flatten_directives, List.nil_append]

/-- **Repeated address directives** are safe just when the file is not empty and no line of an
option comes behind one that has put something in the list of the option. -/
theorem repeated_safe_iff (b : Build) (getaddrinfo : CStr → CStr → Option α)
    (access : CStr → Amode → Bool) (defaultPidfile : CStr) (file : List UInt8) :
    ReadsAll getaddrinfo b access defaultPidfile file ↔
      file ≠ [] ∧ Alone getaddrinfo (applied file) := by
  have hfree : Free (initConfigT α defaultPidfile) (applied file) := by
    intro cb hne
    cases cb <;> exact absurd rfl hne
  refine ⟨alone_of_reads, fun ⟨hne, halone⟩ => ?_⟩
  obtain ⟨cfg, hcfg⟩ := Option.isSome_iff_exists.mp
    ((loop_some_iff getaddrinfo b file _).mpr ⟨hne, halone, hfree⟩)
  have hread : configRead b getaddrinfo access defaultPidfile (some file) =
      if checkPathsInConfig access cfg then
        if cfg.listen.isEmpty then (configCallbackListen getaddrinfo defaultListen cfg).map .config
        else some (.config cfg)
      else some .exit := by
    unfold configRead
    dsimp only
    rw [hcfg]
    rfl
  have hinform : Kept (directives getaddrinfo .inform (applied file)) cfg.informAgents :=
    Or.inl (list_applied hne hcfg .inform)
  have hlisten : Kept (directives getaddrinfo .listen (applied file)) cfg.listen :=
    Or.inl (list_applied hne hcfg .listen)
  unfold ReadsAll
  rw [hread]
  by_cases hpaths : checkPathsInConfig access cfg = true
  · rw [if_pos hpaths]
    by_cases hempty : cfg.listen.isEmpty = true
    · -- the default is listened on
      have hnil : cfg.listen = [] := List.isEmpty_iff.mp hempty
      rw [if_pos hempty, configCallbackListen, hnil,
        callback_resolved getaddrinfo _ (by decide +kernel), Option.map_some, Option.map_some]
      refine ⟨_, rfl, fun cfg' h => ?_⟩
      obtain rfl := Outcome.config.inj h
      exact ⟨hinform, cfg.listen, hlisten, by rw [if_pos hempty]; rfl⟩
    · rw [if_neg hempty]
      refine ⟨_, rfl, fun cfg' h => ?_⟩
      obtain rfl := Outcome.config.inj h
      exact ⟨hinform, cfg.listen, hlisten, by rw [if_neg hempty]⟩
  · rw [if_neg hpaths]
    exact ⟨_, rfl, fun cfg' h => by cases h⟩

/-- Two lines of one option, each with an address that is found. -/
def twoListens : List UInt8 := (ascii "listen=192.0.2.1\nlisten=192.0.2.2\n").1

def twoAgents : List UInt8 := (ascii "inform_agent=192.0.2.1\ninform=1\ninform_agent=192.0.2.2").1

/-- **Lines that are not safe**: the second line of an option meets a list that is not empty, and
without the assertion it follows a tail pointer that is not set. -/
theorem repeated_unsafe :
    ¬ ReadsAll asked .strsep (fun _ _ => true) (ascii "agentsmith.pid") twoListens ∧
      ¬ ReadsAll asked .strsep (fun _ _ => true) (ascii "agentsmith.pid") twoAgents ∧
      callbackLoop asked (some maxListen) (strtok (ascii "192.0.2.2")) 0
        ⟨[(ascii "192.0.2.1", defaultListenPort)], none⟩ = none := by
  refine ⟨fun h => ?_, fun h => ?_, by decide +kernel⟩
  · have happlied : applied twoListens =
        [(ascii "listen", ascii "192.0.2.1"), (ascii "listen", ascii "192.0.2.2")] := by
      decide +kernel
    have halone := (alone_of_reads h).2
    rw [happlied, Alone, List.pairwise_pair] at halone
    exact absurd (halone .listen rfl rfl) (by decide +kernel)
  · have happlied : applied twoAgents = [(ascii "inform_agent", ascii "192.0.2.1"),
        (ascii "inform", ascii "1"), (ascii "inform_agent", ascii "192.0.2.2")] := by
      decide +kernel
    have halone := (alone_of_reads h).2
    rw [happlied, Alone, List.pairwise_cons] at halone
    have hnil := halone.1 (ascii "inform_agent", ascii "192.0.2.2") (by simp) .inform rfl rfl
    exact absurd hnil (by decide +kernel)

end Agentsmith.ConfigRepeat
