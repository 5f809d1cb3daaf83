import Agentsmith.Lib.Chunker
import Agentsmith.Exclude

/-!
The configuration: `cfg.c`.

A line of the configuration file sets one option. The name of the option is looked up in a table
that says of which type it is and where its value goes. The two lists of addresses are put together
by callbacks. `getaddrinfo` and `access` are parameters, and the memory for the lists is there. An
assertion that fails, and a step whose behaviour C leaves undefined, have no result.
-/

namespace Agentsmith.Config

open Agentsmith.Lib.CStrings Agentsmith.Lib.Chunker
open Agentsmith.Globals Agentsmith.Exclude

/-- `_MAX_PATH`. -/
abbrev maxPath : ℕ := 1024

def maxListen : ℕ := 256
def maxInconn : Int32 := 256

def defaultListenPort : CStr := ascii "48621"
def defaultListen : CStr := ascii "0.0.0.0:48621"

/-! ### The options -/

inductive PathOption
  | pidfile | syslogfile | action | exclude | sslCaFile | sslCrlFile
  | sslServerCert | sslServerKey | sslClientCert | sslClientKey
  deriving DecidableEq

inductive Int32Option
  | actionThreshold | server | serverTimeout | inform | informRetry | informRetryWait
  | maxinconnections | remoteAuthoritative | serverBacklog
  deriving DecidableEq

inductive Int64Option
  | timeInterval | purgeAfter
  deriving DecidableEq

/-- `config_t`. What `getaddrinfo` has found for an address is an `α`. -/
structure ConfigT (α : Type*) where
  path : PathOption → Field maxPath
  regex : Field buffSize
  int32 : Int32Option → Int32
  int64 : Int64Option → Int64
  listen : List α
  informAgents : List α

inductive CfgCallback
  | listen | inform
  deriving DecidableEq

/-- The type of an option, and where its value is stored. -/
inductive CfgVal
  | path (ptr : PathOption)
  | regex
  | int32 (ptr : Int32Option)
  | int64 (ptr : Int64Option)
  | callback (cb : CfgCallback)
  deriving DecidableEq

/-- `R_OK | F_OK`, and the same with `X_OK`. -/
inductive Amode
  | rf | rfx
  deriving DecidableEq

structure CfgEntry where
  name : CStr
  val : CfgVal
  amode : Option Amode

/-- The options known. -/
def cfgcfg : List CfgEntry :=
  [⟨ascii "pidfile", .path .pidfile, none⟩,
    ⟨ascii "syslogfile", .path .syslogfile, some .rf⟩,
    ⟨ascii "action", .path .action, some .rfx⟩,
    ⟨ascii "exclude", .path .exclude, some .rf⟩,
    ⟨ascii "regex", .regex, none⟩,
    ⟨ascii "action_threshold", .int32 .actionThreshold, none⟩,
    ⟨ascii "time_interval", .int64 .timeInterval, none⟩,
    ⟨ascii "purge_after", .int64 .purgeAfter, none⟩,
    ⟨ascii "server", .int32 .server, none⟩,
    ⟨ascii "server_timeout", .int32 .serverTimeout, none⟩,
    ⟨ascii "inform", .int32 .inform, none⟩,
    ⟨ascii "inform_retry", .int32 .informRetry, none⟩,
    ⟨ascii "inform_retry_wait", .int32 .informRetryWait, none⟩,
    ⟨ascii "maxinconnections", .int32 .maxinconnections, none⟩,
    ⟨ascii "remote_authoritative", .int32 .remoteAuthoritative, none⟩,
    ⟨ascii "listen", .callback .listen, none⟩,
    ⟨ascii "inform_agent", .callback .inform, none⟩,
    ⟨ascii "server_backlog", .int32 .serverBacklog, none⟩,
    ⟨ascii "ssl_ca_file", .path .sslCaFile, some .rf⟩,
    ⟨ascii "ssl_crl_file", .path .sslCrlFile, some .rf⟩,
    ⟨ascii "ssl_server_cert", .path .sslServerCert, some .rf⟩,
    ⟨ascii "ssl_server_key", .path .sslServerKey, some .rf⟩,
    ⟨ascii "ssl_client_cert", .path .sslClientCert, some .rf⟩,
    ⟨ascii "ssl_client_key", .path .sslClientKey, some .rf⟩]

/-- `DEFAULT_REGEX`, with the braces as `\x7b` and `\x7d`. -/
def defaultRegex : CStr := ascii ("Failed keyboard-interactive for [\\w ]+ from " ++
  "([\\d]\x7b1,3\x7d\\.[\\d]\x7b1,3\x7d\\.[\\d]\x7b1,3\x7d\\.[\\d]\x7b1,3\x7d)")

/-- `_init_config`. The name of the pid file is set when the program is built, and what is not set
here is zero. -/
def initConfigT (α : Type*) (defaultPidfile : CStr) : ConfigT α where
  path
    | .pidfile => copyField maxPath defaultPidfile
    | .syslogfile => copyField maxPath (ascii "/var/log/authlog")
    | .action => copyField maxPath (ascii "/bin/true")
    | _ => copyField maxPath (ascii "")
  regex := copyField buffSize defaultRegex
  int32
    | .actionThreshold => 3
    | .server => 0
    | .serverTimeout => 5
    | .inform => 0
    | .informRetry => 30
    | .informRetryWait => 3
    | .maxinconnections => 5
    | .remoteAuthoritative => 0
    | .serverBacklog => 0
  int64
    | .timeInterval => 60
    | .purgeAfter => 3600
  listen := []
  informAgents := []

/-- `_config_sanitize`. -/
def configSanitize {α : Type*} (cfg : ConfigT α) : ConfigT α where
  path := cfg.path
  regex := cfg.regex
  int32 o :=
    let n := cfg.int32 o
    match o with
    | .serverBacklog => if n < 1 then 64 else n
    | .maxinconnections =>
      let n := if n > maxInconn then maxInconn else n
      if n < 1 then 5 else n
    | .serverTimeout => if n < 1 then 5 else n
    | .informRetryWait => if n < 1 then 3 else n
    | .inform => if n ≠ 0 then 1 else 0
    | .server => if n ≠ 0 then 1 else 0
    | .actionThreshold => if n < 1 then 3 else n
    | .informRetry => n
    | .remoteAuthoritative => n
  int64 o :=
    let n := cfg.int64 o
    match o with
    | .timeInterval => if n < 1 then 60 else n
    | .purgeAfter => if n < 1 then 3600 else n
  listen := cfg.listen
  informAgents := cfg.informAgents

/-- The options that a new record takes over. -/
def ConfigT.toConfig {α : Type*} (cfg : ConfigT α) : Globals.Config where
  actionThreshold := cfg.int32 .actionThreshold
  timeInterval := cfg.int64 .timeInterval
  purgeAfter := cfg.int64 .purgeAfter

lemma sanitize_sane {α : Type*} (cfg : ConfigT α) : (configSanitize cfg).toConfig.Sane := by
  have h32 : ∀ n d : Int32, 1 ≤ d → 1 ≤ if n < 1 then d else n := by
    intro n d hd
    split
    · exact hd
    · rename_i hn
      exact Int32.not_lt.mp hn
  have h64 : ∀ n d : Int64, 1 ≤ d → 1 ≤ if n < 1 then d else n := by
    intro n d hd
    split
    · exact hd
    · rename_i hn
      exact Int64.not_lt.mp hn
  exact ⟨h32 _ 3 (by decide), h64 _ 60 (by decide), h64 _ 3600 (by decide)⟩

/-! ### Numbers -/

def digitValue (base : ℕ) (c : UInt8) : Option ℕ :=
  let d :=
    if 48 ≤ c ∧ c ≤ 57 then some (c.toNat - 48)
    else if 97 ≤ c ∧ c ≤ 102 then some (c.toNat - 87)
    else if 65 ≤ c ∧ c ≤ 70 then some (c.toNat - 55)
    else none
  d.filter (· < base)

/-- The digits at the start of a text. -/
def digits (base : ℕ) : List UInt8 → List ℕ
  | [] => []
  | c :: s =>
    match digitValue base c with
    | none => []
    | some d => d :: digits base s

/-- The number that `sscanf` reads with `%li`: its base is in its first characters, and it stays
within the range of a `long`. Without a digit nothing is read. -/
def scanInt (s : CStr) : Option ℤ :=
  let s := s.1.dropWhile fun c => c = 32 ∨ (9 ≤ c ∧ c ≤ 13)
  let neg := s.head? = some 45
  let s := if s.head? = some 45 ∨ s.head? = some 43 then s.tail else s
  let hex := s.take 2 = [48, 120] ∨ s.take 2 = [48, 88]
  let base := if hex then 16 else if s.head? = some 48 then 8 else 10
  let ds := digits base (if hex then s.drop 2 else s)
  let n := ds.foldl (fun n d => base * n + d) 0
  if ds = [] then none
  else some (if neg then max (-2 ^ 63) (-(n : ℤ)) else min (2 ^ 63 - 1) (n : ℤ))

/-! ### The lists of addresses -/

/-- The tokens that `strtok` gives one after another for a string and `" "`. -/
def strtok (s : CStr) : List CStr := ((s.1.splitOn 32).filter fun t => !t.isEmpty).map upToNul

/-- `strncpy(buff, s, n); buff[n] = 0` with a buffer of `BUFFSIZE` bytes, in which there has to be
room. -/
def copyOut (n : ℕ) (s : CStr) : Option CStr := if n < buffSize then some (upTo n s) else none

/-- Host and port of one address. A token that begins like an IPv6 address and has no `]` is
skipped. -/
def splitAddress (ptr : CStr) : Option (Option (CStr × CStr)) :=
  if ptr.1.head? = some 91 then
    match strchr ptr 93 with
    | none => some none
    | some closing =>
      match strchr (advance closing ptr) 58 with
      | some n =>
        let colon := closing + n
        (copyOut (ptr.1.length - (colon + 1)) (advance (colon + 1) ptr)).bind fun port =>
          (copyOut (colon - 2) (advance 1 ptr)).map fun host => some (host, port)
      | none =>
        (copyOut (ptr.1.length - 1 - 1) (advance 1 ptr)).map fun host =>
          some (host, defaultListenPort)
  else
    match strchr ptr 58 with
    | none => (copyOut ptr.1.length ptr).map fun host => some (host, defaultListenPort)
    | some colon =>
      (copyOut colon ptr).bind fun host =>
        (copyOut (ptr.1.length - (colon + 1)) (advance (colon + 1) ptr)).map fun port =>
          some (host, port)

/-- A list of addresses while a callback works on it: its items, and the place of the one that the
tail pointer is set to, which is local to the callback. -/
structure AddrinfoList (α : Type*) where
  items : List α
  last : Option ℕ

/-- The new item becomes the head of the list, or the next one of the item at the tail pointer. -/
def AddrinfoList.add {α : Type*} (l : AddrinfoList α) (item : α) : Option (AddrinfoList α) :=
  if l.items.isEmpty then some ⟨[item], some 0⟩
  else l.last.map fun k => ⟨l.items.take (k + 1) ++ [item], some (k + 1)⟩

section

variable {α : Type*} (getaddrinfo : CStr → CStr → Option α)

/-- The loop of a callback over the tokens, with the number of items so far and the largest
number of them, if there is one. -/
def callbackLoop (limit : Option ℕ) : List CStr → ℕ → AddrinfoList α → Option (AddrinfoList α)
  | [], _, l => some l
  | ptr :: rest, n, l =>
    if limit.any (· ≤ n) then some l
    else
      match splitAddress ptr with
      | none => none
      | some none => callbackLoop limit rest n l
      | some (some (host, port)) =>
        match getaddrinfo host port with
        | none => callbackLoop limit rest n l
        | some tmp => (l.add tmp).bind (callbackLoop limit rest (n + 1))

/-- A callback: the list it works on is to be empty. -/
def configCallback (limit : Option ℕ) (str : CStr) (list : List α) : Option (List α) :=
  if list.isEmpty then (callbackLoop getaddrinfo limit (strtok str) 0 ⟨list, none⟩).map (·.items)
  else none

def configCallbackListen (str : CStr) (cfg : ConfigT α) : Option (ConfigT α) :=
  (configCallback getaddrinfo (some maxListen) str cfg.listen).map fun l => { cfg with listen := l }

def configCallbackInform (str : CStr) (cfg : ConfigT α) : Option (ConfigT α) :=
  (configCallback getaddrinfo none str cfg.informAgents).map fun l =>
    { cfg with informAgents := l }

/-! ### Setting an option -/

/-- The value is stored as the entry of the table says. -/
def storeValue (value : CStr) (cfg : ConfigT α) : CfgVal → Option (ConfigT α)
  | .path ptr => some { cfg with path := Function.update cfg.path ptr (copyField maxPath value) }
  | .regex => some { cfg with regex := copyField buffSize value }
  | .int32 ptr => some ((scanInt value).elim cfg fun n =>
      { cfg with int32 := Function.update cfg.int32 ptr (Int32.ofInt n) })
  | .int64 ptr => some ((scanInt value).elim cfg fun n =>
      { cfg with int64 := Function.update cfg.int64 ptr (Int64.ofInt n) })
  | .callback .listen => configCallbackListen getaddrinfo value cfg
  | .callback .inform => configCallbackInform getaddrinfo value cfg

/-- `_set_config_option`. -/
def setConfigOption (cfg : ConfigT α) (token value : CStr) : Option (ConfigT α) :=
  (cfgcfg.foldlM (fun cfg ptr => if ptr.name = token then storeValue getaddrinfo value cfg ptr.val
    else some cfg) cfg).map configSanitize

variable {getaddrinfo}

/-- No option is twice in the table. -/
lemma cfgcfg_nodup : (cfgcfg.map CfgEntry.name).Nodup := by decide +kernel

/-- Where the table has the option with this name. -/
def lookup (es : List CfgEntry) (token : CStr) : Option CfgVal :=
  (es.find? fun e => e.name = token).map CfgEntry.val

/-- The search of a table in which no name is twice. -/
lemma foldlM_table {token value : CStr} {es : List CfgEntry} (h : (es.map CfgEntry.name).Nodup)
    (cfg : ConfigT α) :
    es.foldlM (fun cfg ptr => if ptr.name = token then storeValue getaddrinfo value cfg ptr.val
      else some cfg) cfg =
    (lookup es token).elim (some cfg) (storeValue getaddrinfo value cfg) := by
  induction es generalizing cfg with
  | nil => rfl
  | cons e es ih =>
    rw [List.map_cons, List.nodup_cons] at h
    obtain ⟨hnew, hrest⟩ := h
    rw [List.foldlM_cons, lookup, List.find?_cons]
    by_cases htoken : e.name = token
    · -- the entries behind have other names
      have hnone : lookup es token = none := by
        rw [lookup, Option.map_eq_none_iff]
        refine List.find?_eq_none.mpr fun e' he' htoken' => hnew ?_
        rw [htoken, ← of_decide_eq_true htoken']
        exact List.mem_map_of_mem he'
      rw [if_pos htoken, decide_eq_true htoken, Option.bind_eq_bind]
      show _ = storeValue getaddrinfo value cfg e.val
      rcases storeValue getaddrinfo value cfg e.val with _ | cfg'
      · rfl
      · rw [Option.bind_some, ih hrest, hnone, Option.elim_none]
    · rw [if_neg htoken, decide_eq_false htoken, Option.bind_eq_bind, Option.bind_some, ih hrest]
      rfl

/-- **An option is set** as its entry in the table says, and one that is not known is not. -/
theorem setConfigOption_eq (cfg : ConfigT α) (token value : CStr) :
    setConfigOption getaddrinfo cfg token value =
      ((lookup cfgcfg token).elim (some cfg) (storeValue getaddrinfo value cfg)).map
        configSanitize := by
  rw [setConfigOption, foldlM_table cfgcfg_nodup]

end

/-! ### Reading the file -/

/-- An open file: what has not been read, and whether its end has been met. -/
structure Stream where
  rest : List UInt8
  eof : Bool

/-- `fgets(line, size, f)`: the string in the buffer afterwards. Where there is nothing to read it
stays as it is. -/
def fgets (size : ℕ) (f : Stream) (line : Option CStr) : Stream × Option CStr :=
  if f.rest = [] then (⟨[], true⟩, line)
  else
    let p := first (size - 1) 10 f.rest
    (⟨p.2, p.1.length < size - 1 ∧ p.1.getLast? ≠ some 10⟩, some (upToNul p.1))

/-- What is left to be done with a file: its bytes, and to meet its end. -/
def Stream.todo (f : Stream) : ℕ := f.rest.length + (!f.eof).toNat

lemma fgets_todo {f : Stream} (hf : ¬ f.eof = true) (size : ℕ) (line : Option CStr) :
    (fgets size f line).1.todo < f.todo := by
  obtain ⟨rest, eof⟩ := f
  obtain rfl : eof = false := Bool.eq_false_iff.mpr hf
  unfold fgets Stream.todo
  dsimp only
  split
  · rename_i h
    simp [h]
  · rename_i hne
    have hlt := first_lt (size - 1) 10 hne
    dsimp only
    have hle : ∀ b : Bool, b.toNat ≤ 1 := by decide
    have := hle (!decide ((first (size - 1) 10 rest).1.length < size - 1 ∧
      (first (size - 1) 10 rest).1.getLast? ≠ some 10))
    rw [Bool.not_false, Bool.toNat_true]
    omega

/-- What a splitter of a line leaves behind: the token, the rest, and the string in the buffer. -/
structure Split where
  pos : Option CStr
  tmp : Option CStr
  line : CStr

/-- A build with `strsep`, and one without. -/
inductive Build
  | strsep | strchr

/-- The line at its first `=`. -/
def splitLine (b : Build) (line : CStr) : Split :=
  match strchr line 61 with
  | some i => ⟨some (upTo i line), some (advance (i + 1) line), upTo i line⟩
  | none =>
    match b with
    | .strsep => ⟨some line, none, line⟩
    | .strchr => ⟨none, some line, line⟩

/-- The value without its newline. -/
def cutNewline (value : CStr) : CStr :=
  match strchr value 10 with
  | some i => upTo i value
  | none => value

/-- One pass of the loop over a line: what is left in its buffer, and the option to be set. -/
def configLine (b : Build) (line : CStr) : CStr × Option (CStr × CStr) :=
  if line.1.length < 2 then (line, none)
  else if line.1.head? = some 35 then (line, none)
  else
    let s := splitLine b line
    match s.pos, s.tmp with
    | some pos, some tmp =>
      let token := upToNul (strncpy pos buffSize)
      if tmp.1.length = 0 then (s.line, none)
      else
        let value := cutNewline (upToNul (strncpy tmp buffSize))
        if value.1.length = 0 then (s.line, none) else (s.line, some (token, value))
    | _, _ => (s.line, none)

/-- The loop that reads the file, and what it calls for every option to be set. A buffer that
nothing has been read into yet has no contents. -/
def configLoop {σ : Type*} (b : Build) (set : σ → CStr → CStr → Option σ) (f : Stream)
    (line : Option CStr) (s : σ) : Option σ :=
  if f.eof then some s
  else
    let r := fgets buffSize f line
    match r.2 with
    | none => none
    | some buff =>
      let l := configLine b buff
      match l.2 with
      | none => configLoop b set r.1 (some l.1) s
      | some (token, value) => (set s token value).bind (configLoop b set r.1 (some l.1))
termination_by f.todo
decreasing_by all_goals exact fgets_todo ‹_› _ _

/-- `config_read` comes back, or it ends the program. -/
inductive Outcome (α : Type*)
  | config (cfg : ConfigT α)
  | exit

/-- The paths that are set can be accessed. -/
def checkPathsInConfig {α : Type*} (access : CStr → Amode → Bool) (cfg : ConfigT α) : Bool :=
  cfgcfg.all fun ptr =>
    match ptr.val, ptr.amode with
    | .path o, some amode => (cfg.path o).str.1.isEmpty || access (cfg.path o).str amode
    | _, _ => true

/-- `config_read` of a file that may not be there. -/
def configRead {α : Type*} (b : Build) (getaddrinfo : CStr → CStr → Option α)
    (access : CStr → Amode → Bool) (defaultPidfile : CStr) (file : Option (List UInt8)) :
    Option (Outcome α) :=
  match file with
  | none => some .exit
  | some file =>
    (configLoop b (setConfigOption getaddrinfo) ⟨file, false⟩ none
      (initConfigT α defaultPidfile)).bind fun cfg =>
        if checkPathsInConfig access cfg then
          if cfg.listen.isEmpty then
            (configCallbackListen getaddrinfo defaultListen cfg).map .config
          else some (.config cfg)
        else some .exit

end Agentsmith.Config
