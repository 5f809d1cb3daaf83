import Agentsmith.Lib.Sections
import Agentsmith.ExcludeReloads

/-!
`exclude.c` access by access.

The reading threads add lines while `regex_do` and the workers look addresses up, and each turn of
a loop over the list is a step of its own here. Under `exclude_mutex` a call still does to the list
what the definitions of `Exclude` say, and a lookup is answered as the lines demand that have been
added before it.
-/

namespace Agentsmith.ExcludeLoops

open Agentsmith.Lib.CStrings Agentsmith.Lib.Slots Agentsmith.Lib.Chunks Agentsmith.Lib.Words
open Agentsmith.Lib.Runs
open Agentsmith.Lib.Sections (Code Ends Ordered Move sections sections_atomic)
open Agentsmith.Globals Agentsmith.Exclude Agentsmith.ExcludeLines Agentsmith.ExcludeCidr
open Agentsmith.ExcludeReload (searched)
open Agentsmith.ExcludeReloads (isexcluded_listed)

/-- A change of the list, or a lookup. -/
inductive Call
  | op (o : Op)
  | isexcluded (x : CStr)

def Call.op? : Call → Option Op
  | .op o => some o
  | .isexcluded _ => none

/-- What `exclude_add` brings with it when it has read the line: the outcome of `malloc`, and the
record, if its mask is defined. -/
structure Adding where
  mem : Bool
  record : Option ExcludeRecord

/-- Where a thread is between `pthread_mutex_lock` and `pthread_mutex_unlock`. -/
inductive Place
  | find (a : Addr) (i : ℕ)
  | findFree (q : Adding) (i : ℕ)
  | grow (q : Adding)
  | alloc (q : Adding) (pos : ℕ)
  | write (q : Adding) (pos : ℕ)
  | fill (pos : ℕ)
  | free (i : ℕ)
  | renew
  | leave (retval : ℤ)
  | undefined

/-- The list, and what the calls have returned so far. There is none after an assertion has failed
or a mask was undefined. -/
abbrev Shared := Option (Store × List ℤ)

section

variable (pton : InetPton) (e : Endian)

/-- The strings are read before the first access to the list. -/
def entry : Call → Place
  | .op (.add mem line) =>
    match excludeParseIp line with
    | none => .leave retvalErr
    | some (ip, prefixLen, af) =>
      match pton.addr af ip with
      | none => .leave retvalErr
      | some net => .findFree ⟨mem, excludeRecord e net prefixLen⟩ 0
  | .op .clear => .free 0
  | .isexcluded x =>
    match excludeParseIp x with
    | none => .leave retvalErr
    | some (ip, prefixLen, af) =>
      if (af = .inet ∧ prefixLen = 32) ∨ (af = .inet6 ∧ prefixLen = 128) then
        match pton.addr af ip with
        | none => .leave retvalErr
        | some a => .find a 0
      else .undefined

/-- A change of one slot. -/
def put (v : Store) (i : ℕ) (o : Option ExcludeRecord) : Store := { v with vec := v.vec.set i o }

/-- One access. `garbage` is what stands in memory that has been allocated and not yet written, or
that has been freed. -/
def access (garbage : ExcludeRecord) (p : Place) : Shared → Shared × Option Place
  | none => (none, none)
  | some (v, rets) =>
    match p with
    | .find a i =>
      if i < v.fill then
        match slot v.vec i with
        | some r =>
          (some (v, rets), some (if excludeFits e a r then .leave retvalOk else .find a (i + 1)))
        | none => (some (v, rets), some (.find a (i + 1)))
      else (some (v, rets), some (.leave retvalErr))
    | .findFree q i =>
      if i < v.size then
        (some (v, rets), some (if slot v.vec i = none then .alloc q i else .findFree q (i + 1)))
      else (some (v, rets), some (.grow q))
    | .grow q => (some ((excludeVectorGrow v).1, rets), some (.alloc q (excludeVectorGrow v).2))
    | .alloc q pos =>
      if q.mem then (some (put v pos (some garbage), rets), some (.write q pos))
      else (some (put v pos none, rets), some (.leave retvalErr))
    | .write q pos =>
      match q.record with
      | some r => (some (put v pos (some r), rets), some (.fill pos))
      | none => (none, none)
    | .fill pos =>
      (some ({ v with fill := if pos + 1 > v.fill then pos + 1 else v.fill }, rets),
        some (.leave retvalOk))
    | .free i =>
      if i < v.size then
        (some (put v i ((slot v.vec i).map fun _ => garbage), rets), some (.free (i + 1)))
      else (some (v, rets), some .renew)
    | .renew => (some (excludeInit, rets), some (.leave retvalOk))
    | .leave retval => (some (v, rets ++ [retval]), none)
    | .undefined => (none, none)

/-- A call made at once. -/
def excludeCall (s : Shared) (c : Call) : Shared :=
  s.bind fun (v, rets) =>
    match c with
    | .op (.add mem line) => (excludeAdd pton e mem line v).map fun r => (r.1, rets ++ [r.2])
    | .op .clear => some ((excludeClear v).1, rets ++ [(excludeClear v).2])
    | .isexcluded x => (excludeIsexcluded pton e x v).map fun retval => (v, rets ++ [retval])

/-- Calls made one after the other. -/
def excludeCalls (calls : List Call) : Shared :=
  run (excludeCall pton e) (some (excludeInit, [])) calls

end

/-- The call comes to its end in this state if nobody comes in between. -/
def Finishes (e : Endian) (garbage : ExcludeRecord) (p : Place) (s s' : Shared) : Prop :=
  ∃ n, Ends (access e garbage) p s n s'

variable {pton : InetPton} {e : Endian} {garbage : ExcludeRecord} {p q : Place} {s t s' : Shared}
  {v : Store} {rets : List ℤ} {a : Adding}

lemma finishes_last (h : access e garbage p s = (s', none)) : Finishes e garbage p s s' :=
  ⟨1, .last h⟩

lemma finishes_more (h : access e garbage p s = (t, some q)) (hrest : Finishes e garbage q t s') :
    Finishes e garbage p s s' := by
  obtain ⟨n, hn⟩ := hrest
  exact ⟨n + 1, .more h hn⟩

lemma leave_finishes (retval : ℤ) :
    Finishes e garbage (.leave retval) (some (v, rets)) (some (v, rets ++ [retval])) :=
  finishes_last rfl

/-! ### A lookup -/

/-- The loop of `_records_find`. -/
lemma find_finishes {b : Addr} {n i : ℕ} (hn : v.fill - i = n)
    (hpassed : Passed (excludeFits e b) v.vec i) :
    Finishes e garbage (.find b i) (some (v, rets)) (some (v, rets ++
      [if (find (excludeFits e b) (v.vec.take v.fill)).isNone then retvalErr else retvalOk])) := by
  induction n generalizing i with
  | zero =>
    rw [hpassed.nowhere (by omega)]
    refine finishes_more (q := .leave retvalErr) (t := some (v, rets)) ?_ (leave_finishes _)
    simp only [access]
    rw [if_neg (by omega)]
  | succ n ih =>
    have hi : i < v.fill := by omega
    rcases hs : slot v.vec i with _ | r
    · refine finishes_more (q := .find b (i + 1)) (t := some (v, rets)) ?_
        (ih (by omega) (hpassed.next fun r hr => ?_))
      · simp only [access]
        rw [if_pos hi, hs]
      · rw [hs] at hr
        cases hr
    · by_cases hfits : excludeFits e b r = true
      · rw [hpassed.here hi hs hfits]
        refine finishes_more (q := .leave retvalOk) (t := some (v, rets)) ?_ (leave_finishes _)
        simp only [access]
        rw [if_pos hi, hs]
        dsimp only
        rw [if_pos hfits]
      · refine finishes_more (q := .find b (i + 1)) (t := some (v, rets)) ?_
          (ih (by omega) (hpassed.next fun r' hr => ?_))
        · simp only [access]
          rw [if_pos hi, hs]
          dsimp only
          rw [if_neg hfits]
        · obtain rfl := Option.some.inj (hs.symm.trans hr)
          exact Bool.eq_false_iff.mpr hfits

/-! ### A line that is added -/

/-- What is left of the list when the record has been put into its slot. -/
def placed (a : Adding) (rets : List ℤ) (p : Store × ℕ) : Shared :=
  if a.mem then a.record.map fun r => (place true r p, rets ++ [retvalOk])
  else some (⟨p.1.vec.set p.2 none, p.1.size, p.1.fill⟩, rets ++ [retvalErr])

lemma alloc_finishes (pos : ℕ) :
    Finishes e garbage (.alloc a pos) (some (v, rets)) (placed a rets (v, pos)) := by
  unfold placed
  rcases hmem : a.mem with _ | _
  · refine finishes_more (q := .leave retvalErr) (t := some (put v pos none, rets)) ?_
      (leave_finishes _)
    simp [access, hmem]
  · refine finishes_more (q := .write a pos) (t := some (put v pos (some garbage), rets)) ?_ ?_
    · simp [access, hmem]
    · rcases hrecord : a.record with _ | r
      · refine finishes_last ?_
        simp [access, hrecord]
      · refine finishes_more (q := .fill pos) (t := some (put v pos (some r), rets)) ?_
          (finishes_more rfl (leave_finishes _))
        simp [access, hrecord, put]

/-- The search for a free slot. -/
lemma findFree_finishes (hlen : v.vec.length = v.size) {n i : ℕ} (hn : v.size - i = n)
    (hbefore : ∀ j < i, j < v.size → (slot v.vec j).isSome) :
    Finishes e garbage (.findFree a i) (some (v, rets)) (placed a rets (excludeSlot v)) := by
  induction n generalizing i with
  | zero =>
    have hslot : excludeSlot v = excludeVectorGrow v :=
      newSlot_grow hlen fun j hj => hbefore j (by omega) hj
    rw [hslot]
    refine finishes_more (q := .grow a) (t := some (v, rets)) ?_
      (finishes_more rfl (alloc_finishes _))
    simp only [access]
    rw [if_neg (by omega)]
  | succ n ih =>
    have hi : i < v.size := by omega
    rcases hs : slot v.vec i with _ | r
    · have hslot : excludeSlot v = (v, i) :=
        newSlot_free hlen hi hs fun j hj => hbefore j hj (by omega)
      rw [hslot]
      refine finishes_more (q := .alloc a i) (t := some (v, rets)) ?_ (alloc_finishes i)
      simp only [access]
      rw [if_pos hi, if_pos hs]
    · refine finishes_more (q := .findFree a (i + 1)) (t := some (v, rets)) ?_ (ih (by omega) ?_)
      · simp only [access]
        rw [if_pos hi, if_neg (by rw [hs]; simp)]
      · intro j hj hlt
        rcases Nat.lt_succ_iff_lt_or_eq.mp hj with hlt' | rfl
        · exact hbefore j hlt' hlt
        · rw [hs]
          rfl

/-! ### The list cleared -/

lemma free_finishes {n i : ℕ} (hn : v.size - i = n) :
    Finishes e garbage (.free i) (some (v, rets)) (some (excludeInit, rets ++ [retvalOk])) := by
  induction n generalizing i v with
  | zero =>
    refine finishes_more (q := .renew) (t := some (v, rets)) ?_
      (finishes_more rfl (leave_finishes _))
    simp only [access]
    rw [if_neg (by omega)]
  | succ n ih =>
    refine finishes_more (q := .free (i + 1))
      (t := some (put v i ((slot v.vec i).map fun _ => garbage), rets)) ?_
      (ih (show v.size - (i + 1) = n by omega))
    simp only [access]
    rw [if_pos (by omega)]

/-! ### Whole calls -/

lemma added_eq {line : CStr} {ip : CStr} {prefixLen : UInt32} {af : Af} {net : Addr} {mem : Bool}
    (hparse : excludeParseIp line = some (ip, prefixLen, af)) (hnet : pton.addr af ip = some net) :
    placed ⟨mem, excludeRecord e net prefixLen⟩ rets (excludeSlot v) =
      excludeCall pton e (some (v, rets)) (.op (.add mem line)) := by
  simp only [excludeCall, excludeAdd, placed, Option.bind_some, hparse, hnet]
  cases mem
  · rfl
  · cases excludeRecord e net prefixLen <;> rfl

/-- **Each call comes to its end**, and does what it is defined to. -/
lemma call_finishes (garbage : ExcludeRecord) (hlen : v.vec.length = v.size) (c : Call) :
    Finishes e garbage (entry pton e c) (some (v, rets))
      (excludeCall pton e (some (v, rets)) c) := by
  cases c with
  | op o =>
    cases o with
    | clear => exact free_finishes rfl
    | add mem line =>
      rcases hparse : excludeParseIp line with _ | ⟨ip, prefixLen, af⟩
      · simp only [entry, excludeCall, excludeAdd, Option.bind_some, hparse]
        exact leave_finishes _
      · rcases hnet : pton.addr af ip with _ | net
        · simp only [entry, excludeCall, excludeAdd, Option.bind_some, hparse, hnet]
          exact leave_finishes _
        · rw [← added_eq hparse hnet]
          simp only [entry, hparse, hnet]
          exact findFree_finishes hlen rfl fun j hj => absurd hj (Nat.not_lt_zero j)
  | isexcluded x =>
    rcases hparse : excludeParseIp x with _ | ⟨ip, prefixLen, af⟩
    · simp only [entry, excludeCall, excludeIsexcluded, excludeFind, Option.bind_some, hparse]
      exact leave_finishes _
    · by_cases hwhole : (af = .inet ∧ prefixLen = 32) ∨ (af = .inet6 ∧ prefixLen = 128)
      · rcases hnet : pton.addr af ip with _ | a
        · simp only [entry, excludeCall, excludeIsexcluded, excludeFind, Option.bind_some, hparse,
            hwhole, if_true, hnet]
          exact leave_finishes _
        · simp only [entry, excludeCall, excludeIsexcluded, excludeFind, Option.bind_some, hparse,
            hwhole, if_true, hnet]
          exact find_finishes rfl (passed_zero _ _)
      · simp only [entry, excludeCall, excludeIsexcluded, excludeFind, Option.bind_some, hparse,
          hwhole, if_false]
        exact finishes_last rfl

/-- The slots are as many as the size says. -/
def Sized (s : Shared) : Prop := ∀ v rets, s = some (v, rets) → Shape chunksize v

lemma sized_init : Sized (some (excludeInit, [])) := by
  intro v rets h
  cases h
  exact shape_init (by decide) (by decide)

lemma sized_call (h : Sized s) (c : Call) : Sized (excludeCall pton e s c) := by
  rcases s with _ | ⟨v, rets⟩
  · exact fun _ _ hs => by cases hs
  · have hv : Shape chunksize v := h v rets rfl
    intro v' rets' hs
    cases c with
    | op o =>
      cases o with
      | clear =>
        cases hs
        exact shape_init (by decide) (by decide)
      | add mem line =>
        obtain ⟨r, hr, hsome⟩ := Option.map_eq_some_iff.mp hs
        cases hsome
        rw [excludeAdd_eq] at hr
        split at hr
        · cases hr
          exact hv
        · split at hr
          · obtain ⟨q, -, rfl⟩ := Option.map_eq_some_iff.mp hr
            exact place_shape hv true q
          · cases hr
            exact place_shape hv false (.inet 0 0)
    | isexcluded x =>
      obtain ⟨retval, -, hsome⟩ := Option.map_eq_some_iff.mp hs
      cases hsome
      exact hv

lemma undefined_ends (p : Place) : Ends (access e garbage) p none 1 none := by
  refine .last ?_
  cases p <;> rfl

lemma sized_ends (garbage : ExcludeRecord) (h : Sized s) (c : Call) :
    ∃ n, Ends (access e garbage) (entry pton e c) s n (excludeCall pton e s c) := by
  rcases s with _ | ⟨v, rets⟩
  · exact ⟨1, undefined_ends _⟩
  · exact call_finishes garbage (h v rets rfl).len c

/-! ### What the calls return -/

/-- The calls of a sequence that change the list. -/
def ops (calls : List Call) : List Op := calls.filterMap Call.op?

lemma calls_snoc (calls : List Call) (c : Call) :
    excludeCalls pton e (calls ++ [c]) = excludeCall pton e (excludeCalls pton e calls) c :=
  run_snoc calls c

/-- Each call returns something, and the list is what those that change it have made of it. -/
lemma calls_ops {calls : List Call} (h : excludeCalls pton e calls = some (v, rets)) :
    rets.length = calls.length ∧ ∃ lines, excludeRun pton e (ops calls) = some (v, lines) := by
  induction calls using List.reverseRecOn generalizing v rets with
  | nil =>
    cases h
    exact ⟨rfl, [], rfl⟩
  | append_singleton calls c ih =>
    rw [calls_snoc] at h
    obtain ⟨⟨v₀, rets₀⟩, hbefore, hcall⟩ := Option.bind_eq_some_iff.mp h
    obtain ⟨hlen, lines, hrun⟩ := ih hbefore
    cases c with
    | isexcluded x =>
      obtain ⟨retval, -, hsome⟩ := Option.map_eq_some_iff.mp hcall
      cases hsome
      have hops : ops (calls ++ [.isexcluded x]) = ops calls := by simp [ops, Call.op?]
      exact ⟨by simp [hlen], lines, by rw [hops, hrun]⟩
    | op o =>
      have hops : ops (calls ++ [.op o]) = ops calls ++ [o] := by simp [ops, Call.op?]
      rw [hops, ExcludeReload.excludeRun_snoc, hrun]
      cases o with
      | clear =>
        cases hcall
        exact ⟨by simp [hlen], [], rfl⟩
      | add mem line =>
        obtain ⟨r, hr, hsome⟩ := Option.map_eq_some_iff.mp hcall
        cases hsome
        refine ⟨by simp [hlen], if r.2 = retvalOk then lines ++ [line] else lines, ?_⟩
        simp only [Option.bind_some, excludeStep]
        rw [hr]
        rfl

/-- Later calls leave alone what has been returned. -/
lemma calls_append {calls more : List Call} {v' : Store} {rets' : List ℤ}
    (h : excludeCalls pton e calls = some (v, rets))
    (hmore : excludeCalls pton e (calls ++ more) = some (v', rets')) :
    ∃ added, rets' = rets ++ added := by
  induction more using List.reverseRecOn generalizing v' rets' with
  | nil =>
    rw [List.append_nil, h] at hmore
    cases hmore
    exact ⟨[], (List.append_nil _).symm⟩
  | append_singleton more c ih =>
    rw [← List.append_assoc, calls_snoc] at hmore
    obtain ⟨⟨v₀, rets₀⟩, hbefore, hcall⟩ := Option.bind_eq_some_iff.mp hmore
    obtain ⟨added, rfl⟩ := ih hbefore
    have hone : ∃ retval, rets' = (rets ++ added) ++ [retval] := by
      cases c with
      | isexcluded x =>
        obtain ⟨retval, -, hsome⟩ := Option.map_eq_some_iff.mp hcall
        cases hsome
        exact ⟨_, rfl⟩
      | op o =>
        cases o with
        | clear =>
          cases hcall
          exact ⟨_, rfl⟩
        | add mem line =>
          obtain ⟨r, -, hsome⟩ := Option.map_eq_some_iff.mp hcall
          cases hsome
          exact ⟨_, rfl⟩
    obtain ⟨retval, rfl⟩ := hone
    exact ⟨added ++ [retval], List.append_assoc _ _ _⟩

/-- A lookup is answered by the lines that have been added before it. -/
lemma lookup_answer {pre post : List Call} {x : CStr}
    (h : excludeCalls pton e (pre ++ .isexcluded x :: post) = some (v, rets)) :
    ∃ retval, rets[pre.length]? = some retval ∧
      (retval = retvalOk ↔ ∃ a, searched pton x = some a ∧
        ∃ line, Listed pton (ops pre) line ∧ CoversLine pton a line) := by
  have hsplit : pre ++ .isexcluded x :: post = (pre ++ [.isexcluded x]) ++ post := by simp
  rw [hsplit] at h
  have hsome : (excludeCalls pton e (pre ++ [.isexcluded x])).isSome :=
    run_isSome_left (fun _ => rfl) (by rw [show run _ _ _ = _ from h]; rfl)
  obtain ⟨⟨v₁, rets₁⟩, hfirst⟩ := Option.isSome_iff_exists.mp hsome
  obtain ⟨added, rfl⟩ := calls_append hfirst h
  rw [calls_snoc] at hfirst
  obtain ⟨⟨v₀, rets₀⟩, hpre, hcall⟩ := Option.bind_eq_some_iff.mp hfirst
  obtain ⟨hlen, lines, hrun⟩ := calls_ops hpre
  obtain ⟨retval, hret, hsome⟩ := Option.map_eq_some_iff.mp hcall
  cases hsome
  refine ⟨retval, by simp [← hlen], ?_⟩
  rw [← isexcluded_listed (x := x) hrun]
  simp only [hret, Option.some.injEq]

/-! ### The threads -/

variable {ι : Type*} [DecidableEq ι]

/-- The calls of the threads, access by access. -/
def threads (pton : InetPton) (e : Endian) (garbage : ExcludeRecord) : Code Shared Place Call :=
  ⟨entry pton e, access e garbage⟩

/-- After `exclude_init`: no thread is in the list. -/
def atRest : Lib.Sections.St ι Shared Place := ⟨some (excludeInit, []), none⟩

def interleaved (pton : InetPton) (e : Endian) (garbage : ExcludeRecord)
    (moves : List (Move ι Call)) : Lib.Sections.St ι Shared Place :=
  run (Lib.Sections.step (threads pton e garbage)) atRest moves

/-- The calls of a run in the order in which `exclude_mutex` has been taken for them. -/
def serial (pton : InetPton) (e : Endian) (garbage : ExcludeRecord) (moves : List (Move ι Call)) :
    List Call :=
  (sections (threads pton e garbage) atRest moves).map Prod.snd

/-- What the calls on their way make of the list. -/
lemma interleaved_ordered (pton : InetPton) (e : Endian) (garbage : ExcludeRecord)
    (moves : List (Move ι Call)) :
    Ordered (threads pton e garbage) (excludeCalls pton e (serial pton e garbage moves))
      (interleaved pton e garbage moves) :=
  sections_atomic sized_init (fun _ c h => sized_call h c)
    (fun _ c h => sized_ends garbage h c) moves

/-- **Lookups are exact among the threads**: however the accesses of any number of threads to the
list interleave, each thread in it gets out by accesses of its own, whatever the others do in
between, and once no thread is in it the calls have done and returned what they would one after the
other, in the order in which the threads got the mutex. So a lookup has found the address if and
only if a line that covers it had been added since the list was cleared last. -/
theorem lookups_exact (pton : InetPton) (e : Endian) (garbage : ExcludeRecord)
    (moves : List (Move ι Call)) :
    (∀ i p, (interleaved pton e garbage moves).holder = some (i, p) →
      ∃ n, ∀ later : List (Move ι Call), n ≤ later.countP (Move.isAccess i) →
        ∃ pre post, later = pre ++ post ∧ interleaved pton e garbage (moves ++ pre) =
          ⟨excludeCalls pton e (serial pton e garbage moves), none⟩) ∧
    ((interleaved pton e garbage moves).holder = none →
      (interleaved pton e garbage moves).shared =
        excludeCalls pton e (serial pton e garbage moves) ∧
      ∀ pre x post v rets, serial pton e garbage moves = pre ++ .isexcluded x :: post →
        (interleaved pton e garbage moves).shared = some (v, rets) →
        ∃ retval, rets[pre.length]? = some retval ∧
          (retval = retvalOk ↔ ∃ a, searched pton x = some a ∧
            ∃ line, Listed pton (ops pre) line ∧ CoversLine pton a line)) := by
  have hordered := interleaved_ordered pton e garbage moves
  refine ⟨fun i p hbusy => ?_, fun hfree => ?_⟩
  · obtain ⟨n, hleaves⟩ := hordered.leaves hbusy
    refine ⟨n, fun later hcount => ?_⟩
    obtain ⟨pre, post, rfl, hrun⟩ := hleaves later hcount
    exact ⟨pre, post, rfl, by rw [interleaved, run_append, ← interleaved, hrun]⟩
  · have hshared := hordered.free hfree
    refine ⟨hshared, fun pre x post v rets hserial hs => ?_⟩
    rw [hshared, hserial] at hs
    exact lookup_answer hs

/-- A lookup that comes while a line is being added waits, and finds it. -/
example :
    (interleaved quadPton .little (.inet 0 0)
      [.lock 0 (.op (.add true (ascii "10.0.0.0/8"))), .access 0, .lock 1 (.isexcluded (ascii "10.1.1.1")),
        .access 1, .access 0, .access 0, .access 0, .access 0,
        .lock 1 (.isexcluded (ascii "10.1.1.1")), .access 1, .access 1]).shared.map Prod.snd =
      some [retvalOk, retvalOk] := by decide +kernel

end Agentsmith.ExcludeLoops
