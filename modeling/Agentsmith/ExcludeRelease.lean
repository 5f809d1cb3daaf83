import Agentsmith.ExcludeReloads
import Agentsmith.Release

/-!
A host that is put on the exclude list while it is blocked.

`regex_do` looks a captured string up and adds it afterwards, and the line that covers it may have
been added to the list in between. From then on the host is not sighted, whatever the log says, and
it is let go like one that is silent.
-/

namespace Agentsmith.ExcludeRelease

open Agentsmith.Lib.CStrings Agentsmith.Lib.Words Agentsmith.Lib.Runs Agentsmith.Lib.Alternation
open Agentsmith.Globals Agentsmith.Daemon Agentsmith.Records Agentsmith.PerAddress
open Agentsmith.ActionCalls Agentsmith.Release
open Agentsmith.Exclude (InetPton excludeIsexcluded)
open Agentsmith.ExcludeReload (Adds)
open Agentsmith.ExcludeReloads (reloads reloadsStep started)

/-- The list with the threads that read it anew, what `regex_do` has captured and not found on the
list, and the vector. -/
structure St where
  exclude : ExcludeReloads.St
  captured : Option CStr
  daemon : Daemon.St

/-- A signal, a call of a reading thread or a lookup of another one; `regex_do` up to the lookup of
what it has captured, and its `records_add_ip`; a pass, a maintenance run, `SIGUSR2`. -/
inductive Turn
  | exclude (t : ExcludeReloads.Turn)
  | capture (y : CStr)
  | add (now : Int64) (mem : Bool)
  | pass (now : Int64)
  | maintenance (now : Int64)
  | purge (now : Int64)

def Turn.exclude? : Turn → Option ExcludeReloads.Turn
  | .exclude t => some t
  | _ => none

def Turn.time : Turn → Option Int64
  | .add now _ | .pass now | .maintenance now | .purge now => some now
  | _ => none

/-- The call into the vector. -/
def event (s : St) : Turn → Option Event
  | .add now mem => s.captured.map fun y => ⟨now, .sighting mem y⟩
  | .pass now => some ⟨now, .actionPass⟩
  | .maintenance now => some ⟨now, .maintenance⟩
  | .purge now => some ⟨now, .purgeAll⟩
  | .exclude _ | .capture _ => none

section

variable (cfg : Config) (pton : InetPton) (e : Endian)

def daemonNext (s : St) (t : Turn) : Daemon.St :=
  (event s t).elim s.daemon (daemonStep cfg s.daemon)

def step (s : Option St) (t : Turn) : Option St :=
  match s, t with
  | none, _ => none
  | some s, .exclude u =>
    (reloadsStep pton e (some s.exclude) u).map fun x => { s with exclude := x }
  | some s, .capture y =>
    if s.captured.isSome then some s
    else (excludeIsexcluded pton e y s.exclude.list.1).map fun found =>
      if found ≠ retvalOk then { s with captured := some y } else s
  | some s, .add now mem =>
    some { s with captured := none, daemon := daemonNext cfg s (.add now mem) }
  | some s, t => some { s with daemon := daemonNext cfg s t }

def start : St := ⟨⟨(Exclude.excludeInit, []), []⟩, none, ([], recordsInit)⟩

/-- The threads; there is no state once an assertion on what is looked up has failed. -/
def threads (turns : List Turn) : Option St := run (step cfg pton e) (some start) turns

def events (turns : List Turn) : List Event :=
  output (step cfg pton e) (fun s t => (s.bind fun s => event s t).toList) (some start) turns

end

/-- The time of the turns does not go back. -/
def Timed (turns : List Turn) : Prop :=
  (∀ now ∈ turns.filterMap Turn.time, 0 ≤ now) ∧
    (turns.filterMap Turn.time).Pairwise fun a b => a ≤ b

variable {cfg : Config} {pton : InetPton} {e : Endian} {x : CStr} {turns : List Turn} {s s' : St}
  {t : Turn} {ev : Event}

/-! ### The parts of a run -/

lemma step_exclude (h : step cfg pton e (some s) t = some s') :
    reloads pton e [] (turns.filterMap Turn.exclude?) = some s.exclude →
      reloads pton e [] ((turns ++ [t]).filterMap Turn.exclude?) = some s'.exclude := by
  intro hs
  have hsame : t.exclude? = none → s'.exclude = s.exclude →
      reloads pton e [] ((turns ++ [t]).filterMap Turn.exclude?) = some s'.exclude := by
    intro ht hex
    rw [List.filterMap_append, hex]
    simpa [ht] using hs
  cases t with
  | exclude u =>
    obtain ⟨l, hl, rfl⟩ := Option.map_eq_some_iff.mp h
    have hone : List.filterMap Turn.exclude? [.exclude u] = [u] := rfl
    rw [List.filterMap_append, hone, reloads, run_snoc, ← reloads, hs]
    exact hl
  | capture y =>
    refine hsame rfl ?_
    simp only [step] at h
    split at h
    · cases h
      rfl
    · obtain ⟨found, -, rfl⟩ := Option.map_eq_some_iff.mp h
      split <;> rfl
  | add now mem | pass now | maintenance now | purge now =>
    cases h
    exact hsame rfl rfl

lemma threads_exclude (h : threads cfg pton e turns = some s) :
    reloads pton e [] (turns.filterMap Turn.exclude?) = some s.exclude :=
  run_some_hist (P := fun ts (s : St) =>
      reloads pton e [] (ts.filterMap Turn.exclude?) = some s.exclude) (fun _ => rfl)
    (fun s hs => by cases hs; rfl) (fun _ _ _ _ hs hstep => step_exclude hstep hs) h

lemma step_daemon (h : step cfg pton e (some s) t = some s') : s'.daemon = daemonNext cfg s t := by
  cases t with
  | exclude u =>
    obtain ⟨l, -, rfl⟩ := Option.map_eq_some_iff.mp h
    rfl
  | capture y =>
    simp only [step] at h
    split at h
    · cases h
      rfl
    · obtain ⟨found, -, rfl⟩ := Option.map_eq_some_iff.mp h
      split <;> rfl
  | add now mem | pass now | maintenance now | purge now =>
    cases h
    rfl

lemma events_snoc (h : threads cfg pton e turns = some s) :
    events cfg pton e (turns ++ [t]) = events cfg pton e turns ++ (event s t).toList := by
  rw [events, output_snoc, ← events]
  exact congrArg
    (fun o : Option St => events cfg pton e turns ++ (o.bind fun s => event s t).toList) h

lemma threads_daemon (h : threads cfg pton e turns = some s) :
    s.daemon = daemon cfg (events cfg pton e turns) := by
  induction turns using List.reverseRecOn generalizing s with
  | nil =>
    cases h
    rfl
  | append_singleton turns t ih =>
    obtain ⟨q, hq, hstep⟩ := run_snoc_some (fun _ => rfl) h
    rw [events_snoc hq, step_daemon hstep, daemon, run_append, ← daemon, ← ih hq, daemonNext]
    cases event q t <;> rfl

/-! ### While the host is on the list -/

/-- A thread is started to read the list anew. -/
def Turn.Signals : Turn → Prop
  | .exclude (.signal _ _) => True
  | _ => False

/-- The host is on the list, which nobody is about to change, and `regex_do` is not about to add
the host. -/
structure Listed (pton : InetPton) (e : Endian) (x : CStr) (s : St) : Prop where
  done : ∀ todo ∈ s.exclude.todos, todo = []
  excluded : excludeIsexcluded pton e x s.exclude.list.1 = some retvalOk
  captured : s.captured ≠ some x

lemma Listed.event (h : Listed pton e x s) (hev : event s t = some ev) : Unseen x ev := by
  cases t with
  | add now mem =>
    obtain ⟨y, hy, rfl⟩ := Option.map_eq_some_iff.mp hev
    exact ⟨trivial, fun hyx => h.captured (by rw [hy, show y = x from hyx])⟩
  | pass now | maintenance now | purge now =>
    cases hev
    exact ⟨trivial, id⟩
  | exclude u | capture y => cases hev

/-- Without a signal the reading threads, which are done, leave the list alone. -/
lemma Listed.reloads (h : Listed pton e x s) {u : ExcludeReloads.Turn} {l : ExcludeReloads.St}
    (hu : ¬ Turn.Signals (.exclude u)) (hstep : reloadsStep pton e (some s.exclude) u = some l) :
    l = s.exclude := by
  cases u with
  | signal mem file => exact absurd trivial hu
  | look y =>
    obtain ⟨_, -, rfl⟩ := Option.map_eq_some_iff.mp hstep
    rfl
  | read i =>
    simp only [reloadsStep] at hstep
    rcases hi : s.exclude.todos[i]? with _ | todo
    · rw [hi] at hstep
      exact (Option.some.inj hstep).symm
    · rw [hi, h.done todo (List.mem_of_getElem? hi)] at hstep
      exact (Option.some.inj hstep).symm

lemma Listed.step (h : Listed pton e x s) (ht : ¬ t.Signals)
    (hstep : step cfg pton e (some s) t = some s') : Listed pton e x s' := by
  cases t with
  | exclude u =>
    obtain ⟨l, hl, rfl⟩ := Option.map_eq_some_iff.mp hstep
    rw [h.reloads ht hl]
    exact h
  | capture y =>
    simp only [ExcludeRelease.step] at hstep
    split at hstep
    · cases hstep
      exact h
    · obtain ⟨found, hfound, rfl⟩ := Option.map_eq_some_iff.mp hstep
      split
      · rename_i hne
        refine ⟨h.done, h.excluded, fun hyx => hne ?_⟩
        rw [Option.some.inj hyx, h.excluded] at hfound
        exact (Option.some.inj hfound).symm
      · exact h
  | add now mem =>
    cases hstep
    exact ⟨h.done, h.excluded, fun hnone => by cases hnone⟩
  | pass now | maintenance now | purge now =>
    cases hstep
    exact ⟨h.done, h.excluded, h.captured⟩

/-- What is called into the vector in the turns behind a state. -/
def eventsFrom (cfg : Config) (pton : InetPton) (e : Endian) (s : Option St)
    (turns : List Turn) : List Event :=
  output (step cfg pton e) (fun s t => (s.bind fun s => event s t).toList) s turns

lemma Listed.eventsFrom (cfg : Config) (h : Listed pton e x s) (hturns : ∀ t ∈ turns, ¬ t.Signals) :
    ∀ ev ∈ eventsFrom cfg pton e (some s) turns, Unseen x ev := by
  induction turns generalizing s with
  | nil => exact fun ev hev => by cases hev
  | cons t turns ih =>
    intro ev hev
    rcases List.mem_append.mp hev with hfirst | hrest
    · exact h.event (Option.mem_toList.mp hfirst)
    · rcases hs : ExcludeRelease.step cfg pton e (some s) t with _ | s'
      · rw [hs] at hrest
        have hnone : ∀ ts : List Turn, ExcludeRelease.eventsFrom cfg pton e none ts = [] := by
          intro ts
          induction ts with
          | nil => rfl
          | cons _ ts ih => exact ih
        rw [show output _ _ _ _ = _ from hnone turns] at hrest
        cases hrest
      · rw [hs] at hrest
        exact ih (h.step (hturns t List.mem_cons_self) hs)
          (fun u hu => hturns u (List.mem_cons_of_mem t hu)) ev hrest

/-! ### Times and lengths -/

lemma event_time (h : event s t = some ev) : t.time = some ev.time := by
  cases t with
  | add now mem =>
    obtain ⟨y, -, rfl⟩ := Option.map_eq_some_iff.mp h
    rfl
  | pass now | maintenance now | purge now =>
    cases h
    rfl
  | exclude u | capture y => cases h

lemma times_sublist (o : Option St) (turns : List Turn) :
    ((eventsFrom cfg pton e o turns).map Event.time).Sublist (turns.filterMap Turn.time) := by
  induction turns generalizing o with
  | nil => exact List.Sublist.refl []
  | cons t turns ih =>
    have hrest := ih (step cfg pton e o t)
    show ((o.bind fun s => event s t).toList ++ eventsFrom cfg pton e (step cfg pton e o t)
      turns).map Event.time |>.Sublist _
    rcases hev : o.bind fun s => event s t with _ | ev
    · rw [List.filterMap_cons]
      split
      · exact hrest
      · exact hrest.cons _
    · obtain ⟨s, -, hs⟩ := Option.bind_eq_some_iff.mp hev
      rw [List.filterMap_cons, event_time hs]
      exact hrest.cons_cons _

lemma clocked_events (h : Timed turns) : Clocked (events cfg pton e turns) := by
  have hsub : ((events cfg pton e turns).map Event.time).Sublist (turns.filterMap Turn.time) :=
    times_sublist _ turns
  exact ⟨fun ev hev => h.1 _ (hsub.subset (List.mem_map_of_mem hev)),
    List.pairwise_map.mp (h.2.sublist hsub)⟩

/-- What is captured fits into the field of a record with its NUL. -/
def Short (turns : List Turn) : Prop := ∀ y, .capture y ∈ turns → y.1.length < ipaddrSize

lemma captured_short (hshort : Short turns) (h : threads cfg pton e turns = some s) :
    ∀ y, s.captured = some y → y.1.length < ipaddrSize := by
  induction turns using List.reverseRecOn generalizing s with
  | nil =>
    cases h
    exact fun y hy => by cases hy
  | append_singleton turns t ih =>
    obtain ⟨q, hq, hstep⟩ := run_snoc_some (fun _ => rfl) h
    have hbefore := ih (fun y hy => hshort y (List.mem_append_left _ hy)) hq
    cases t with
    | exclude u =>
      obtain ⟨l, -, rfl⟩ := Option.map_eq_some_iff.mp hstep
      exact hbefore
    | capture z =>
      have hz : z.1.length < ipaddrSize := hshort z (by simp)
      simp only [step] at hstep
      split at hstep
      · cases hstep
        exact hbefore
      · obtain ⟨found, -, rfl⟩ := Option.map_eq_some_iff.mp hstep
        split
        · exact fun y hy => Option.some.inj hy ▸ hz
        · exact hbefore
    | add now mem =>
      cases hstep
      exact fun y hy => by cases hy
    | pass now | maintenance now | purge now =>
      cases hstep
      exact hbefore

lemma events_local_fits (hshort : Short turns) (h : threads cfg pton e turns = some s) :
    ∀ ev ∈ events cfg pton e turns, ev.Local ∧ ev.Fits := by
  induction turns using List.reverseRecOn generalizing s with
  | nil => exact fun ev hev => by cases hev
  | append_singleton turns t ih =>
    obtain ⟨q, hq, -⟩ := run_snoc_some (fun _ => rfl) h
    have hleft : Short turns := fun y hy => hshort y (List.mem_append_left _ hy)
    intro ev hev
    rw [events_snoc hq] at hev
    rcases List.mem_append.mp hev with hold | hnew
    · exact ih hleft hq ev hold
    · have hev' := Option.mem_toList.mp hnew
      cases t with
      | add now mem =>
        obtain ⟨y, hy, rfl⟩ := Option.map_eq_some_iff.mp hev'
        exact ⟨trivial, captured_short hleft hq y hy⟩
      | pass now | maintenance now | purge now =>
        cases hev'
        exact ⟨trivial, trivial⟩
      | exclude u | capture y => cases hev'

/-! ### The whole story -/

/-- A turn that calls into the vector whatever the state, in the midst of others. -/
lemma eventsFrom_cut {call : Turn} (hev : ∀ s, event s call = some ev) {o : Option St}
    {as bs : List Turn} (h : (run (step cfg pton e) o (as ++ call :: bs)).isSome) :
    ∃ o', (run (step cfg pton e) o' bs).isSome ∧
      eventsFrom cfg pton e o (as ++ call :: bs) =
        eventsFrom cfg pton e o as ++ ev :: eventsFrom cfg pton e o' bs := by
  obtain ⟨q, hq⟩ := Option.isSome_iff_exists.mp (run_isSome_left (fun _ => rfl) h)
  rw [run_append, run_cons] at h
  refine ⟨_, h, ?_⟩
  unfold eventsFrom
  rw [output_append, output, hq, Option.bind_some, hev]
  rfl

/-- Every reading thread is done, every file that has been read covers the address, and `regex_do`
is not just about to add it. -/
structure Whitelisted (pton : InetPton) (x : CStr) (pre : List Turn) (s : St) : Prop where
  done : ∀ todo ∈ s.exclude.todos, todo = []
  read : ∃ ops ∈ started (pre.filterMap Turn.exclude?), ops ≠ []
  covers : ∀ ops ∈ started (pre.filterMap Turn.exclude?), ops ≠ [] → ∃ op ∈ ops, Adds pton x op
  captured : s.captured ≠ some x

lemma Whitelisted.listed {pre : List Turn} (h : Whitelisted pton x pre s)
    (hpre : threads cfg pton e pre = some s) : Listed pton e x s := by
  obtain ⟨adds, post, hthread, hadds, -, hiff⟩ :=
    ExcludeReloads.reloads_last (threads_exclude hpre) h.done h.read
  have hcovers := h.covers _ hthread (List.cons_ne_nil _ _)
  exact ⟨h.done, (hiff x).mpr (ExcludeReloads.adds_cons hadds hcovers), h.captured⟩

/-- The events of a run that is continued. -/
lemma events_append {pre : List Turn} (hpre : threads cfg pton e pre = some s)
    (rest : List Turn) :
    events cfg pton e (pre ++ rest) =
      events cfg pton e pre ++ eventsFrom cfg pton e (some s) rest := by
  rw [events, output_append, ← events]
  exact congrArg (fun o => events cfg pton e pre ++ eventsFrom cfg pton e o rest) hpre

/-- **Whitelisting a host lets it go**: once the address is whitelisted and as long as there is no
other signal, it is not sighted any more, whatever is captured from the log; so when there have
been two passes, the second one more than `purge_after` seconds later, and then a maintenance run,
it has no record, and every action called for it has been taken back. -/
theorem whitelisted_released (cfg : Config) (pton : InetPton) (e : Endian) (x : CStr)
    (pre rest a b c d : List Turn) (t u v T : Int64) {s s' : St}
    (hpre : threads cfg pton e pre = some s) (hlisted : Whitelisted pton x pre s)
    (hrest : rest = a ++ .pass t :: (b ++ .pass u :: (c ++ .maintenance v :: d)))
    (hsignals : ∀ turn ∈ rest, ¬ turn.Signals)
    (hT : 0 ≤ T) (hbefore : ∀ now ∈ pre.filterMap Turn.time, now ≤ T)
    (hlong : cfg.purgeAfter.toInt < u.toInt - T.toInt)
    (htimed : Timed (pre ++ rest)) (hshort : Short (pre ++ rest))
    (hrun : threads cfg pton e (pre ++ rest) = some s') :
    (∀ ev ∈ eventsFrom cfg pton e (some s) rest, ¬ ev.Sights x) ∧
      recordsGet s'.daemon.2 x = none ∧
      Alternating .new .remove (callsFor x s'.daemon.1) ∧
      (callsFor x s'.daemon.1).count .new = (callsFor x s'.daemon.1).count .remove := by
  have hquiet := (hlisted.listed hpre).eventsFrom cfg hsignals
  have hevents := events_append hpre rest
  have hclock : Clocked (events cfg pton e (pre ++ rest)) := clocked_events htimed
  have hfits := events_local_fits hshort hrun
  -- the passes and the maintenance run among the events
  obtain ⟨q, hq⟩ : ∃ q, run (step cfg pton e) (some s) rest = some q := by
    have hsplit : threads cfg pton e (pre ++ rest) = run (step cfg pton e) (some s) rest := by
      rw [threads, run_append, ← threads, hpre]
    exact ⟨s', by rw [← hsplit, hrun]⟩
  have hsome : (run (step cfg pton e) (some s)
      (a ++ .pass t :: (b ++ .pass u :: (c ++ .maintenance v :: d)))).isSome := by
    rw [← hrest, hq]
    rfl
  obtain ⟨o₁, h₁, hcut₁⟩ := eventsFrom_cut (fun _ => rfl) hsome
  obtain ⟨o₂, h₂, hcut₂⟩ := eventsFrom_cut (fun _ => rfl) h₁
  obtain ⟨o₃, h₃, hcut₃⟩ := eventsFrom_cut (fun _ => rfl) h₂
  rw [hcut₂, hcut₃, ← hrest] at hcut₁
  refine ⟨fun ev hev => (hquiet ev hev).2, ?_⟩
  rw [threads_daemon hrun]
  refine gone_closed (fun ev hev => (hfits ev hev).2) ?_
  rw [hevents] at hclock hfits ⊢
  have hold : Has (Old cfg T) (view cfg x (events cfg pton e pre)) := by
    refine old_view (clocked_left hclock)
      (fun ev hev => (hfits ev (List.mem_append_left _ hev)).1) hT fun ev hev _ => ?_
    exact hbefore ev.time ((times_sublist _ pre).subset (List.mem_map_of_mem hev))
  have hu : 0 ≤ u := hclock.1 ⟨u, .actionPass⟩ (by rw [hcut₁]; simp)
  unfold view
  rw [run_append, hcut₁]
  rw [hcut₁] at hquiet
  exact released_view hold hu hlong hquiet

/-- A host is blocked before the file with its network has been read. -/
def blocked : List Turn :=
  let x := ascii "192.0.2.7"
  [.exclude (.signal (fun _ => true) (some (ascii "192.0.2.0/24\n").1)), .capture x, .add 100 true,
    .exclude (.read 0), .capture x, .add 101 true, .pass 102, .exclude (.read 0)]

/-- It goes on trying. -/
def ignored : List Turn :=
  let x := ascii "192.0.2.7"
  [.capture x, .add 110 true, .pass 111, .capture x, .pass 300, .maintenance 301]

theorem whitelisted_released_run : ∃ s s',
    threads ⟨2, 60, 100⟩ ExcludeCidr.quadPton .little blocked = some s ∧
      threads ⟨2, 60, 100⟩ ExcludeCidr.quadPton .little (blocked ++ ignored) = some s' ∧
      callsFor (ascii "192.0.2.7") s.daemon.1 = [.new] ∧
      callsFor (ascii "192.0.2.7") s'.daemon.1 = [.new, .remove] ∧
      recordsGet s'.daemon.2 (ascii "192.0.2.7") = none := by
  have hpre : (threads ⟨2, 60, 100⟩ ExcludeCidr.quadPton .little blocked).map
      (fun s => (s.exclude.todos, s.captured, callsFor (ascii "192.0.2.7") s.daemon.1)) =
        some ([[]], none, [.new]) := by decide +kernel
  have hrun : (threads ⟨2, 60, 100⟩ ExcludeCidr.quadPton .little (blocked ++ ignored)).map
      (fun s => callsFor (ascii "192.0.2.7") s.daemon.1) = some [.new, .remove] := by
    decide +kernel
  obtain ⟨s, hs, hstate⟩ := Option.map_eq_some_iff.mp hpre
  obtain ⟨s', hs', hcalls⟩ := Option.map_eq_some_iff.mp hrun
  have htodos : s.exclude.todos = [[]] := congrArg Prod.fst hstate
  have hcaptured : s.captured = none := congrArg (fun p => p.2.1) hstate
  have hnew : callsFor (ascii "192.0.2.7") s.daemon.1 = [.new] :=
    congrArg (fun p => p.2.2) hstate
  -- the file covers the address
  have hcovers : ∃ op ∈ [Exclude.Op.add true (ascii "192.0.2.0/24")],
      Adds ExcludeCidr.quadPton (ascii "192.0.2.7") op := by
    have hfound : (Exclude.excludeRun ExcludeCidr.quadPton .little
        ([] ++ .clear :: [.add true (ascii "192.0.2.0/24")])).bind (fun s =>
          excludeIsexcluded ExcludeCidr.quadPton .little (ascii "192.0.2.7") s.1) =
            some retvalOk := by decide +kernel
    obtain ⟨l, hl, hx⟩ := Option.bind_eq_some_iff.mp hfound
    exact (ExcludeReload.isexcluded_adds (by decide) hl).mp hx
  have hstarted : started (blocked.filterMap Turn.exclude?) =
      [.clear :: [.add true (ascii "192.0.2.0/24")]] := by decide +kernel
  have hlisted : Whitelisted ExcludeCidr.quadPton (ascii "192.0.2.7") blocked s := by
    refine ⟨?_, ?_, fun ops hops _ => ?_, ?_⟩
    · rw [htodos]
      exact List.forall_mem_singleton.mpr rfl
    · rw [hstarted]
      exact ⟨_, List.mem_cons_self, List.cons_ne_nil _ _⟩
    · rw [hstarted, List.mem_singleton] at hops
      obtain ⟨op, hop, hx⟩ := hcovers
      exact ⟨op, hops ▸ List.mem_cons_of_mem _ hop, hx⟩
    · rw [hcaptured]
      exact nofun
  have htimed : Timed (blocked ++ ignored) := by
    have htimes : (blocked ++ ignored).filterMap Turn.time =
        [100, 101, 102, 110, 111, 300, 301] := rfl
    rw [Timed, htimes]
    refine ⟨?_, by decide⟩
    simp only [List.forall_mem_cons]
    exact ⟨by decide, by decide, by decide, by decide, by decide, by decide, by decide, nofun⟩
  have hbefore : ∀ now ∈ blocked.filterMap Turn.time, now ≤ 102 := by
    have htimes : blocked.filterMap Turn.time = [100, 101, 102] := rfl
    rw [htimes]
    simp only [List.forall_mem_cons]
    exact ⟨by decide, by decide, by decide, nofun⟩
  have hshort : Short (blocked ++ ignored) := by
    intro y hy
    have hx : y = ascii "192.0.2.7" := by simpa [blocked, ignored] using hy
    rw [hx]
    decide
  have hreleased := whitelisted_released ⟨2, 60, 100⟩ ExcludeCidr.quadPton .little
    (ascii "192.0.2.7") blocked ignored [.capture (ascii "192.0.2.7"), .add 110 true]
    [.capture (ascii "192.0.2.7")] [] [] 111 300 301 102 hs hlisted rfl
    (by simp [ignored, Turn.Signals]) (by decide) hbefore (by decide) htimed hshort hs'
  exact ⟨s, s', hs, hs', hnew, hcalls, hreleased.2.1⟩

end Agentsmith.ExcludeRelease
