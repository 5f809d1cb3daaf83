import Agentsmith.RecordsLoops
import Agentsmith.ServerWorkers

/-!
`threads_stop`, while the threads are at work.

The main thread cancels a thread and then joins it: the server, the maintenance thread, the action
thread. A cancellation is deferred until the thread comes to a cancellation point. Where the loops
wait there is one, but there is one in `_do_action` too, when the program is run, and the call into
the vector is then left with `vector_mutex` taken.
-/

namespace Agentsmith.ThreadsStop

open Agentsmith.Lib.CStrings Agentsmith.Lib.Slots Agentsmith.Lib.Runs
open Agentsmith.Lib.Sections (Code Ends Ordered Move)
open Agentsmith.Globals Agentsmith.Records Agentsmith.RecordsMap Agentsmith.Daemon
open Agentsmith.RecordsLoops
open Agentsmith.ServerWorkers (maxWaitWorker)

/-- The threads that call into the vector: the main one, which follows the file, the two loops of
`threads_start`, and those of the server's connections and of `SIGUSR2`. -/
inductive Thread
  | main | action | maintenance
  | other (k : ℕ)
  deriving DecidableEq

/-- The vector with the place of the thread that is in it. -/
abbrev Vector := Lib.Sections.St Thread Daemon.St (Place (List Call))

/-- Where `action_thread` or `maintenance_thread` is: at its call into the vector, or at
`nanosleep` and `pthread_testcancel`. -/
inductive LoopPc | calling | sleeping | ended
  deriving DecidableEq

structure Loop where
  pc : LoopPc
  cancelled : Bool
  deriving DecidableEq

/-- Where `server_thread` is: before its loop, in it, at the `n`-th look at the semaphore of
`_network_server_shutdown_and_cleanup`, or at its end. -/
inductive ServerPc
  | starting | serving
  | shutdown (n : ℕ)
  | ended
  deriving DecidableEq

structure Server where
  pc : ServerPc
  cancelled : Bool
  deriving DecidableEq

/-- Where `main` is: in `follow`, before a call of `threads_stop`, or behind the last of them. -/
inductive MainPc
  | following
  | cancelServer | joinServer | cancelMaintenance | joinMaintenance | cancelAction | joinAction
  | stopped
  deriving DecidableEq

structure St where
  vector : Vector
  action : Loop
  maintenance : Loop
  server : Server
  main : MainPc

/-- A turn of a thread: of `main` in `follow` or behind it, of one of the loops, of the server, or
of a thread that comes and goes. `acts` says whether a cancellation is acted upon in
`_do_action`, and `ok` how a call of the server comes out. -/
inductive Turn
  | follow (now : Int64) (mem : Bool) (x : CStr)
  | main
  | action (now : Int64) (acts : Bool)
  | maintenance (now : Int64) (acts : Bool)
  | server (ok : Bool)
  | other (k : ℕ) (ev : Event)

/-- The thread is between `pthread_mutex_lock` and `pthread_mutex_unlock`. -/
def Inside (v : Vector) (i : Thread) : Prop := v.holder.map Prod.fst = some i

instance (v : Vector) (i : Thread) : Decidable (Inside v i) :=
  inferInstanceAs (Decidable (_ = _))

section

variable (cfg : Config)

/-- A thread goes on with its call into the vector, or tries to begin it. -/
def callStep (i : Thread) (ev : Event) (v : Vector) : Vector :=
  Lib.Sections.step (threads cfg) v (if Inside v i then .access i else .lock i ev)

/-- A turn of a loop that makes the call `ev` over and over. -/
def loopStep (i : Thread) (ev : Event) (acts : Bool) (v : Vector) (l : Loop) : Vector × Loop :=
  match l.pc with
  | .calling =>
    let v' := callStep cfg i ev v
    if l.cancelled ∧ acts ∧ v'.shared.1 ≠ v.shared.1 then
      -- `_do_action` has been called and does not return
      (⟨(v'.shared.1, v.shared.2), v.holder⟩, { l with pc := .ended })
    else if Inside v i ∧ v'.holder.isNone then (v', { l with pc := .sleeping })
    else (v', l)
  | .sleeping => (v, { l with pc := if l.cancelled then .ended else .calling })
  | .ended => (v, l)

/-- `server_thread` up to its next cancellation point. -/
def serverStep (ok : Bool) (s : Server) : Server :=
  match s.pc with
  | .starting => { s with pc := if ok then .serving else .ended }
  | .serving => if s.cancelled ∨ ¬ ok then { s with pc := .shutdown 1 } else s
  | .shutdown n => { s with pc := if ok ∨ maxWaitWorker ≤ n then .ended else .shutdown (n + 1) }
  | .ended => s

/-- `main` from the return of `follow` on; `server` says whether `CONFIG.server` is set. -/
def mainStep (server : Bool) (s : St) : St :=
  match s.main with
  | .following =>
    if Inside s.vector .main then s
    else { s with main := if server then .cancelServer else .cancelMaintenance }
  | .cancelServer =>
    { s with server := { s.server with cancelled := true }, main := .joinServer }
  | .joinServer => if s.server.pc = .ended then { s with main := .cancelMaintenance } else s
  | .cancelMaintenance =>
    { s with maintenance := { s.maintenance with cancelled := true }, main := .joinMaintenance }
  | .joinMaintenance =>
    if s.maintenance.pc = .ended then { s with main := .cancelAction } else s
  | .cancelAction =>
    { s with action := { s.action with cancelled := true }, main := .joinAction }
  | .joinAction => if s.action.pc = .ended then { s with main := .stopped } else s
  | .stopped => s

def step (server : Bool) (s : St) : Turn → St
  | .follow now mem x =>
    if s.main = .following then
      { s with vector := callStep cfg .main ⟨now, .sighting mem x⟩ s.vector }
    else s
  | .main => mainStep server s
  | .action now acts =>
    let (v, l) := loopStep cfg .action ⟨now, .actionPass⟩ acts s.vector s.action
    { s with vector := v, action := l }
  | .maintenance now acts =>
    let (v, l) := loopStep cfg .maintenance ⟨now, .maintenance⟩ acts s.vector s.maintenance
    { s with vector := v, maintenance := l }
  | .server ok => { s with server := serverStep ok s.server }
  | .other k ev => { s with vector := callStep cfg (.other k) ev s.vector }

/-- After `threads_start`. -/
def started (server : Bool) : St where
  vector := atRest
  action := ⟨.calling, false⟩
  maintenance := ⟨.calling, false⟩
  server := ⟨if server then .starting else .ended, false⟩
  main := .following

/-- The process from `threads_start` on. -/
def process (server : Bool) (turns : List Turn) : St :=
  run (step cfg server) (started server) turns

end

/-- The maintenance thread has ended in the vector, and the action thread is at its call. -/
def Hung (s : St) : Prop :=
  s.maintenance.pc = .ended ∧ Inside s.vector .maintenance ∧ s.action.pc = .calling

instance (s : St) : Decidable (Hung s) := inferInstanceAs (Decidable (_ ∧ _ ∧ _))

/-- The maintenance thread is about to call the action that takes a record's action back, while
`main` waits for it to end. -/
def TakingBack (s : St) : Prop :=
  s.main = .joinMaintenance ∧ ∃ cb i r, s.vector.holder = some (.maintenance, .sweep cb i) ∧
    slot s.vector.shared.2.vec i = some r ∧ r.remove ≠ 0 ∧ r.processed ≠ 0

variable {cfg : Config} {server : Bool} {s s' : St} {v v' : Vector} {i j : Thread} {l l' : Loop}
  {ev : Event} {acts : Bool} {p : Place (List Call)}

/-! ### A turn at the vector -/

lemma inside_iff : Inside v i ↔ ∃ p, v.holder = some (i, p) := by
  unfold Inside
  rcases v.holder with _ | ⟨j, p⟩ <;> simp

lemma inside_unique (hi : Inside v i) (hj : Inside v j) : i = j :=
  Option.some.inj (hi.symm.trans hj)

lemma callStep_free (h : v.holder = none) :
    callStep cfg i ev v = ⟨v.shared, some (i, entry cfg ev.op)⟩ := by
  have hout : ¬ Inside v i := by rw [Inside, h]; simp
  rw [callStep, if_neg hout, Lib.Sections.step, h]
  rfl

lemma callStep_inside (h : v.holder = some (i, p)) :
    callStep cfg i ev v = ⟨(access p v.shared).1, (access p v.shared).2.map fun q => (i, q)⟩ := by
  rw [callStep, if_pos (inside_iff.mpr ⟨p, h⟩), Lib.Sections.step, h]
  exact if_pos rfl

lemma callStep_waits (h : Inside v j) (hne : i ≠ j) : callStep cfg i ev v = v := by
  have hout : ¬ Inside v i := fun hi => hne (inside_unique hi h)
  obtain ⟨p, hp⟩ := inside_iff.mp h
  rw [callStep, if_neg hout, Lib.Sections.step, hp]

/-- Who is in the vector stays there as long as it takes no turn. -/
lemma callStep_other (hne : i ≠ j) :
    (callStep cfg i ev v).holder = some (j, p) ↔ v.holder = some (j, p) := by
  rcases hv : v.holder with _ | ⟨k, q⟩
  · rw [callStep_free hv]
    simp [hne]
  · by_cases hk : i = k
    · subst hk
      rw [callStep_inside hv]
      rcases (access q v.shared).2 with _ | q' <;> simp [hne]
    · rw [callStep_waits (inside_iff.mpr ⟨q, hv⟩) hk, hv]

/-- Once the threads in it have come to the end of their calls, the vector is in shape. -/
def Sound (cfg : Config) (v : Vector) : Prop :=
  ∃ final, Shape final.2 ∧ Ordered (threads cfg) final v

lemma sound_call (h : Sound cfg v) : Sound cfg (callStep cfg i ev v) := by
  obtain ⟨final, hshape, hordered⟩ := h
  have hinv : ∀ (s : Daemon.St) ev, Shape s.2 → Shape (daemonStep cfg s ev).2 :=
    fun s ev h => Shape.step h cfg ev.op
  have hends : ∀ (s : Daemon.St) ev, Shape s.2 →
      ∃ n, Ends (threads cfg).access ((threads cfg).entry ev) s n (daemonStep cfg s ev) :=
    fun s ev h => call_finishes cfg h ev.op
  exact ⟨_, run_all (P := fun s : Daemon.St => Shape s.2) hshape hinv _,
    Lib.Sections.ordered_step hordered hshape hends _⟩

/-! ### A turn of a loop -/

/-- All that a turn of a loop may do. -/
inductive LoopTurn (cfg : Config) (i : Thread) (ev : Event) (acts : Bool) (v : Vector)
    (l : Loop) : Vector → Loop → Prop
  | calls (hpc : l.pc = .calling) : LoopTurn cfg i ev acts v l (callStep cfg i ev v) l
  | returns (hpc : l.pc = .calling) (hfree : (callStep cfg i ev v).holder = none) :
      LoopTurn cfg i ev acts v l (callStep cfg i ev v) { l with pc := .sleeping }
  | dies (hpc : l.pc = .calling) (hcancel : l.cancelled = true) (hacts : acts = true)
      (hlog : (callStep cfg i ev v).shared.1 ≠ v.shared.1) :
      LoopTurn cfg i ev acts v l ⟨((callStep cfg i ev v).shared.1, v.shared.2), v.holder⟩
        { l with pc := .ended }
  | wakes (hpc : l.pc = .sleeping) (hcancel : l.cancelled = false) :
      LoopTurn cfg i ev acts v l v { l with pc := .calling }
  | leaves (hpc : l.pc = .sleeping) (hcancel : l.cancelled = true) :
      LoopTurn cfg i ev acts v l v { l with pc := .ended }
  | idle (hpc : l.pc = .ended) : LoopTurn cfg i ev acts v l v l

lemma loopStep_turn (cfg : Config) (i : Thread) (ev : Event) (acts : Bool) (v : Vector)
    (l : Loop) :
    LoopTurn cfg i ev acts v l (loopStep cfg i ev acts v l).1 (loopStep cfg i ev acts v l).2 := by
  rcases hpc : l.pc with _ | _ | _
  · by_cases hdies : l.cancelled ∧ acts ∧ (callStep cfg i ev v).shared.1 ≠ v.shared.1
    · simp only [loopStep, hpc, if_pos hdies]
      exact .dies hpc hdies.1 hdies.2.1 hdies.2.2
    · by_cases hfree : Inside v i ∧ (callStep cfg i ev v).holder.isNone
      · simp only [loopStep, hpc, if_neg hdies, if_pos hfree]
        exact .returns hpc (Option.isNone_iff_eq_none.mp hfree.2)
      · simp only [loopStep, hpc, if_neg hdies, if_neg hfree]
        exact .calls hpc
  · rcases hcancel : l.cancelled with _ | _
    · have hstep : loopStep cfg i ev acts v l = (v, { l with pc := .calling }) := by
        simp only [loopStep, hpc, hcancel]
        rfl
      rw [hstep]
      exact .wakes hpc hcancel
    · have hstep : loopStep cfg i ev acts v l = (v, { l with pc := .ended }) := by
        simp only [loopStep, hpc, hcancel]
        rfl
      rw [hstep]
      exact .leaves hpc hcancel
  · simp only [loopStep, hpc]
    exact .idle hpc

/-- Only a thread in the vector calls `_do_action`. -/
lemma log_inside (hlog : (callStep cfg i ev v).shared.1 ≠ v.shared.1) : Inside v i := by
  by_contra hout
  rcases hv : v.holder with _ | ⟨k, q⟩
  · rw [callStep_free hv] at hlog
    exact hlog rfl
  · have hk : Inside v k := inside_iff.mpr ⟨q, hv⟩
    have hne : i ≠ k := fun h => hout (h ▸ hk)
    rw [callStep_waits hk hne] at hlog
    exact hlog rfl

/-- What a turn of the thread `i` leaves of the place of another one. -/
def Apart (i : Thread) (v v' : Vector) : Prop :=
  ∀ j p, j ≠ i → (v'.holder = some (j, p) ↔ v.holder = some (j, p))

lemma callStep_apart : Apart i v (callStep cfg i ev v) :=
  fun _ _ hne => callStep_other hne.symm

lemma LoopTurn.apart (h : LoopTurn cfg i ev acts v l v' l') : Apart i v v' := by
  cases h with
  | calls hpc => exact callStep_apart
  | returns hpc hfree => exact callStep_apart
  | dies hpc hcancel hacts hlog => exact fun j p _ => Iff.rfl
  | wakes hpc hcancel => exact fun j p _ => Iff.rfl
  | leaves hpc hcancel => exact fun j p _ => Iff.rfl
  | idle hpc => exact fun j p _ => Iff.rfl

lemma Apart.inside (h : Apart i v v') (hne : j ≠ i) : Inside v' j ↔ Inside v j := by
  rw [inside_iff, inside_iff]
  exact exists_congr fun p => h j p hne

/-- The thread has ended in the vector, and `vector_mutex` stays taken. -/
def Dead (v : Vector) (i : Thread) (l : Loop) : Prop := Inside v i ∧ l.pc = .ended

/-- A loop that sleeps is not in the vector, and one that has ended has been cancelled. -/
structure LoopOk (v : Vector) (i : Thread) (l : Loop) : Prop where
  sleeping : l.pc = .sleeping → ¬ Inside v i
  ended : l.pc = .ended → l.cancelled = true

lemma LoopTurn.ok (h : LoopTurn cfg i ev acts v l v' l') (hok : LoopOk v i l) : LoopOk v' i l' := by
  cases h with
  | calls hpc => exact ⟨fun h => (by rw [hpc] at h; cases h), fun h => (by rw [hpc] at h; cases h)⟩
  | returns hpc hfree => exact ⟨fun _ => (by rw [Inside, hfree]; simp), fun h => by cases h⟩
  | dies hpc hcancel hacts hlog => exact ⟨fun h => (by cases h), fun _ => hcancel⟩
  | wakes hpc hcancel => exact ⟨fun h => (by cases h), fun h => by cases h⟩
  | leaves hpc hcancel => exact ⟨fun h => (by cases h), fun _ => hcancel⟩
  | idle hpc => exact hok

lemma LoopOk.other (h : LoopOk v j l) (hapart : Apart i v v') (hne : j ≠ i) : LoopOk v' j l :=
  ⟨fun hpc hin => h.sleeping hpc ((hapart.inside hne).mp hin), h.ended⟩

/-- The turn keeps what has been cancelled, and what has ended. -/
lemma LoopTurn.keeps (h : LoopTurn cfg i ev acts v l v' l') :
    l'.cancelled = l.cancelled ∧ (l.pc = .ended → l'.pc = .ended) := by
  cases h with
  | calls hpc => exact ⟨rfl, id⟩
  | returns hpc hfree => exact ⟨rfl, fun h => by rw [hpc] at h; cases h⟩
  | dies hpc hcancel hacts hlog => exact ⟨rfl, fun _ => rfl⟩
  | wakes hpc hcancel => exact ⟨rfl, fun h => by rw [hpc] at h; cases h⟩
  | leaves hpc hcancel => exact ⟨rfl, fun _ => rfl⟩
  | idle hpc => exact ⟨rfl, id⟩

/-- The vector stays sound, unless the thread ends in it. -/
lemma LoopTurn.sound (h : LoopTurn cfg i ev acts v l v' l') (hsound : Sound cfg v) :
    Sound cfg v' ∨ Dead v' i l' := by
  cases h with
  | calls hpc => exact Or.inl (sound_call hsound)
  | returns hpc hfree => exact Or.inl (sound_call hsound)
  | dies hpc hcancel hacts hlog =>
    have hin : Inside v i := log_inside hlog
    exact Or.inr ⟨hin, rfl⟩
  | wakes hpc hcancel => exact Or.inl hsound
  | leaves hpc hcancel => exact Or.inl hsound
  | idle hpc => exact Or.inl hsound

/-- A loop ends in the vector only when it acts upon a cancellation in `_do_action`. -/
lemma LoopTurn.moves (h : LoopTurn cfg i ev acts v l v' l') (hok : LoopOk v i l)
    (hdead : ¬ Dead v i l) :
    (¬ Dead v' i l' ∧ (v' = callStep cfg i ev v ∨ v' = v)) ∨
      Dead v' i l' ∧ l.pc = .calling ∧ l.cancelled = true ∧ acts = true ∧
        ∃ p, v.holder = some (i, p) ∧ (access p v.shared).1.1 ≠ v.shared.1 ∧
          v' = ⟨((access p v.shared).1.1, v.shared.2), v.holder⟩ := by
  cases h with
  | calls hpc => exact Or.inl ⟨fun hd => (by rw [Dead, hpc] at hd; cases hd.2), Or.inl rfl⟩
  | returns hpc hfree => exact Or.inl ⟨fun hd => (by cases hd.2), Or.inl rfl⟩
  | dies hpc hcancel hacts hlog =>
    obtain ⟨p, hp⟩ := inside_iff.mp (log_inside hlog)
    rw [callStep_inside hp] at hlog ⊢
    exact Or.inr ⟨⟨inside_iff.mpr ⟨p, hp⟩, rfl⟩, hpc, hcancel, hacts, p, hp, hlog, rfl⟩
  | wakes hpc hcancel => exact Or.inl ⟨fun hd => (by cases hd.2), Or.inr rfl⟩
  | leaves hpc hcancel => exact Or.inl ⟨fun hd => hok.sleeping hpc hd.1, Or.inr rfl⟩
  | idle hpc => exact Or.inl ⟨hdead, Or.inr rfl⟩

/-- A thread that has ended in the vector stays there. -/
lemma LoopTurn.dead (h : LoopTurn cfg i ev acts v l v' l') (hdead : Dead v i l) : Dead v' i l' := by
  obtain ⟨hin, hpc'⟩ := hdead
  cases h with
  | idle hpc => exact ⟨hin, hpc'⟩
  | calls hpc | returns hpc _ | dies hpc _ _ _ | wakes hpc _ | leaves hpc _ =>
    rw [hpc'] at hpc
    cases hpc

/-! ### What holds in every state -/

/-- `main` has cancelled the maintenance thread, has joined it, has cancelled the action thread. -/
def MainPc.maintenanceCancelled : MainPc → Bool
  | .joinMaintenance | .cancelAction | .joinAction | .stopped => true
  | _ => false

def MainPc.maintenanceJoined : MainPc → Bool
  | .cancelAction | .joinAction | .stopped => true
  | _ => false

def MainPc.actionCancelled : MainPc → Bool
  | .joinAction | .stopped => true
  | _ => false

/-- How far the threads are behind `main`. -/
structure Phase (s : St) : Prop where
  maintenance : s.maintenance.cancelled = s.main.maintenanceCancelled
  action : s.action.cancelled = s.main.actionCancelled
  joined : s.main.maintenanceJoined = true → s.maintenance.pc = .ended
  stopped : s.main = .stopped → s.action.pc = .ended
  server : s.main = .joinServer → s.server.cancelled = true
  follow : Inside s.vector .main → s.main = .following

structure Inv (cfg : Config) (s : St) : Prop where
  sound : Sound cfg s.vector ∨ Dead s.vector .action s.action ∨
    Dead s.vector .maintenance s.maintenance
  action : LoopOk s.vector .action s.action
  maintenance : LoopOk s.vector .maintenance s.maintenance
  phase : Phase s

/-- A turn of another thread than `main`. -/
lemma Phase.turn (h : Phase s) (hmain : s'.main = s.main)
    (hmaint : s'.maintenance.cancelled = s.maintenance.cancelled ∧
      (s.maintenance.pc = .ended → s'.maintenance.pc = .ended))
    (hact : s'.action.cancelled = s.action.cancelled ∧
      (s.action.pc = .ended → s'.action.pc = .ended))
    (hserver : s'.server.cancelled = s.server.cancelled)
    (hfollow : Inside s'.vector .main → s.main = .following) : Phase s' where
  maintenance := by rw [hmaint.1, hmain, h.maintenance]
  action := by rw [hact.1, hmain, h.action]
  joined := fun hj => hmaint.2 (h.joined (by rwa [hmain] at hj))
  stopped := fun hs => hact.2 (h.stopped (by rwa [hmain] at hs))
  server := fun hs => by rw [hserver, h.server (by rwa [hmain] at hs)]
  follow := fun hin => by rw [hmain, hfollow hin]

lemma serverStep_cancelled (ok : Bool) (sv : Server) :
    (serverStep ok sv).cancelled = sv.cancelled := by
  unfold serverStep
  split
  · rfl
  · split <;> rfl
  · rfl
  · rfl

/-- What `main` leaves of the threads. -/
lemma mainStep_frame (server : Bool) (s : St) :
    (mainStep server s).vector = s.vector ∧
      ((mainStep server s).action.pc = s.action.pc ∧
        (s.action.cancelled = true → (mainStep server s).action.cancelled = true)) ∧
      (mainStep server s).maintenance.pc = s.maintenance.pc ∧
        (s.maintenance.cancelled = true → (mainStep server s).maintenance.cancelled = true) := by
  unfold mainStep
  split
  case h_4 => exact ⟨rfl, ⟨rfl, id⟩, rfl, fun _ => rfl⟩
  case h_6 => exact ⟨rfl, ⟨rfl, fun _ => rfl⟩, rfl, id⟩
  all_goals first
    | exact ⟨rfl, ⟨rfl, id⟩, rfl, id⟩
    | split <;> exact ⟨rfl, ⟨rfl, id⟩, rfl, id⟩

lemma mainStep_phase (h : Phase s) : Phase (mainStep server s) := by
  obtain ⟨vector, action, maintenance, sv, main⟩ := s
  cases main with
  | following =>
    unfold mainStep
    dsimp only
    split
    · exact h
    · rename_i hout
      cases server
      · exact ⟨h.maintenance, h.action, fun hj => (by cases hj), fun hj => (by cases hj),
          fun hj => (by cases hj), fun hin => absurd hin hout⟩
      · exact ⟨h.maintenance, h.action, fun hj => (by cases hj), fun hj => (by cases hj),
          fun hj => (by cases hj), fun hin => absurd hin hout⟩
  | cancelServer =>
    exact ⟨h.maintenance, h.action, fun hj => (by cases hj), fun hj => (by cases hj),
      fun _ => rfl, fun hin => by cases h.follow hin⟩
  | joinServer =>
    unfold mainStep
    dsimp only
    split
    · exact ⟨h.maintenance, h.action, fun hj => (by cases hj), fun hj => (by cases hj),
        fun hj => (by cases hj), fun hin => by cases h.follow hin⟩
    · exact h
  | cancelMaintenance =>
    exact ⟨rfl, h.action, fun hj => (by cases hj), fun hj => (by cases hj),
      fun hj => (by cases hj), fun hin => by cases h.follow hin⟩
  | joinMaintenance =>
    unfold mainStep
    dsimp only
    split
    · rename_i hended
      exact ⟨h.maintenance, h.action, fun _ => hended, fun hj => (by cases hj),
        fun hj => (by cases hj), fun hin => by cases h.follow hin⟩
    · exact h
  | cancelAction =>
    exact ⟨h.maintenance, rfl, fun _ => h.joined rfl, fun hj => (by cases hj),
      fun hj => (by cases hj), fun hin => by cases h.follow hin⟩
  | joinAction =>
    unfold mainStep
    dsimp only
    split
    · rename_i hended
      exact ⟨h.maintenance, h.action, fun _ => h.joined rfl, fun _ => hended,
        fun hj => (by cases hj), fun hin => by cases h.follow hin⟩
    · exact h
  | stopped => exact h

lemma LoopOk.main (h : LoopOk v i l) (hpc : l'.pc = l.pc)
    (hcancel : l.cancelled = true → l'.cancelled = true) : LoopOk v i l' :=
  ⟨fun hs => h.sleeping (by rwa [hpc] at hs), fun he => hcancel (h.ended (by rwa [hpc] at he))⟩

lemma inv_init (server : Bool) : Inv cfg (started server) where
  sound := Or.inl ⟨([], recordsInit), shape_init, fun _ => rfl, fun i k hk => by cases hk⟩
  action := ⟨fun h => (by cases h), fun h => by cases h⟩
  maintenance := ⟨fun h => (by cases h), fun h => by cases h⟩
  phase := ⟨rfl, rfl, fun h => (by cases h), fun h => (by cases h), fun h => (by cases h),
    fun h => by cases h⟩

/-- A thread that ended in the vector is still there when another one has had its turn. -/
lemma Dead.other (h : Dead v j l) (hapart : Apart i v v') (hne : j ≠ i) : Dead v' j l :=
  ⟨(hapart.inside hne).mpr h.1, h.2⟩

/-- A turn of a thread that is not one of the loops. -/
lemma inv_call (h : Inv cfg s) (hact : i ≠ .action) (hmaint : i ≠ .maintenance)
    (hmain : i = .main → s.main = .following) :
    Inv cfg { s with vector := callStep cfg i ev s.vector } where
  sound := by
    rcases h.sound with hsound | hdead | hdead
    · exact Or.inl (sound_call hsound)
    · exact Or.inr (Or.inl (hdead.other callStep_apart hact.symm))
    · exact Or.inr (Or.inr (hdead.other callStep_apart hmaint.symm))
  action := h.action.other callStep_apart hact.symm
  maintenance := h.maintenance.other callStep_apart hmaint.symm
  phase := by
    refine h.phase.turn rfl ⟨rfl, id⟩ ⟨rfl, id⟩ rfl fun hin => ?_
    by_cases hi : i = .main
    · exact hmain hi
    · exact h.phase.follow ((callStep_apart.inside (Ne.symm hi)).mp hin)

lemma inv_action (h : Inv cfg s) (hturn : LoopTurn cfg .action ev acts s.vector s.action v' l') :
    Inv cfg { s with vector := v', action := l' } where
  sound := by
    rcases h.sound with hsound | hdead | hdead
    · exact (hturn.sound hsound).imp id Or.inl
    · exact Or.inr (Or.inl (hturn.dead hdead))
    · exact Or.inr (Or.inr (hdead.other hturn.apart (by decide)))
  action := hturn.ok h.action
  maintenance := h.maintenance.other hturn.apart (by decide)
  phase := h.phase.turn rfl ⟨rfl, id⟩ hturn.keeps rfl fun hin =>
    h.phase.follow ((hturn.apart.inside (by decide)).mp hin)

lemma inv_maintenance (h : Inv cfg s)
    (hturn : LoopTurn cfg .maintenance ev acts s.vector s.maintenance v' l') :
    Inv cfg { s with vector := v', maintenance := l' } where
  sound := by
    rcases h.sound with hsound | hdead | hdead
    · exact (hturn.sound hsound).imp id Or.inr
    · exact Or.inr (Or.inl (hdead.other hturn.apart (by decide)))
    · exact Or.inr (Or.inr (hturn.dead hdead))
  action := h.action.other hturn.apart (by decide)
  maintenance := hturn.ok h.maintenance
  phase := h.phase.turn rfl hturn.keeps ⟨rfl, id⟩ rfl fun hin =>
    h.phase.follow ((hturn.apart.inside (by decide)).mp hin)

lemma inv_main (h : Inv cfg s) : Inv cfg (mainStep server s) := by
  obtain ⟨hvec, ⟨hact, hactc⟩, hmaint, hmaintc⟩ := mainStep_frame server s
  refine ⟨?_, ?_, ?_, mainStep_phase h.phase⟩
  · rw [hvec, Dead, Dead, hact, hmaint]
    exact h.sound
  · rw [hvec]
    exact h.action.main hact hactc
  · rw [hvec]
    exact h.maintenance.main hmaint hmaintc

lemma inv_step (server : Bool) (h : Inv cfg s) (t : Turn) : Inv cfg (step cfg server s t) := by
  cases t with
  | follow now mem x =>
    unfold step
    dsimp only
    split
    · rename_i hfollow
      exact inv_call h (by decide) (by decide) fun _ => hfollow
    · exact h
  | main => exact inv_main h
  | action now acts => exact inv_action h (loopStep_turn ..)
  | maintenance now acts => exact inv_maintenance h (loopStep_turn ..)
  | server ok =>
    exact ⟨h.sound, h.action, h.maintenance,
      h.phase.turn rfl ⟨rfl, id⟩ ⟨rfl, id⟩ (serverStep_cancelled ok s.server) h.phase.follow⟩
  | other k ev =>
    exact inv_call h (fun hi => by cases hi) (fun hi => by cases hi) fun hi => by cases hi

lemma inv_process (cfg : Config) (server : Bool) (turns : List Turn) :
    Inv cfg (process cfg server turns) :=
  run_all (inv_init server) (fun _ t h => inv_step server h t) turns

/-! ### Where `threads_stop` hangs -/

lemma hung_step (h : Hung s) (t : Turn) : Hung (step cfg server s t) := by
  obtain ⟨hended, hin, hcalling⟩ := h
  cases t with
  | follow now mem x =>
    unfold step
    dsimp only
    rw [callStep_waits hin (by decide)]
    split <;> exact ⟨hended, hin, hcalling⟩
  | main =>
    obtain ⟨hvec, ⟨hact, -⟩, hmaint, -⟩ := mainStep_frame server s
    refine ⟨?_, ?_, ?_⟩
    · rw [step, hmaint, hended]
    · rw [step, hvec]
      exact hin
    · rw [step, hact, hcalling]
  | action now acts =>
    have hout : ¬ Inside s.vector .action := fun h => by cases inside_unique hin h
    have hne : Thread.action ≠ .maintenance := by decide
    have hsame : loopStep cfg .action ⟨now, .actionPass⟩ acts s.vector s.action =
        (s.vector, s.action) := by
      simp only [loopStep, hcalling, callStep_waits hin hne]
      rw [if_neg fun h => h.2.2 rfl, if_neg fun h => hout h.1]
    unfold step
    dsimp only
    rw [hsame]
    exact ⟨hended, hin, hcalling⟩
  | maintenance now acts =>
    have hsame : loopStep cfg .maintenance ⟨now, .maintenance⟩ acts s.vector s.maintenance =
        (s.vector, s.maintenance) := by
      simp only [loopStep, hended]
    unfold step
    dsimp only
    rw [hsame]
    exact ⟨hended, hin, hcalling⟩
  | server ok => exact ⟨hended, hin, hcalling⟩
  | other k ev =>
    unfold step
    dsimp only
    rw [callStep_waits hin fun h => by cases h]
    exact ⟨hended, hin, hcalling⟩

/-- A hung process does not get out of `threads_stop`. -/
lemma hung_run (hinv : Inv cfg s) (h : Hung s) (later : List Turn) :
    (run (step cfg server) s later).main ≠ .stopped := by
  have hboth : Inv cfg (run (step cfg server) s later) ∧ Hung (run (step cfg server) s later) :=
    run_all (P := fun s => Inv cfg s ∧ Hung s) ⟨hinv, h⟩
      (fun s t hs => ⟨inv_step server hs.1 t, hung_step hs.2 t⟩) later
  intro hstopped
  have hended := hboth.1.phase.stopped hstopped
  rw [hboth.2.2.2] at hended
  cases hended

/-! ### Where it returns -/

/-- `main` can still get out of `threads_stop`. -/
def Can (cfg : Config) (server : Bool) (s : St) : Prop :=
  ∃ later, (run (step cfg server) s later).main = .stopped

lemma can_turn (t : Turn) (h : Can cfg server (step cfg server s t)) : Can cfg server s := by
  obtain ⟨later, hlater⟩ := h
  exact ⟨t :: later, hlater⟩

lemma can_run (h : ∃ turns, run (step cfg server) s turns = s') (hcan : Can cfg server s') :
    Can cfg server s := by
  obtain ⟨turns, rfl⟩ := h
  obtain ⟨later, hlater⟩ := hcan
  exact ⟨turns ++ later, by rwa [run_append]⟩

/-- A turn in which the thread goes on with its call and is not stopped in it. -/
def turnOf : Thread → Turn
  | .main => .follow 0 true (ascii "")
  | .action => .action 0 false
  | .maintenance => .maintenance 0 false
  | .other k => .other k ⟨0, .maintenance⟩

/-- The thread is at a call into the vector, if it is one that takes its turns by itself. -/
def Able (s : St) : Thread → Prop
  | .main => s.main = .following
  | .action => s.action.pc = .calling
  | .maintenance => s.maintenance.pc = .calling
  | .other _ => True

/-- The thread is back from its call. -/
def back (s : St) (i : Thread) (final : Daemon.St) : St :=
  match i with
  | .action => { s with vector := ⟨final, none⟩, action := { s.action with pc := .sleeping } }
  | .maintenance =>
    { s with vector := ⟨final, none⟩, maintenance := { s.maintenance with pc := .sleeping } }
  | _ => { s with vector := ⟨final, none⟩ }

variable {d e final : Daemon.St} {q : Place (List Call)}

lemma loopStep_more (hpc : l.pc = .calling) (hbusy : v = ⟨d, some (i, p)⟩)
    (haccess : access p d = (e, some q)) :
    loopStep cfg i ev false v l = (⟨e, some (i, q)⟩, l) := by
  have hcall : callStep cfg i ev v = ⟨e, some (i, q)⟩ := by
    rw [callStep_inside (p := p) (by rw [hbusy]), hbusy, haccess]
    rfl
  simp only [loopStep, hpc, hcall]
  simp

lemma loopStep_last (hpc : l.pc = .calling) (hbusy : v = ⟨d, some (i, p)⟩)
    (haccess : access p d = (e, none)) :
    loopStep cfg i ev false v l = (⟨e, none⟩, { l with pc := .sleeping }) := by
  have hcall : callStep cfg i ev v = ⟨e, none⟩ := by
    rw [callStep_inside (p := p) (by rw [hbusy]), hbusy, haccess]
    rfl
  have hin : Inside v i := inside_iff.mpr ⟨p, by rw [hbusy]⟩
  simp only [loopStep, hpc, hcall]
  simp [hin]

lemma turnOf_more (hable : Able s i) (hbusy : s.vector = ⟨d, some (i, p)⟩)
    (haccess : access p d = (e, some q)) :
    step cfg server s (turnOf i) = { s with vector := ⟨e, some (i, q)⟩ } := by
  have hcall : ∀ ev, callStep cfg i ev s.vector = ⟨e, some (i, q)⟩ := by
    intro ev
    rw [callStep_inside (p := p) (by rw [hbusy]), hbusy, haccess]
    rfl
  cases i with
  | main =>
    have hmain : s.main = .following := hable
    rw [turnOf, step, if_pos hmain, hcall]
  | action =>
    simp only [turnOf, step]
    rw [loopStep_more hable hbusy haccess]
  | maintenance =>
    simp only [turnOf, step]
    rw [loopStep_more hable hbusy haccess]
  | other k => rw [turnOf, step, hcall]

lemma turnOf_last (hable : Able s i) (hbusy : s.vector = ⟨d, some (i, p)⟩)
    (haccess : access p d = (e, none)) : step cfg server s (turnOf i) = back s i e := by
  have hcall : ∀ ev, callStep cfg i ev s.vector = ⟨e, none⟩ := by
    intro ev
    rw [callStep_inside (p := p) (by rw [hbusy]), hbusy, haccess]
    rfl
  cases i with
  | main =>
    have hmain : s.main = .following := hable
    rw [turnOf, step, if_pos hmain, hcall]
    rfl
  | action =>
    simp only [turnOf, step]
    rw [loopStep_last hable hbusy haccess, back]
  | maintenance =>
    simp only [turnOf, step]
    rw [loopStep_last hable hbusy haccess, back]
  | other k =>
    rw [turnOf, step, hcall]
    rfl

/-- A thread that is let alone gets out of the vector. -/
lemma finish (cfg : Config) (server : Bool) {n : ℕ} (hends : Ends access p d n final)
    (hable : Able s i) (hbusy : s.vector = ⟨d, some (i, p)⟩) :
    ∃ turns, run (step cfg server) s turns = back s i final := by
  induction hends generalizing s with
  | last hlast => exact ⟨[turnOf i], by rw [run_cons, turnOf_last hable hbusy hlast, run_nil]⟩
  | more hmore hrest ih =>
    obtain ⟨turns, hturns⟩ := ih (s := { s with vector := ⟨_, some (i, _)⟩ })
      (by cases i <;> exact hable) rfl
    refine ⟨turnOf i :: turns, ?_⟩
    rw [run_cons, turnOf_more hable hbusy hmore, hturns]
    cases i <;> rfl

/-- Nobody is in the vector, and it is in shape. -/
structure Free (v : Vector) : Prop where
  holder : v.holder = none
  shape : Shape v.shared.2

lemma back_free (hshape : Shape final.2) : Free (back s i final).vector := by
  cases i <;> exact ⟨rfl, hshape⟩

/-- What the action thread needs to come to its end when it is cancelled. -/
def Ready (v : Vector) (l : Loop) : Prop := l.pc = .calling → Free v

/-- A whole call, from its lock to its unlock. -/
lemma whole_call (cfg : Config) (server : Bool) (i : Thread) (hfree : Free s.vector) (t : Turn)
    (ev : Event) (ht : step cfg server s t = { s with vector := callStep cfg i ev s.vector })
    (hable : Able s i) :
    ∃ final, Shape final.2 ∧ ∃ turns, run (step cfg server) s turns = back s i final := by
  obtain ⟨n, hends⟩ := call_finishes cfg hfree.shape ev.op
  rw [callStep_free hfree.holder] at ht
  refine ⟨_, Shape.step hfree.shape cfg ev.op, ?_⟩
  obtain ⟨turns, hturns⟩ := finish cfg server
    (s := { s with vector := ⟨s.vector.shared, some (i, entry cfg ev.op)⟩ }) hends
    (by cases i <;> exact hable) rfl
  refine ⟨t :: turns, ?_⟩
  rw [run_cons, ht, hturns]
  cases i <;> rfl

lemma loopStep_locks (hfree : Free v) (hpc : l.pc = .calling) :
    loopStep cfg i ev false v l = (callStep cfg i ev v, l) := by
  have hout : ¬ Inside v i := by rw [Inside, hfree.holder]; simp
  simp only [loopStep, hpc]
  simp [hout]

lemma can_joinAction (hmain : s.main = .joinAction) (hcancel : s.action.cancelled = true)
    (hready : Ready s.vector s.action) : Can cfg server s := by
  have hended : ∀ s : St, s.main = .joinAction → s.action.pc = .ended → Can cfg server s := by
    intro s hmain hpc
    refine ⟨[.main], ?_⟩
    rw [run_cons, run_nil, step, mainStep, hmain]
    dsimp only
    rw [if_pos hpc]
  have hsleeping : ∀ s : St, s.main = .joinAction → s.action.cancelled = true →
      s.action.pc = .sleeping → Can cfg server s := by
    intro s hmain hcancel hpc
    refine can_turn (.action 0 false) (hended _ hmain ?_)
    simp only [step, loopStep, hpc, hcancel]
    rfl
  rcases hpc : s.action.pc with _ | _ | _
  · have hfree := hready hpc
    obtain ⟨final, -, hturns⟩ := whole_call cfg server .action hfree
      (.action 0 false) ⟨0, .actionPass⟩
      (by simp only [step, loopStep_locks hfree hpc]) hpc
    exact can_run hturns (hsleeping _ hmain hcancel rfl)
  · exact hsleeping s hmain hcancel hpc
  · exact hended s hmain hpc

lemma can_cancelAction (hmain : s.main = .cancelAction) (hready : Ready s.vector s.action) :
    Can cfg server s := by
  have hstep : step cfg server s .main =
      { s with action := { s.action with cancelled := true }, main := .joinAction } := by
    rw [step, mainStep, hmain]
  refine can_turn .main ?_
  rw [hstep]
  exact can_joinAction rfl rfl hready

lemma can_joinMaintenance (hmain : s.main = .joinMaintenance)
    (hcancel : s.maintenance.cancelled = true) (hready : Ready s.vector s.maintenance)
    (haction : Ready s.vector s.action) : Can cfg server s := by
  have hended : ∀ s : St, s.main = .joinMaintenance → s.maintenance.pc = .ended →
      Ready s.vector s.action → Can cfg server s := by
    intro s hmain hpc hready
    have hstep : step cfg server s .main = { s with main := .cancelAction } := by
      rw [step, mainStep, hmain]
      exact if_pos hpc
    refine can_turn .main ?_
    rw [hstep]
    exact can_cancelAction rfl hready
  have hsleeping : ∀ s : St, s.main = .joinMaintenance → s.maintenance.cancelled = true →
      s.maintenance.pc = .sleeping → Ready s.vector s.action → Can cfg server s := by
    intro s hmain hcancel hpc hready
    have hstep : step cfg server s (.maintenance 0 false) =
        { s with maintenance := { s.maintenance with pc := .ended } } := by
      simp only [step, loopStep, hpc, hcancel]
      rfl
    refine can_turn (.maintenance 0 false) ?_
    rw [hstep]
    exact hended _ hmain rfl hready
  rcases hpc : s.maintenance.pc with _ | _ | _
  · have hfree := hready hpc
    obtain ⟨final, hshape, hturns⟩ := whole_call cfg server .maintenance hfree
      (.maintenance 0 false) ⟨0, .maintenance⟩
      (by simp only [step, loopStep_locks hfree hpc]) hpc
    exact can_run hturns (hsleeping _ hmain hcancel rfl fun _ => back_free hshape)
  · exact hsleeping s hmain hcancel hpc haction
  · exact hended s hmain hpc haction

lemma can_cancelMaintenance (hmain : s.main = .cancelMaintenance) (hfree : Free s.vector) :
    Can cfg server s := by
  have hstep : step cfg server s .main = { s with
      maintenance := { s.maintenance with cancelled := true }, main := .joinMaintenance } := by
    rw [step, mainStep, hmain]
  refine can_turn .main ?_
  rw [hstep]
  exact can_joinMaintenance rfl rfl (fun _ => hfree) fun _ => hfree

/-- The server ends at the latest when it has seen the semaphore often enough. -/
lemma can_joinServer (hmain : s.main = .joinServer) (hcancel : s.server.cancelled = true)
    (hfree : Free s.vector) : Can cfg server s := by
  have hended : ∀ s : St, s.main = .joinServer → s.server.pc = .ended → Free s.vector →
      Can cfg server s := by
    intro s hmain hpc hfree
    have hstep : step cfg server s .main = { s with main := .cancelMaintenance } := by
      rw [step, mainStep, hmain]
      exact if_pos hpc
    refine can_turn .main ?_
    rw [hstep]
    exact can_cancelMaintenance rfl hfree
  have hshutdown : ∀ (s : St) (n : ℕ), s.main = .joinServer → s.server.pc = .shutdown n →
      Free s.vector → Can cfg server s := by
    intro s n hmain hpc hfree
    refine can_turn (.server true) (hended _ hmain ?_ hfree)
    simp [step, serverStep, hpc]
  rcases hpc : s.server.pc with _ | _ | n | _
  · refine can_turn (.server false) (hended _ hmain ?_ hfree)
    simp [step, serverStep, hpc]
  · refine can_turn (.server true) (hshutdown _ 1 hmain ?_ hfree)
    simp [step, serverStep, hpc, hcancel]
  · exact hshutdown s n hmain hpc hfree
  · exact hended s hmain hpc hfree

lemma can_cancelServer (hmain : s.main = .cancelServer) (hfree : Free s.vector) :
    Can cfg server s := by
  have hstep : step cfg server s .main = { s with
      server := { s.server with cancelled := true }, main := .joinServer } := by
    rw [step, mainStep, hmain]
  refine can_turn .main ?_
  rw [hstep]
  exact can_joinServer rfl rfl hfree

lemma can_following (hmain : s.main = .following) (hfree : Free s.vector) :
    Can cfg server s := by
  have hout : ¬ Inside s.vector .main := by rw [Inside, hfree.holder]; simp
  have hstep : step cfg server s .main =
      { s with main := if server then .cancelServer else .cancelMaintenance } := by
    rw [step, mainStep, hmain]
    exact if_neg hout
  refine can_turn .main ?_
  rw [hstep]
  cases server with
  | false => exact can_cancelMaintenance rfl hfree
  | true => exact can_cancelServer rfl hfree

lemma can_free (hphase : Phase s) (hfree : Free s.vector) : Can cfg server s := by
  have hmaint := hphase.maintenance
  have hact := hphase.action
  rcases hmain : s.main
  · exact can_following hmain hfree
  · exact can_cancelServer hmain hfree
  · exact can_joinServer hmain (hphase.server hmain) hfree
  · exact can_cancelMaintenance hmain hfree
  · rw [hmain] at hmaint
    exact can_joinMaintenance hmain hmaint (fun _ => hfree) fun _ => hfree
  · exact can_cancelAction hmain fun _ => hfree
  · rw [hmain] at hact
    exact can_joinAction hmain hact fun _ => hfree
  · exact ⟨[], hmain⟩

/-- Where the maintenance thread has ended in the vector, the action thread must not need it. -/
lemma can_dead_maintenance (hinv : Inv cfg s) (hdead : Dead s.vector .maintenance s.maintenance)
    (hready : Ready s.vector s.action) : Can cfg server s := by
  have hmaint := hinv.phase.maintenance
  have hact := hinv.phase.action
  rw [hinv.maintenance.ended hdead.2] at hmaint
  have hmready : Ready s.vector s.maintenance := fun hpc => by
    rw [hdead.2] at hpc
    cases hpc
  rcases hmain : s.main <;> rw [hmain] at hmaint hact
  case joinMaintenance =>
    exact can_joinMaintenance hmain (hinv.maintenance.ended hdead.2) hmready hready
  case cancelAction => exact can_cancelAction hmain hready
  case joinAction => exact can_joinAction hmain hact hready
  case stopped => exact ⟨[], hmain⟩
  all_goals cases hmaint

lemma can_dead_action (hinv : Inv cfg s) (hdead : Dead s.vector .action s.action) :
    Can cfg server s := by
  have hact := hinv.phase.action
  rw [hinv.action.ended hdead.2] at hact
  rcases hmain : s.main <;> rw [hmain] at hact
  case joinAction =>
    refine can_joinAction hmain (hinv.action.ended hdead.2) fun hpc => ?_
    rw [hdead.2] at hpc
    cases hpc
  case stopped => exact ⟨[], hmain⟩
  all_goals cases hact

/-- A thread in the vector that has not ended is at its call. -/
lemma able_inside (hinv : Inv cfg s) (haction : ¬ Dead s.vector .action s.action)
    (hmaint : ¬ Dead s.vector .maintenance s.maintenance) (hin : Inside s.vector i) :
    Able s i := by
  cases i with
  | main => exact hinv.phase.follow hin
  | action =>
    rcases hpc : s.action.pc with _ | _ | _
    · exact hpc
    · exact absurd hin (hinv.action.sleeping hpc)
    · exact absurd ⟨hin, hpc⟩ haction
  | maintenance =>
    rcases hpc : s.maintenance.pc with _ | _ | _
    · exact hpc
    · exact absurd hin (hinv.maintenance.sleeping hpc)
    · exact absurd ⟨hin, hpc⟩ hmaint
  | other k => trivial

lemma run_inv_step (server : Bool) (hinv : Inv cfg s) (turns : List Turn) :
    Inv cfg (run (step cfg server) s turns) := run_all hinv (fun _ t h => inv_step server h t) turns

lemma can_of_not_hung (server : Bool) (hinv : Inv cfg s) (h : ¬ Hung s) : Can cfg server s := by
  by_cases hmaint : Dead s.vector .maintenance s.maintenance
  · refine can_dead_maintenance hinv hmaint fun hpc => ?_
    exact absurd ⟨hmaint.2, hmaint.1, hpc⟩ h
  by_cases haction : Dead s.vector .action s.action
  · exact can_dead_action hinv haction
  obtain ⟨final, hshape, hordered⟩ := hinv.sound.resolve_right fun hd => hd.elim haction hmaint
  rcases hv : s.vector.holder with _ | ⟨i, p⟩
  · refine can_free hinv.phase ⟨hv, ?_⟩
    rw [hordered.free hv]
    exact hshape
  · obtain ⟨n, hends⟩ := hordered.busy i p hv
    have hable := able_inside hinv haction hmaint (inside_iff.mpr ⟨p, hv⟩)
    obtain ⟨turns, hturns⟩ := finish cfg server hends hable (by rw [← hv])
    have hinv' := run_inv_step server hinv turns
    rw [hturns] at hinv'
    exact can_run ⟨turns, hturns⟩ (can_free hinv'.phase (back_free hshape))

/-! ### How it comes to hang -/

/-- Where the maintenance thread may be in the vector. -/
inductive Sweeping : Place (List Call) → Prop
  | sweep (i : ℕ) : Sweeping (.sweep (some (threadsRecordsCallbackActionRemoval logCall)) i)
  | lastUsed (i last : ℕ) : Sweeping (.lastUsed i last)
  | shrink (last : ℕ) : Sweeping (.shrink last)

lemma sweeping_access (h : Sweeping p) (haccess : (access p d).2 = some q) : Sweeping q := by
  obtain ⟨log, v⟩ := d
  cases h with
  | sweep i =>
    simp only [access] at haccess
    split at haccess
    · split at haccess
      · split at haccess <;> cases haccess <;> exact .sweep _
      · cases haccess
        exact .sweep _
    · cases haccess
      exact .lastUsed _ _
  | lastUsed i last =>
    simp only [access] at haccess
    split at haccess
    · cases haccess
      exact .lastUsed _ _
    · cases haccess
      exact .shrink _
  | shrink last =>
    simp only [access] at haccess
    split at haccess <;> cases haccess

/-- The maintenance thread calls an action only for a flagged record that has had its own. -/
lemma sweeping_log (h : Sweeping p) (hlog : (access p d).1.1 ≠ d.1) :
    ∃ cb i r, p = .sweep cb i ∧ slot d.2.vec i = some r ∧ r.remove ≠ 0 ∧ r.processed ≠ 0 := by
  obtain ⟨log, v⟩ := d
  cases h with
  | sweep i =>
    simp only [access] at hlog
    split at hlog
    · split at hlog
      · rename_i r hslot
        split at hlog
        · rename_i hremove
          refine ⟨_, i, r, rfl, hslot, hremove, fun hproc => hlog ?_⟩
          simp only [Option.getD_some, threadsRecordsCallbackActionRemoval]
          exact if_neg (not_not.mpr hproc)
        · exact absurd rfl hlog
      · exact absurd rfl hlog
    · exact absurd rfl hlog
  | lastUsed i last =>
    simp only [access] at hlog
    split at hlog <;> exact absurd rfl hlog
  | shrink last =>
    simp only [access] at hlog
    split at hlog <;> exact absurd rfl hlog

def Sweeps (v : Vector) : Prop := ∀ p, v.holder = some (.maintenance, p) → Sweeping p

lemma Sweeps.apart (h : Sweeps v) (hapart : Apart i v v') (hne : Thread.maintenance ≠ i) :
    Sweeps v' := fun p hp => h p ((hapart _ p hne).mp hp)

lemma Sweeps.call (h : Sweeps v) (now : Int64) :
    Sweeps (callStep cfg .maintenance ⟨now, .maintenance⟩ v) := by
  intro q hq
  rcases hv : v.holder with _ | ⟨j, p⟩
  · rw [callStep_free hv] at hq
    cases hq
    exact .sweep 0
  · by_cases hj : Thread.maintenance = j
    · subst hj
      rw [callStep_inside hv] at hq
      obtain ⟨q', hq', heq⟩ := Option.map_eq_some_iff.mp hq
      cases heq
      exact sweeping_access (h p hv) hq'
    · rw [callStep_waits (inside_iff.mpr ⟨p, hv⟩) hj] at hq
      exact h q hq

lemma Sweeps.turn {now : Int64} (h : Sweeps v)
    (hturn : LoopTurn cfg .maintenance ⟨now, .maintenance⟩ acts v l v' l') : Sweeps v' := by
  cases hturn with
  | calls hpc => exact h.call now
  | returns hpc hfree => exact h.call now
  | dies hpc hcancel hacts hlog => exact h
  | wakes hpc hcancel => exact h
  | leaves hpc hcancel => exact h
  | idle hpc => exact h

lemma sweeps_step (h : Sweeps s.vector) (t : Turn) : Sweeps (step cfg server s t).vector := by
  cases t with
  | follow now mem x =>
    unfold step
    dsimp only
    split
    · exact h.apart callStep_apart (by decide)
    · exact h
  | main =>
    rw [step, (mainStep_frame server s).1]
    exact h
  | action now acts => exact h.apart (loopStep_turn ..).apart (by decide)
  | maintenance now acts => exact h.turn (loopStep_turn ..)
  | server ok => exact h
  | other k ev => exact h.apart callStep_apart fun hk => by cases hk

/-- `main` waits for the maintenance thread as long as that has not acted upon its cancellation. -/
lemma Phase.joining (h : Phase s) (hcancel : s.maintenance.cancelled = true)
    (hpc : s.maintenance.pc ≠ .ended) : s.main = .joinMaintenance := by
  have hcancelled := h.maintenance.symm.trans hcancel
  have hjoined := mt h.joined hpc
  rcases hmain : s.main <;> rw [hmain] at hcancelled hjoined
  all_goals first
    | exact absurd rfl hjoined
    | cases hcancelled

/-- The maintenance thread ends in the vector only when it acts upon the cancellation in
`_do_action`. -/
lemma dead_turn (hinv : Inv cfg s) (hsweeps : Sweeps s.vector) (t : Turn)
    (hbefore : ¬ Dead s.vector .maintenance s.maintenance)
    (hafter : Dead (step cfg server s t).vector .maintenance (step cfg server s t).maintenance) :
    (∃ now, t = .maintenance now true) ∧ TakingBack s := by
  have hother : ∀ (i : Thread) (v : Vector), Apart i s.vector v → Thread.maintenance ≠ i →
      ¬ Dead v .maintenance s.maintenance := fun i v hapart hne hdead =>
    hbefore ⟨(hapart.inside hne).mp hdead.1, hdead.2⟩
  cases t with
  | follow now mem x =>
    unfold step at hafter
    dsimp only at hafter
    split at hafter
    · exact absurd hafter (hother .main _ callStep_apart (by decide))
    · exact absurd hafter hbefore
  | main =>
    obtain ⟨hvec, -, hmaint, -⟩ := mainStep_frame server s
    rw [step, Dead, hvec, hmaint] at hafter
    exact absurd hafter hbefore
  | action now acts =>
    exact absurd hafter (hother .action _ (loopStep_turn ..).apart (by decide))
  | maintenance now acts =>
    have hturn := loopStep_turn cfg .maintenance ⟨now, .maintenance⟩ acts s.vector s.maintenance
    obtain ⟨hnot, -⟩ | ⟨-, hpc, hcancel, hacts, p, hp, hlog, -⟩ :=
      hturn.moves hinv.maintenance hbefore
    · exact absurd hafter hnot
    · obtain ⟨cb, i, r, rfl, hr⟩ := sweeping_log (hsweeps p hp) hlog
      exact ⟨⟨now, by rw [hacts]⟩, hinv.phase.joining hcancel (by rw [hpc]; decide),
        cb, i, r, hp, hr⟩
  | server ok => exact absurd hafter hbefore
  | other k ev =>
    exact absurd hafter (hother (.other k) _ callStep_apart fun hk => by cases hk)

/-- What has to happen before the maintenance thread is found to have ended in the vector. -/
lemma dead_history (cfg : Config) (server : Bool) (turns : List Turn) :
    Dead (process cfg server turns).vector .maintenance (process cfg server turns).maintenance →
      ∃ pre now post, turns = pre ++ .maintenance now true :: post ∧
        TakingBack (process cfg server pre) := by
  refine run_hist (P := fun ts (s : St) => Dead s.vector .maintenance s.maintenance →
    ∃ pre now post, ts = pre ++ Turn.maintenance now true :: post ∧
      TakingBack (process cfg server pre)) (fun h => by cases h.1) (fun ts t ih hdead => ?_) turns
  have hinv : Inv cfg (process cfg server ts) := inv_process cfg server ts
  have hsweeps : Sweeps (process cfg server ts).vector :=
    run_all (P := fun s : St => Sweeps s.vector) (fun p hp => by cases hp)
      (fun s t h => sweeps_step h t) ts
  by_cases hbefore : Dead (process cfg server ts).vector .maintenance
      (process cfg server ts).maintenance
  · obtain ⟨pre, now, post, hts, htaking⟩ := ih hbefore
    exact ⟨pre, now, post ++ [t], by rw [hts]; simp, htaking⟩
  · obtain ⟨⟨now, rfl⟩, htaking⟩ := dead_turn hinv hsweeps t hbefore hdead
    exact ⟨ts, now, [], rfl, htaking⟩

/-- **Where `threads_stop` hangs**: from any state of any run `main` can get out of it, unless the
maintenance thread has ended in the vector with `vector_mutex` taken and the action thread is at
its call; from there nothing any thread does gets it out. This comes about only when the
maintenance thread acts upon its cancellation within the action that takes a record's action
back. -/
theorem threads_stop_returns (cfg : Config) (server : Bool) (turns : List Turn) :
    ((∃ later, (process cfg server (turns ++ later)).main = .stopped) ↔
      ¬ Hung (process cfg server turns)) ∧
    (Hung (process cfg server turns) → ∃ pre now post,
      turns = pre ++ .maintenance now true :: post ∧ TakingBack (process cfg server pre)) := by
  have hinv := inv_process cfg server turns
  have happend : ∀ later, process cfg server (turns ++ later) =
      run (step cfg server) (process cfg server turns) later := fun later => run_append _ _
  refine ⟨⟨fun ⟨later, hlater⟩ hhung => ?_, fun h => ?_⟩, fun hhung => ?_⟩
  · rw [happend] at hlater
    exact hung_run hinv hhung later hlater
  · obtain ⟨later, hlater⟩ := can_of_not_hung server hinv h
    exact ⟨later, by rw [happend, hlater]⟩
  · exact dead_history cfg server turns ⟨hhung.2.1, hhung.1⟩

/-- A host is blocked and expires; the maintenance thread is in the vector when the process is
stopped, and the action thread wants to get in. -/
def interrupted : List Turn :=
  let x := ascii "192.0.2.1"
  List.replicate 5 (.follow 1 true x) ++
    List.replicate 4 (.action 2 false) ++ List.replicate 4 (.action 20 false) ++
    [.maintenance 21 false, .main, .main, .maintenance 21 true]

/-- One second after the last sighting a host is released. -/
def shortly : Config := { timeInterval := 1, purgeAfter := 1, actionThreshold := 1 }

theorem threads_stop_returns_run :
    Hung (process shortly false interrupted) ∧
      ∀ later, (process shortly false (interrupted ++ later)).main ≠ .stopped := by
  have hhung : Hung (process shortly false interrupted) := by decide +kernel
  have hreturns := threads_stop_returns shortly false interrupted
  exact ⟨hhung, fun later hlater => hreturns.1.mp ⟨later, hlater⟩ hhung⟩

end Agentsmith.ThreadsStop
