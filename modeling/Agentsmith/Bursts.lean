import Agentsmith.PerAddress

/-!
The promise of the manual: a host with `action_threshold` occurrences within
`time_interval` seconds is acted on.

The code counts from the sighting that made the record, whatever its age. So the promise
holds in the runs in which every sighting of the address is counted, or need not be any
more, and in which its record is not purged within the interval. It fails when a record
outlives its window.
-/

namespace Agentsmith.Bursts

open Agentsmith.Lib.CStrings Agentsmith.Lib.Runs Agentsmith.Globals Agentsmith.Records
open Agentsmith.RecordsMap Agentsmith.Daemon Agentsmith.PerAddress

variable {cfg : Config} {x : CStr} {r : HostRecord} {t now : Int64} {n : ℕ}

/-- From a sighting of `x` to another one, as many as the threshold asks for, within the
time interval. -/
def Burst (cfg : Config) (x : CStr) (b : List Event) : Prop :=
  ∃ first last, b.head? = some first ∧ b.getLast? = some last ∧
    first.Sights x ∧ last.Sights x ∧
    last.time.toInt - first.time.toInt ≤ cfg.timeInterval.toInt ∧
    cfg.actionThreshold.toInt ≤ b.countP fun e => e.Sights x

/-- The pass finds the address acted on, or acts on it. -/
def Answers (cfg : Config) (x : CStr) (s : St) (now : Int64) : Prop :=
  (∃ r, recordsGet s.2 x = some r ∧ r.processed ≠ 0) ∨
    ∃ r, ⟨.new, r⟩ ∈ passCalls cfg s now ∧ r.addr = x

/-- The first pass after a burst, wherever it stands in the run, answers it. -/
def Caught (cfg : Config) (x : CStr) (evs : List Event) : Prop :=
  ∀ a b c, evs = a ++ b ++ c → Burst cfg x b → (∀ e ∈ c, e.act ≠ .actionPass) →
    ∀ now, Answers cfg x (daemon cfg evs) now

def InWindow (now : Int64) (r : HostRecord) : Prop := now - r.firstseen ≤ r.timeInterval

instance (now : Int64) (r : HostRecord) : Decidable (InWindow now r) :=
  inferInstanceAs (Decidable (_ ≤ _))

/-- What has to hold of the record of `x`, when there is one, before a step. A sighting that
makes a record gets the memory for it. One that meets a record finds it unflagged, and where
the action is not called yet, it is counted without overflow or the threshold is reached.
The action thread does not flag the record within the interval of the last sighting. -/
def CountsAt (x : CStr) (o : Option HostRecord) (e : Event) : Prop :=
  match e.act, o with
  | .sighting mem y, none => y = x → mem = true
  | .sighting _ y, some r => y = x → r.remove = 0 ∧ (r.processed = 0 →
      if InWindow e.time r then r.occurrences ≠ Int32.maxValue else Due r)
  | .actionPass, some r => 1 < r.actionThreshold → ¬ Due r → Stale e.time r →
      r.timeInterval < e.time - stamp r
  | _, _ => True

instance (x : CStr) (o : Option HostRecord) (e : Event) : Decidable (CountsAt x o e) :=
  match e, o with
  | ⟨_, .sighting mem y⟩, none => inferInstanceAs (Decidable (y = x → mem = true))
  | ⟨t, .sighting _ y⟩, some r =>
    inferInstanceAs (Decidable (y = x → r.remove = 0 ∧ (r.processed = 0 →
      if InWindow t r then r.occurrences ≠ Int32.maxValue else Due r)))
  | ⟨t, .actionPass⟩, some r =>
    inferInstanceAs (Decidable (1 < r.actionThreshold → ¬ Due r → Stale t r →
      r.timeInterval < t - stamp r))
  | ⟨_, .actionPass⟩, none => isTrue trivial
  | ⟨_, .report _ _ _⟩, _ => isTrue trivial
  | ⟨_, .maintenance⟩, _ => isTrue trivial
  | ⟨_, .purgeAll⟩, _ => isTrue trivial

/-- The same of a state of the daemon. -/
def Counts (x : CStr) (s : St) (e : Event) : Prop := CountsAt x (recordsGet s.2 x) e

instance (x : CStr) (s : St) (e : Event) : Decidable (Counts x s e) :=
  inferInstanceAs (Decidable (CountsAt _ _ _))

/-! ### A record that is counted on -/

/-- The values of a record in a run in which every sighting is counted. -/
structure Tracked (cfg : Config) (r : HostRecord) : Prop where
  threshold : r.actionThreshold = cfg.actionThreshold
  interval : r.timeInterval = cfg.timeInterval
  firstseen : 0 ≤ r.firstseen
  occurrences : r.processed = 0 → 1 ≤ r.occurrences.toInt

/-- From `t` on there have been `n` sightings, the threshold or less of them counted. -/
structure Counting (cfg : Config) (t : Int64) (n : ℕ) (r : HostRecord) : Prop where
  tracked : Tracked cfg r
  unflagged : r.remove = 0
  since : t.toInt ≤ (stamp r).toInt
  counted : r.processed = 0 →
    (n : ℤ) ≤ r.occurrences.toInt ∨ cfg.actionThreshold.toInt ≤ r.occurrences.toInt

lemma seen_eq (now : Int64) (r : HostRecord) : seen now r = { r with
    lastseen := now
    occurrences := if InWindow now r then r.occurrences + 1 else r.occurrences } := by
  rw [seen, bump_eq]
  rfl

lemma tracked_fresh (hnow : 0 ≤ now) : Tracked cfg (fresh cfg now x) :=
  ⟨rfl, rfl, hnow, fun _ => show (1 : ℤ) ≤ (1 : Int32).toInt by decide⟩

/-- What a counted sighting leaves of the occurrences. -/
lemma seen_counted (hr : Tracked cfg r)
    (hc : if InWindow now r then r.occurrences ≠ Int32.maxValue else Due r) :
    (seen now r).occurrences.toInt = r.occurrences.toInt + 1 ∨
      (seen now r).occurrences = r.occurrences ∧
        cfg.actionThreshold.toInt ≤ r.occurrences.toInt := by
  rw [seen_eq]
  by_cases hw : InWindow now r
  · rw [if_pos hw] at hc
    rw [if_pos hw]
    exact Or.inl (toInt_succ hc)
  · rw [if_neg hw] at hc
    rw [if_neg hw]
    have hle := Int32.le_iff_toInt_le.mp hc.1
    rw [hr.threshold] at hle
    exact Or.inr ⟨rfl, hle⟩

lemma Tracked.seen (hr : Tracked cfg r)
    (hc : r.processed = 0 → if InWindow now r then r.occurrences ≠ Int32.maxValue else Due r) :
    Tracked cfg (Records.seen now r) := by
  refine ⟨by rw [seen_eq]; exact hr.threshold, by rw [seen_eq]; exact hr.interval,
    by rw [seen_eq]; exact hr.firstseen, fun hp => ?_⟩
  have hp : r.processed = 0 := by rw [seen_eq] at hp; exact hp
  have hone := hr.occurrences hp
  rcases seen_counted hr (hc hp) with h | ⟨h, -⟩
  · omega
  · rw [h]; exact hone

/-- The stamp of a record just seen is not older than anything before. -/
lemma stamp_seen (hr : Tracked cfg r) (ht : t.toInt ≤ now.toInt) :
    t.toInt ≤ (stamp (seen now r)).toInt := by
  rw [seen_eq]
  unfold stamp
  by_cases h0 : now = 0
  · -- the clock stands at the Epoch, and so does the first stamp
    have hfirst := Int64.le_iff_toInt_le.mp hr.firstseen
    have hzero : (0 : Int64).toInt = 0 := rfl
    rw [if_pos h0]
    rw [h0] at ht
    dsimp only
    omega
  · rw [if_neg h0]
    exact ht

lemma Counting.seen (hr : Tracked cfg r) (ht : t.toInt ≤ now.toInt)
    (hflag : r.remove = 0)
    (hc : r.processed = 0 → if InWindow now r then r.occurrences ≠ Int32.maxValue else Due r)
    (hn : r.processed = 0 →
      (n : ℤ) ≤ r.occurrences.toInt ∨ cfg.actionThreshold.toInt ≤ r.occurrences.toInt) :
    Counting cfg t (n + 1) (Records.seen now r) := by
  refine ⟨hr.seen hc, by rw [seen_eq]; exact hflag, stamp_seen hr ht, fun hp => ?_⟩
  have hp : r.processed = 0 := by rw [seen_eq] at hp; exact hp
  push_cast
  rcases seen_counted hr (hc hp) with h | ⟨h, hthr⟩
  · rcases hn hp with hn | hn <;> omega
  · rw [h]; exact Or.inr hthr

/-- A pass that is due sets the flag; one that is not leaves a record alone whose last
sighting is within the interval. -/
lemma Counting.passed (h : Counting cfg t n r) (ht : 0 ≤ t) (hnow : 0 ≤ now)
    (hle : now.toInt ≤ t.toInt + cfg.timeInterval.toInt)
    (hpass : ¬ Due r → Stale now r → r.timeInterval < now - stamp r) :
    Counting cfg t n (Daemon.passed now r) := by
  unfold Daemon.passed
  by_cases hd : Due r
  · rw [if_pos hd]
    have hone : (1 : Int32) ≠ 0 := by decide
    exact ⟨⟨h.tracked.threshold, h.tracked.interval, h.tracked.firstseen,
      fun h0 => absurd h0 hone⟩, h.unflagged, h.since, fun h0 => absurd h0 hone⟩
  · rw [if_neg hd]
    by_cases hs : Stale now r
    · have hzero : (0 : Int64).toInt = 0 := rfl
      have ht0 := Int64.le_iff_toInt_le.mp ht
      have hsince := h.since
      have hstamp : 0 ≤ stamp r := Int64.le_iff_toInt_le.mpr (by omega)
      have hlt := (lt_sub_clock hnow hstamp _).mp (hpass hd hs)
      rw [h.tracked.interval] at hlt
      omega
    · rw [if_neg hs]
      exact h

/-! ### One step, and a run -/

/-- Every step keeps what is known of the record. -/
lemma tracked_step {w : View} {e : Event} (hw : ∀ r, w.1 = some r → Tracked cfg r)
    (hloc : e.Local) (hnow : 0 ≤ e.time) (hc : CountsAt x w.1 e) {q : HostRecord}
    (hq : (viewStep cfg x w e).1 = some q) : Tracked cfg q := by
  rcases record_cases hloc hq with ⟨-, -, rfl⟩ | ⟨o, ho, hs, rfl⟩ | ⟨o, p, m, ho, -, rfl, hp⟩
  · exact tracked_fresh hnow
  · refine (hw o ho).seen ?_
    unfold Event.Sights at hs
    unfold CountsAt at hc
    split at hs
    · rename_i hact
      simp only [hact, ho] at hc
      exact (hc hs).2
    · exact hs.elim
  · have hr := hw o ho
    exact ⟨hr.threshold, hr.interval, hr.firstseen, fun h0 => hr.occurrences (hp h0)⟩

/-- A step after `t`, with one more sighting or none. -/
lemma counting_step {w : View} {e : Event} (hw : w.1 = some r) (h : Counting cfg t n r)
    (hplain : e.Plain) (ht : 0 ≤ t) (hnow : 0 ≤ e.time) (hle : t.toInt ≤ e.time.toInt)
    (hc : CountsAt x w.1 e) (hpass : e.act = .actionPass →
      1 < cfg.actionThreshold ∧ e.time.toInt ≤ t.toInt + cfg.timeInterval.toInt) :
    ∃ q, (viewStep cfg x w e).1 = some q ∧
      Counting cfg t (n + if e.Sights x then 1 else 0) q := by
  obtain ⟨o, log⟩ := w
  obtain ⟨now, act⟩ := e
  obtain rfl : o = some r := hw
  cases act with
  | sighting mem y =>
    by_cases hy : y = x
    · obtain ⟨hflag, hcount⟩ := hc hy
      refine ⟨seen now r, by simp [viewStep, hy, addIpAt], ?_⟩
      rw [if_pos (show Event.Sights x ⟨now, .sighting mem y⟩ from hy)]
      exact .seen h.tracked hle hflag hcount h.counted
    · refine ⟨r, by simp [viewStep, hy], ?_⟩
      rw [if_neg (show ¬ Event.Sights x ⟨now, .sighting mem y⟩ from hy)]
      exact h
  | report mem host hr => exact absurd hplain.1 id
  | actionPass =>
    obtain ⟨hthr, hlate⟩ := hpass rfl
    refine ⟨passed now r, rfl, ?_⟩
    rw [if_neg (show ¬ Event.Sights x ⟨now, .actionPass⟩ from id)]
    exact h.passed ht hnow hlate (hc (by rw [h.tracked.threshold]; exact hthr))
  | maintenance =>
    refine ⟨r, by simp [viewStep, Option.filter, h.unflagged], ?_⟩
    rw [if_neg (show ¬ Event.Sights x ⟨now, .maintenance⟩ from id)]
    exact h
  | purgeAll => exact absurd rfl hplain.2

/-- A run after `t` in which the record is counted on. -/
lemma counting_run {a es : List Event} (ht : 0 ≤ t)
    (h : ∃ r, (view cfg x a).1 = some r ∧ Counting cfg t n r)
    (hplain : ∀ e ∈ es, e.Plain) (hnow : ∀ e ∈ es, 0 ≤ e.time ∧ t.toInt ≤ e.time.toInt)
    (hpass : ∀ e ∈ es, e.act = .actionPass →
      1 < cfg.actionThreshold ∧ e.time.toInt ≤ t.toInt + cfg.timeInterval.toInt)
    (hc : ∀ pre e post, es = pre ++ e :: post → CountsAt x (view cfg x (a ++ pre)).1 e) :
    ∃ r, (view cfg x (a ++ es)).1 = some r ∧
      Counting cfg t (n + es.countP fun e => e.Sights x) r := by
  induction es using List.reverseRecOn with
  | nil => simpa using h
  | append_singleton es e ih =>
    have hmem : ∀ f ∈ es, f ∈ es ++ [e] := fun f hf => List.mem_append_left _ hf
    obtain ⟨r, hr, hcount⟩ := ih (fun f hf => hplain f (hmem f hf))
      (fun f hf => hnow f (hmem f hf)) (fun f hf => hpass f (hmem f hf))
      fun pre f post hes => hc pre f (post ++ [e]) (by rw [hes]; simp)
    have he : e ∈ es ++ [e] := by simp
    obtain ⟨q, hq, hcount'⟩ := counting_step hr hcount (hplain e he) ht (hnow e he).1
      (hnow e he).2 (hc es e [] rfl) (hpass e he)
    refine ⟨q, by rw [← List.append_assoc, view_snoc, hq], ?_⟩
    rw [List.countP_append, List.countP_singleton, ← Nat.add_assoc]
    simpa using hcount'

lemma tracked_view {evs : List Event} (hclock : Clocked evs) (hplain : ∀ e ∈ evs, e.Plain)
    (hc : ∀ pre e post, evs = pre ++ e :: post → CountsAt x (view cfg x pre).1 e) :
    ∀ r, (view cfg x evs).1 = some r → Tracked cfg r := by
  induction evs using List.reverseRecOn with
  | nil => intro r hr; cases hr
  | append_singleton evs e ih =>
    have ih := ih (clocked_left hclock) (fun f hf => hplain f (List.mem_append_left _ hf))
      fun pre f post hes => hc pre f (post ++ [e]) (by rw [hes]; simp)
    intro r hr
    rw [view_snoc] at hr
    exact tracked_step ih (hplain e (by simp)).1 (hclock.1 e (by simp)) (hc evs e [] rfl) hr

/-- The sighting a burst starts with. -/
lemma counting_first {a : List Event} {e : Event} (hs : e.Sights x) (hnow : 0 ≤ e.time)
    (hw : ∀ r, (view cfg x a).1 = some r → Tracked cfg r)
    (hc : CountsAt x (view cfg x a).1 e) :
    ∃ r, (view cfg x (a ++ [e])).1 = some r ∧ Counting cfg e.time 1 r := by
  rw [view_snoc]
  obtain ⟨now, act⟩ := e
  cases act with
  | sighting mem y =>
    obtain rfl : y = x := hs
    rcases ho : (view cfg y a).1 with _ | o
    · rw [ho] at hc
      obtain rfl : mem = true := hc rfl
      refine ⟨fresh cfg now y, by simp [viewStep, ho, addIpAt], tracked_fresh hnow, rfl,
        Int.le_refl _, fun _ => Or.inl ?_⟩
      show (1 : ℤ) ≤ (1 : Int32).toInt
      decide
    · rw [ho] at hc
      obtain ⟨hflag, hcount⟩ := hc rfl
      have hr := hw o ho
      refine ⟨seen now o, by simp [viewStep, ho, addIpAt], ?_⟩
      refine .seen hr (Int.le_refl _) hflag hcount fun hp => Or.inl ?_
      have hone := hr.occurrences hp
      push_cast
      omega
  | report mem host hr => exact hs.elim
  | actionPass => exact hs.elim
  | maintenance => exact hs.elim
  | purgeAll => exact hs.elim

/-! ### The promise -/

/-- A sighting with enough of them from it on, and no pass in between but early ones. -/
lemma answers_of_split {a es : List Event} {e : Event}
    (hclock : Clocked (a ++ e :: es)) (hplain : ∀ f ∈ a ++ e :: es, f.Plain)
    (hfits : ∀ f ∈ a ++ e :: es, f.Fits)
    (hc : ∀ pre f post, a ++ e :: es = pre ++ f :: post → Counts x (daemon cfg pre) f)
    (hs : e.Sights x)
    (hpass : ∀ f ∈ es, f.act = .actionPass →
      1 < cfg.actionThreshold ∧ f.time.toInt ≤ e.time.toInt + cfg.timeInterval.toInt)
    (hthr : cfg.actionThreshold.toInt ≤ 1 + es.countP fun f => f.Sights x) :
    Answers cfg x (daemon cfg (a ++ e :: es)) now := by
  have hsees : ∀ p, p <+: a ++ e :: es → Sees x (daemon cfg p) (view cfg x p) := fun p hp =>
    sees_fits hfits x hp
  -- the condition, in the terms of the address
  have hview : ∀ pre f post, a ++ e :: es = pre ++ f :: post →
      CountsAt x (view cfg x pre).1 f := by
    intro pre f post h
    have hget := (hsees pre (by rw [h]; exact List.prefix_append _ _)).record.get
    rw [← hget]
    exact hc pre f post h
  have he : 0 ≤ e.time := hclock.1 e (by simp)
  have hlater : ∀ f ∈ es, e.time.toInt ≤ f.time.toInt := by
    intro f hf
    have htail := (List.pairwise_append.mp hclock.2).2.1
    exact Int64.le_iff_toInt_le.mp (List.rel_of_pairwise_cons htail hf)
  have htracked : ∀ r, (view cfg x a).1 = some r → Tracked cfg r :=
    tracked_view (clocked_left hclock) (fun f hf => hplain f (by simp [hf]))
      fun pre f post h => hview pre f (post ++ e :: es) (by rw [h]; simp)
  have hfirst := counting_first hs he htracked (hview a e es rfl)
  obtain ⟨r, hr, hcount⟩ : ∃ r, (view cfg x (a ++ [e] ++ es)).1 = some r ∧
      Counting cfg e.time (1 + es.countP fun f => f.Sights x) r := by
    refine counting_run he hfirst (fun f hf => hplain f (by simp [hf]))
      (fun f hf => ⟨hclock.1 f (by simp [hf]), hlater f hf⟩) hpass fun pre f post h => ?_
    rw [List.append_assoc]
    exact hview _ f post (by rw [h]; simp)
  rw [List.append_assoc, List.singleton_append] at hr
  have hs' := hsees (a ++ e :: es) List.prefix_rfl
  by_cases hp : r.processed = 0
  · have hdue : Due r := by
      refine ⟨Int32.le_iff_toInt_le.mpr ?_, hp⟩
      rw [hcount.tracked.threshold]
      rcases hcount.counted hp with h | h
      · push_cast at h; omega
      · exact h
    have hcall := (mem_passCalls cfg hs' now ⟨.new, r⟩).mpr ⟨r, hr, hdue, rfl⟩
    exact Or.inr ⟨r, hcall.1, hcall.2⟩
  · exact Or.inl ⟨r, by rw [hs'.record.get, hr], hp⟩

/-- **The promise of the manual**, in the runs in which every sighting of the address is
counted and its record is not purged within the interval. -/
theorem burst_caught (cfg : Config) (evs : List Event)
    (hclock : Clocked evs) (hplain : ∀ e ∈ evs, e.Plain) (hfits : ∀ e ∈ evs, e.Fits)
    (x : CStr)
    (hc : ∀ pre e post, evs = pre ++ e :: post → Counts x (daemon cfg pre) e) :
    Caught cfg x evs := by
  rintro a b c rfl ⟨first, last, hhead, hlast, hsf, hsl, hwin, hthr⟩ hquiet now
  by_cases hone : 1 < cfg.actionThreshold
  · -- the burst is counted from its first sighting on
    obtain ⟨mid, rfl⟩ : ∃ mid, b = first :: mid := ⟨b.tail, (List.cons_head?_tail hhead).symm⟩
    have hevs : a ++ first :: mid ++ c = a ++ first :: (mid ++ c) := by simp
    rw [hevs] at hclock hplain hfits hc ⊢
    refine answers_of_split hclock hplain hfits hc hsf (fun f hf hact => ⟨hone, ?_⟩) ?_
    · rcases List.mem_append.mp hf with hf | hf
      · have hmid : f.time ≤ last.time := by
          obtain ⟨init, hinit⟩ := List.getLast?_eq_some_iff.mp hlast
          have hpair := (List.pairwise_append.mp hclock.2).2.1
          rw [← List.cons_append, hinit, List.append_assoc] at hpair
          have hmem : f ∈ init ++ [last] := by rw [← hinit]; simp [hf]
          rcases List.mem_append.mp hmem with h | h
          · exact (List.pairwise_append.mp hpair).2.2 f h last (by simp)
          · rw [List.mem_singleton.mp h]
            exact Int64.le_refl _
        have := Int64.le_iff_toInt_le.mp hmid
        omega
      · exact absurd hact (hquiet f hf)
    · rw [List.countP_cons_of_pos (by simpa using hsf)] at hthr
      rw [List.countP_append]
      push_cast at hthr ⊢
      omega
  · -- one sighting is enough: the last one
    obtain ⟨init, rfl⟩ := List.getLast?_eq_some_iff.mp hlast
    have hevs : a ++ (init ++ [last]) ++ c = (a ++ init) ++ last :: c := by simp
    rw [hevs] at hclock hplain hfits hc ⊢
    refine answers_of_split hclock hplain hfits hc hsl
      (fun f hf hact => absurd hact (hquiet f hf)) ?_
    have hlt := mt Int32.lt_iff_toInt_lt.mpr hone
    have h1 : (1 : Int32).toInt = 1 := rfl
    omega

/-- Three sightings in a minute, one of them before a pass. -/
theorem burst_caught_run :
    Caught ⟨3, 60, 3600⟩ (ascii "192.0.2.7")
      [⟨5, .sighting true (ascii "192.0.2.7")⟩, ⟨6, .actionPass⟩,
        ⟨30, .sighting true (ascii "192.0.2.7")⟩, ⟨40, .maintenance⟩,
        ⟨65, .sighting true (ascii "192.0.2.7")⟩] :=
  burst_caught _ _ (by decide) (by decide) (by decide) _ (by
    simp only [forall_split_cons]
    refine ⟨?_, ?_, ?_, ?_, ?_, fun pre e post h => by simp at h⟩ <;> decide +kernel)

/-- A sighting, and three in three seconds when its window is over. -/
def lateBurst (x : CStr) : List Event :=
  [⟨1000, .sighting true x⟩, ⟨1100, .sighting true x⟩, ⟨1101, .sighting true x⟩,
    ⟨1102, .sighting true x⟩]

/-- **A missed break-in**: the record still stands for the first sighting, and none of the
three others is counted. -/
theorem burst_missed :
    let cfg : Config := ⟨3, 60, 3600⟩
    let x := ascii "192.0.2.7"
    cfg.Sane ∧ Clocked (lateBurst x) ∧ (∀ e ∈ lateBurst x, e.Plain) ∧
      (∀ e ∈ lateBurst x, e.Fits) ∧ ¬ Caught cfg x (lateBurst x) := by
  refine ⟨by decide, by decide, by decide, by decide, fun h => ?_⟩
  have hburst : Burst ⟨3, 60, 3600⟩ (ascii "192.0.2.7") (lateBurst (ascii "192.0.2.7")).tail :=
    ⟨_, _, rfl, rfl, by decide, by decide, by decide, by decide⟩
  have hget : recordsGet (daemon ⟨3, 60, 3600⟩ (lateBurst (ascii "192.0.2.7"))).2
      (ascii "192.0.2.7") =
        some { fresh ⟨3, 60, 3600⟩ 1000 (ascii "192.0.2.7") with lastseen := 1102 } := by
    decide +kernel
  have hnone : passCalls ⟨3, 60, 3600⟩
      (daemon ⟨3, 60, 3600⟩ (lateBurst (ascii "192.0.2.7"))) 1103 = [] := by
    decide +kernel
  rcases h [⟨1000, .sighting true (ascii "192.0.2.7")⟩] _ [] rfl hburst (by simp) 1103 with
    ⟨r, hr, hp⟩ | ⟨r, hr, -⟩
  · rw [hget] at hr
    cases hr
    exact hp rfl
  · rw [hnone] at hr
    cases hr

end Agentsmith.Bursts
