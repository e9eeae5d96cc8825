import Devrouter.Lib.Machine
import Devrouter.Heuristics.Isolation
import Devrouter.Heuristics.Stats

/-!
# Looking at the statistics

Runs of a picker with looks at its statistics in between, by `dev_feedback_stats` or the dashboard of this process or
of another one on the same server, and with restarts. A run is `Unseen` when no look leaves a trace: the server stays
as it is, the operations return what they return without the looks, and a topic starts from the intent-global profile
that is live at its first hot read.

`Stats` reads a topic's profile with `CurrentProfileFor`, which stores what it finds missing: a look at a cold topic
fixes the profile the topic starts from. `Process.unseen_iff` says that this is all that goes wrong: a run is unseen
exactly when every topic that is looked at has a stored profile. The invariants are `Process.Stocked` (the known
intents have one) and, for a topic that was not read hot, `Process.Unread`.
-/

open Prog

namespace Devrouter

variable {F : Type}

inductive Visit (F : Type) where
  | op (op : Op F)
  | stats (l : Look F)
  | restart (tunableKnobs : List String) (frozen : Bool)

/-- The visit is not a look. -/
def Visit.acts : Visit F → Bool
  | .op _ => true
  | .stats _ => false
  | .restart _ _ => true

namespace Process

section Runs

variable [Field F] [LinearOrder F] (sqrt : F → F) (cfg : Tunables)

def visit (s : Process F) : Visit F → Process F
  | .op op => s.step sqrt cfg op
  | .stats l => ⟨s.picker, (s.picker.stats sqrt cfg l s.redis).2⟩
  | .restart tunableKnobs frozen => start tunableKnobs frozen s.redis

theorem visit_op (s : Process F) (op : Op F) : s.visit sqrt cfg (.op op) = s.step sqrt cfg op := rfl

theorem visit_stats (s : Process F) (l : Look F) :
    s.visit sqrt cfg (.stats l) = ⟨s.picker, (s.picker.stats sqrt cfg l s.redis).2⟩ := rfl

theorem visit_restart (s : Process F) (tunableKnobs : List String) (frozen : Bool) :
    s.visit sqrt cfg (.restart tunableKnobs frozen) = start tunableKnobs frozen s.redis := rfl

def visits : Machine (Process F) (Visit F) := ⟨fun s v => some (s.visit sqrt cfg v)⟩

/-- What the operations of a run return. -/
def answers : Process F → List (Visit F) → List Out
  | _, [] => []
  | s, v :: vs =>
    let rest := answers (s.visit sqrt cfg v) vs
    match v with
    | .op op => (s.exec sqrt cfg op).1 :: rest
    | .stats _ => rest
    | .restart _ _ => rest

/-- The visit is a query of the topic `β`, which is hot. -/
def ReadsHot (β : Bucket) (s : Process F) (v : Visit F) : Prop :=
  ∃ sh d, v = .op (.pickWithTopic β.intent β.repo β.topic sh d) ∧
    cfg.sampleFloor ≤ s.redis.sampleCount sqrt cfg β.intent β.repo β.topic sh

/-- Every topic that is looked at has a stored profile. -/
def Quiet (s : Process F) : Visit F → Prop
  | .op _ => True
  | .stats l => ∀ intent ∈ knownIntents, s.redis.Covers sqrt cfg l intent
  | .restart _ _ => True

/-- The looks of a run leave no trace. -/
structure Unseen (s : Process F) (vs : List (Visit F)) : Prop where
  /-- Every key stays. -/
  kept : ∀ before l after t, vs = before ++ .stats l :: after → (visits sqrt cfg).exec s before = some t →
    (t.visit sqrt cfg (.stats l)).redis = t.redis
  /-- The same is served without them. -/
  served : s.answers sqrt cfg vs = s.answers sqrt cfg (vs.filter Visit.acts)
  /-- What a topic with nothing stored has after its first hot read is the intent-global profile of that moment. -/
  starts : ∀ β : Bucket, β.isTopic = true → s.redis.str β.liveKey = none →
    ∀ before v after t, vs = before ++ v :: after → (visits sqrt cfg).exec s before = some t →
      t.ReadsHot sqrt cfg β v → (visits sqrt cfg).Along (fun s v => ¬s.ReadsHot sqrt cfg β v) s before →
      (t.visit sqrt cfg v).redis.str β.liveKey = some (.json (t.redis.liveGlobal β.intent))

end Runs

/-! ### The known intents are stored -/

def Stocked (s : Process F) : Prop := ∀ intent ∈ knownIntents, (s.redis.str (currentKey intent)).isSome = true

theorem isSome_of_le {r r' : Redis F} (h : r ≤ r') {key : String} (hkey : (r.str key).isSome = true) :
    (r'.str key).isSome = true := by
  obtain ⟨v, hv⟩ := Option.isSome_iff_exists.mp hkey
  rw [h.1 key v hv]
  rfl

theorem isSome_setStr {r : Redis F} {key : String} (key' : String) (p : Profile) (h : (r.str key).isSome = true) :
    ((r.setStr key' p).str key).isSome = true := by
  rw [Redis.setStr_str]
  by_cases hkey : key = key'
  · rw [hkey, Function.update_self]
    rfl
  · rw [Function.update_of_ne hkey]
    exact h

theorem isSome_afterVerdict {bd : Bandit} {r : Redis F} {key : String} (slot : String) (now : Int) (v : Verdict)
    (h : (r.str key).isSome = true) : ((bd.afterVerdict r slot now v).2.str key).isSome = true := by
  cases v with
  | stale => exact h
  | keep c => exact h
  | promote c => exact isSome_setStr (Bandit.liveKey c) _ h
  | discard c => exact h
  | rollback c => exact isSome_setStr (Bandit.liveKey c) _ h

theorem le_warm (r : Redis F) (intents : List String) : r ≤ intents.foldl Redis.seedCurrent r := by
  induction intents generalizing r with
  | nil => exact le_refl r
  | cons i is ih =>
    calc
      r ≤ r.seedCurrent i := Redis.le_seedCurrent r i
      _ ≤ _ := ih (r.seedCurrent i)

theorem stocked_start (tunableKnobs : List String) (frozen : Bool) (r : Redis F) :
    (start tunableKnobs frozen r).Stocked := by
  have hwarm : ∀ (intents : List String) (r : Redis F), ∀ i ∈ intents,
      ((intents.foldl Redis.seedCurrent r).str (currentKey i)).isSome = true := by
    intro intents
    induction intents with
    | nil => exact fun _ i hi => absurd hi List.not_mem_nil
    | cons j js ih =>
      intro r i hi
      rcases List.mem_cons.mp hi with rfl | hi
      · refine isSome_of_le (le_warm (r.seedCurrent i) js) ?_
        rw [r.seedCurrent_str i (currentKey_ne_defaultKey i), if_pos rfl]
        rfl
      · exact ih (r.seedCurrent j) i hi
  intro i hi
  rw [start, warmDefaults_run]
  exact hwarm knownIntents r i hi

section Steps

variable [Field F] [LinearOrder F] (sqrt : F → F) (cfg : Tunables)

/-- An operation takes nothing away. -/
theorem isSome_step (s : Process F) (op : Op F) {key : String} (h : (s.redis.str key).isSome = true) :
    ((s.step sqrt cfg op).redis.str key).isSome = true := by
  rcases s.step_cases sqrt cfg op with hs | ⟨b, n, d, hs⟩ | ⟨i, hs⟩ | ⟨w, -, hs⟩ | ⟨i, now, hs⟩ | ⟨k, e, hs⟩
  · rw [hs]
    exact h
  · rw [hs]
    exact isSome_of_le (s.redis.le_seedCurrentFor b.intent b.repo b.topic) h
  · rw [hs]
    exact isSome_of_le (s.redis.le_seedCurrent i) h
  · rw [hs]
    rcases s.rewarded_cases w with hr | ⟨c, -, -, hr⟩
    · rw [hr]
      exact h
    · rw [hr]
      exact isSome_afterVerdict _ w.now _ h
  · rw [hs]
    exact isSome_setStr (currentKey i) _ h
  · rw [hs]
    exact h

theorem stocked_visit {s : Process F} (h : s.Stocked) (v : Visit F) : (s.visit sqrt cfg v).Stocked := by
  cases v with
  | op op =>
    rw [visit_op]
    exact fun i hi => isSome_step sqrt cfg s op (h i hi)
  | stats l =>
    rw [visit_stats]
    exact fun i hi => isSome_of_le (Picker.le_stats sqrt cfg l s.picker s.redis) (h i hi)
  | restart tunableKnobs frozen =>
    rw [visit_restart]
    exact stocked_start tunableKnobs frozen s.redis

theorem stocked_exec {s t : Process F} {vs : List (Visit F)} (h : s.Stocked)
    (ht : (visits sqrt cfg).exec s vs = some t) : t.Stocked := by
  refine Machine.invariant (I := Stocked) (fun s v s' hs _ hstep => ?_) h
    (Machine.Along.of_forall_mem (fun _ _ _ => trivial) s) ht
  obtain rfl : s.visit sqrt cfg v = s' := Option.some.inj hstep
  exact stocked_visit sqrt cfg hs v

variable {sqrt} {cfg}

/-- **A look at a stocked server** leaves it alone exactly when it is quiet. -/
theorem kept_iff {s : Process F} (h : s.Stocked) (l : Look F) :
    (s.visit sqrt cfg (.stats l)).redis = s.redis ↔ s.Quiet sqrt cfg (.stats l) := by
  rw [visit_stats, Quiet, Picker.stats_eq_self_iff]
  exact forall₂_congr fun intent hintent => and_iff_right (h intent hintent)

theorem visit_quiet {s : Process F} (h : s.Stocked) {l : Look F} (hq : s.Quiet sqrt cfg (.stats l)) :
    s.visit sqrt cfg (.stats l) = s := by
  have hredis := (kept_iff h l).mpr hq
  rw [visit_stats] at hredis ⊢
  exact congrArg (Process.mk s.picker) hredis

/-! ### The same is served -/

theorem answers_filter {s : Process F} (h : s.Stocked) {vs : List (Visit F)}
    (hq : (visits sqrt cfg).Along (Quiet sqrt cfg) s vs) :
    s.answers sqrt cfg vs = s.answers sqrt cfg (vs.filter Visit.acts) := by
  induction vs generalizing s with
  | nil => rfl
  | cons v vs ih =>
    have hrest := ih (stocked_visit sqrt cfg h v) (hq.2 _ rfl)
    cases v with
    | op op => exact congrArg ((s.exec sqrt cfg op).1 :: ·) hrest
    | restart tunableKnobs frozen => exact hrest
    | stats l =>
      have hsame : s.visit sqrt cfg (.stats l) = s := visit_quiet h hq.1
      rw [hsame] at hrest
      rw [answers, hsame]
      exact hrest

/-! ### The start of a topic -/

/-- Nothing is known of the topic `β`: it has no stored profile and no candidate. -/
structure Unread (β : Bucket) (s : Process F) : Prop where
  missing : s.redis.str β.liveKey = none
  idle : s.picker.bandit.active β.key = none
  sound : s.picker.bandit.Sound s.redis

variable {β : Bucket} {s : Process F}

omit [Field F] [LinearOrder F] in
theorem str_afterVerdict {b : Bucket} (hb : b ≠ β) {v : Verdict} (hv : v.On b) (bd : Bandit) (r : Redis F)
    (slot : String) (now : Int) : (bd.afterVerdict r slot now v).2.str β.liveKey = r.str β.liveKey := by
  have hne : β.liveKey ≠ b.liveKey := fun h => hb (Bucket.liveKey_inj.mp h).symm
  cases v with
  | stale => rfl
  | keep c => rfl
  | promote c =>
    show ((r.setStr (Bandit.liveKey c) _).str β.liveKey) = _
    rw [hv.1, Redis.setStr_str, Function.update_of_ne hne]
  | discard c => rfl
  | rollback c =>
    show ((r.setStr (Bandit.liveKey c) _).str β.liveKey) = _
    rw [hv.1, Redis.setStr_str, Function.update_of_ne hne]

omit [Field F] [LinearOrder F] in
/-- A reward for another topic, or for one without a candidate. -/
theorem unread_rewarded (h : Unread β s) (w : Reward) :
    (s.rewarded w).redis.str β.liveKey = none ∧ (s.rewarded w).picker.bandit.active β.key = none := by
  rcases s.rewarded_cases w with hr | ⟨c, -, hc, hr⟩
  · rw [hr]
    exact ⟨h.missing, h.idle⟩
  · have hb : w.bucket ≠ β := by
      rintro rfl
      rw [h.idle] at hc
      cases hc
    obtain ⟨b, hkey, hsound⟩ := h.sound _ c hc
    obtain rfl : b = w.bucket := Bucket.key_inj.mp hkey
    have hon := hsound.judge_on w.profileID w.adjusted w.weight
    rw [hr]
    refine ⟨(str_afterVerdict hb hon _ _ _ _).trans h.missing, ?_⟩
    exact (Bandit.afterVerdict_active_ne _ _ _ _ (Agree.key_ne hb.symm)).trans h.idle

omit [Field F] [LinearOrder F] in
theorem unread_selected (hβ : β.isTopic = true) (h : Unread β s) {b : Bucket} (hb : b ≠ β) (n : Int) (d : Draws) :
    (s.selected cfg b n d).redis.str β.liveKey = none ∧
      (s.selected cfg b n d).picker.bandit.active β.key = none := by
  refine ⟨(Looks.seed_other hβ hb s.redis).stored.symm.trans h.missing, ?_⟩
  exact (Bandit.select_active_ne cfg _ _ n d (Agree.key_ne hb.symm)).trans h.idle

/-- An operation other than a hot read of the topic. -/
theorem unread_op (hβ : β.isTopic = true) (h : Unread β s) {op : Op F}
    (hop : ¬s.ReadsHot sqrt cfg β (.op op)) :
    (s.step sqrt cfg op).redis.str β.liveKey = none ∧ (s.step sqrt cfg op).picker.bandit.active β.key = none := by
  unfold step
  cases op with
  | pick i d =>
    rw [exec_pick]
    exact unread_selected hβ h (global_ne_topic hβ i) 0 d
  | pickWithTopic i repo topic sh d =>
    -- a topic is read when it is picked warm, which `hop` excludes
    rw [exec_pickWithTopic]
    split_ifs with hglobal hcold
    · rw [exec_pick]
      exact unread_selected hβ h (global_ne_topic hβ i) 0 d
    · exact ⟨(Looks.seed_other hβ (global_ne_topic hβ i) s.redis).stored.symm.trans h.missing, h.idle⟩
    · refine unread_selected hβ h (fun hb => hop ?_) _ d
      rw [Bucket.of_topic (Bool.eq_false_iff.mpr hglobal)] at hb
      subst hb
      exact ⟨sh, d, rfl, not_lt.mp hcold⟩
  | update i profileID adjusted weight now =>
    -- without a candidate a reward writes nothing
    rw [exec_update]
    exact unread_rewarded h _
  | updateWithTopic i repo topic profileID adjusted weight now =>
    rw [exec_updateWithTopic]
    exact unread_rewarded h _
  | reset i now =>
    -- a reset writes the global key and deletes tests
    obtain ⟨d, err, he, -⟩ := exec_reset sqrt cfg s i now
    rw [he]
    constructor
    · show ((s.redis.setStr (currentKey i) _).str β.liveKey) = none
      rw [Redis.setStr_str, Function.update_of_ne (Agree.currentKey_ne hβ i).symm]
      exact h.missing
    · show (s.picker.bandit.deletePrefix _).active β.key = none
      rw [Bandit.deletePrefix_active, h.idle, ite_self]
  | resolve i repo embed queryText sh now =>
    rw [exec_resolve]
    split_ifs
    · exact ⟨h.missing, h.idle⟩
    · exact ⟨h.missing, h.idle⟩

omit [Field F] [LinearOrder F] in
/-- A start seeds no topic. -/
theorem missing_warm (hβ : β.isTopic = true) {r : Redis F} (h : r.str β.liveKey = none) (intents : List String) :
    (intents.foldl Redis.seedCurrent r).str β.liveKey = none := by
  induction intents generalizing r with
  | nil => exact h
  | cons i is ih =>
    refine ih ?_
    rw [r.seedCurrent_str i β.liveKey_ne_defaultKey, if_neg (Agree.currentKey_ne hβ i).symm]
    exact h

theorem unread_visit (hβ : β.isTopic = true) (hstocked : s.Stocked) (h : Unread β s) {v : Visit F}
    (hq : s.Quiet sqrt cfg v) (hv : ¬s.ReadsHot sqrt cfg β v) : Unread β (s.visit sqrt cfg v) := by
  cases v with
  | op op =>
    obtain ⟨hmissing, hidle⟩ := unread_op hβ h hv
    exact ⟨hmissing, hidle, (run_of_wp (Op.prog_wp sqrt cfg h.sound op)).2⟩
  | stats l =>
    rw [visit_quiet hstocked hq]
    exact h
  | restart tunableKnobs frozen =>
    rw [visit_restart]
    refine ⟨?_, rfl, fun _ _ hc => nomatch hc⟩
    rw [start, warmDefaults_run]
    exact missing_warm hβ h.missing knownIntents

theorem unread_exec (hβ : β.isTopic = true) {t : Process F} {vs : List (Visit F)} (hs : s.Stocked) (h : Unread β s)
    (hq : (visits sqrt cfg).Along (Quiet sqrt cfg) s vs)
    (hv : (visits sqrt cfg).Along (fun s v => ¬s.ReadsHot sqrt cfg β v) s vs)
    (ht : (visits sqrt cfg).exec s vs = some t) : Unread β t := by
  have hboth : (visits sqrt cfg).Along (fun s v => s.Quiet sqrt cfg v ∧ ¬s.ReadsHot sqrt cfg β v) s vs :=
    Machine.along_iff_each.mpr fun before v after u has hu =>
      ⟨Machine.along_iff_each.mp hq before v after u has hu, Machine.along_iff_each.mp hv before v after u has hu⟩
  have hinv : t.Stocked ∧ Unread β t := by
    refine Machine.invariant (I := fun s => s.Stocked ∧ Unread β s) (fun s v s' hs hok hstep => ?_) ⟨hs, h⟩ hboth ht
    obtain rfl : s.visit sqrt cfg v = s' := Option.some.inj hstep
    exact ⟨stocked_visit sqrt cfg hs.1 v, unread_visit hβ hs.1 hs.2 hok.1 hok.2⟩
  exact hinv.2

/-- The first hot read of a topic. -/
theorem starts_of_unread (hβ : β.isTopic = true) (h : Unread β s) {v : Visit F} (hv : s.ReadsHot sqrt cfg β v) :
    (s.visit sqrt cfg v).redis.str β.liveKey = some (.json (s.redis.liveGlobal β.intent)) := by
  obtain ⟨sh, d, rfl, hhot⟩ := hv
  have hglobal : isGlobalBucket β.repo β.topic = false := by simpa [Bucket.isTopic] using hβ
  rw [visit_op, step, exec_pickWithTopic, if_neg (Bool.eq_false_iff.mp hglobal), if_neg (not_lt.mpr hhot), β.of_self]
  show (β.seed s.redis).str β.liveKey = _
  rw [β.seed_str, if_pos (.inl rfl), h.missing, Bucket.live_of_missing h.missing]
  rfl

end Steps

/-- **Looking changes nothing**, in the runs in which every topic that is looked at has a stored profile, and in no
others. The run is that of a process on a server with any content. -/
theorem unseen_iff [Field F] [LinearOrder F] (sqrt : F → F) (cfg : Tunables) (tunableKnobs : List String)
    (frozen : Bool) (r : Redis F) (vs : List (Visit F)) :
    (start tunableKnobs frozen r).Unseen sqrt cfg vs ↔
      (visits sqrt cfg).Along (Quiet sqrt cfg) (start tunableKnobs frozen r) vs := by
  have hs : (start tunableKnobs frozen r).Stocked := stocked_start tunableKnobs frozen r
  constructor
  · intro h
    refine Machine.along_iff_each.mpr fun before v after t hvs ht => ?_
    cases v with
    | op op => trivial
    | stats l => exact (kept_iff (stocked_exec sqrt cfg hs ht) l).mp (h.kept before l after t hvs ht)
    | restart tunableKnobs frozen => trivial
  · intro hq
    refine ⟨fun before l after t hvs ht => ?_, answers_filter hs hq, ?_⟩
    · exact (kept_iff (stocked_exec sqrt cfg hs ht) l).mpr (Machine.along_iff_each.mp hq before _ after t hvs ht)
    · intro β hβ hmissing before v after t hvs ht hhot hfirst
      have hunread : Unread β (start tunableKnobs frozen r) := ⟨hmissing, rfl, fun _ _ hc => nomatch hc⟩
      rw [hvs] at hq
      exact starts_of_unread hβ (unread_exec hβ hs hunread hq.append_left hfirst ht) hhot

/-! ### A cold topic that is looked at -/

/-- The settings with a sample floor of 2. -/
def lowFloor : Tunables := { Tunables.default with sampleFloor := 2, sampleFloor_mem := by decide }

/-- A query arrives at the first topic of `r`. -/
def arrival : Visit ℚ := .op (.resolve .debug "r" (unit 0) "" (Shuffle.id _) 0)

/-- `SCAN` finds the registry of `r`. -/
def lookAtR : Look ℚ where
  now := 0
  scan pattern := if pattern = "heuristics:topics:debug:*" then ["heuristics:topics:debug:r"] else []
  sh := Shuffle.id _

/-- A run that promotes a candidate of the intent-global surface. -/
def promotesDebug : List (Visit ℚ) :=
  .op (.pick .debug ⟨0, 0, 1⟩) ::
    (List.replicate 5 (.op (.update .debug (Profile.default "debug").id 0 1 0)) ++
      List.replicate 20 (.op (.update .debug ((Profile.default "debug").bump .maxTrace 1).id 1 1 0)))

/-- On a fresh installation a query arrives at a topic, which is looked at while it is cold. The look stores the
default for it. Then another profile is promoted for the intent, and the topic turns hot: its first hot read is served
the old default, without the look it is served the promoted profile. -/
theorem look_freezes_topic :
    let s : Process ℚ := start ["max_trace"] false (Redis.empty ℚ)
    let hotRead : Visit ℚ := .op (.pickWithTopic .debug "r" .topic0 (Shuffle.id _) ⟨1, 0, 0⟩)
    let run := [arrival, .stats lookAtR] ++ promotesDebug ++ [arrival, hotRead]
    (s.visit id lowFloor arrival).redis.str (bucketCurrentKey "debug" "r" "t-0") = none ∧
      ((s.visit id lowFloor arrival).visit id lowFloor (.stats lookAtR)).redis.str
        (bucketCurrentKey "debug" "r" "t-0") = some (.json (Profile.default "debug")) ∧
      (s.answers id lowFloor run).getLast?
        = some (.served (Picker.serve (Profile.default "debug") true)) ∧
      (s.answers id lowFloor (run.filter Visit.acts)).getLast?
        = some (.served (Picker.serve ((Profile.default "debug").bump .maxTrace 1) true)) ∧
      ¬s.Unseen id lowFloor run := by
  intro s hotRead run
  have hlast : (s.answers id lowFloor run).getLast? = some (.served (Picker.serve (Profile.default "debug") true)) := by
    decide +kernel
  have hlast' : (s.answers id lowFloor (run.filter Visit.acts)).getLast?
      = some (.served (Picker.serve ((Profile.default "debug").bump .maxTrace 1) true)) := by
    decide +kernel
  refine ⟨by decide +kernel, by decide +kernel, hlast, hlast', fun h => ?_⟩
  -- the two runs would be served the same
  rw [h.served, hlast'] at hlast
  exact absurd hlast (by decide +kernel)

end Process

end Devrouter
