import Mathlib.Data.Rat.Floor
import Devrouter.Lib.Sweep
import Devrouter.Heuristics.Reward
import Devrouter.Heuristics.Picker

/-!
# The statistics of the picker

Model of `Picker.Stats` in `internal/heuristics/picker.go`, and of the reads it makes of the store and of the topic
registry. `Stats` looks at every known intent and at every topic that a `SCAN` of the registries gives; the server is
threaded through, since a profile is read with the functions that seed what is missing.

The server only gains entries from a look (`Redis` is ordered by what is stored). So it stays as it is exactly when
nothing that is looked at is missing (`Picker.stats_eq_self_iff`).
-/

open Prog

namespace Devrouter

variable {F : Type}

/-! ### Numbers -/

def avg (xs : List ℚ) : ℚ := if xs.isEmpty then 0 else xs.sum / xs.length

def percentile (xs : List ℚ) (p : ℚ) : ℚ :=
  let cp := xs.insertionSort (· ≤ ·)
  let idx := ((cp.length - 1 : ℕ) * p).floor.toNat
  cp.getD (min idx (cp.length - 1)) 0

/-! ### What is shown -/

/-- The statistics of a topic. -/
structure BucketStats where
  repo : String
  topicID : String
  topicLabel : String
  centroidSamples : Int
  hotEnough : Bool
  currentProfile : Profile
  currentProfileID : String
  samples7d : ℕ
  meanRawReward7d : ℚ
  recentHistory : List HistoryEntry
  deriving DecidableEq

/-- The statistics of an intent. -/
structure IntentStats where
  intent : String
  currentProfile : Profile
  currentProfileID : String
  samplesToday : ℕ
  samples7d : ℕ
  meanRawReward7d : ℚ
  p50RawReward7d : ℚ
  p95RawReward7d : ℚ
  explicitFraction7d : ℚ
  implicitFraction7d : ℚ
  recentHistory : List HistoryEntry
  buckets : List BucketStats
  deriving DecidableEq

structure Snapshot where
  frozen : Bool
  tunableKnobs : List String
  sampleFloor : Int
  topicsOn : Bool
  intents : List IntentStats
  deriving DecidableEq

/-- A look: the clock, what `SCAN` answers for a pattern, and the order in which a registry is ranged over. -/
structure Look (F : Type) where
  now : Int
  scan : String → List String
  sh : Shuffle (TopicField F)

/-! ### Reads -/

/-- `History` and `HistoryFor`, for `n` positive. -/
def Redis.historyFor (r : Redis F) (intent repo topic : String) (n : ℕ) : List HistoryEntry :=
  (r.history (historyKeyFor intent repo topic)).take n

/-- `strings.TrimPrefix`. -/
def trimPrefix (s p : String) : String :=
  if hasPrefix s p then String.ofList (s.toList.drop p.toList.length) else s

/-- `ListRepos`. -/
def Look.listRepos (l : Look F) (intent : String) : List String :=
  let pre := keyTopics ++ ":" ++ intent ++ ":"
  let repos := (l.scan (pre ++ "*")).map fun k => trimPrefix k pre
  (repos.filter (· ≠ "")).dedup.insertionSort (· ≤ ·)

section Topics

variable [Field F] [LinearOrder F] (sqrt : F → F)

/-- `List`: the topics of a repo, those with most samples first. -/
def Redis.listTopics (r : Redis F) (l : Look F) (intent repo : String) : List (TopicEntry F) :=
  let entries := ((loadBucket sqrt l.sh intent (normaliseRepo repo)).run r).1
  entries.insertionSort fun a b => b.samples < a.samples ∨ a.samples = b.samples ∧ b.lastSeen ≤ a.lastSeen

/-! ### Stats -/

/-- The cell of a topic. -/
def bucketCell (cfg : Tunables) (l : Look F) (intent repo : String) (t : TopicEntry F) (r : Redis F) :
    BucketStats × Redis F :=
  let (rows, r) := (recentRewardsFor intent repo t.id l.now 7 1000).run r
  let ((prof, _), r) := (currentProfileFor intent repo t.id).run r
  ({ repo
     topicID := t.id
     topicLabel := t.label
     centroidSamples := t.samples
     hotEnough := decide (cfg.sampleFloor ≤ t.samples)
     currentProfile := prof
     currentProfileID := prof.id
     samples7d := rows.length
     meanRawReward7d := avg (rows.map (·.rawReward))
     recentHistory := r.historyFor intent repo t.id 5 }, r)

def bucketStats (cfg : Tunables) (l : Look F) (intent : String) (r : Redis F) : List BucketStats × Redis F :=
  if !cfg.topicsEnabled then ([], r)
  else
    let (cells, r) := Sweep.loop (fun repo r =>
      Sweep.loop (bucketCell cfg l intent repo) (r.listTopics sqrt l intent repo) r) (l.listRepos intent) r
    (cells.flatten.insertionSort fun a b => a.repo < b.repo ∨ a.repo = b.repo ∧ a.topicID ≤ b.topicID, r)

/-- The milliseconds of the zero time. -/
def zeroTime : Int := -62135596800000

/-- The body of the loop over the intents. -/
def intentStats (cfg : Tunables) (l : Look F) (intent : String) (r : Redis F) : IntentStats × Redis F :=
  let ((prof, _), r) := (currentProfile intent).run r
  let (rows, r) := (recentRewardsFor intent "" intentGlobalTopic l.now 7 1000).run r
  let recentHistory := r.historyFor intent "" intentGlobalTopic 5
  let (buckets, r) := bucketStats sqrt cfg l intent r
  let raws := rows.map (·.rawReward)
  -- without rows every number is 0
  let fraction (source : String) : ℚ := (rows.countP (·.source = source) : ℚ) / rows.length
  ({ intent
     currentProfile := prof
     currentProfileID := prof.id
     samplesToday := rows.countP fun row => row.timestamp ≠ zeroTime ∧ dayOf row.timestamp = dayOf l.now
     samples7d := rows.length
     meanRawReward7d := avg raws
     p50RawReward7d := percentile raws (1 / 2)
     p95RawReward7d := percentile raws (95 / 100)
     explicitFraction7d := fraction "explicit"
     implicitFraction7d := fraction "implicit_repeat"
     recentHistory
     buckets }, r)

/-- `Stats`. -/
def Picker.stats (cfg : Tunables) (p : Picker) (l : Look F) (r : Redis F) : Snapshot × Redis F :=
  let (intents, r) := Sweep.loop (intentStats sqrt cfg l) knownIntents r
  ({ frozen := p.frozen
     tunableKnobs := p.bandit.tunableKnobs.insertionSort (· ≤ ·)
     sampleFloor := cfg.sampleFloor
     topicsOn := cfg.topicsEnabled
     intents }, r)

end Topics

/-! ### What is stored -/

/-- Profiles are added, everything else is the same. -/
instance : PartialOrder (Redis F) where
  le r r' := (∀ key v, r.str key = some v → r'.str key = some v) ∧ r.history = r'.history ∧
    r.rewards = r'.rewards ∧ r.trace = r'.trace ∧ r.topics = r'.topics
  le_refl _ := ⟨fun _ _ h => h, rfl, rfl, rfl, rfl⟩
  le_trans _ _ _ h h' := ⟨fun key v hv => h'.1 key v (h.1 key v hv), h.2.1.trans h'.2.1, h.2.2.1.trans h'.2.2.1,
    h.2.2.2.1.trans h'.2.2.2.1, h.2.2.2.2.trans h'.2.2.2.2⟩
  le_antisymm r r' h h' := by
    have hstr : r.str = r'.str := by
      ext key v
      exact ⟨h.1 key v, h'.1 key v⟩
    obtain ⟨-, hhistory, hrewards, htrace, htopics⟩ := h
    cases r
    cases r'
    simp_all

namespace Redis

variable {r : Redis F}

theorem le_setStr {key : String} (h : r.str key = none) (p : Profile) : r ≤ r.setStr key p := by
  refine ⟨fun k v hv => ?_, rfl, rfl, rfl, rfl⟩
  have hne : k ≠ key := by
    rintro rfl
    rw [h] at hv
    cases hv
  rw [setStr_str, Function.update_of_ne hne, hv]

theorem le_seedStr (r : Redis F) (key : String) (p : Profile) : r ≤ r.seedStr key p := by
  unfold seedStr
  cases hkey : r.str key with
  | some v => exact le_refl r
  | none => exact le_setStr hkey p

theorem le_seedCurrent (r : Redis F) (intent : String) : r ≤ r.seedCurrent intent := by
  unfold seedCurrent
  cases hkey : r.str (currentKey intent) with
  | some v => exact le_refl r
  | none =>
    calc
      r ≤ r.setStr (currentKey intent) (Profile.default intent) := le_setStr hkey _
      _ ≤ _ := le_seedStr _ _ _

theorem seedCurrent_eq_self_iff {intent : String} :
    r.seedCurrent intent = r ↔ (r.str (currentKey intent)).isSome = true := by
  constructor
  · intro h
    rw [← h, r.seedCurrent_str intent (currentKey_ne_defaultKey intent), if_pos rfl]
    rfl
  · intro h
    rw [seedCurrent, if_pos h]

theorem le_seedCurrentFor (r : Redis F) (intent repo topic : String) : r ≤ r.seedCurrentFor intent repo topic := by
  unfold seedCurrentFor
  split_ifs with hglobal hstored
  · exact le_seedCurrent r intent
  · exact le_refl r
  · have hmissing : (r.seedCurrent intent).str (bucketCurrentKey intent repo topic) = none := by
      rw [r.seedCurrent_str intent (bucketCurrentKey_ne_defaultKey intent repo topic),
        if_neg (bucketCurrentKey_ne_currentKey intent repo topic intent)]
      simpa using hstored
    calc
      r ≤ r.seedCurrent intent := le_seedCurrent r intent
      _ ≤ _ := le_setStr hmissing _

theorem seedCurrentFor_eq_self_iff {intent repo topic : String} :
    r.seedCurrentFor intent repo topic = r ↔ (r.str (currentKeyFor intent repo topic)).isSome = true := by
  unfold seedCurrentFor currentKeyFor
  split_ifs with hglobal hstored
  · exact seedCurrent_eq_self_iff
  · exact iff_of_true rfl hstored
  · refine iff_of_false (fun h => ?_) hstored
    have hkey := congrArg (fun r : Redis F => r.str (bucketCurrentKey intent repo topic)) h
    rw [setStr_str, Function.update_self] at hkey
    rw [← hkey] at hstored
    exact hstored rfl

end Redis

/-! ### What a look changes -/

section Looks

theorem bucketCell_redis (cfg : Tunables) (l : Look F) (intent repo : String) (t : TopicEntry F) (r : Redis F) :
    (bucketCell cfg l intent repo t r).2 = r.seedCurrentFor intent repo t.id := by
  simp [bucketCell, recentRewardsFor_run, currentProfileFor_run]

variable [Field F] [LinearOrder F] (sqrt : F → F) (cfg : Tunables) (l : Look F)

/-- Every topic that the look lists has a stored profile. -/
def Redis.Covers (r : Redis F) (intent : String) : Prop :=
  cfg.topicsEnabled = true → ∀ repo ∈ l.listRepos intent, ∀ t ∈ r.listTopics sqrt l intent repo,
    (r.str (currentKeyFor intent repo t.id)).isSome = true

theorem bucketStats_redis (intent : String) (r : Redis F) :
    (bucketStats sqrt cfg l intent r).2 =
      if cfg.topicsEnabled then
        (Sweep.loop (fun repo r => Sweep.loop (bucketCell cfg l intent repo) (r.listTopics sqrt l intent repo) r)
          (l.listRepos intent) r).2
      else r := by
  unfold bucketStats
  cases cfg.topicsEnabled with
  | true => rfl
  | false => rfl

theorem le_repoCells (intent repo : String) (r : Redis F) :
    r ≤ (Sweep.loop (bucketCell cfg l intent repo) (r.listTopics sqrt l intent repo) r).2 := by
  refine Sweep.le_loop (fun t r => ?_) _ r
  rw [bucketCell_redis]
  exact Redis.le_seedCurrentFor r intent repo t.id

theorem le_bucketStats (intent : String) (r : Redis F) : r ≤ (bucketStats sqrt cfg l intent r).2 := by
  rw [bucketStats_redis]
  split_ifs
  · exact Sweep.le_loop (fun repo r => le_repoCells sqrt cfg l intent repo r) _ r
  · exact le_refl r

theorem bucketStats_eq_self_iff (intent : String) (r : Redis F) :
    (bucketStats sqrt cfg l intent r).2 = r ↔ r.Covers sqrt cfg l intent := by
  rw [bucketStats_redis, Redis.Covers]
  split_ifs with hon
  · rw [Sweep.loop_eq_self_iff (fun repo r => le_repoCells sqrt cfg l intent repo r)]
    simp only [hon, true_imp_iff]
    refine forall₂_congr fun repo _ => ?_
    rw [Sweep.loop_eq_self_iff fun t r => by
      rw [bucketCell_redis]
      exact Redis.le_seedCurrentFor r intent repo t.id]
    refine forall₂_congr fun t _ => ?_
    rw [bucketCell_redis, Redis.seedCurrentFor_eq_self_iff]
  · exact iff_of_true rfl fun h => absurd h hon

theorem intentStats_redis (intent : String) (r : Redis F) :
    (intentStats sqrt cfg l intent r).2 = (bucketStats sqrt cfg l intent (r.seedCurrent intent)).2 := by
  simp [intentStats, recentRewardsFor_run, currentProfile_run]

theorem le_intentStats (intent : String) (r : Redis F) : r ≤ (intentStats sqrt cfg l intent r).2 := by
  rw [intentStats_redis]
  calc
    r ≤ r.seedCurrent intent := Redis.le_seedCurrent r intent
    _ ≤ _ := le_bucketStats sqrt cfg l intent _

theorem intentStats_eq_self_iff (intent : String) (r : Redis F) :
    (intentStats sqrt cfg l intent r).2 = r ↔
      (r.str (currentKey intent)).isSome = true ∧ r.Covers sqrt cfg l intent := by
  rw [intentStats_redis, ← Redis.seedCurrent_eq_self_iff, ← bucketStats_eq_self_iff]
  constructor
  · intro h
    have hle : r.seedCurrent intent ≤ r := (le_bucketStats sqrt cfg l intent _).trans h.le
    have hseed : r.seedCurrent intent = r := le_antisymm hle (Redis.le_seedCurrent r intent)
    rw [hseed] at h
    exact ⟨hseed, h⟩
  · rintro ⟨hseed, hbuckets⟩
    rw [hseed]
    exact hbuckets

theorem Picker.stats_redis (p : Picker) (r : Redis F) :
    (p.stats sqrt cfg l r).2 = (Sweep.loop (intentStats sqrt cfg l) knownIntents r).2 := rfl

theorem Picker.stats_intents (p : Picker) (r : Redis F) :
    (p.stats sqrt cfg l r).1.intents = (Sweep.loop (intentStats sqrt cfg l) knownIntents r).1 := rfl

-- a look is unfolded through its lemmas only
attribute [irreducible] Picker.stats

theorem Picker.le_stats (p : Picker) (r : Redis F) : r ≤ (p.stats sqrt cfg l r).2 := by
  rw [stats_redis]
  exact Sweep.le_loop (fun intent r => le_intentStats sqrt cfg l intent r) knownIntents r

/-- **When a look changes nothing**: every known intent and every topic that is looked at has a stored profile. -/
theorem Picker.stats_eq_self_iff (p : Picker) (r : Redis F) :
    (p.stats sqrt cfg l r).2 = r ↔
      ∀ intent ∈ knownIntents, (r.str (currentKey intent)).isSome = true ∧ r.Covers sqrt cfg l intent := by
  rw [stats_redis, Sweep.loop_eq_self_iff fun intent r => le_intentStats sqrt cfg l intent r]
  exact forall₂_congr fun intent _ => intentStats_eq_self_iff sqrt cfg l intent r

end Looks

end Devrouter
