import Devrouter.Heuristics.Stats
import Devrouter.Router.Feedback

/-!
# The totals of an intent

`dev_feedback_stats` shows for each intent how many rewards it got over the last seven days, their mean and how many
of them were explicit and implicit. A reward is filed under the bucket that served the query, by `AppendRewardFor`:
the intent's own list of the day when the bucket is the intent-global one, the list of a (repo, topic) otherwise. The
counter of `recordRewardSample` goes up by one in both cases.

A run is any sequence of rewards, with anything in between that leaves the reward lists alone (`Awarded`). The lists
then hold every reward, each in the list of its bucket and its day (`Awarded.rewards_eq`). `Stats` reads the list of
the intent-global bucket only. So it accounts for the rewards of an intent exactly when all those of the window went
to that bucket (`stats_account_iff`).
-/

open Prog

namespace Devrouter

variable {F : Type}

/-! ### Keys of reward lists -/

theorem int_no_colon (z : Int) : ':' ∉ (toString z).toList := by
  have hnat : ∀ n : ℕ, ':' ∉ (toString n).toList := by
    intro n h
    have hdigit := Nat.isDigit_of_mem_toDigits (by decide) (by decide) (Nat.toList_repr ▸ h)
    exact absurd hdigit (by decide)
  cases z with
  | ofNat n => exact hnat n
  | negSucc n =>
    -- the sign, then the digits
    change ':' ∉ ("-" ++ toString (n + 1)).toList
    rw [String.toList_append, List.mem_append, not_or]
    exact ⟨by decide, hnat (n + 1)⟩

theorem int_toString_inj {y z : Int} : toString y = toString z ↔ y = z := by
  constructor
  · intro h
    have hread := congrArg parseInt h
    rw [parseInt_int, parseInt_int] at hread
    exact Option.some.inj hread
  · rintro rfl
    rfl

/-- The day is what stands after the last colon. -/
theorem rewardKey_inj {i j : String} {d e : Int} : rewardKey i d = rewardKey j e ↔ i = j ∧ d = e := by
  have hsep : (":" : String).toList = [':'] := rfl
  unfold rewardKey
  rw [String.append_sep_inj_right hsep (int_no_colon d) (int_no_colon e), String.append_right_inj, int_toString_inj]

theorem bucketRewardKey_ne_rewardKey (i r t j : String) (d e : Int) : bucketRewardKey i r t d ≠ rewardKey j e := by
  intro h
  have hl := congrArg String.toList h
  simp [bucketRewardKey, rewardKey, keyReward, keyBucket] at hl

/-! ### Runs of rewards -/

/-- A reward with the bucket it is given to. -/
structure Award where
  intent : String
  repo : String
  topic : String
  row : RewardRow
  deriving DecidableEq

namespace Award

/-- The UTC day of a reward. -/
def day (w : Award) : Int := dayOf w.row.timestamp

/-- The list a reward is filed in. -/
def key (w : Award) : String := rewardKeyFor w.intent w.repo w.topic w.day

/-- The reward is of today or of the six days before. -/
def Recent (now : Int) (w : Award) : Prop := ∃ i ∈ List.range 7, w.day = dayOf now - (i : ℕ)

instance (now : Int) (w : Award) : Decidable (w.Recent now) :=
  inferInstanceAs (Decidable (∃ i ∈ List.range 7, w.day = dayOf now - (i : ℕ)))

/-- The reward went to the intent-global bucket. -/
def Global (w : Award) : Prop := isGlobalBucket w.repo w.topic = true

instance (w : Award) : Decidable w.Global := inferInstanceAs (Decidable (isGlobalBucket w.repo w.topic = true))

theorem key_eq_rewardKey_iff {w : Award} {intent : String} {d : Int} :
    w.key = rewardKey intent d ↔ w.Global ∧ w.intent = intent ∧ w.day = d := by
  unfold key rewardKeyFor Global
  by_cases hglobal : isGlobalBucket w.repo w.topic = true
  · rw [if_pos hglobal, rewardKey_inj]
    exact (and_iff_right hglobal).symm
  · rw [if_neg hglobal]
    exact iff_of_false (bucketRewardKey_ne_rewardKey _ _ _ _ _ _) fun h => hglobal h.1

end Award

/-- The servers that hold the rewards of a list, the oldest first: each was appended for its bucket, and what else
happened left the reward lists as they were. -/
inductive Awarded : List Award → Redis F → Prop
  | start {r : Redis F} (hempty : ∀ key, r.rewards key = []) : Awarded [] r
  | reward {ws : List Award} {r : Redis F} (h : Awarded ws r) (w : Award) :
    Awarded (ws ++ [w]) ((appendRewardFor w.intent w.repo w.topic w.row).run r).2
  | other {ws : List Award} {r r' : Redis F} (h : Awarded ws r) (hsame : r'.rewards = r.rewards) : Awarded ws r'

/-- **No reward is lost and none is filed twice**: a list holds the rewards of its bucket and its day. -/
theorem Awarded.rewards_eq {ws : List Award} {r : Redis F} (h : Awarded ws r) (key : String) :
    r.rewards key = (ws.filter (·.key = key)).map (·.row) := by
  induction h with
  | start hempty => exact hempty key
  | reward h w ih =>
    rw [appendRewardFor_run, List.filter_append, List.map_append, ← ih]
    change Function.update _ w.key _ key = _
    by_cases hkey : w.key = key
    · subst hkey
      have hself : [w].filter (fun x => x.key = w.key) = [w] := List.filter_cons_of_pos (decide_eq_true rfl)
      rw [Function.update_self, hself]
      rfl
    · rw [Function.update_of_ne (Ne.symm hkey), List.filter_cons_of_neg (by simpa using hkey)]
      exact (List.append_nil _).symm
  | other h hsame ih => rw [hsame, ih]

/-! ### What the window holds -/

/-- Reading the lists of different keys one after the other gives what has one of the keys. -/
theorem flatMap_filter_perm {α κ : Type} [DecidableEq κ] (key : α → κ) (xs : List α) {keys : List κ}
    (hnodup : keys.Nodup) :
    (keys.flatMap fun k => xs.filter (key · = k)).Perm (xs.filter fun x => key x ∈ keys) := by
  induction keys with
  | nil => simp
  | cons k keys ih =>
    obtain ⟨hk, hnodup⟩ := List.nodup_cons.mp hnodup
    -- the rows of the first key, and those of the keys behind it
    have hfirst : (xs.filter fun x => key x ∈ k :: keys).filter (key · = k) = xs.filter (key · = k) := by
      rw [List.filter_filter]
      refine List.filter_congr fun x _ => ?_
      by_cases hx : key x = k <;> simp [hx]
    have hrest : (xs.filter fun x => key x ∈ k :: keys).filter (fun x => !decide (key x = k)) =
        xs.filter fun x => key x ∈ keys := by
      rw [List.filter_filter]
      refine List.filter_congr fun x _ => ?_
      by_cases hx : key x = k
      · simp [hx, hk]
      · simp [hx]
    calc
      _ = xs.filter (key · = k) ++ keys.flatMap fun k => xs.filter (key · = k) := List.flatMap_cons
      _ |>.Perm (xs.filter (key · = k) ++ xs.filter fun x => key x ∈ keys) := (ih hnodup).append_left _
      _ |>.Perm (xs.filter fun x => key x ∈ k :: keys) := by
        rw [← hfirst, ← hrest]
        exact List.filter_append_perm (fun x => decide (key x = k)) _

/-- The rewards of an intent in the window. -/
def awardsOf (ws : List Award) (intent : String) (now : Int) : List Award :=
  ws.filter fun w => w.intent = intent ∧ w.Recent now

/-- **What `Stats` reads for an intent**: the rewards of the window that went to its global bucket. -/
theorem Awarded.recentRows_perm {ws : List Award} {r : Redis F} (h : Awarded ws r) {intent : String} {now : Int}
    (hlimit : (awardsOf ws intent now).length < 1000) :
    (r.recentRows intent "" intentGlobalTopic now 7 1000).Perm
      (((awardsOf ws intent now).filter (·.Global)).map (·.row)) := by
  let keys := (List.range 7).map fun i : ℕ => rewardKey intent (dayOf now - i)
  have hnodup : keys.Nodup := by
    refine List.nodup_range.map fun i j hij => ?_
    have hday : dayOf now - (i : ℕ) = dayOf now - (j : ℕ) := (rewardKey_inj.mp hij).2
    omega
  have hwindow : ∀ w : Award, w.key ∈ keys ↔ w.Global ∧ w.intent = intent ∧ w.Recent now := by
    intro w
    simp only [keys, List.mem_map, Award.Recent]
    constructor
    · rintro ⟨i, hi, hkey⟩
      obtain ⟨hglobal, hintent, hday⟩ := Award.key_eq_rewardKey_iff.mp hkey.symm
      exact ⟨hglobal, hintent, i, hi, hday⟩
    · rintro ⟨hglobal, hintent, i, hi, hday⟩
      exact ⟨i, hi, (Award.key_eq_rewardKey_iff.mpr ⟨hglobal, hintent, hday⟩).symm⟩
  have hkept : (awardsOf ws intent now).filter (·.Global) = ws.filter fun w => w.key ∈ keys := by
    rw [awardsOf, List.filter_filter]
    exact List.filter_congr fun w _ => by simp only [hwindow, Bool.decide_and]
  have hrows : (keys.flatMap fun key => (r.rewards key).reverse).Perm
      (((awardsOf ws intent now).filter (·.Global)).map (·.row)) := by
    rw [hkept]
    refine List.Perm.trans ?_ ((flatMap_filter_perm Award.key ws hnodup).map _)
    rw [List.map_flatMap]
    refine List.Perm.flatMap_left keys fun key _ => ?_
    rw [h.rewards_eq key]
    exact List.reverse_perm _
  -- below the limit everything is read
  have hall : (keys.flatMap fun key => (r.rewards key).reverse).length ≤ 1000 := by
    rw [hrows.length_eq, List.length_map]
    exact (List.length_filter_le _ _).trans hlimit.le
  have hread : r.recentRows intent "" intentGlobalTopic now 7 1000 = keys.flatMap fun key => (r.rewards key).reverse :=
    List.take_of_length_le hall
  rw [hread]
  exact hrows

/-! ### The account -/

/-- The statistics are those of the given rows: their number, their mean and the fraction of each source. -/
def IntentStats.Accounts (s : IntentStats) (rows : List RewardRow) : Prop :=
  s.samples7d = rows.length ∧ s.meanRawReward7d = avg (rows.map (·.rawReward)) ∧
    s.explicitFraction7d = (rows.countP (·.source = "explicit") : ℚ) / rows.length ∧
    s.implicitFraction7d = (rows.countP (·.source = "implicit_repeat") : ℚ) / rows.length

theorem avg_eq (xs : List ℚ) : avg xs = xs.sum / xs.length := by
  cases xs with
  | nil => simp [avg]
  | cons x xs => rfl

theorem IntentStats.accounts_congr {s : IntentStats} {rows rows' : List RewardRow} (h : rows.Perm rows') :
    s.Accounts rows ↔ s.Accounts rows' := by
  have havg : avg (rows.map (·.rawReward)) = avg (rows'.map (·.rawReward)) := by
    have hmap : (rows.map (·.rawReward)).Perm (rows'.map (·.rawReward)) := h.map _
    rw [avg_eq, avg_eq, hmap.sum_eq, hmap.length_eq]
  unfold IntentStats.Accounts
  rw [h.length_eq, havg, h.countP_eq, h.countP_eq]

theorem recentRows_congr {r r' : Redis F} (h : r'.rewards = r.rewards) (intent repo topic : String) (now : Int)
    (days limit : ℕ) : r'.recentRows intent repo topic now days limit = r.recentRows intent repo topic now days limit := by
  unfold Redis.recentRows
  rw [h]

section Stats

variable [Field F] [LinearOrder F] (sqrt : F → F) (cfg : Tunables) (p : Picker) (l : Look F)

theorem intentStats_accounts (intent : String) (r : Redis F) :
    (intentStats sqrt cfg l intent r).1.Accounts (r.recentRows intent "" intentGlobalTopic l.now 7 1000) := by
  -- the profile is read first, which adds no reward
  have hseed : (r.seedCurrent intent).rewards = r.rewards := ((Redis.le_seedCurrent r intent).2.2.1).symm
  simp only [intentStats, currentProfile_run, recentRewardsFor_run, recentRows_congr hseed]
  exact ⟨rfl, rfl, rfl, rfl⟩

theorem intentStats_intent (intent : String) (r : Redis F) : (intentStats sqrt cfg l intent r).1.intent = intent := by
  simp only [intentStats, currentProfile_run, recentRewardsFor_run]

/-- The statistics of an intent account for the rewards that went to its global bucket. -/
theorem Awarded.stats_accounts {ws : List Award} {r : Redis F} (h : Awarded ws r) {s : IntentStats}
    (hs : s ∈ (p.stats sqrt cfg l r).1.intents) (hlimit : (awardsOf ws s.intent l.now).length < 1000) :
    s.Accounts (((awardsOf ws s.intent l.now).filter (·.Global)).map (·.row)) := by
  rw [Picker.stats_intents] at hs
  obtain ⟨intent, -, r', hle, rfl⟩ :=
    Sweep.exists_of_mem_loop (fun intent r => le_intentStats sqrt cfg l intent r) hs
  rw [intentStats_intent] at hlimit ⊢
  have hsame : r'.rewards = r.rewards := hle.2.2.1.symm
  have hperm := h.recentRows_perm hlimit
  rw [← recentRows_congr hsame] at hperm
  exact (IntentStats.accounts_congr hperm).mp (intentStats_accounts sqrt cfg l intent r')

theorem stats_intent_names (r : Redis F) : (p.stats sqrt cfg l r).1.intents.map (·.intent) = knownIntents := by
  rw [Picker.stats_intents, Sweep.map_loop (intentStats_intent sqrt cfg l), List.map_id']

/-- **When the statistics of an intent account for every reward.** `Stats` has a row for each known intent, and after
any run, with fewer rewards in the window than are read at most, the row is that of all the rewards of the intent
exactly when none of them went to the bucket of a repo and a topic. -/
theorem stats_account_iff {ws : List Award} {r : Redis F} (h : Awarded ws r) :
    (p.stats sqrt cfg l r).1.intents.map (·.intent) = knownIntents ∧
      ∀ s ∈ (p.stats sqrt cfg l r).1.intents, (awardsOf ws s.intent l.now).length < 1000 →
        (s.Accounts ((awardsOf ws s.intent l.now).map (·.row)) ↔
          ∀ w ∈ ws, w.intent = s.intent → w.Recent l.now → isGlobalBucket w.repo w.topic = true) := by
  refine ⟨stats_intent_names sqrt cfg p l r, fun s hs hlimit => ?_⟩
  have hread := h.stats_accounts sqrt cfg p l hs hlimit
  have hglobal : (∀ w ∈ ws, w.intent = s.intent → w.Recent l.now → isGlobalBucket w.repo w.topic = true) ↔
      ∀ w ∈ awardsOf ws s.intent l.now, w.Global := by
    unfold awardsOf Award.Global
    simp only [List.mem_filter, decide_eq_true_eq, and_imp]
  rw [hglobal]
  constructor
  · -- the number of rows tells: a reward of another bucket is missing in it
    intro hall w hw
    have hlength : ((awardsOf ws s.intent l.now).filter (·.Global)).length = (awardsOf ws s.intent l.now).length := by
      have hcount := hread.1.symm.trans hall.1
      rwa [List.length_map, List.length_map] at hcount
    exact of_decide_eq_true (List.length_filter_eq_length_iff.mp hlength w hw)
  · intro hall
    rwa [List.filter_eq_self.mpr fun w hw => decide_eq_true (hall w hw)] at hread

end Stats

/-! ### One reward -/

/-- An explicit reward for a debugging query. -/
def debugReward (repo topic : String) : Award where
  intent := "debug"
  repo
  topic
  row := ⟨"q1", "p1", 1, 1, 0, 0, "explicit", 1, 86400000⟩

/-- An empty server to which a reward is written. -/
def rewardedServer (w : Award) : Redis ℚ := ((appendRewardFor w.intent w.repo w.topic w.row).run (Redis.empty ℚ)).2

theorem awarded_rewardedServer (w : Award) : Awarded [w] (rewardedServer w) := .reward (.start fun _ => rfl) w

def defaultPicker : Picker := ⟨Bandit.new [], false⟩

/-- A look at the day of the reward. -/
def sameDay : Look ℚ := ⟨86400000, fun _ => [], Shuffle.id _⟩

theorem exists_debug (r : Redis ℚ) :
    ∃ s ∈ (defaultPicker.stats id Tunables.default sameDay r).1.intents, s.intent = "debug" := by
  have hname : "debug" ∈ (defaultPicker.stats id Tunables.default sameDay r).1.intents.map (·.intent) := by
    rw [stats_intent_names]
    decide
  exact List.mem_map.mp hname

/-- A reward without a repo is accounted for. -/
theorem global_reward_counted :
    ∃ s ∈ (defaultPicker.stats id Tunables.default sameDay (rewardedServer (debugReward "" ""))).1.intents,
      s.intent = "debug" ∧ s.Accounts [(debugReward "" "").row] := by
  obtain ⟨s, hs, hdebug⟩ := exists_debug (rewardedServer (debugReward "" ""))
  have hof : awardsOf [debugReward "" ""] s.intent sameDay.now = [debugReward "" ""] := by
    rw [hdebug]
    decide
  have hiff := (stats_account_iff id Tunables.default defaultPicker sameDay
    (awarded_rewardedServer (debugReward "" ""))).2 s hs (by rw [hof]; decide)
  rw [hof] at hiff
  refine ⟨s, hs, hdebug, hiff.mpr fun w hw _ _ => ?_⟩
  rw [List.mem_singleton.mp hw]
  decide

/-- **A reward that is not counted**: one reward of an intent went to the bucket of a topic, and `Stats` shows no
sample of the intent. -/
theorem bucket_reward_uncounted :
    Awarded [debugReward "api" "t1"] (rewardedServer (debugReward "api" "t1")) ∧
      (awardsOf [debugReward "api" "t1"] "debug" sameDay.now).length = 1 ∧
      ∃ s ∈ (defaultPicker.stats id Tunables.default sameDay (rewardedServer (debugReward "api" "t1"))).1.intents,
        s.intent = "debug" ∧ s.samples7d = 0 ∧
          ¬ s.Accounts ((awardsOf [debugReward "api" "t1"] "debug" sameDay.now).map (·.row)) := by
  obtain ⟨s, hs, hdebug⟩ := exists_debug (rewardedServer (debugReward "api" "t1"))
  have hrun := awarded_rewardedServer (debugReward "api" "t1")
  refine ⟨hrun, by decide, s, hs, hdebug, ?_⟩
  have hnone : (awardsOf [debugReward "api" "t1"] s.intent sameDay.now).filter (·.Global) = [] := by
    rw [hdebug]
    decide
  have hread := hrun.stats_accounts id Tunables.default defaultPicker sameDay hs (by rw [hdebug]; decide)
  rw [hnone] at hread
  have hzero : s.samples7d = 0 := hread.1
  refine ⟨hzero, fun hall => ?_⟩
  have hone : s.samples7d = 1 := hall.1
  omega

end Devrouter
