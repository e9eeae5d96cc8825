import Mathlib.Tactic.FieldSimp
import Devrouter.Anchorlearn.Runs

/-!
# Positive evidence

What a reward and a promotion do to the score that `Decide` gives a pattern. The store adds weights as
fractions and reads their sum back as a whole number, so a reward raises what is read or leaves it, and a
score never falls (`Favours.decideScore_le`).

A promotion seeds one fire and half a success in the repo alone. Read back, that is a fire without a
success: `evidence_helps_iff` says which counts of the suffix, from other repos or from earlier, make up
for it.
-/

open Prog

namespace Devrouter.Anchorlearn

/-! ### The score of a pattern in a state -/

namespace AnchorDb

variable (db : AnchorDb)

/-- `GetKeywordAffinity`. -/
def getKeywordAffinity (kw patternID : String) : ℚ := (db.float (keywordKey kw patternID)).getD 0

/-- What was learned of a pattern and the keywords of a query, and what the static portfolio says. -/
def keywordScore (keywords : List String) (p : Pattern) : ℚ :=
  (keywords.map fun kw => db.getKeywordAffinity kw p.id).sum + staticAffinity keywords p

/-- The score `Decide` gives a pattern. -/
def decideScore (repo : String) (keywords : List String) (p : Pattern) : ℚ :=
  score (db.getPatternStats "" p.id) (db.getPatternStats repo p.id) (db.keywordScore keywords p)

/-- The number of fires in a hash. -/
def fires (key : String) : ℚ := (number (db.hash key) "fired").getD 0

/-- The number of successes in a hash, with its fraction. -/
def successes (key : String) : ℚ := (number (db.hash key) "success").getD 0

end AnchorDb

/-- A store to which weights were only ever added: its counters are numbers and nothing in it is
negative. -/
structure AnchorDb.Accumulated (db : AnchorDb) : Prop where
  counts : db.Counts db.fires db.successes
  fires_nonneg : ∀ repo patternID, 0 ≤ db.fires (patternKey repo patternID)
  successes_nonneg : ∀ repo patternID, 0 ≤ db.successes (patternKey repo patternID)
  affinity_nonneg : ∀ key, 0 ≤ (db.float key).getD 0

theorem AnchorDb.Counts.fires_eq {db : AnchorDb} {F S : String → ℚ} (h : db.Counts F S) (repo patternID : String) :
    db.fires (patternKey repo patternID) = F (patternKey repo patternID) := by
  unfold AnchorDb.fires
  rw [h.fired]
  rfl

theorem AnchorDb.Counts.successes_eq {db : AnchorDb} {F S : String → ℚ} (h : db.Counts F S)
    (repo patternID : String) : db.successes (patternKey repo patternID) = S (patternKey repo patternID) := by
  unfold AnchorDb.successes
  rw [h.success]
  rfl

namespace AnchorDb.Accumulated

variable {db : AnchorDb}

/-- Counts that are not negative. -/
theorem of_counts {F S : String → ℚ} (h : db.Counts F S) (hF : ∀ repo patternID, 0 ≤ F (patternKey repo patternID))
    (hS : ∀ repo patternID, 0 ≤ S (patternKey repo patternID)) (hfloat : ∀ key, 0 ≤ (db.float key).getD 0) :
    db.Accumulated where
  counts := by
    refine ⟨fun repo patternID => ?_, fun repo patternID => ?_⟩
    · rw [h.fires_eq]
      exact h.fired repo patternID
    · rw [h.successes_eq]
      exact h.success repo patternID
  fires_nonneg repo patternID := by
    rw [h.fires_eq]
    exact hF repo patternID
  successes_nonneg repo patternID := by
    rw [h.successes_eq]
    exact hS repo patternID
  affinity_nonneg := hfloat

/-- What `GetPatternStats` reads: the whole part of each count. -/
theorem getPatternStats_eq (h : db.Accumulated) (repo patternID : String) :
    db.getPatternStats repo patternID =
      ⟨⌊db.fires (patternKey repo patternID)⌋, ⌊db.successes (patternKey repo patternID)⌋⟩ := by
  unfold AnchorDb.getPatternStats
  rw [statInt_of_number (h.counts.fired repo patternID) (h.fires_nonneg repo patternID),
    statInt_of_number (h.counts.success repo patternID) (h.successes_nonneg repo patternID)]

theorem keywordScore_nonneg (h : db.Accumulated) (keywords : List String) (p : Pattern) :
    0 ≤ db.keywordScore keywords p := by
  have hlearned : 0 ≤ (keywords.map fun kw => db.getKeywordAffinity kw p.id).sum := by
    refine List.sum_nonneg fun x hx => ?_
    obtain ⟨kw, -, rfl⟩ := List.mem_map.mp hx
    exact h.affinity_nonneg _
  have hstatic : 0 ≤ staticAffinity keywords p := by
    refine List.sum_nonneg fun x hx => ?_
    obtain ⟨kw, -, rfl⟩ := List.mem_map.mp hx
    split_ifs <;> norm_num
  exact add_nonneg hlearned hstatic

end AnchorDb.Accumulated

/-! ### The blended rate -/

/-- The weight of the rate in the repo. -/
def repoWeight (fired : ℤ) : ℚ :=
  if fired < minFiresBeforeExploit then (fired : ℚ) / (minFiresBeforeExploit : ℚ) * repoPriorWeight
  else repoPriorWeight

/-- The score without the keywords. -/
def blendedRate (globalStats repoStats : PatternStats) : ℚ :=
  (1 - repoWeight repoStats.firedCount) * smoothedRate globalStats.successCount globalStats.firedCount +
    repoWeight repoStats.firedCount * smoothedRate repoStats.successCount repoStats.firedCount

theorem score_eq (globalStats repoStats : PatternStats) (kwScore : ℚ) :
    score globalStats repoStats kwScore = blendedRate globalStats repoStats *
      (1 + keywordAffinityWeight * min kwScore keywordAffinityCap) := rfl

theorem smoothedRate_eq {fired : ℤ} (h : 0 ≤ fired) (success : ℤ) :
    smoothedRate success fired = ((success : ℚ) + 1) / ((fired : ℚ) + 2) := by
  have hfired : (0 : ℚ) ≤ fired := by exact_mod_cast h
  have hden : (fired : ℚ) + smoothingPriorFires ≠ 0 := by
    unfold smoothingPriorFires
    linarith
  unfold smoothedRate
  rw [if_neg hden]
  rfl

/-- The weight in thirtieths: seven for each fire, up to three fires. -/
theorem repoWeight_eq (fired : ℤ) : repoWeight fired = 7 * (min fired 3 : ℤ) / 30 := by
  unfold repoWeight minFiresBeforeExploit repoPriorWeight
  split_ifs with h
  · rw [min_eq_left h.le]
    push_cast
    ring
  · rw [min_eq_right (not_lt.mp h)]
    norm_num

theorem repoWeight_mem {fired : ℤ} (h : 0 ≤ fired) : 0 ≤ repoWeight fired ∧ repoWeight fired ≤ 1 := by
  have hlow : (0 : ℚ) ≤ (min fired 3 : ℤ) := by exact_mod_cast le_min h (by norm_num)
  have hhigh : ((min fired 3 : ℤ) : ℚ) ≤ 3 := by exact_mod_cast min_le_right fired 3
  rw [repoWeight_eq]
  constructor <;> linarith

theorem smoothedRate_nonneg {success fired : ℤ} (hs : 0 ≤ success) (hf : 0 ≤ fired) :
    0 ≤ smoothedRate success fired := by
  have hs' : (0 : ℚ) ≤ success := by exact_mod_cast hs
  have hf' : (0 : ℚ) ≤ fired := by exact_mod_cast hf
  rw [smoothedRate_eq hf]
  exact div_nonneg (by linarith) (by linarith)

theorem smoothedRate_mono {success success' fired : ℤ} (hf : 0 ≤ fired) (h : success ≤ success') :
    smoothedRate success fired ≤ smoothedRate success' fired := by
  have hs : (success : ℚ) ≤ success' := by exact_mod_cast h
  have hf' : (0 : ℚ) ≤ fired := by exact_mod_cast hf
  rw [smoothedRate_eq hf, smoothedRate_eq hf]
  gcongr

/-- By how much a rate is above one half: the successes beyond half of the fires. -/
theorem smoothedRate_sub_half {fired : ℤ} (h : 0 ≤ fired) (success : ℤ) :
    smoothedRate success fired - 1 / 2 = (2 * success - fired : ℤ) / (2 * ((fired : ℚ) + 2)) := by
  have hfired : (0 : ℚ) ≤ fired := by exact_mod_cast h
  rw [smoothedRate_eq h]
  push_cast
  field_simp
  ring

/-- **At least the rate of an untried pattern**, in whole numbers. -/
theorem half_le_blendedRate_iff {g r : PatternStats} (hg : 0 ≤ g.firedCount) (hr : 0 ≤ r.firedCount) :
    1 / 2 ≤ blendedRate g r ↔
      7 * min r.firedCount 3 * (r.firedCount - 2 * r.successCount) * (g.firedCount + 2) ≤
        (30 - 7 * min r.firedCount 3) * (2 * g.successCount - g.firedCount) * (r.firedCount + 2) := by
  have hgf : (0 : ℚ) ≤ g.firedCount := by exact_mod_cast hg
  have hrf : (0 : ℚ) ≤ r.firedCount := by exact_mod_cast hr
  set n := min r.firedCount 3 with hn
  have hden : (0 : ℚ) < 60 * ((g.firedCount : ℚ) + 2) * ((r.firedCount : ℚ) + 2) := by positivity
  have hdiff : blendedRate g r - 1 / 2 =
      ((30 - 7 * n) * (2 * g.successCount - g.firedCount) * (r.firedCount + 2) -
        7 * n * (r.firedCount - 2 * r.successCount) * (g.firedCount + 2) : ℤ) /
        (60 * ((g.firedCount : ℚ) + 2) * ((r.firedCount : ℚ) + 2)) := by
    -- a blend is as far above one half as the blend of how far the two rates are
    have hsplit : blendedRate g r - 1 / 2 =
        (1 - repoWeight r.firedCount) * (smoothedRate g.successCount g.firedCount - 1 / 2) +
          repoWeight r.firedCount * (smoothedRate r.successCount r.firedCount - 1 / 2) := by
      unfold blendedRate
      ring
    rw [hsplit, smoothedRate_sub_half hg, smoothedRate_sub_half hr, repoWeight_eq, ← hn]
    push_cast
    field_simp
    ring
  rw [← sub_nonneg, hdiff, le_div_iff₀ hden, zero_mul, Int.cast_nonneg_iff, sub_nonneg]

/-- What the keywords multiply a rate by. -/
theorem keywordFactor_pos {kwScore : ℚ} (h : 0 ≤ kwScore) :
    0 < 1 + keywordAffinityWeight * min kwScore keywordAffinityCap := by
  have hmin : 0 ≤ min kwScore keywordAffinityCap := le_min h (by decide +kernel)
  have hweight : 0 ≤ keywordAffinityWeight := by decide +kernel
  have hprod := mul_nonneg hweight hmin
  linarith

/-- **More successes** and more affinity at the same fires: no lower score. -/
theorem score_mono {g g' r r' : PatternStats} {kw kw' : ℚ} (hg : 0 ≤ g.firedCount) (hr : 0 ≤ r.firedCount)
    (hgs : 0 ≤ g.successCount) (hrs : 0 ≤ r.successCount) (hgf : g'.firedCount = g.firedCount)
    (hrf : r'.firedCount = r.firedCount) (hg' : g.successCount ≤ g'.successCount)
    (hr' : r.successCount ≤ r'.successCount) (hkw : 0 ≤ kw) (hkw' : kw ≤ kw') :
    score g r kw ≤ score g' r' kw' := by
  obtain ⟨hw, hw1⟩ := repoWeight_mem hr
  have hblend : blendedRate g r ≤ blendedRate g' r' := by
    -- the weight depends on the fires alone, so it is the same on both sides
    unfold blendedRate
    rw [hgf, hrf]
    have hglobal := mul_le_mul_of_nonneg_left (smoothedRate_mono hg hg') (sub_nonneg.mpr hw1)
    have hrepo := mul_le_mul_of_nonneg_left (smoothedRate_mono hr hr') hw
    linarith
  have hnonneg : 0 ≤ blendedRate g r :=
    add_nonneg (mul_nonneg (sub_nonneg.mpr hw1) (smoothedRate_nonneg hgs hg))
      (mul_nonneg hw (smoothedRate_nonneg hrs hr))
  have hfactor : 1 + keywordAffinityWeight * min kw keywordAffinityCap ≤
      1 + keywordAffinityWeight * min kw' keywordAffinityCap := by
    have hweight : 0 ≤ keywordAffinityWeight := by decide +kernel
    gcongr
  rw [score_eq, score_eq]
  exact mul_le_mul hblend hfactor (keywordFactor_pos hkw).le (hnonneg.trans hblend)

/-! ### What a reward does -/

/-- A command that adds to the successes or the affinities, or sets a time. -/
def AnchorCmd.Rewards : AnchorCmd → Prop
  | .hgetall _ => True
  | .hset _ field => field.1 = "last_seen"
  | .hincrbyfloat key field delta =>
    (∃ repo patternID, key = patternKey repo patternID) ∧ field = "success" ∧ 0 ≤ delta
  | .incrbyfloat _ delta => 0 ≤ delta

/-- A store in which a pattern stands no worse: it fired as often, with no fewer successes and no less
affinity. -/
structure AnchorDb.Favours (db db' : AnchorDb) : Prop where
  accumulated : db'.Accumulated
  fires_eq : ∀ repo patternID, db'.fires (patternKey repo patternID) = db.fires (patternKey repo patternID)
  successes_le : ∀ repo patternID, db.successes (patternKey repo patternID) ≤ db'.successes (patternKey repo patternID)
  affinity_le : ∀ key, (db.float key).getD 0 ≤ (db'.float key).getD 0

theorem le_raise (F : String → ℚ) (key : String) {w : ℚ} (hw : 0 ≤ w) (k : String) : F k ≤ raise F key w k := by
  unfold raise
  split_ifs
  · linarith
  · linarith

namespace AnchorDb.Favours

variable {db db' : AnchorDb}

theorem refl (h : db.Accumulated) : db.Favours db := ⟨h, fun _ _ => rfl, fun _ _ => le_rfl, fun _ => le_rfl⟩

theorem trans {db'' : AnchorDb} (h : db.Favours db') (h' : db'.Favours db'') : db.Favours db'' where
  accumulated := h'.accumulated
  fires_eq repo patternID := (h'.fires_eq repo patternID).trans (h.fires_eq repo patternID)
  successes_le repo patternID := (h.successes_le repo patternID).trans (h'.successes_le repo patternID)
  affinity_le key := (h.affinity_le key).trans (h'.affinity_le key)

theorem of_counts {S : String → ℚ} (h : db.Accumulated) (hcounts : db'.Counts db.fires S)
    (hS : ∀ repo patternID, db.successes (patternKey repo patternID) ≤ S (patternKey repo patternID))
    (hfloat : ∀ key, (db.float key).getD 0 ≤ (db'.float key).getD 0) : db.Favours db' where
  accumulated := .of_counts hcounts h.fires_nonneg
    (fun repo patternID => (h.successes_nonneg repo patternID).trans (hS repo patternID))
    fun key => (h.affinity_nonneg key).trans (hfloat key)
  fires_eq repo patternID := hcounts.fires_eq repo patternID
  successes_le repo patternID := by
    rw [hcounts.successes_eq]
    exact hS repo patternID
  affinity_le := hfloat

theorem keywordScore_le (hf : db.Favours db') (keywords : List String) (p : Pattern) :
    db.keywordScore keywords p ≤ db'.keywordScore keywords p := by
  refine add_le_add_left (List.sum_le_sum fun kw _ => ?_) _
  exact hf.affinity_le _

/-- **No lower score.** -/
theorem decideScore_le (h : db.Accumulated) (hf : db.Favours db') (repo : String) (keywords : List String)
    (p : Pattern) : db.decideScore repo keywords p ≤ db'.decideScore repo keywords p := by
  unfold AnchorDb.decideScore
  rw [h.getPatternStats_eq, h.getPatternStats_eq, hf.accumulated.getPatternStats_eq,
    hf.accumulated.getPatternStats_eq, hf.fires_eq, hf.fires_eq]
  -- the fires are the same, and a sum that is no smaller has no smaller whole part
  exact score_mono (Int.floor_nonneg.mpr (h.fires_nonneg _ _)) (Int.floor_nonneg.mpr (h.fires_nonneg _ _))
    (Int.floor_nonneg.mpr (h.successes_nonneg _ _)) (Int.floor_nonneg.mpr (h.successes_nonneg _ _)) rfl rfl
    (Int.floor_le_floor (hf.successes_le _ _)) (Int.floor_le_floor (hf.successes_le _ _))
    (h.keywordScore_nonneg keywords p) (hf.keywordScore_le keywords p)

end AnchorDb.Favours

/-- What one command of a reward does. -/
theorem AnchorCmd.Rewards.favours {c : AnchorCmd} (hc : c.Rewards) {db : AnchorDb} (h : db.Accumulated) :
    db.Favours (c.apply db).2 := by
  cases c with
  | hgetall key => exact .refl h
  | hset key field =>
    -- the time of a record is no counter
    obtain ⟨name, v⟩ := field
    obtain rfl : name = "last_seen" := hc
    exact .of_counts h (h.counts.hset_of_ne (by decide) (by decide) key v) (fun _ _ => le_rfl) fun _ => le_rfl
  | hincrbyfloat key field delta =>
    obtain ⟨⟨repo, patternID, rfl⟩, rfl, hdelta⟩ := hc
    rw [apply_hincrbyfloat (h.counts.success repo patternID)]
    exact .of_counts h (h.counts.hset_success _ delta) (fun _ _ => le_raise _ _ hdelta _) fun _ => le_rfl
  | incrbyfloat key delta =>
    have hdelta : 0 ≤ delta := hc
    refine .of_counts h (h.counts.of_hash fun _ _ => rfl) (fun _ _ => le_rfl) fun key' => ?_
    show (db.float key').getD 0 ≤ (Function.update db.float key (some ((db.float key).getD 0 + delta)) key').getD 0
    by_cases hkey : key' = key
    · subst hkey
      rw [Function.update_self, Option.getD_some]
      linarith
    · rw [Function.update_of_ne hkey]

/-- A program that only rewards, whatever of its commands fail. -/
theorem favours_of_issues {α : Type} {p : Prog anchorRedis α} (hp : p.Issues AnchorCmd.Rewards) {db : AnchorDb}
    (h : db.Accumulated) : p.wp (fun _ db' => db.Favours db') db := by
  have hwithin : p.Within fun db db' : AnchorDb => db.Accumulated → db.Favours db' :=
    Issues.within (fun _ h => .refl h)
      (fun _ _ _ hfirst hsecond h => (hfirst h).trans (hsecond (hfirst h).accumulated))
      (fun c hc _ h => AnchorCmd.Rewards.favours hc h) hp
  exact wp_mono (hwithin db) fun _ _ hfavours => hfavours h

theorem incPatternSuccess_rewards (scope patternID : String) {weight : ℚ} (hweight : 0 ≤ weight) (now : ℤ) :
    (incPatternSuccess scope patternID weight now).Issues AnchorCmd.Rewards :=
  incPatternSuccess_issues ⟨⟨scope, patternID, rfl⟩, rfl, hweight⟩ (fun _ => rfl) now

theorem Observation.creditsWith_rewards (obs : Observation) (patternID : String) {weight : ℚ} (hweight : 0 ≤ weight) :
    obs.CreditsWith AnchorCmd.Rewards patternID weight :=
  ⟨fun scope _ => ⟨⟨scope, patternID, rfl⟩, rfl, hweight⟩, fun _ _ _ => rfl, fun _ _ => hweight⟩

/-! ### Every run accumulates -/

/-- What a run of the learner leaves: an accumulated store, and each suffix in a discovered set once. -/
structure LearnerState.Accumulated (s : LearnerState) : Prop where
  db : s.db.Accumulated
  discovered_nodup : ∀ repo, (s.discovered repo).Nodup

theorem AnchorDb.Accumulated.incPatternFire {db : AnchorDb} (h : db.Accumulated) (repo patternID : String) (now : ℤ) :
    (((Anchorlearn.incPatternFire repo patternID now).run db).2).Accumulated := by
  have hcounts := h.counts.incPatternFire repo patternID now
  have hfloat : (((Anchorlearn.incPatternFire repo patternID now).run db).2).float = db.float := by
    unfold Anchorlearn.incPatternFire
    rw [incStat_run (h.counts.fired repo patternID)]
    rfl
  refine .of_counts hcounts (fun r p => ?_) h.successes_nonneg fun key => ?_
  · exact (h.fires_nonneg r p).trans (le_raise _ _ zero_le_one _)
  · rw [hfloat]
    exact h.affinity_nonneg key

theorem fireAll_accumulated (repo : String) (now : ℤ) (candidates : List Candidate) {db : AnchorDb}
    (h : db.Accumulated) : (((fireAll repo now candidates).run db).2).Accumulated := by
  induction candidates generalizing db with
  | nil => exact h
  | cons c cs ih =>
    unfold fireAll
    rw [run_bind, run_bind]
    exact ih ((h.incPatternFire "" c.pattern.id now).incPatternFire repo c.pattern.id now)

namespace LearnerState.Accumulated

variable {s : LearnerState}

theorem recordObservation (h : s.Accumulated) (sh : Shuffle String) (queryID repo query intent : String)
    (candidates : List Candidate) (now : ℤ) :
    (s.recordObservation sh queryID repo query intent candidates now).Accumulated := by
  unfold LearnerState.recordObservation
  split_ifs
  · exact h
  · have hfired := fireAll_accumulated repo now candidates h.db
    refine ⟨.of_counts (hfired.counts.of_hash fun r p => ?_) hfired.fires_nonneg hfired.successes_nonneg
      hfired.affinity_nonneg, h.discovered_nodup⟩
    exact hash_putObservation_pattern ..

theorem noteRecentQuery (h : s.Accumulated) (repo queryID : String) :
    (s.noteRecentQuery repo queryID).Accumulated := by
  unfold LearnerState.noteRecentQuery
  split_ifs
  · exact h
  · exact ⟨h.db, h.discovered_nodup⟩

theorem rewardFeedback (h : s.Accumulated) (queryID : String) (additionalFiles : List String) (success : Bool)
    (now : ℤ) : (((Anchorlearn.rewardFeedback queryID additionalFiles success now).run s.db).2).Accumulated := by
  have hweight : (0 : ℚ) ≤ if success then 1 else 1 / 2 := by
    split_ifs <;> norm_num
  have hissues : (Anchorlearn.rewardFeedback queryID additionalFiles success now).Issues AnchorCmd.Rewards := by
    unfold Anchorlearn.rewardFeedback
    split_ifs
    · exact issues_pure _
    · refine Issues.bind (Issues.bind ⟨trivial, fun _ => trivial⟩ fun _ => issues_pure _) fun obs => ?_
      cases obs with
      | none => exact issues_pure _
      | some obs => exact rewardFiles_issues _ now _ fun p _ => obs.creditsWith_rewards p hweight
  exact (run_of_wp (favours_of_issues hissues h.db)).accumulated

/-- A promotion is a fire, then a reward. -/
theorem discover (h : s.Accumulated) (obs : Observation) {suffix : String} (hnew : suffix ∉ s.discovered obs.repo)
    (now : ℤ) : (s.discover obs suffix now).Accumulated := by
  have hhalf : (0 : ℚ) ≤ 1 / 2 := by norm_num
  have hfired := h.db.incPatternFire obs.repo suffix now
  have hrewards : (do
      incPatternSuccess obs.repo suffix (1 / 2) now
      incKeywordAffinities suffix (1 / 2) obs.keywords : Prog anchorRedis Unit).Issues AnchorCmd.Rewards :=
    Issues.bind (incPatternSuccess_rewards _ _ hhalf now) fun _ => incKeywordAffinities_issues fun _ _ => hhalf
  refine ⟨?_, fun repo => ?_⟩
  · -- behind the fire there are only rewards
    unfold LearnerState.discover
    dsimp only
    rw [run_bind]
    exact (run_of_wp (favours_of_issues hrewards hfired)).accumulated
  · -- the suffix is new to its set
    show (Function.update s.discovered obs.repo (s.discovered obs.repo ++ [suffix]) repo).Nodup
    by_cases hrepo : repo = obs.repo
    · subst hrepo
      rw [Function.update_self]
      exact (h.discovered_nodup _).append (List.nodup_singleton _) (by simpa using hnew)
    · rw [Function.update_of_ne hrepo]
      exact h.discovered_nodup repo

end LearnerState.Accumulated

/-- What is promoted was not known. -/
theorem promotedSuffix_unknown {known : String → Bool} {file suffix : String} {services : List String}
    (h : promotedSuffix known file services = some suffix) : known suffix = false := by
  induction services with
  | nil => exact absurd h (by simp [promotedSuffix])
  | cons svc services ih =>
    unfold promotedSuffix at h
    dsimp only at h
    split_ifs at h with hunder hskip hknown
    · exact ih h
    · obtain rfl := Option.some.inj h
      simpa using hknown
    · exact ih h

/-- The suffix is in no portfolio. -/
theorem LearnerState.isKnownSuffix_eq_false {s : LearnerState} {repo suffix : String}
    (h : s.isKnownSuffix repo suffix = false) : suffix ∉ staticSuffixes ∧ suffix ∉ s.discovered repo := by
  unfold LearnerState.isKnownSuffix at h
  rw [Bool.or_eq_false_iff] at h
  exact ⟨by simpa [staticSuffixes] using h.1, by simpa using h.2⟩

namespace LearnerState.Accumulated

variable {s : LearnerState}

theorem attributeMemorySave (h : s.Accumulated) (obs : Observation) (services : List String) (file : String)
    (now : ℤ) : (s.attributeMemorySave obs services file now).Accumulated := by
  unfold LearnerState.attributeMemorySave
  cases hhit : anchorHit file 0 obs.files obs.patternIDs with
  | some hit =>
    have hissues : (creditPattern obs hit.2 (1 / 2) now).Issues AnchorCmd.Rewards :=
      creditPattern_issues (obs.creditsWith_rewards hit.2 (by norm_num)) now
    exact ⟨(run_of_wp (favours_of_issues hissues h.db)).accumulated, h.discovered_nodup⟩
  | none =>
    dsimp only
    cases hpromoted : promotedSuffix (s.isKnownSuffix obs.repo) file services with
    | none => exact h
    | some suffix =>
      exact h.discover obs (LearnerState.isKnownSuffix_eq_false (promotedSuffix_unknown hpromoted)).2 now

theorem rewardMemorySave (h : s.Accumulated) (repo file : String) (now : ℤ) :
    (s.rewardMemorySave repo file now).Accumulated := by
  unfold LearnerState.rewardMemorySave
  split_ifs
  · exact h
  · exact List.foldlRecOn _ _ h fun s hs o _ => hs.attributeMemorySave o.2.1 o.2.2 file now

/-- **One call.** -/
theorem step (h : s.Accumulated) (c : LearnerCall) : (c.step s).Accumulated := by
  cases c with
  | record sh queryID repo query intent candidates now =>
    exact h.recordObservation sh queryID repo query intent candidates now
  | note repo queryID => exact h.noteRecentQuery repo queryID
  | feedback queryID additionalFiles success now =>
    exact ⟨h.rewardFeedback queryID additionalFiles success now, h.discovered_nodup⟩
  | memorySave repo file now => exact h.rewardMemorySave repo file now

theorem fresh : LearnerState.fresh.Accumulated := by
  have hcounts : AnchorDb.empty.Counts (fun _ => 0) fun _ => 0 := ⟨fun _ _ => rfl, fun _ _ => rfl⟩
  exact ⟨.of_counts hcounts (fun _ _ => le_rfl) (fun _ _ => le_rfl) fun _ => le_rfl, fun _ => List.nodup_nil⟩

/-- **Whole runs.** -/
theorem after (calls : List LearnerCall) : (LearnerState.after calls).Accumulated :=
  List.foldlRecOn calls LearnerCall.step fresh fun _ hs c _ => hs.step c

end LearnerState.Accumulated

/-! ### What `Decide` makes of a state -/

/-- The reads of a state. -/
def LearnerState.reads (s : LearnerState) (h : s.Accumulated) : StoreReads where
  listDiscovered := s.discovered
  listDiscovered_nodup := h.discovered_nodup
  getPatternStats := s.db.getPatternStats
  getKeywordAffinity := s.db.getKeywordAffinity

/-- The score of an anchor that is handed out. -/
theorem decide_score {s : LearnerState} (h : s.Accumulated) {probe : Option Probe} {rng : Rng} {repo query : String}
    {services : List String} {k : ℤ} {c : Candidate}
    (hc : c ∈ (Learner.new 0).decide (s.reads h) probe rng repo query services k) :
    c.score = s.db.decideScore repo (queryKeywords query) c.pattern := by
  rw [Learner.decide_of_epsilon le_rfl] at hc
  split_ifs at hc with hnone
  · exact absurd hc List.not_mem_nil
  · have hmem := List.mem_of_mem_take hc
    rw [(rankByScore_perm _).mem_iff, scoredPool] at hmem
    obtain ⟨c', -, rfl⟩ := List.mem_map.mp hmem
    rfl

/-! ### What a promotion seeds -/

theorem patternKey_right_inj {repo p q : String} : patternKey repo p = patternKey repo q ↔ p = q := by
  unfold patternKey
  split_ifs
  · exact String.append_right_inj _
  · exact String.append_right_inj _

/-- The counters of all repos are those of one repo only when it has no name. -/
theorem patternKey_global {repo p q : String} : patternKey "" p = patternKey repo q ↔ repo = "" ∧ p = q := by
  by_cases hrepo : repo = ""
  · subst hrepo
    rw [patternKey_right_inj, eq_self_iff_true, true_and]
  · refine iff_of_false (fun h => ?_) fun h => hrepo h.1
    have hchars := congrArg String.toList h
    unfold patternKey at hchars
    rw [if_pos rfl, if_neg hrepo] at hchars
    simp at hchars

/-- What is read of a suffix in a repo once a promotion was counted: one fire more, and half a success,
which counts once it fills up a fraction. -/
def AnchorDb.seeded (db : AnchorDb) (repo suffix : String) : PatternStats :=
  ⟨⌊db.fires (patternKey repo suffix)⌋ + 1, ⌊db.successes (patternKey repo suffix) + 1 / 2⌋⟩

/-- What is read of it in all repos. -/
def AnchorDb.seededGlobal (db : AnchorDb) (repo suffix : String) : PatternStats :=
  if repo = "" then db.seeded repo suffix else db.getPatternStats "" suffix

theorem discover_getPatternStats {s : LearnerState} (h : s.Accumulated) (obs : Observation) {suffix : String}
    (hnew : suffix ∉ s.discovered obs.repo) (now : ℤ) (repo p : String) :
    (s.discover obs suffix now).db.getPatternStats repo p =
      if patternKey repo p = patternKey obs.repo suffix then s.db.seeded obs.repo suffix
      else s.db.getPatternStats repo p := by
  have hcounts := (discover_counts h.db.counts obs suffix now).1
  rw [(h.discover obs hnew now).db.getPatternStats_eq, hcounts.fires_eq, hcounts.successes_eq]
  unfold raise
  split_ifs with hkey
  · rw [hkey, Int.floor_add_one]
    rfl
  · rw [add_zero, add_zero, h.db.getPatternStats_eq]

/-- Nothing was counted for the pattern. -/
def AnchorDb.Untried (db : AnchorDb) (repo : String) (p : Pattern) : Prop :=
  db.getPatternStats "" p.id = ⟨0, 0⟩ ∧ db.getPatternStats repo p.id = ⟨0, 0⟩

instance (db : AnchorDb) (repo : String) (p : Pattern) : Decidable (db.Untried repo p) :=
  inferInstanceAs (Decidable (_ ∧ _))

theorem AnchorDb.Untried.decideScore_eq {db : AnchorDb} {repo : String} {p : Pattern} (h : db.Untried repo p)
    (keywords : List String) : db.decideScore repo keywords p =
      1 / 2 * (1 + keywordAffinityWeight * min (db.keywordScore keywords p) keywordAffinityCap) := by
  have hrate : blendedRate ⟨0, 0⟩ ⟨0, 0⟩ = 1 / 2 := by decide +kernel
  unfold AnchorDb.decideScore
  rw [h.1, h.2, score_eq, hrate]

/-- A promotion of the suffix: the file is no anchor, and the suffix is not known. -/
def LearnerState.Promotes (s : LearnerState) (obs : Observation) (services : List String) (file suffix : String) :
    Prop :=
  anchorHit file 0 obs.files obs.patternIDs = none ∧
    promotedSuffix (s.isKnownSuffix obs.repo) file services = some suffix

namespace LearnerState.Promotes

variable {s : LearnerState} {obs : Observation} {services : List String} {file suffix : String}

theorem attributeMemorySave_eq (h : s.Promotes obs services file suffix) (now : ℤ) :
    s.attributeMemorySave obs services file now = s.discover obs suffix now := by
  unfold LearnerState.attributeMemorySave
  rw [h.1]
  dsimp only
  rw [h.2]

theorem not_static (h : s.Promotes obs services file suffix) : suffix ∉ staticSuffixes :=
  (LearnerState.isKnownSuffix_eq_false (promotedSuffix_unknown h.2)).1

theorem not_discovered (h : s.Promotes obs services file suffix) : suffix ∉ s.discovered obs.repo :=
  (LearnerState.isKnownSuffix_eq_false (promotedSuffix_unknown h.2)).2

/-- The static patterns are counted as before. -/
theorem untried_iff (h : s.Promotes obs services file suffix) (hs : s.Accumulated) (now : ℤ) {p : Pattern}
    (hp : p ∈ defaultStaticPatterns) :
    (s.discover obs suffix now).db.Untried obs.repo p ↔ s.db.Untried obs.repo p := by
  -- no counter of a static pattern is one of the suffix
  have hne : p.id ≠ suffix := by
    rintro rfl
    rw [wellNamed_static.id_eq p hp] at h
    exact h.not_static (List.mem_map_of_mem hp)
  unfold AnchorDb.Untried
  rw [discover_getPatternStats hs obs h.not_discovered, discover_getPatternStats hs obs h.not_discovered,
    if_neg fun hkey => hne (patternKey_global.mp hkey).2, if_neg fun hkey => hne (patternKey_right_inj.mp hkey)]

/-- The score of the suffix. -/
theorem decideScore_eq (h : s.Promotes obs services file suffix) (hs : s.Accumulated) (now : ℤ)
    (keywords : List String) :
    (s.discover obs suffix now).db.decideScore obs.repo keywords (discoveredPattern suffix) =
      blendedRate (s.db.seededGlobal obs.repo suffix) (s.db.seeded obs.repo suffix) *
        (1 + keywordAffinityWeight * min ((s.discover obs suffix now).db.keywordScore keywords
          (discoveredPattern suffix)) keywordAffinityCap) := by
  have hid : (discoveredPattern suffix).id = suffix := rfl
  unfold AnchorDb.decideScore AnchorDb.seededGlobal
  rw [hid, discover_getPatternStats hs obs h.not_discovered, discover_getPatternStats hs obs h.not_discovered,
    if_pos rfl, score_eq]
  -- the counters of all repos are written only when the repo has no name
  simp only [patternKey_global, and_true]

end LearnerState.Promotes

/-! ### Positive evidence -/

/-- Positive evidence never hurts: a success credited to a pattern lowers no score of it, by itself or with
the rest of a credit and whatever commands fail, and a suffix that is promoted stands no lower than a static
pattern that was never tried and has the same keyword score. -/
structure EvidenceHelps (s : LearnerState) (obs : Observation) (services : List String) (file : String) (now : ℤ) :
    Prop where
  success_helps : ∀ (scope repo : String) (keywords : List String) (p : Pattern) (weight : ℚ) (now : ℤ), 0 < weight →
    (incPatternSuccess scope p.id weight now).wp
      (fun _ db' => s.db.decideScore repo keywords p ≤ AnchorDb.decideScore db' repo keywords p) s.db
  credit_helps : ∀ (obs : Observation) (repo : String) (keywords : List String) (p : Pattern) (weight : ℚ) (now : ℤ),
    0 < weight → (creditPattern obs p.id weight now).wp
      (fun _ db' => s.db.decideScore repo keywords p ≤ AnchorDb.decideScore db' repo keywords p) s.db
  promotion_leads : ∀ suffix, s.Promotes obs services file suffix →
    ∀ (keywords : List String), ∀ p ∈ defaultStaticPatterns,
      (s.attributeMemorySave obs services file now).db.Untried obs.repo p →
      (s.attributeMemorySave obs services file now).db.keywordScore keywords p =
        (s.attributeMemorySave obs services file now).db.keywordScore keywords (discoveredPattern suffix) →
      (s.attributeMemorySave obs services file now).db.decideScore obs.repo keywords p ≤
        (s.attributeMemorySave obs services file now).db.decideScore obs.repo keywords (discoveredPattern suffix)

/-- The counts of a suffix, with those of its promotion, make up for the fire that is seeded: `r` in the
repo and `g` in all repos. -/
def AnchorDb.Proven (db : AnchorDb) (repo suffix : String) : Prop :=
  let g := db.seededGlobal repo suffix
  let r := db.seeded repo suffix
  7 * min r.firedCount 3 * (r.firedCount - 2 * r.successCount) * (g.firedCount + 2) ≤
    (30 - 7 * min r.firedCount 3) * (2 * g.successCount - g.firedCount) * (r.firedCount + 2)

/-- A suffix that was never counted in the repo needs more than half of its fires elsewhere rewarded. -/
theorem proven_of_unrecorded {db : AnchorDb} {repo suffix : String} (hrepo : repo ≠ "")
    (hfires : db.fires (patternKey repo suffix) = 0) (hsuccesses : db.successes (patternKey repo suffix) = 0) :
    db.Proven repo suffix ↔
      38 * (db.getPatternStats "" suffix).firedCount + 7 ≤ 69 * (db.getPatternStats "" suffix).successCount := by
  have hseeded : db.seeded repo suffix = ⟨1, 0⟩ := by
    have hhalf : ⌊(0 : ℚ) + 1 / 2⌋ = 0 := by decide +kernel
    unfold AnchorDb.seeded
    rw [hfires, hsuccesses, hhalf, Int.floor_zero]
    rfl
  unfold AnchorDb.Proven AnchorDb.seededGlobal
  rw [hseeded, if_neg hrepo]
  have hmin : min (1 : ℤ) 3 = 1 := by decide
  dsimp only
  rw [hmin]
  constructor <;> intro h <;> linarith

theorem AnchorDb.Accumulated.proven_iff {db : AnchorDb} (h : db.Accumulated) (repo suffix : String) :
    db.Proven repo suffix ↔ 1 / 2 ≤ blendedRate (db.seededGlobal repo suffix) (db.seeded repo suffix) := by
  have hrepo : 0 ≤ (db.seeded repo suffix).firedCount :=
    add_nonneg (Int.floor_nonneg.mpr (h.fires_nonneg repo suffix)) zero_le_one
  have hglobal : 0 ≤ (db.seededGlobal repo suffix).firedCount := by
    unfold AnchorDb.seededGlobal
    split_ifs
    · exact hrepo
    · rw [h.getPatternStats_eq]
      exact Int.floor_nonneg.mpr (h.fires_nonneg "" suffix)
  exact (half_le_blendedRate_iff hglobal hrepo).symm

/-- A query without keywords. -/
theorem AnchorDb.keywordScore_nil (db : AnchorDb) (p : Pattern) : db.keywordScore [] p = 0 := by
  have hstatic : staticAffinity [] p = 0 := by
    refine List.sum_eq_zero fun x hx => ?_
    obtain ⟨kw, -, rfl⟩ := List.mem_map.mp hx
    rfl
  unfold AnchorDb.keywordScore
  rw [hstatic, List.map_nil, List.sum_nil, add_zero]

/-- **The promoted suffix and an untried pattern**, at one keyword score. -/
theorem LearnerState.Promotes.leads_iff {s : LearnerState} {obs : Observation} {services : List String}
    {file suffix : String} (hpromotes : s.Promotes obs services file suffix) (h : s.Accumulated) (now : ℤ)
    {keywords : List String} {p : Pattern} (huntried : (s.discover obs suffix now).db.Untried obs.repo p)
    (hkw : (s.discover obs suffix now).db.keywordScore keywords p =
      (s.discover obs suffix now).db.keywordScore keywords (discoveredPattern suffix)) :
    (s.discover obs suffix now).db.decideScore obs.repo keywords p ≤
        (s.discover obs suffix now).db.decideScore obs.repo keywords (discoveredPattern suffix) ↔
      s.db.Proven obs.repo suffix := by
  have hnonneg := (h.discover obs hpromotes.not_discovered now).db.keywordScore_nonneg keywords
    (discoveredPattern suffix)
  rw [huntried.decideScore_eq, hpromotes.decideScore_eq h, hkw, mul_le_mul_iff_left₀ (keywordFactor_pos hnonneg),
    h.db.proven_iff]

instance (db : AnchorDb) (repo suffix : String) : Decidable (db.Proven repo suffix) :=
  inferInstanceAs (Decidable ((_ : ℤ) ≤ _))

/-- The `main.go` of a service is injected for a query. -/
def anchoredOnce : List LearnerCall :=
  [.record (.id String) "q1" "goserving" "where does oscar start" "trace" [mainAnchor] 0, .note "goserving" "q1"]

/-- What is stored of it. -/
def anchoredObservation : Observation := ⟨"goserving", "where does oscar start", ["oscar/main.go"], ["main.go"]⟩

/-- A handler of another service is injected in another repo and rewarded there. -/
def handlerRewarded : List LearnerCall :=
  [.record (.id String) "q0" "goadmin" "where does papa serve" "trace"
      [⟨"papa", "papa/web/handler.go", discoveredPattern "web/handler.go", 1 / 2, false⟩] 0,
    .feedback "q0" ["papa/web/handler.go"] true 0]

end Devrouter.Anchorlearn
