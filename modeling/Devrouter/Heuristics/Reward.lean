import Mathlib.Algebra.Order.Field.Rat
import Mathlib.Algebra.Order.Field.Basic
import Mathlib.Algebra.Order.BigOperators.Group.List
import Mathlib.Tactic.Ring
import Devrouter.Heuristics.Store

/-!
# Rewards

Model of `internal/heuristics/reward.go`: the raw reward of an explicit feedback and the adjusted one,
which is the raw one less the rolling mean of its bucket. `explicitReward` is the documented formula
for the raw reward, on the counts alone; `compute_eq` says that `compute` returns it.

The rolling mean is read by the program `rollingMeanFor` of the store. `rollingMeanFor_run` gives it as
a function of the server's state, `Redis.rollingMean`: the mean raw reward of the newest rows of the
bucket.
-/

open Prog

namespace Devrouter

variable {F : Type}

/-- The weight of explicit feedback. -/
def explicitWeight : ℚ := 1

/-- A non-empty path of `a` is in `b`. -/
def hasOverlap (a b : List String) : Bool :=
  if a.isEmpty || b.isEmpty then false
  else
    let set := a.filter (· ≠ "")
    b.any fun y => set.contains y

/-- `Compute`: the raw and the adjusted reward of an explicit feedback. -/
def compute (additionalFiles revisitedFiles promptTokens : Int)
    (trimmedPaths agentReadPaths : List String) (rollingMean : ℚ) : ℚ × ℚ :=
  let raw : ℚ := 1
  let raw := raw - 15 / 100 * additionalFiles
  let raw := raw - 2 / 100000 * promptTokens
  let raw := raw - 5 / 100 * revisitedFiles
  let raw := if hasOverlap trimmedPaths agentReadPaths then raw - 20 / 100 else raw
  let raw := if raw < 0 then 0 else raw
  let raw := if raw > 1 then 1 else raw
  (raw, raw - rollingMean)

/-! ### The raw reward -/

/-- The penalties of a feedback: extra files, prompt tokens, re-reads and a trimmed path the agent had
to read. -/
def penalty (additionalFiles revisitedFiles promptTokens : Int) (overlap : Bool) : ℚ :=
  15 / 100 * additionalFiles + 2 / 100000 * promptTokens + 5 / 100 * revisitedFiles
    + if overlap then 20 / 100 else 0

/-- The documented raw reward: one less the penalties, clipped to `[0, 1]`. -/
def explicitReward (additionalFiles revisitedFiles promptTokens : Int) (overlap : Bool) : ℚ :=
  min 1 (max 0 (1 - penalty additionalFiles revisitedFiles promptTokens overlap))

/-- **`compute` returns the documented reward**, and less the rolling mean. -/
theorem compute_eq (additionalFiles revisitedFiles promptTokens : Int)
    (trimmedPaths agentReadPaths : List String) (rollingMean : ℚ) :
    compute additionalFiles revisitedFiles promptTokens trimmedPaths agentReadPaths rollingMean
      = (let raw := explicitReward additionalFiles revisitedFiles promptTokens
          (hasOverlap trimmedPaths agentReadPaths)
        (raw, raw - rollingMean)) := by
  -- the two comparisons of the source clip the reward to the unit interval
  have hclip : ∀ x : ℚ, (if (if x < 0 then 0 else x) > 1 then 1 else if x < 0 then 0 else x)
      = min 1 (max 0 x) := by
    intro x
    by_cases hx : x < 0
    · rw [if_pos hx, max_eq_left hx.le, min_eq_right zero_le_one]
      exact if_neg (not_lt.mpr zero_le_one)
    · rw [if_neg hx, max_eq_right (not_lt.mp hx)]
      by_cases h1 : x > 1
      · rw [if_pos h1, min_eq_left (le_of_lt h1)]
      · rw [if_neg h1, min_eq_right (not_lt.mp h1)]
  -- the overlap costs a fifth more, which the penalty has in it
  have hsum : (if hasOverlap trimmedPaths agentReadPaths then
        (1 : ℚ) - 15 / 100 * additionalFiles - 2 / 100000 * promptTokens - 5 / 100 * revisitedFiles
          - 20 / 100
      else 1 - 15 / 100 * additionalFiles - 2 / 100000 * promptTokens - 5 / 100 * revisitedFiles)
      = 1 - penalty additionalFiles revisitedFiles promptTokens
          (hasOverlap trimmedPaths agentReadPaths) := by
    unfold penalty
    split_ifs
    · ring
    · ring
  unfold compute explicitReward
  dsimp only
  rw [hsum, hclip]

/-! ### The rolling mean -/

/-- The key of a bucket's reward list of a day. -/
def rewardKeyFor (intent repo topic : String) (day : Int) : String :=
  if isGlobalBucket repo topic then rewardKey intent day
  else bucketRewardKey intent repo topic day

/-- The newest rows of a bucket, newest first. -/
def Redis.recentRows (r : Redis F) (intent repo topic : String) (now : Int) (days limit : Nat) :
    List RewardRow :=
  (((List.range days).map fun i => rewardKeyFor intent repo topic (dayOf now - i)).flatMap
    fun key => (r.rewards key).reverse).take limit

/-- The mean raw reward of the newest rows of two days; 0 when there is none. -/
def Redis.rollingMean (r : Redis F) (intent repo topic : String) (now : Int) (samples : Nat) : ℚ :=
  let rows := r.recentRows intent repo topic now 2 samples
  if rows.isEmpty then 0 else (rows.map (·.rawReward)).sum / rows.length

/-- The loop collects the newest rows up to its limit. -/
theorem collectRewards_run (r : Redis F) (limit : Nat) (keys : List String) (out : List RewardRow)
    (h : out.length ≤ limit) :
    (collectRewards limit keys out).run r
      = ((out ++ keys.flatMap fun key => (r.rewards key).reverse).take limit, r) := by
  induction keys generalizing out with
  | nil =>
    rw [List.flatMap_nil, List.append_nil, List.take_of_length_le h]
    rfl
  | cons key keys ih =>
    unfold collectRewards
    rw [run_bind, Rdb.lrange_run, Option.getD_some, List.flatMap_cons, ← List.append_assoc]
    dsimp only
    by_cases hfull : ((out ++ (r.rewards key).reverse).take limit).length ≥ limit
    · -- the limit is reached: the older lists are not read
      have hle : limit ≤ (out ++ (r.rewards key).reverse).length :=
        hfull.trans (List.length_take_le' _ _)
      rw [if_pos hfull, run_pure, List.take_append_of_le_length hle]
    · have hlt : (out ++ (r.rewards key).reverse).length < limit := by
        rw [List.length_take] at hfull
        omega
      rw [if_neg hfull, ih _ (List.length_take_le _ _), List.take_of_length_le hlt.le]

theorem recentRewardsFor_run (r : Redis F) (intent repo topic : String) (now : Int) (days limit : Nat) :
    (recentRewardsFor intent repo topic now days limit).run r
      = (r.recentRows intent repo topic now days limit, r) :=
  collectRewards_run r limit _ [] (Nat.zero_le _)

theorem rollingMeanFor_run (r : Redis F) (intent repo topic : String) (now : Int)
    (samples : Nat) :
    (rollingMeanFor intent repo topic now samples).run r
      = (r.rollingMean intent repo topic now samples, r) := by
  unfold rollingMeanFor Redis.rollingMean
  rw [run_bind, recentRewardsFor_run]
  dsimp only
  split_ifs
  · rfl
  · rfl

end Devrouter
