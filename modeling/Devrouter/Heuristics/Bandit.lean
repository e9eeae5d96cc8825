import Devrouter.Heuristics.Store

/-!
# The profile bandit

Model of `internal/heuristics/bandit.go`. The bandit's in-memory state is the set of enabled knobs
and one candidate per bucket, under the key `banditKey`. `Bandit.select` reads and writes that state
only. `Bandit.update` and `Bandit.resetIntent` also talk to Redis: they are programs that return the
bandit they leave. The random numbers a call draws are an argument (`Draws`), and so is the clock.
-/

open Prog

namespace Devrouter

variable {F : Type}

/-- The settings the process reads from its environment, with the ranges it clamps them to. -/
structure Tunables where
  /-- Topics per `(intent, repo)`. -/
  maxTopics : Nat
  /-- Cosine at which a query is absorbed into a topic. -/
  newTopicSim : ℚ
  /-- Samples a bucket needs before it is tuned on its own. -/
  sampleFloor : Int
  topicsEnabled : Bool
  maxTopics_mem : 1 ≤ maxTopics ∧ maxTopics ≤ 256
  newTopicSim_mem : 0 ≤ newTopicSim ∧ newTopicSim ≤ 1
  sampleFloor_mem : 0 ≤ sampleFloor ∧ sampleFloor ≤ 10000

/-- The settings of an empty environment. -/
def Tunables.default : Tunables where
  maxTopics := 32
  newTopicSim := 65 / 100
  sampleFloor := 20
  topicsEnabled := true
  maxTopics_mem := by decide
  newTopicSim_mem := by decide +kernel
  sampleFloor_mem := by decide

/-! ### Constants -/

/-- The perturbation rate. -/
def epsilon : ℚ := 1 / 10
/-- Candidate samples collected before a decision. -/
def promotionWindow : Nat := 20
/-- Base samples required for a decision. -/
def promotionBaseSamples : Nat := 5
/-- The mean lift over base required to promote. -/
def promotionLift : ℚ := 1 / 20
/-- The per-sample reward floor. -/
def rollbackThreshold : ℚ := 3 / 10
/-- Consecutive sub-threshold candidate samples that trigger a rollback. -/
def rollbackStrikes : Nat := 3

/-! ### State -/

/-- A perturbed profile under test, and the samples collected for it and for its base. -/
structure Candidate where
  intent : String
  repo : String
  topic : String
  profile : Profile
  profileID : String
  base : Profile
  baseID : String
  rewards : List ℚ
  baseSamples : List ℚ
  consecBad : Nat
  deriving DecidableEq, Repr

/-- A candidate with no sample yet. -/
def Candidate.fresh (intent repo topic : String) (base cand : Profile) : Candidate where
  intent := intent
  repo := repo
  topic := topic
  profile := cand
  profileID := cand.id
  base := base
  baseID := base.id
  rewards := []
  baseSamples := []
  consecBad := 0

/-- The key of a bucket's candidate. -/
def banditKey (intent repo topic : String) : String := intent ++ "|" ++ repo ++ "|" ++ topic

/-- `strings.HasPrefix`. -/
def hasPrefix (s p : String) : Bool := p.toList.isPrefixOf s.toList

/-- The in-memory state of the bandit. -/
structure Bandit where
  /-- Names of the enabled knobs, in some order of the map. -/
  tunableKnobs : List String
  active : String → Option Candidate

/-- The random numbers of one selection: the exploration draw, the index of the knob among the
enabled ones (`Intn`) and the direction draw. -/
structure Draws where
  explore : ℚ
  knob : Nat
  direction : ℚ

namespace Bandit

/-- A bandit with no candidate under test. -/
def new (tunableKnobs : List String) : Bandit where
  tunableKnobs := tunableKnobs
  active _ := none

def put (b : Bandit) (key : String) (c : Candidate) : Bandit :=
  { b with active := Function.update b.active key (some c) }

def delete (b : Bandit) (key : String) : Bandit :=
  { b with active := Function.update b.active key none }

/-- Drop every candidate whose key starts with `p`. -/
def deletePrefix (b : Bandit) (p : String) : Bandit :=
  { b with active := fun k => if hasPrefix k p then none else b.active k }

@[simp] theorem put_active (b : Bandit) (key : String) (c : Candidate) :
    (b.put key c).active = Function.update b.active key (some c) := rfl

@[simp] theorem delete_active (b : Bandit) (key : String) :
    (b.delete key).active = Function.update b.active key none := rfl

@[simp] theorem put_tunableKnobs (b : Bandit) (key : String) (c : Candidate) :
    (b.put key c).tunableKnobs = b.tunableKnobs := rfl

@[simp] theorem delete_tunableKnobs (b : Bandit) (key : String) :
    (b.delete key).tunableKnobs = b.tunableKnobs := rfl

@[simp] theorem deletePrefix_tunableKnobs (b : Bandit) (p : String) :
    (b.deletePrefix p).tunableKnobs = b.tunableKnobs := rfl

theorem deletePrefix_active (b : Bandit) (p k : String) :
    (b.deletePrefix p).active k = if hasPrefix k p then none else b.active k := rfl

@[simp] theorem delete_put (b : Bandit) (key : String) (c : Candidate) :
    (b.put key c).delete key = b.delete key := by
  simp [put, delete]

/-- A slot that is filled after `put` is the one that was put, or was filled before. -/
theorem active_of_put {b : Bandit} {key k : String} {c c' : Candidate}
    (h : (b.put key c).active k = some c') :
    (k = key ∧ c' = c) ∨ (k ≠ key ∧ b.active k = some c') := by
  by_cases hk : k = key
  · rw [put_active, hk, Function.update_self, Option.some.injEq] at h
    exact .inl ⟨hk, h.symm⟩
  · rw [put_active, Function.update_of_ne hk] at h
    exact .inr ⟨hk, h⟩

/-- A slot that is filled after `delete` is another one, and was filled before. -/
theorem active_of_delete {b : Bandit} {key k : String} {c : Candidate}
    (h : (b.delete key).active k = some c) : k ≠ key ∧ b.active k = some c := by
  by_cases hk : k = key
  · rw [delete_active, hk, Function.update_self] at h
    cases h
  · rw [delete_active, Function.update_of_ne hk] at h
    exact ⟨hk, h⟩

/-- A slot that is filled after `deletePrefix` has another prefix, and was filled before. -/
theorem active_of_deletePrefix {b : Bandit} {pre k : String} {c : Candidate}
    (h : (b.deletePrefix pre).active k = some c) :
    hasPrefix k pre = false ∧ b.active k = some c := by
  rw [deletePrefix_active] at h
  split_ifs at h with hp
  exact ⟨Bool.eq_false_iff.mpr hp, h⟩

/-! ### Selection -/

/-- An enabled knob, by index; the empty name when none is enabled. -/
def pickTunableKnob (b : Bandit) (n : Nat) : String :=
  (b.tunableKnobs[n % b.tunableKnobs.length]?).getD ""

/-- Move one enabled knob by one step and clip. -/
def perturb (b : Bandit) (p : Profile) (d : Draws) : Profile :=
  let knob := b.pickTunableKnob d.knob
  if knob = "" then p
  else
    let delta := if d.direction < 1 / 2 then -1 else 1
    let out := match Knob.ofName? knob with
      | some k => p.bump k delta
      | none => p
    out.clip

/-- `Select`: the profile to use for a query of the bucket, either `base` or a candidate. -/
def select (cfg : Tunables) (b : Bandit) (intent repo topic : String) (base : Profile)
    (bucketSamples : Int) (d : Draws) : Profile × Bandit :=
  if b.tunableKnobs.isEmpty then (base, b)
  -- a topic is served its base until it has enough samples
  else if !isGlobalBucket repo topic && decide (bucketSamples < cfg.sampleFloor) then (base, b)
  else
    let key := banditKey intent repo topic
    match b.active key with
    -- a test under way is served now and then, its base otherwise
    | some c => if d.explore < epsilon then (c.profile, b) else (base, b)
    | none =>
      -- no test under way: exploring opens one, unless the bounds have clipped it back to the base
      if d.explore < epsilon then
        let cand := b.perturb base d
        if cand.id = base.id then (base, b)
        else (cand, b.put key (.fresh intent repo topic base cand))
      else (base, b)

/-! ### Decisions -/

/-- The candidate becomes the live profile. When the write fails it stays under test. -/
def promote (b : Bandit) (key : String) (c : Candidate) (now : Int) : Prog (redis F) Bandit := do
  match ← setCurrentFor .promote c.intent c.repo c.topic c.profile with
  | some _ => return b
  | none =>
    let _ ← appendHistoryFor c.intent c.repo c.topic
      { timestamp := now, kind := .promote, from_ := c.base, to_ := c.profile
        reason := "candidate beat base by >= PromotionLift over PromotionWindow samples" }
    return b.delete key

/-- The candidate is dropped, the base stays. -/
def discard (b : Bandit) (key : String) (c : Candidate) (now : Int) : Prog (redis F) Bandit := do
  let _ ← appendHistoryFor c.intent c.repo c.topic
    { timestamp := now, kind := .discard, from_ := c.profile, to_ := c.base
      reason := "candidate did not beat base over window" }
  return b.delete key

/-- The candidate is dropped and the frozen default becomes the live profile. -/
def rollback (b : Bandit) (key : String) (c : Candidate) (reason : String) (now : Int) :
    Prog (redis F) Bandit := do
  let (d, err) ← loadDefault c.intent
  let d := if err.isSome then Profile.default c.intent else d
  let _ ← setCurrentFor .rollback c.intent c.repo c.topic d
  let _ ← appendHistoryFor c.intent c.repo c.topic
    { timestamp := now, kind := .rollback, from_ := c.profile, to_ := d, reason }
  return b.delete key

def mean (xs : List ℚ) : ℚ := if xs.isEmpty then 0 else xs.sum / xs.length

/-- The decision at the end of `Update`, once the window is full. -/
def checkPromotion (b : Bandit) (key : String) (c : Candidate) (now : Int) :
    Prog (redis F) Bandit :=
  if c.rewards.length ≥ promotionWindow ∧ c.baseSamples.length ≥ promotionBaseSamples then
    if mean c.rewards > mean c.baseSamples + promotionLift then b.promote key c now
    else b.discard key c now
  else return b

def strikeReason : String := "3-strike rollback (candidate underperforming)"

/-- `Update`: record a reward for the candidate or the base of a bucket, and decide. -/
def update (b : Bandit) (intent repo topic profileID : String) (adjustedReward weight : ℚ)
    (now : Int) : Prog (redis F) Bandit :=
  let key := banditKey intent repo topic
  match b.active key with
  | none => return b
  | some c =>
    let weighted := adjustedReward * weight
    if profileID = c.profileID then
      let c := { c with rewards := c.rewards ++ [weighted] }
      -- the strike test reads the adjusted reward, not the raw one
      if adjustedReward < rollbackThreshold then
        let c := { c with consecBad := c.consecBad + 1 }
        if c.consecBad ≥ rollbackStrikes then (b.put key c).rollback key c strikeReason now
        else (b.put key c).checkPromotion key c now
      else
        let c := { c with consecBad := 0 }
        (b.put key c).checkPromotion key c now
    else if profileID = c.baseID then
      let c := { c with baseSamples := c.baseSamples ++ [weighted] }
      (b.put key c).checkPromotion key c now
    -- a stale profile
    else return b

/-- The zero profile of a `HistoryEntry` without a `From`. -/
def zeroProfile : Profile := Profile.ofKnobs fun _ => 0

/-- `ResetIntent`: the frozen default becomes the live profile of the intent, and its candidates are
dropped. No bucket key is touched. -/
def resetIntent (b : Bandit) (intent : String) (now : Int) :
    Prog (redis F) (Option StoreErr × Bandit) := do
  let (d, err) ← loadDefault intent
  let d := if err.isSome then Profile.default intent else d
  match ← setCurrent .resetIntent intent d with
  | some e => return (some e, b)
  | none =>
    let _ ← appendHistory intent
      { timestamp := now, kind := .rollback, from_ := zeroProfile, to_ := d
        reason := "manual reset via dev_heuristics_reset" }
    return (none, b.deletePrefix (intent ++ "|"))

/-! ### What a selection can do -/

/-- **Selection.** A selection serves the base and changes nothing, serves the candidate under test,
or puts a perturbation of the base under test and serves it. -/
theorem select_cases (cfg : Tunables) (b : Bandit) (intent repo topic : String) (base : Profile)
    (n : Int) (d : Draws) :
    b.select cfg intent repo topic base n d = (base, b) ∨
    (∃ c, b.active (banditKey intent repo topic) = some c ∧
      b.select cfg intent repo topic base n d = (c.profile, b)) ∨
    (b.active (banditKey intent repo topic) = none ∧ (b.perturb base d).id ≠ base.id ∧
      b.select cfg intent repo topic base n d
        = (b.perturb base d, b.put (banditKey intent repo topic)
            (.fresh intent repo topic base (b.perturb base d)))) := by
  unfold select
  by_cases hk : b.tunableKnobs.isEmpty
  · left; rw [if_pos hk]
  -- below the sample floor a topic's bucket serves the base
  by_cases hf : (!isGlobalBucket repo topic && decide (n < cfg.sampleFloor)) = true
  · left; rw [if_neg hk, if_pos hf]
  rw [if_neg hk, if_neg hf]
  cases ha : b.active (banditKey intent repo topic) with
  | some c =>
    -- a test is under way: its candidate is served or the base
    by_cases he : d.explore < epsilon
    · right; left
      exact ⟨c, rfl, by simp [ha, he]⟩
    · left
      simp [ha, he]
  | none =>
    -- no test: exploring, a perturbed profile opens one unless it is the base itself
    by_cases he : d.explore < epsilon
    · by_cases hid : (b.perturb base d).id = base.id
      · left
        simp [ha, he, hid]
      · right; right
        exact ⟨rfl, hid, by simp [ha, he, hid]⟩
    · left
      simp [ha, he]

/-- A selection enables no knob. -/
@[simp] theorem select_tunableKnobs (cfg : Tunables) (b : Bandit) (intent repo topic : String)
    (base : Profile) (n : Int) (d : Draws) :
    (b.select cfg intent repo topic base n d).2.tunableKnobs = b.tunableKnobs := by
  rcases b.select_cases cfg intent repo topic base n d with hs | ⟨c, -, hs⟩ | ⟨-, -, hs⟩
  · rw [hs]
  · rw [hs]
  · rw [hs, put_tunableKnobs]

/-- A selection concerns the slot of its bucket alone. -/
theorem select_active_ne (cfg : Tunables) (b : Bandit) {intent repo topic : String}
    (base : Profile) (n : Int) (d : Draws) {key : String} (h : key ≠ banditKey intent repo topic) :
    (b.select cfg intent repo topic base n d).2.active key = b.active key := by
  rcases b.select_cases cfg intent repo topic base n d with hs | ⟨c, -, hs⟩ | ⟨-, -, hs⟩
  · rw [hs]
  · rw [hs]
  · rw [hs, put_active, Function.update_of_ne h]

/-- A selection reads of the bandit the enabled knobs and the slot of its bucket. -/
theorem select_congr (cfg : Tunables) {b b' : Bandit} {intent repo topic : String}
    (hk : b.tunableKnobs = b'.tunableKnobs)
    (ha : b.active (banditKey intent repo topic) = b'.active (banditKey intent repo topic))
    (base : Profile) (n : Int) (d : Draws) :
    (b.select cfg intent repo topic base n d).1 = (b'.select cfg intent repo topic base n d).1 ∧
    (b.select cfg intent repo topic base n d).2.active (banditKey intent repo topic)
      = (b'.select cfg intent repo topic base n d).2.active (banditKey intent repo topic) := by
  -- the perturbation depends on the knobs that may be tuned, and these are the same
  have hperturb : b.perturb base d = b'.perturb base d := by
    unfold perturb pickTunableKnob
    rw [hk]
  unfold select
  dsimp only
  rw [← hk, ← ha, ← hperturb]
  cases hc : b.active (banditKey intent repo topic) with
  | some c =>
    dsimp only
    split_ifs
    all_goals exact ⟨rfl, ha⟩
  | none =>
    dsimp only
    split_ifs
    · exact ⟨rfl, ha⟩
    · exact ⟨rfl, ha⟩
    · exact ⟨rfl, ha⟩
    · exact ⟨rfl, by rw [put_active, put_active, Function.update_self, Function.update_self]⟩
    · exact ⟨rfl, ha⟩

/-- A bucket below the sample floor is served the base, and nothing else happens. -/
theorem select_cold (cfg : Tunables) (b : Bandit) {intent repo topic : String} {base : Profile}
    {n : Int} {d : Draws} (hg : isGlobalBucket repo topic = false) (hn : n < cfg.sampleFloor) :
    b.select cfg intent repo topic base n d = (base, b) := by
  unfold select
  simp [hg, hn]

/-- Perturbing a profile within its bounds leaves it or moves one knob by one. -/
theorem perturb_eq_or_step (b : Bandit) {p : Profile} (hp : p.InBounds) (d : Draws) :
    b.perturb p d = p ∨ Profile.OneKnobStep p (b.perturb p d) := by
  unfold perturb
  by_cases hk : b.pickTunableKnob d.knob = ""
  · left
    simp [hk]
  · simp only [hk, if_false]
    cases Knob.ofName? (b.pickTunableKnob d.knob) with
    | none => exact Or.inl hp.clip_eq
    | some k =>
      have hd : (if d.direction < 1 / 2 then (-1 : Int) else 1) = 1 ∨
          (if d.direction < 1 / 2 then (-1 : Int) else 1) = -1 := by
        split
        · exact Or.inr rfl
        · exact Or.inl rfl
      exact hp.clip_bump k hd

theorem perturb_inBounds (b : Bandit) {p : Profile} (hp : p.InBounds) (d : Draws) :
    (b.perturb p d).InBounds := by
  unfold perturb
  by_cases hk : b.pickTunableKnob d.knob = ""
  · simpa [hk] using hp
  · simp only [hk, if_false]
    exact Profile.clip_inBounds _

end Bandit

/-! ### The verdict of an update

`Bandit.update` decides from the candidate and the sample alone what happens to the candidate. That
decision is `Candidate.judge`; `Bandit.update_eq` says that `update` carries it out. -/

/-- What an update does with the candidate of its bucket. -/
inductive Verdict where
  /-- The sample is neither the candidate's nor its base's. -/
  | stale
  /-- The sample is recorded and the candidate stays under test. -/
  | keep (c : Candidate)
  | promote (c : Candidate)
  | discard (c : Candidate)
  | rollback (c : Candidate)

namespace Candidate

/-- Enough samples for a decision. -/
def WindowFull (c : Candidate) : Prop :=
  c.rewards.length ≥ promotionWindow ∧ c.baseSamples.length ≥ promotionBaseSamples

instance (c : Candidate) : Decidable c.WindowFull := inferInstanceAs (Decidable (_ ∧ _))

/-- The decision on a recorded sample, once the window is full. -/
def close (c : Candidate) : Verdict :=
  if c.WindowFull then
    if Bandit.mean c.rewards > Bandit.mean c.baseSamples + promotionLift then .promote c
    else .discard c
  else .keep c

/-- The candidate with one more sample of its own. -/
def record (c : Candidate) (adjustedReward weight : ℚ) : Candidate :=
  { c with
    rewards := c.rewards ++ [adjustedReward * weight]
    consecBad := if adjustedReward < rollbackThreshold then c.consecBad + 1 else 0 }

/-- The candidate with one more sample of its base. -/
def recordBase (c : Candidate) (adjustedReward weight : ℚ) : Candidate :=
  { c with baseSamples := c.baseSamples ++ [adjustedReward * weight] }

/-- The decision on a sample. -/
def judge (c : Candidate) (profileID : String) (adjustedReward weight : ℚ) : Verdict :=
  if profileID = c.profileID then
    if (c.record adjustedReward weight).consecBad ≥ rollbackStrikes then
      .rollback (c.record adjustedReward weight)
    else (c.record adjustedReward weight).close
  else if profileID = c.baseID then (c.recordBase adjustedReward weight).close
  else .stale

/-- Two candidates for one test: they differ in the samples alone. -/
structure SameTest (c c' : Candidate) : Prop where
  intent : c'.intent = c.intent
  repo : c'.repo = c.repo
  topic : c'.topic = c.topic
  profile : c'.profile = c.profile
  profileID : c'.profileID = c.profileID
  base : c'.base = c.base
  baseID : c'.baseID = c.baseID

theorem sameTest_record (c : Candidate) (adjusted weight : ℚ) :
    c.SameTest (c.record adjusted weight) := ⟨rfl, rfl, rfl, rfl, rfl, rfl, rfl⟩

theorem sameTest_recordBase (c : Candidate) (adjusted weight : ℚ) :
    c.SameTest (c.recordBase adjusted weight) := ⟨rfl, rfl, rfl, rfl, rfl, rfl, rfl⟩

theorem close_cases (c : Candidate) :
    (c.close = .keep c ∧ ¬ c.WindowFull) ∨ c.close = .promote c ∨ c.close = .discard c := by
  unfold close
  by_cases hw : c.WindowFull
  · rw [if_pos hw]
    split_ifs
    · exact .inr (.inl rfl)
    · exact .inr (.inr rfl)
  · rw [if_neg hw]
    exact .inl ⟨rfl, hw⟩

/-- **What a sample can lead to.** It is ignored, or it is recorded, and the recorded candidate is
kept, promoted, discarded or rolled back. One that is kept has neither a full window nor, if it had
fewer than `rollbackStrikes` strikes before, as many now. -/
theorem judge_cases (c : Candidate) (profileID : String) (adjusted weight : ℚ) :
    c.judge profileID adjusted weight = .stale ∨
    ∃ c', c.SameTest c' ∧
      ((c.judge profileID adjusted weight = .keep c' ∧ ¬ c'.WindowFull ∧
          (c.consecBad < rollbackStrikes → c'.consecBad < rollbackStrikes)) ∨
        c.judge profileID adjusted weight = .promote c' ∨
        c.judge profileID adjusted weight = .discard c' ∨
        c.judge profileID adjusted weight = .rollback c') := by
  unfold judge
  -- the reward is the candidate's, and may be its last strike
  by_cases hp : profileID = c.profileID
  · right
    refine ⟨c.record adjusted weight, c.sameTest_record adjusted weight, ?_⟩
    rw [if_pos hp]
    by_cases hs : (c.record adjusted weight).consecBad ≥ rollbackStrikes
    · rw [if_pos hs]
      exact .inr (.inr (.inr rfl))
    · rw [if_neg hs]
      rcases (c.record adjusted weight).close_cases with ⟨hk, hw⟩ | hk | hk
      · exact .inl ⟨hk, hw, fun _ => Nat.lt_of_not_ge hs⟩
      · exact .inr (.inl hk)
      · exact .inr (.inr (.inl hk))
  · -- the reward is the base's, and only fills the window
    by_cases hb : profileID = c.baseID
    · right
      refine ⟨c.recordBase adjusted weight, c.sameTest_recordBase adjusted weight, ?_⟩
      rw [if_neg hp, if_pos hb]
      rcases (c.recordBase adjusted weight).close_cases with ⟨hk, hw⟩ | hk | hk
      · exact .inl ⟨hk, hw, fun h => h⟩
      · exact .inr (.inl hk)
      · exact .inr (.inr (.inl hk))
    · -- the reward is of a profile that is no longer tested
      left
      rw [if_neg hp, if_neg hb]

end Candidate

namespace Bandit

/-- `update` without a candidate in the bucket. -/
theorem update_none (b : Bandit) {intent repo topic : String} (profileID : String)
    (adjusted weight : ℚ) (now : Int) (h : b.active (banditKey intent repo topic) = none) :
    b.update (F := F) intent repo topic profileID adjusted weight now = return b := by
  unfold update
  simp only [h]

/-- Carrying out a verdict. -/
def carryOut (b : Bandit) (key : String) (now : Int) : Verdict → Prog (redis F) Bandit
  | .stale => return b
  | .keep c => return b.put key c
  | .promote c => (b.put key c).promote key c now
  | .discard c => (b.put key c).discard key c now
  | .rollback c => (b.put key c).rollback key c strikeReason now

theorem checkPromotion_eq (b : Bandit) (key : String) (c : Candidate) (now : Int) :
    (b.put key c).checkPromotion (F := F) key c now = b.carryOut key now c.close := by
  unfold checkPromotion Candidate.close
  by_cases hw : c.WindowFull
  · have hw' : c.rewards.length ≥ promotionWindow ∧ c.baseSamples.length ≥ promotionBaseSamples := hw
    rw [if_pos hw, if_pos hw']
    split
    · rfl
    · rfl
  · have hw' : ¬ (c.rewards.length ≥ promotionWindow ∧
        c.baseSamples.length ≥ promotionBaseSamples) := hw
    rw [if_neg hw, if_neg hw']
    rfl

/-- **`update` carries out the verdict** on the candidate of the bucket. -/
theorem update_eq (b : Bandit) {intent repo topic : String} (profileID : String)
    (adjusted weight : ℚ) (now : Int) {c : Candidate}
    (h : b.active (banditKey intent repo topic) = some c) :
    b.update (F := F) intent repo topic profileID adjusted weight now
      = b.carryOut (banditKey intent repo topic) now (c.judge profileID adjusted weight) := by
  unfold update Candidate.judge
  simp only [h]
  by_cases hp : profileID = c.profileID
  · by_cases ha : adjusted < rollbackThreshold
    · by_cases hs : c.consecBad + 1 ≥ rollbackStrikes
      · simp [hp, ha, hs, Candidate.record, carryOut]
      · simp [hp, ha, hs, Candidate.record, checkPromotion_eq]
    · simp [hp, ha, Candidate.record, checkPromotion_eq, rollbackStrikes]
  · by_cases hb : profileID = c.baseID
    · simp only [if_neg hp, if_pos hb, checkPromotion_eq]
      rfl
    · simp [hp, hb, carryOut]

/-! ### What an update issues -/

section Admitted

variable {P : Cmd F → Prop} (hP : Cmd.Admitted P)
include hP

theorem carryOut_issues (b : Bandit) (key : String) (now : Int) (v : Verdict) :
    (b.carryOut key now v).Issues P := by
  cases v with
  | stale => exact issues_pure _
  | keep c => exact issues_pure _
  | promote c =>
    refine (setCurrentFor_issues hP _ _ _ _ _).bind fun e => ?_
    cases e with
    | some e => exact issues_pure _
    | none => exact (appendHistoryFor_issues hP _ _ _ _).bind fun _ => issues_pure _
  | discard c => exact (appendHistoryFor_issues hP _ _ _ _).bind fun _ => issues_pure _
  | rollback c =>
    refine (loadDefault_issues hP _).bind fun de => ?_
    refine (setCurrentFor_issues hP _ _ _ _ _).bind fun _ => ?_
    exact (appendHistoryFor_issues hP _ _ _ _).bind fun _ => issues_pure _

theorem update_issues (b : Bandit) (intent repo topic profileID : String) (adjusted weight : ℚ)
    (now : Int) : (b.update intent repo topic profileID adjusted weight now).Issues P := by
  cases h : b.active (banditKey intent repo topic) with
  | none =>
    rw [update_none b profileID adjusted weight now h]
    exact issues_pure _
  | some c =>
    rw [update_eq b profileID adjusted weight now h]
    exact carryOut_issues hP b _ now _

theorem resetIntent_issues (b : Bandit) (intent : String) (now : Int) :
    (b.resetIntent intent now).Issues P := by
  refine (loadDefault_issues hP _).bind fun de => ?_
  refine (setCurrent_issues hP _ _ _).bind fun e => ?_
  cases e with
  | some e => exact issues_pure _
  | none => exact (appendHistory_issues hP _ _).bind fun _ => issues_pure _

end Admitted

/-! ### The sequential run of an update -/

/-- The history entry of a promotion. -/
def promoteEntry (c : Candidate) (now : Int) : HistoryEntry where
  timestamp := now
  kind := .promote
  from_ := c.base
  to_ := c.profile
  reason := "candidate beat base by >= PromotionLift over PromotionWindow samples"

/-- The history entry of a discarded candidate. -/
def discardEntry (c : Candidate) (now : Int) : HistoryEntry where
  timestamp := now
  kind := .discard
  from_ := c.profile
  to_ := c.base
  reason := "candidate did not beat base over window"

/-- The history entry of a rollback to `d`. -/
def rollbackEntry (c : Candidate) (d : Profile) (now : Int) : HistoryEntry where
  timestamp := now
  kind := .rollback
  from_ := c.profile
  to_ := d
  reason := strikeReason

/-- The key of the live profile of a candidate's bucket. -/
def liveKey (c : Candidate) : String := currentKeyFor c.intent c.repo c.topic

/-- The key of the history of a candidate's bucket. -/
def logKey (c : Candidate) : String := historyKeyFor c.intent c.repo c.topic

/-- The bandit and the server after a verdict is carried out without failure. -/
def afterVerdict (b : Bandit) (r : Redis F) (key : String) (now : Int) : Verdict → Bandit × Redis F
  | .stale => (b, r)
  | .keep c => (b.put key c, r)
  | .promote c =>
    (b.delete key, (r.setStr (liveKey c) c.profile.clip).pushHistory (logKey c) (promoteEntry c now))
  | .discard c => (b.delete key, r.pushHistory (logKey c) (discardEntry c now))
  | .rollback c =>
    (b.delete key,
      (r.setStr (liveKey c) (r.frozenDefault c.intent)).pushHistory (logKey c)
        (rollbackEntry c (r.frozenDefault c.intent) now))

/-- A verdict concerns the slot of its bucket alone. -/
theorem afterVerdict_active_ne (b : Bandit) (r : Redis F) {key key' : String} (now : Int)
    (v : Verdict) (h : key' ≠ key) : (b.afterVerdict r key now v).1.active key' = b.active key' := by
  cases v with
  | stale => rfl
  | keep c => exact Function.update_of_ne h _ _
  | promote c => exact Function.update_of_ne h _ _
  | discard c => exact Function.update_of_ne h _ _
  | rollback c => exact Function.update_of_ne h _ _

/-- What a verdict leaves in the slot depends on the verdict and what was there. -/
theorem afterVerdict_active_congr {b b' : Bandit} (r r' : Redis F) {key : String} (now : Int)
    (v : Verdict) (h : b.active key = b'.active key) :
    (b.afterVerdict r key now v).1.active key = (b'.afterVerdict r' key now v).1.active key := by
  cases v with
  | stale => exact h
  | keep c => simp [afterVerdict]
  | promote c => simp [afterVerdict]
  | discard c => simp [afterVerdict]
  | rollback c => simp [afterVerdict]

@[simp] theorem afterVerdict_tunableKnobs (b : Bandit) (r : Redis F) (key : String) (now : Int)
    (v : Verdict) : (b.afterVerdict r key now v).1.tunableKnobs = b.tunableKnobs := by
  cases v <;> rfl

@[simp] theorem afterVerdict_topics (b : Bandit) (r : Redis F) (key : String) (now : Int)
    (v : Verdict) : (b.afterVerdict r key now v).2.topics = r.topics := by
  cases v <;> rfl

theorem carryOut_run (b : Bandit) (r : Redis F) (key : String) (now : Int) (v : Verdict) :
    (b.carryOut key now v).run r = b.afterVerdict r key now v := by
  cases v with
  | stale => rfl
  | keep c => rfl
  | promote c =>
    simp [carryOut, promote, afterVerdict, setCurrentFor_run, appendHistoryFor_run, promoteEntry,
      liveKey, logKey]
  | discard c =>
    simp [carryOut, discard, afterVerdict, appendHistoryFor_run, discardEntry, logKey]
  | rollback c =>
    obtain ⟨err, hl, hd, -⟩ := loadDefault_run r c.intent
    have hclip : (r.frozenDefault c.intent).clip = r.frozenDefault c.intent :=
      (r.frozenDefault_inBounds c.intent).clip_eq
    simp [carryOut, rollback, afterVerdict, hl, hd, hclip, setCurrentFor_run, appendHistoryFor_run,
      rollbackEntry, liveKey, logKey]

/-- **The run of `update`**: nothing without a candidate in the bucket, else the verdict carried
out. -/
theorem update_run (b : Bandit) (r : Redis F) (intent repo topic profileID : String)
    (adjusted weight : ℚ) (now : Int) :
    (b.update intent repo topic profileID adjusted weight now).run r
      = match b.active (banditKey intent repo topic) with
        | none => (b, r)
        | some c => b.afterVerdict r (banditKey intent repo topic) now
            (c.judge profileID adjusted weight) := by
  cases h : b.active (banditKey intent repo topic) with
  | none => simp [update_none b profileID adjusted weight now h]
  | some c => rw [update_eq b profileID adjusted weight now h, carryOut_run]

/-- The history entry of a manual reset. -/
def resetEntry (d : Profile) (now : Int) : HistoryEntry where
  timestamp := now
  kind := .rollback
  from_ := zeroProfile
  to_ := d
  reason := "manual reset via dev_heuristics_reset"

/-- **The run of `resetIntent`**: two writes to the keys of the intent itself. -/
theorem resetIntent_run (b : Bandit) (r : Redis F) (intent : String) (now : Int) :
    (b.resetIntent intent now).run r
      = ((none, b.deletePrefix (intent ++ "|")),
        (r.setStr (currentKey intent) (r.frozenDefault intent)).pushHistory (historyKey intent)
          (resetEntry (r.frozenDefault intent) now)) := by
  obtain ⟨err, hl, hd, -⟩ := loadDefault_run r intent
  have hclip : (r.frozenDefault intent).clip = r.frozenDefault intent :=
    (r.frozenDefault_inBounds intent).clip_eq
  simp [resetIntent, hl, hd, hclip, appendHistory_run, resetEntry]

end Bandit

end Devrouter
