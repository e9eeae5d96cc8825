import Devrouter.Heuristics.Buckets
import Devrouter.Heuristics.Topics

/-!
# The picker: one process of the heuristics package

Model of `internal/heuristics/picker.go`. The picker routes a query or a reward to a bucket of the
bandit. `Op` lists the operations of one process; `Process.step` runs one of them to its end, with
every Redis command succeeding. Intents and topic ids are `Name`s in an operation, as the router
passes them; only the intent of a reset is any string, since it comes from the caller of the
`dev_heuristics_reset` tool.

The state after each operation is given in closed form (`Process.exec_pick` and so on): a query is a
selection on its bucket (`Process.selected`) or, below the sample floor, a plain read of the
intent-global profile (`Process.read`); a reward is the verdict on the bucket's candidate
(`Process.rewarded`); a reset is two writes to the intent's own keys (`Process.wiped`); a resolve
changes the registry alone (`Process.retopic`). `Process.step_cases` collects them. The results about
runs of one process are proved from these and do not look at the programs again.
-/

open Prog

namespace Devrouter

variable {F : Type} [Field F] [LinearOrder F] (sqrt : F → F)

/-- The in-memory state of the picker. -/
structure Picker where
  bandit : Bandit
  /-- Rewards do not reach the bandit. -/
  frozen : Bool

/-- What a query is served: the profile, its id, and whether it is the bucket's own. -/
structure Served where
  profileID : String
  profile : Profile
  fromTopic : Bool
  deriving DecidableEq, Repr

namespace Picker

/-- Serve a profile. -/
def serve (p : Profile) (fromTopic : Bool) : Served := ⟨p.id, p, fromTopic⟩

/-- `Pick`: the profile for a query on the intent-global surface. -/
def pick (cfg : Tunables) (p : Picker) (intent : String) (d : Draws) :
    Prog (redis F) (Served × Picker) := do
  let (base, err) ← currentProfile intent
  if err.isSome then
    return (serve (Profile.default intent) false, p)
  else
    let (chosen, b) := p.bandit.select cfg intent "" intentGlobalTopic base 0 d
    return (serve chosen false, { p with bandit := b })

/-- `Update`: a reward on the intent-global surface. -/
def update (p : Picker) (intent profileID : String) (adjustedReward weight : ℚ) (now : Int) :
    Prog (redis F) Picker :=
  if p.frozen then return p
  else do
    let b ← p.bandit.update intent "" intentGlobalTopic profileID adjustedReward weight now
    return { p with bandit := b }

/-- `PickWithTopic`: the profile for a query of a bucket. A bucket below the sample floor is served
the intent-global profile. -/
def pickWithTopic (cfg : Tunables) (p : Picker) (intent repo topic : String)
    (sh : Shuffle (TopicField F)) (d : Draws) : Prog (redis F) (Served × Picker) :=
  if isGlobalBucket repo topic then p.pick cfg intent d
  else do
    let n ← samples sqrt cfg intent repo topic sh
    -- a cold topic is served from the intent's profile, and marked as such
    if n < cfg.sampleFloor then
      let (base, err) ← currentProfile intent
      if err.isSome then
        return (serve (Profile.default intent) false, p)
      else
        let (chosen, b) := p.bandit.select cfg intent repo topic base n d
        return (serve chosen false, { p with bandit := b })
    else
      let (base, err) ← currentProfileFor intent repo topic
      if err.isSome then
        return (serve (Profile.default intent) true, p)
      else
        let (chosen, b) := p.bandit.select cfg intent repo topic base n d
        return (serve chosen true, { p with bandit := b })

/-- `UpdateWithTopic`: a reward for a query of a bucket. -/
def updateWithTopic (p : Picker) (intent repo topic profileID : String)
    (adjustedReward weight : ℚ) (now : Int) : Prog (redis F) Picker :=
  if p.frozen then return p
  else if isGlobalBucket repo topic then do
    let b ← p.bandit.update intent "" intentGlobalTopic profileID adjustedReward weight now
    return { p with bandit := b }
  else do
    let b ← p.bandit.update intent repo topic profileID adjustedReward weight now
    return { p with bandit := b }

/-- `Reset`: reset an intent, also when frozen, and return the default that was reinstated. -/
def reset (p : Picker) (intent : String) (now : Int) :
    Prog (redis F) ((Profile × Option StoreErr) × Picker) := do
  let (err, b) ← p.bandit.resetIntent intent now
  match err with
  | some e => return ((Profile.default intent, some e), { p with bandit := b })
  | none =>
    let (d, err) ← loadDefault intent
    match err with
    | some e => return ((Profile.default intent, some e), { p with bandit := b })
    | none => return ((d, none), { p with bandit := b })

end Picker

/-- The intents seeded at startup. -/
def knownIntents : List String := ["debug", "explore", "trace", "refactor", "general"]

/-- `warmDefaults`: seed every known intent; errors are logged and dropped. -/
def warmDefaults : List String → Prog (redis F) Unit
  | [] => return ()
  | intent :: intents => do
    let _ ← currentProfile intent
    warmDefaults intents

/-! ### Operations of one process -/

/-- The operations, with their random numbers and clock readings. -/
inductive Op (F : Type) where
  | pick (intent : Name) (d : Draws)
  | pickWithTopic (intent : Name) (repo : String) (topic : Name) (sh : Shuffle (TopicField F))
      (d : Draws)
  | update (intent : Name) (profileID : String) (adjustedReward weight : ℚ) (now : Int)
  | updateWithTopic (intent : Name) (repo : String) (topic : Name) (profileID : String)
      (adjustedReward weight : ℚ) (now : Int)
  | reset (intent : String) (now : Int)
  | resolve (intent : Name) (repo : String) (embed : List F) (queryText : String)
      (sh : Shuffle (TopicField F)) (now : Int)

/-- What an operation returns. -/
inductive Out where
  | served (s : Served)
  | updated
  | reset (d : Profile) (err : Option StoreErr)
  | topic (id label : String)
  deriving DecidableEq, Repr

/-- A reward, at the bucket it is routed to. -/
structure Reward where
  bucket : Bucket
  profileID : String
  adjusted : ℚ
  weight : ℚ
  now : Int

/-- The reward an operation feeds back. -/
def Op.reward : Op F → Option Reward
  | .update intent profileID adjusted weight now =>
    some ⟨.global intent, profileID, adjusted, weight, now⟩
  | .updateWithTopic intent repo topic profileID adjusted weight now =>
    some ⟨.of intent repo topic, profileID, adjusted, weight, now⟩
  | _ => none

/-- The program of an operation. -/
def Op.prog (cfg : Tunables) (p : Picker) : Op F → Prog (redis F) (Out × Picker)
  | .pick intent d => do
    let (s, p) ← p.pick cfg intent d
    return (.served s, p)
  | .pickWithTopic intent repo topic sh d => do
    let (s, p) ← p.pickWithTopic sqrt cfg intent repo topic sh d
    return (.served s, p)
  | .update intent profileID adjusted weight now => do
    let p ← p.update intent profileID adjusted weight now
    return (.updated, p)
  | .updateWithTopic intent repo topic profileID adjusted weight now => do
    let p ← p.updateWithTopic intent repo topic profileID adjusted weight now
    return (.updated, p)
  | .reset intent now => do
    let ((d, err), p) ← p.reset intent now
    return (.reset d err, p)
  | .resolve intent repo embed queryText sh now => do
    let (id, label) ← Devrouter.resolve sqrt cfg intent repo embed queryText sh now
    return (.topic id label, p)

/-- A process and the server it talks to. -/
structure Process (F : Type) where
  picker : Picker
  redis : Redis F

namespace Process

/-- Run one operation, every command succeeding. -/
def exec (cfg : Tunables) (s : Process F) (op : Op F) : Out × Process F :=
  let res := (op.prog sqrt cfg s.picker).run s.redis
  (res.1.1, ⟨res.1.2, res.2⟩)

/-- The state after one operation. -/
def step (cfg : Tunables) (s : Process F) (op : Op F) : Process F := (s.exec sqrt cfg op).2

/-- The state after a run. -/
def steps (cfg : Tunables) (s : Process F) (ops : List (Op F)) : Process F :=
  ops.foldl (step sqrt cfg) s

/-- What the operations of a run return. -/
def outs (cfg : Tunables) : Process F → List (Op F) → List Out
  | _, [] => []
  | s, op :: ops => (s.exec sqrt cfg op).1 :: outs cfg (s.step sqrt cfg op) ops

/-- A process that starts on the server `r`: the known intents are seeded, no candidate is under
test. -/
def start (tunableKnobs : List String) (frozen : Bool) (r : Redis F) : Process F where
  picker := ⟨Bandit.new tunableKnobs, frozen⟩
  redis := ((warmDefaults knownIntents).run r).2

@[simp] theorem steps_nil (cfg : Tunables) (s : Process F) : s.steps sqrt cfg [] = s := rfl

theorem steps_cons (cfg : Tunables) (s : Process F) (op : Op F) (ops : List (Op F)) :
    s.steps sqrt cfg (op :: ops) = (s.step sqrt cfg op).steps sqrt cfg ops := rfl

theorem steps_append (cfg : Tunables) (s : Process F) (ops ops' : List (Op F)) :
    s.steps sqrt cfg (ops ++ ops') = (s.steps sqrt cfg ops).steps sqrt cfg ops' :=
  List.foldl_append

theorem steps_concat (cfg : Tunables) (s : Process F) (ops : List (Op F)) (op : Op F) :
    s.steps sqrt cfg (ops ++ [op]) = (s.steps sqrt cfg ops).step sqrt cfg op := by
  rw [steps_append]
  rfl

/-- **Invariant rule for one process.** -/
theorem steps_invariant {cfg : Tunables} {I : Process F → Prop}
    (hstep : ∀ s op, I s → I (s.step sqrt cfg op)) {s : Process F} (hs : I s) (ops : List (Op F)) :
    I (s.steps sqrt cfg ops) := by
  induction ops generalizing s with
  | nil => exact hs
  | cons op ops ih => exact ih (hstep s op hs)

/-! ### What each operation does -/

/-- The selection for a query of a bucket: what is served, and the bandit after it. -/
def selection (cfg : Tunables) (s : Process F) (b : Bucket) (n : Int) (d : Draws) :
    Profile × Bandit :=
  s.picker.bandit.select cfg b.intent b.repo b.topic (b.live s.redis) n d

/-- The state after a selection on a bucket. -/
def selected (cfg : Tunables) (s : Process F) (b : Bucket) (n : Int) (d : Draws) : Process F :=
  ⟨{ s.picker with bandit := (s.selection cfg b n d).2 }, b.seed s.redis⟩

/-- The state after the intent-global profile was read. -/
def read (s : Process F) (intent : Name) : Process F := ⟨s.picker, s.redis.seedCurrent intent⟩

/-- The key of the slot a query or a reward is routed to. -/
def slotKey (intent repo topic : String) : String :=
  if isGlobalBucket repo topic then banditKey intent "" intentGlobalTopic
  else banditKey intent repo topic

/-- The state after a reward for the candidate in a slot. -/
def rewardedAt (s : Process F) (key profileID : String) (adjusted weight : ℚ) (now : Int) :
    Process F :=
  if s.picker.frozen then s
  else
    match s.picker.bandit.active key with
    | none => s
    | some c =>
      let v := s.picker.bandit.afterVerdict s.redis key now (c.judge profileID adjusted weight)
      ⟨{ s.picker with bandit := v.1 }, v.2⟩

/-- The state after a reward. -/
def rewarded (s : Process F) (w : Reward) : Process F :=
  s.rewardedAt w.bucket.key w.profileID w.adjusted w.weight w.now

/-- The state after a reset. -/
def wiped (s : Process F) (intent : String) (now : Int) : Process F where
  picker := { s.picker with bandit := s.picker.bandit.deletePrefix (intent ++ "|") }
  redis := (s.redis.setStr (currentKey intent) (s.redis.frozenDefault intent)).pushHistory
    (historyKey intent) (Bandit.resetEntry (s.redis.frozenDefault intent) now)

/-- The state after an entry was written to a registry. -/
def retopic (s : Process F) (key : String) (e : TopicEntry F) : Process F :=
  ⟨s.picker, s.redis.setTopic key e⟩

variable (cfg : Tunables) (s : Process F)

theorem exec_pick (intent : Name) (d : Draws) :
    s.exec sqrt cfg (.pick intent d)
      = (.served (Picker.serve (s.selection cfg (.global intent) 0 d).1 false),
        s.selected cfg (.global intent) 0 d) := by
  simp [exec, Op.prog, Picker.pick, currentProfile_run, selected, selection]

/-- A query of a bucket: the intent-global surface, a bucket below the floor, a bucket above it. -/
theorem exec_pickWithTopic (intent : Name) (repo : String) (topic : Name)
    (sh : Shuffle (TopicField F)) (d : Draws) :
    s.exec sqrt cfg (.pickWithTopic intent repo topic sh d)
      = if isGlobalBucket repo topic then s.exec sqrt cfg (.pick intent d)
        else if s.redis.sampleCount sqrt cfg intent repo topic sh < cfg.sampleFloor then
          (.served (Picker.serve (s.redis.liveGlobal intent) false), s.read intent)
        else
          (.served (Picker.serve (s.selection cfg (.of intent repo topic)
              (s.redis.sampleCount sqrt cfg intent repo topic sh) d).1 true),
            s.selected cfg (.of intent repo topic)
              (s.redis.sampleCount sqrt cfg intent repo topic sh) d) := by
  cases hg : isGlobalBucket repo topic with
  | true => simp [exec, Op.prog, Picker.pickWithTopic, hg]
  | false =>
    by_cases hn : s.redis.sampleCount sqrt cfg intent repo topic sh < cfg.sampleFloor
    · simp [exec, Op.prog, Picker.pickWithTopic, hg, samples_run, hn, currentProfile_run, read,
        Bandit.select_cold cfg s.picker.bandit hg hn]
    · simp [exec, Op.prog, Picker.pickWithTopic, hg, samples_run, hn, currentProfileFor_run,
        selected, selection, Bucket.of_topic hg, Bucket.live, Bucket.seed]

omit [Field F] [LinearOrder F] in
theorem mk_eq {s : Process F} {frozen : Bool} (h : s.picker.frozen = frozen) :
    (⟨⟨s.picker.bandit, frozen⟩, s.redis⟩ : Process F) = s := by
  subst h
  rfl

omit [Field F] [LinearOrder F] in
/-- A reward changes nothing, or it carries out the verdict on the candidate in the slot. -/
theorem rewardedAt_cases (key profileID : String) (adjusted weight : ℚ) (now : Int) :
    s.rewardedAt key profileID adjusted weight now = s ∨
    ∃ c, s.picker.frozen = false ∧ s.picker.bandit.active key = some c ∧
      s.rewardedAt key profileID adjusted weight now
        = ⟨{ s.picker with bandit := (s.picker.bandit.afterVerdict s.redis key now
              (c.judge profileID adjusted weight)).1 },
            (s.picker.bandit.afterVerdict s.redis key now
              (c.judge profileID adjusted weight)).2⟩ := by
  unfold rewardedAt
  cases hf : s.picker.frozen with
  | true => exact .inl rfl
  | false =>
    cases hc : s.picker.bandit.active key with
    | none => exact .inl rfl
    | some c => exact .inr ⟨c, rfl, rfl, rfl⟩

omit [Field F] [LinearOrder F] in
/-- A reward changes nothing, or it carries out the verdict on the candidate of its bucket. -/
theorem rewarded_cases (w : Reward) :
    s.rewarded w = s ∨
    ∃ c, s.picker.frozen = false ∧ s.picker.bandit.active w.bucket.key = some c ∧
      s.rewarded w
        = ⟨{ s.picker with bandit := (s.picker.bandit.afterVerdict s.redis w.bucket.key w.now
              (c.judge w.profileID w.adjusted w.weight)).1 },
            (s.picker.bandit.afterVerdict s.redis w.bucket.key w.now
              (c.judge w.profileID w.adjusted w.weight)).2⟩ :=
  s.rewardedAt_cases _ _ _ _ _

omit [Field F] [LinearOrder F] in
theorem rewardedAt_frozen (key profileID : String) (adjusted weight : ℚ) (now : Int) :
    (s.rewardedAt key profileID adjusted weight now).picker.frozen = s.picker.frozen := by
  rcases s.rewardedAt_cases key profileID adjusted weight now with hr | ⟨c, -, -, hr⟩
  · rw [hr]
  · rw [hr]

omit [Field F] [LinearOrder F] in
/-- The run of a reward that is not dropped, on any coordinates. -/
theorem bandit_update_run (intent repo topic profileID : String) (adjusted weight : ℚ)
    (now : Int) (hf : s.picker.frozen = false) :
    (s.picker.bandit.update intent repo topic profileID adjusted weight now).run s.redis
      = ((s.rewardedAt (banditKey intent repo topic) profileID adjusted weight now).picker.bandit,
        (s.rewardedAt (banditKey intent repo topic) profileID adjusted weight now).redis) := by
  rw [Bandit.update_run, rewardedAt, hf]
  cases s.picker.bandit.active (banditKey intent repo topic) with
  | none => rfl
  | some c => rfl

omit [Field F] [LinearOrder F] in
/-- The slot a reward is routed to. -/
theorem updateWithTopic_run (intent repo topic profileID : String) (adjusted weight : ℚ)
    (now : Int) :
    (s.picker.updateWithTopic intent repo topic profileID adjusted weight now).run s.redis
      = (let t := s.rewardedAt (slotKey intent repo topic) profileID adjusted weight now
        (t.picker, t.redis)) := by
  have hfr := s.rewardedAt_frozen (slotKey intent repo topic) profileID adjusted weight now
  unfold Picker.updateWithTopic
  cases hf : s.picker.frozen with
  | true => simp [rewardedAt, hf]
  | false =>
    have hmk := mk_eq (hfr.trans hf)
    rw [if_neg Bool.false_ne_true]
    unfold slotKey at hmk ⊢
    split_ifs at hmk ⊢
    · rw [run_bind, s.bandit_update_run _ _ _ _ _ _ _ hf]
      exact congrArg (fun t : Process F => (t.picker, t.redis)) hmk
    · rw [run_bind, s.bandit_update_run _ _ _ _ _ _ _ hf]
      exact congrArg (fun t : Process F => (t.picker, t.redis)) hmk

theorem exec_updateWithTopic (intent : Name) (repo : String) (topic : Name) (profileID : String)
    (adjusted weight : ℚ) (now : Int) :
    s.exec sqrt cfg (.updateWithTopic intent repo topic profileID adjusted weight now)
      = (.updated, s.rewarded ⟨.of intent repo topic, profileID, adjusted, weight, now⟩) := by
  have hkey : (Bucket.of intent repo topic).key = slotKey intent repo topic := by
    unfold slotKey
    split_ifs with hg
    · rw [Bucket.of_global hg]
      rfl
    · rw [Bucket.of_topic (Bool.eq_false_iff.mpr hg)]
      rfl
  have hrun := s.updateWithTopic_run intent repo topic profileID adjusted weight now
  simp only [exec, Op.prog, run_bind, run_pure, hrun]
  rw [rewarded, hkey]

theorem exec_update (intent : Name) (profileID : String) (adjusted weight : ℚ) (now : Int) :
    s.exec sqrt cfg (.update intent profileID adjusted weight now)
      = (.updated, s.rewarded ⟨.global intent, profileID, adjusted, weight, now⟩) := by
  have hg : isGlobalBucket "" intentGlobalTopic = true := rfl
  have heq : s.exec sqrt cfg (.update intent profileID adjusted weight now)
      = s.exec sqrt cfg
        (.updateWithTopic intent "" .global profileID adjusted weight now) := by
    simp [exec, Op.prog, Picker.updateWithTopic, Picker.update, Name.global, hg]
  rw [heq, exec_updateWithTopic, Bucket.of_global hg]

/-- A reset succeeds when the frozen default it reads back is stored. -/
theorem exec_reset (intent : String) (now : Int) :
    ∃ d err, s.exec sqrt cfg (.reset intent now) = (.reset d err, s.wiped intent now) ∧
      (err = none ↔ ∃ p, s.redis.str (defaultKey intent) = some (.json p)) ∧
      (err = none → d = s.redis.frozenDefault intent) := by
  obtain ⟨err, hl, -, herr⟩ := loadDefault_run (s.wiped intent now).redis intent
  have hne : defaultKey intent ≠ currentKey intent := fun h => currentKey_ne_defaultKey _ _ h.symm
  -- the reset leaves the frozen default as it is, so it is read back
  have hstr : (s.wiped intent now).redis.str (defaultKey intent)
      = s.redis.str (defaultKey intent) := by
    simp [wiped, Function.update_of_ne hne]
  have hd : (s.wiped intent now).redis.frozenDefault intent = s.redis.frozenDefault intent := by
    simp only [Redis.frozenDefault, hstr]
  rw [hstr] at herr
  rw [hd] at hl
  have hrun : (Bandit.resetIntent s.picker.bandit intent now).run s.redis
      = ((none, (s.wiped intent now).picker.bandit), (s.wiped intent now).redis) :=
    Bandit.resetIntent_run _ _ _ _
  cases err with
  | none =>
    refine ⟨s.redis.frozenDefault intent, none, ?_, herr, fun _ => rfl⟩
    simp [exec, Op.prog, Picker.reset, hrun, hl]
    rfl
  | some e =>
    refine ⟨Profile.default intent, some e, ?_, herr, fun h => nomatch h⟩
    simp [exec, Op.prog, Picker.reset, hrun, hl]
    rfl

theorem exec_resolve (intent : Name) (repo : String) (embed : List F) (queryText : String)
    (sh : Shuffle (TopicField F)) (now : Int) :
    s.exec sqrt cfg (.resolve intent repo embed queryText sh now)
      = if cfg.resolves embed then
          let e := s.redis.resolved sqrt cfg intent repo embed queryText sh now
          (.topic e.id e.label, s.retopic (topicsKey intent (normaliseRepo repo)) e)
        else (.topic intentGlobalTopic "", s) := by
  have hrun : s.exec sqrt cfg (.resolve intent repo embed queryText sh now)
      = (let res := (resolve sqrt cfg intent repo embed queryText sh now).run s.redis
        (.topic res.1.1 res.1.2, ⟨s.picker, res.2⟩)) := by
    simp [exec, Op.prog]
  rw [hrun, resolve_run]
  cases cfg.resolves embed with
  | true => rfl
  | false => rfl

/-- **What one operation can do**: nothing, a selection on a bucket, a read of an intent-global
profile, a reward for a bucket, a reset, or the write of one topic. -/
theorem step_cases (op : Op F) :
    s.step sqrt cfg op = s ∨
    (∃ b n d, s.step sqrt cfg op = s.selected cfg b n d) ∨
    (∃ intent, s.step sqrt cfg op = s.read intent) ∨
    (∃ w, op.reward = some w ∧ s.step sqrt cfg op = s.rewarded w) ∨
    (∃ intent now, s.step sqrt cfg op = s.wiped intent now) ∨
    (∃ key e, s.step sqrt cfg op = s.retopic key e) := by
  unfold step
  -- a pick is served from the bucket's own profile, from the global one, or from the frozen default
  cases op with
  | pick intent d =>
    rw [exec_pick]
    exact .inr (.inl ⟨_, _, _, rfl⟩)
  | pickWithTopic intent repo topic sh d =>
    rw [exec_pickWithTopic]
    split_ifs
    · rw [exec_pick]
      exact .inr (.inl ⟨_, _, _, rfl⟩)
    · exact .inr (.inr (.inl ⟨_, rfl⟩))
    · exact .inr (.inl ⟨_, _, _, rfl⟩)
  | update intent profileID adjusted weight now =>
    -- a reward reaches its bucket's candidate
    rw [exec_update]
    exact .inr (.inr (.inr (.inl ⟨_, rfl, rfl⟩)))
  | updateWithTopic intent repo topic profileID adjusted weight now =>
    rw [exec_updateWithTopic]
    exact .inr (.inr (.inr (.inl ⟨_, rfl, rfl⟩)))
  | reset intent now =>
    obtain ⟨d, err, he, -⟩ := exec_reset sqrt cfg s intent now
    rw [he]
    exact .inr (.inr (.inr (.inr (.inl ⟨_, _, rfl⟩))))
  | resolve intent repo embed queryText sh now =>
    -- a topic is resolved only where the registry is on
    rw [exec_resolve]
    split_ifs
    · exact .inr (.inr (.inr (.inr (.inr ⟨_, _, rfl⟩))))
    · exact .inl rfl

end Process

end Devrouter
