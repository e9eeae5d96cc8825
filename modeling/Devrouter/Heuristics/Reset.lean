import Devrouter.Heuristics.Audit

/-!
# What a reset resets

`Reset` writes the frozen default to the intent-global live profile and drops every candidate of the
intent. The live profiles of its topics stay as they are: the source relies on their being seeded
again on the next read, but a read seeds only what is missing, and a bucket that was read once stays
stored.

`Process.Resets` is what a reset is meant to do to an intent; `Process.resets_iff` says when it does:
when no topic of the intent has another profile stored. The direction that needs an argument goes
along the run after the reset. `Reinstated` is its invariant for one bucket: the frozen default of
the intent is stored, and the bucket and the intent-global surface hold nothing else. Seeding,
rollbacks and resets keep it, because all they write is the frozen default or a copy of the
intent-global profile; only a promotion of one of the two buckets can break it.
-/

open Prog

namespace Devrouter

variable {F : Type}

/-! ### The frozen default in one process -/

namespace Process

variable [Field F] [LinearOrder F] (sqrt : F → F) (cfg : Tunables)

/-- No operation of one process changes a frozen default that is stored. -/
theorem step_default (s : Process F) (op : Op F) {intent : String} {v : Stored}
    (hv : s.redis.str (defaultKey intent) = some v) :
    (s.step sqrt cfg op).redis.str (defaultKey intent) = some v := by
  rcases s.step_cases sqrt cfg op with hs | ⟨b, n, d, hs⟩ | ⟨i, hs⟩ | ⟨w, -, hs⟩ |
    ⟨i, now, hs⟩ | ⟨key, e, hs⟩
  · rw [hs]
    exact hv
  · rw [hs]
    exact b.seed_stored hv
  · rw [hs]
    exact s.redis.seedCurrent_stored i hv
  · rw [hs]
    rcases s.rewarded_cases w with hr | ⟨c, -, -, hr⟩
    · rw [hr]
      exact hv
    · rw [hr]
      -- a verdict writes at most one live profile
      have hset : ∀ (c : Candidate) (p : Profile) (e : HistoryEntry),
          ((s.redis.setStr (Bandit.liveKey c) p).pushHistory (Bandit.logKey c) e).str
            (defaultKey intent) = some v := by
        intro c p e
        have hne : defaultKey intent ≠ Bandit.liveKey c :=
          (currentKeyFor_ne_defaultKey _ _ _ _).symm
        rw [Redis.pushHistory_str, Redis.setStr_str, Function.update_of_ne hne, hv]
      cases c.judge w.profileID w.adjusted w.weight with
      | stale => exact hv
      | keep c => exact hv
      | promote c => exact hset c _ _
      | discard c => exact hv
      | rollback c => exact hset c _ _
  · rw [hs]
    change ((s.redis.setStr _ _).pushHistory _ _).str _ = _
    rw [Redis.pushHistory_str, Redis.setStr_str,
      Function.update_of_ne (currentKey_ne_defaultKey i intent).symm, hv]
  · rw [hs]
    exact hv

end Process

theorem Redis.frozenDefault_of_stored {r : Redis F} {intent : String} {v : Stored}
    (h : r.str (defaultKey intent) = some v) : r.frozenDefault intent = v.read intent := by
  unfold frozenDefault
  rw [h]
  rfl

/-! ### The run after a reset -/

/-- The frozen default `d` of the intent is stored, and neither the bucket nor the intent-global
surface holds anything else. -/
structure Reinstated (d : Profile) (b : Bucket) (r : Redis F) : Prop where
  frozen : ∃ v, r.str (defaultKey b.intent) = some v ∧ v.read b.intent = d
  global : ∃ v, r.str (Bucket.global b.intent).liveKey = some v ∧ v.read b.intent = d
  live : ∀ v, r.str b.liveKey = some v → v.read b.intent = d

namespace Reinstated

variable {d : Profile} {b : Bucket} {r r' : Redis F}

/-- The bucket is served the frozen default. -/
theorem live_eq (h : Reinstated d b r) : b.live r = d := by
  cases hv : r.str b.liveKey with
  | some v => rw [Bucket.live_of_stored hv, h.live v hv]
  | none =>
    obtain ⟨v, hv', hread⟩ := h.global
    rw [Bucket.live_of_missing hv, ← Bucket.live_global, Bucket.live_of_stored hv', ← hread]
    rfl

/-- What a step that promotes neither the bucket nor the intent-global surface leaves at a bucket of
the intent that held the frozen default, or nothing. -/
theorem read_of_logged {b' : Bucket} (hi : b'.intent = b.intent) (h : Reinstated d b r)
    (hlive : b'.live r = d) (hread : ∀ v, r.str b'.liveKey = some v → v.read b.intent = d)
    (hl : Logged False b' r r') : ∀ v, r'.str b'.liveKey = some v → v.read b.intent = d := by
  obtain ⟨v₀, hv₀, hd⟩ := h.frozen
  intro v hv
  cases hl with
  | idle hs hh => exact hread v (hs ▸ hv)
  | seeded hn hs hh =>
    rw [hs, Option.some.injEq] at hv
    rw [← hv, Stored.read_json, (b'.live_inBounds r).clip_eq, hlive]
  | promoted e hp hk hin hs hh => exact hp.elim
  | rolledBack e hk ht hs hh =>
    rw [hs, Option.some.injEq] at hv
    rw [← hv, Stored.read_json, ht, hi, Redis.frozenDefault_of_stored hv₀, hd]
    exact (hd ▸ Stored.read_inBounds b.intent v₀).clip_eq
  | discarded e hk ht hs hh => exact hread v (hs ▸ hv)

/-- A bucket that holds something holds something after any step. -/
theorem stored_of_logged {p : Prop} {v : Stored} (hv : r.str b.liveKey = some v)
    (hl : Logged p b r r') : ∃ v', r'.str b.liveKey = some v' := by
  cases hl with
  | idle hs hh => exact ⟨v, hs ▸ hv⟩
  | seeded hn hs hh => exact ⟨_, hs⟩
  | promoted e hp hk hin hs hh => exact ⟨_, hs⟩
  | rolledBack e hk ht hs hh => exact ⟨_, hs⟩
  | discarded e hk ht hs hh => exact ⟨v, hs ▸ hv⟩

end Reinstated

namespace Process

variable [Field F] [LinearOrder F] {sqrt : F → F} {cfg : Tunables}

/-- The step lemma. -/
theorem reinstated_step {s : Process F} (hs : s.Audited) {d : Profile} {b : Bucket}
    (h : Reinstated d b s.redis) {op : Op F} (hb : ¬ s.Promotes op b)
    (hg : ¬ s.Promotes op (.global b.intent)) : Reinstated d b (s.step sqrt cfg op).redis := by
  obtain ⟨v₀, hv₀, hd⟩ := h.frozen
  obtain ⟨v₁, hv₁, hd₁⟩ := h.global
  have hlb := (step_logged sqrt cfg hs op b).mono hb
  have hlg := (step_logged sqrt cfg hs op (.global b.intent)).mono hg
  have hglobal : (Bucket.global b.intent).live s.redis = d := by
    rw [Bucket.live_of_stored hv₁, ← hd₁]
    rfl
  refine ⟨⟨v₀, step_default sqrt cfg s op hv₀, hd⟩, ?_, h.read_of_logged rfl h.live_eq h.live hlb⟩
  obtain ⟨v', hv'⟩ := Reinstated.stored_of_logged hv₁ hlg
  have hi : (Bucket.global b.intent).intent = b.intent := rfl
  refine ⟨v', hv', h.read_of_logged hi hglobal ?_ hlg v' hv'⟩
  intro v hv
  rw [hv₁, Option.some.injEq] at hv
  exact hv ▸ hd₁

/-- Neither the bucket nor the intent-global surface of its intent is promoted during the run. -/
def NoPromotion (sqrt : F → F) (cfg : Tunables) (s : Process F) (b : Bucket) (ops : List (Op F)) :
    Prop :=
  ∀ past op rest, ops = past ++ op :: rest →
    ¬ (s.steps sqrt cfg past).Promotes op b ∧
    ¬ (s.steps sqrt cfg past).Promotes op (.global b.intent)

/-- The run lemma. -/
theorem reinstated_steps {s : Process F} (hs : s.Audited) {d : Profile} {b : Bucket}
    (h : Reinstated d b s.redis) (ops : List (Op F)) (hno : s.NoPromotion sqrt cfg b ops) :
    Reinstated d b (s.steps sqrt cfg ops).redis := by
  induction ops generalizing s with
  | nil => exact h
  | cons op ops ih =>
    obtain ⟨hb, hg⟩ := hno [] op ops rfl
    refine ih (hs.step sqrt cfg op) (reinstated_step hs h hb hg) fun past op' rest heq => ?_
    exact hno (op :: past) op' rest (by rw [heq, List.cons_append])

/-! ### Resets -/

/-- What a reset of an intent is meant to do: (1) until the next promotion every bucket of the intent
is served its frozen default; (2) no candidate of the intent survives; (3) the live profiles and the
candidates of other intents are unchanged. -/
def Resets (sqrt : F → F) (cfg : Tunables) (s : Process F) (intent : Name) (now : Int) : Prop :=
  let s' := s.step sqrt cfg (.reset intent now)
  (∀ b : Bucket, b.intent = intent → ∀ ops, s'.NoPromotion sqrt cfg b ops →
    ((currentProfileFor b.intent b.repo b.topic).run (s'.steps sqrt cfg ops).redis).1
      = (s.redis.frozenDefault intent, none)) ∧
  (∀ b : Bucket, b.intent = intent → s'.picker.bandit.active b.key = none) ∧
  (∀ b : Bucket, b.intent ≠ intent → s'.redis.str b.liveKey = s.redis.str b.liveKey ∧
    s'.picker.bandit.active b.key = s.picker.bandit.active b.key)

section Wiped

variable {s : Process F} {intent : String} {now : Int}

omit [Field F] [LinearOrder F] in
/-- A reset writes the frozen default to the intent-global live profile. -/
theorem wiped_current : (s.wiped intent now).redis.str (currentKey intent)
    = some (.json (s.redis.frozenDefault intent)) := by
  change ((s.redis.setStr _ _).pushHistory _ _).str _ = _
  rw [Redis.pushHistory_str, Redis.setStr_str, Function.update_self]

omit [Field F] [LinearOrder F] in
/-- It writes no other key. -/
theorem wiped_other {key : String} (hne : key ≠ currentKey intent) :
    (s.wiped intent now).redis.str key = s.redis.str key := by
  change ((s.redis.setStr _ _).pushHistory _ _).str _ = _
  rw [Redis.pushHistory_str, Redis.setStr_str, Function.update_of_ne hne]

omit [Field F] [LinearOrder F] in
/-- A reset reinstates a bucket of its intent that has nothing but the frozen default stored. -/
theorem reinstated_wiped {b : Bucket} {p : Profile}
    (hp : s.redis.str (defaultKey b.intent) = some (.json p))
    (hcond : b.isTopic = true → ∀ v, s.redis.str b.liveKey = some v →
      v.read b.intent = s.redis.frozenDefault b.intent) :
    Reinstated (s.redis.frozenDefault b.intent) b (s.wiped b.intent now).redis := by
  have hread : (Stored.json (s.redis.frozenDefault b.intent)).read b.intent
      = s.redis.frozenDefault b.intent := by
    rw [Stored.read_json, (s.redis.frozenDefault_inBounds b.intent).clip_eq]
  refine ⟨⟨.json p, ?_, (Redis.frozenDefault_of_stored hp).symm⟩, ⟨_, wiped_current, hread⟩, ?_⟩
  · rw [wiped_other (currentKey_ne_defaultKey _ _).symm]
    exact hp
  · intro v hv
    by_cases hk : b.liveKey = currentKey b.intent
    · -- the bucket is the intent-global surface
      rw [hk, wiped_current, Option.some.injEq] at hv
      rw [← hv, hread]
    · rw [wiped_other hk] at hv
      refine hcond ?_ v hv
      cases hg : isGlobalBucket b.repo b.topic with
      | true => exact absurd (if_pos hg) hk
      | false => simp [Bucket.isTopic, hg]

end Wiped

/-- **When a reset resets.** In every state a process reaches from a fresh installation, a successful
reset of an intent does what it is meant to do if and only if no topic of the intent has another
profile stored than the frozen default. -/
theorem resets_iff (sqrt : F → F) (cfg : Tunables) (tunableKnobs : List String) (frozen : Bool)
    (past : List (Op F)) (intent : Name) (now : Int) {d : Profile} :
    let s := (start tunableKnobs frozen (Redis.empty F)).steps sqrt cfg past
    (s.exec sqrt cfg (.reset intent now)).1 = .reset d none →
    (s.Resets sqrt cfg intent now ↔
      ∀ b : Bucket, b.intent = intent → b.isTopic = true → ∀ v,
        s.redis.str b.liveKey = some v → v.read intent = s.redis.frozenDefault intent) := by
  intro s hok
  have hs : s.Audited := (start_audited tunableKnobs frozen).steps sqrt cfg past
  obtain ⟨d', err, he, herr, -⟩ := exec_reset sqrt cfg s intent now
  -- a reset that succeeds has read the frozen default back
  have hdef : ∃ p, s.redis.str (defaultKey intent) = some (.json p) := by
    rw [he] at hok
    cases hok
    exact herr.mp rfl
  have hstep : s.step sqrt cfg (.reset intent now) = s.wiped intent now := congrArg Prod.snd he
  have hother : ∀ b : Bucket, b ≠ .global intent →
      (s.wiped intent now).redis.str b.liveKey = s.redis.str b.liveKey :=
    fun b hb => wiped_other fun hk => hb (Bucket.liveKey_inj.mp hk)
  unfold Resets
  simp only [hstep]
  constructor
  · -- a profile that stays stored is served right after the reset
    rintro ⟨hserve, -, -⟩ b rfl hb v hv
    have hne : b ≠ .global b.intent := fun he => by
      rw [he] at hb
      cases hb
    have hrun := hserve b rfl [] fun past op rest heq => by cases past <;> cases heq
    rw [currentProfileFor_run, steps_nil] at hrun
    have hv' : (s.wiped b.intent now).redis.str b.liveKey = some v := (hother b hne).trans hv
    exact (Bucket.live_of_stored hv').symm.trans (congrArg Prod.fst hrun)
  · intro hcond
    refine ⟨?_, ?_, ?_⟩
    · -- the bucket is reinstated by the reset, and stays so until a promotion
      intro b hbi ops hno
      subst hbi
      obtain ⟨p, hp⟩ := hdef
      have hre : Reinstated (s.redis.frozenDefault b.intent) b (s.wiped b.intent now).redis :=
        reinstated_wiped hp (hcond b rfl)
      have haud : (s.wiped b.intent now).Audited := hstep ▸ hs.step sqrt cfg _
      have hend := reinstated_steps haud hre ops hno
      rw [currentProfileFor_run]
      exact Prod.ext hend.live_eq rfl
    · intro b hbi
      subst hbi
      change (s.picker.bandit.deletePrefix _).active b.key = none
      rw [Bandit.deletePrefix_active, if_pos b.hasPrefix_key]
    · -- the keys and slots of other intents are not touched
      intro b hbi
      refine ⟨hother b fun he => hbi (by rw [he]; rfl), ?_⟩
      change (s.picker.bandit.deletePrefix _).active b.key = _
      rw [Bandit.deletePrefix_active, if_neg fun hp => hbi ((b.hasPrefix_key_iff intent).mp hp)]

/-- The first reset on a fresh installation. -/
theorem resets_fresh : (start [] false (Redis.empty ℚ)).Resets id .default .debug 0 := by
  have hok : ((start [] false (Redis.empty ℚ)).exec id .default (.reset "debug" 0)).1
      = .reset (Profile.default "debug") none := by decide +kernel
  refine (resets_iff id .default [] false [] .debug 0 hok).mpr fun b _ hb v hv => ?_
  rw [((start_unused [] false).2 b v hv).1] at hb
  cases hb

/-- The settings with no sample floor: every topic is tuned on its own. -/
def noFloor : Tunables := { Tunables.default with sampleFloor := 0, sampleFloor_mem := by decide }

/-- A run that promotes a candidate of the first topic of a repo: one exploring query, rewards 0 for
the base, rewards 1 for the candidate. -/
def promotingRun : List (Op ℚ) :=
  .pickWithTopic .debug "r" .topic0 (Shuffle.id _) ⟨0, 0, 1⟩ ::
    (List.replicate 5
        (.updateWithTopic .debug "r" .topic0 (Profile.default "debug").id 0 1 0) ++
      List.replicate 20 (.updateWithTopic .debug "r" .topic0
        ((Profile.default "debug").bump .maxTrace 1).id 1 1 0))

/-- After a reset that succeeds the topic is still served its promoted profile. -/
theorem promoted_topic_survives_reset :
    let s := (start ["max_trace"] false (Redis.empty ℚ)).steps id noFloor promotingRun
    (s.exec id noFloor (.reset "debug" 0)).1 = .reset (Profile.default "debug") none ∧
      ¬ s.Resets id noFloor .debug 0 := by
  intro s
  refine ⟨by decide +kernel, fun h => ?_⟩
  have hserve := h.1 (.of .debug "r" .topic0) rfl [] fun past op rest heq => by
    cases past <;> cases heq
  have hne : ((currentProfileFor "debug" "r" "t-0").run
      (s.step id noFloor (.reset "debug" 0)).redis).1 ≠ (s.redis.frozenDefault "debug", none) := by
    decide +kernel
  exact hne hserve

end Process

end Devrouter
