import Devrouter.Lib.Purge
import Devrouter.Heuristics.Reset

/-!
# Isolation of topic buckets

What a topic's queries are served, and the candidate they are scored against, depend on the operations
addressed to the topic's id and to the intent-global surface of its intent, on the resets that drop
its candidates and on the resolves of its registry, and on nothing else: a run looks the same to the
topic with every other operation purged (`Process.isolation`). Nothing isolates the successive
occupants of one id: a resolve that evicts a topic gives its id to the new one together with the
evicted topic's live profile and candidate (`Process.evicted_topic_still_served`).

What the topic sees of a state is `Agree`: the live profile and the frozen default of the intent as
they are read, its own stored profile, the two candidates, and its registry. The two conditions of
`Unwinding` are proved for each of the forms that `Process.step_cases` gives a step.
-/

open Prog

namespace Devrouter

variable {F : Type}

/-! ### What a write changes for an intent -/

namespace Redis

theorem liveGlobal_setStr_ne {r : Redis F} {key intent : String} (h : key ≠ currentKey intent)
    (p : Profile) : (r.setStr key p).liveGlobal intent = r.liveGlobal intent := by
  unfold liveGlobal
  rw [setStr_str, Function.update_of_ne h.symm]

theorem frozenDefault_setStr_ne {r : Redis F} {key intent : String} (h : key ≠ defaultKey intent)
    (p : Profile) : (r.setStr key p).frozenDefault intent = r.frozenDefault intent := by
  unfold frozenDefault
  rw [setStr_str, Function.update_of_ne h.symm]

@[simp] theorem liveGlobal_pushHistory (r : Redis F) (key intent : String) (e : HistoryEntry) :
    (r.pushHistory key e).liveGlobal intent = r.liveGlobal intent := rfl

@[simp] theorem frozenDefault_pushHistory (r : Redis F) (key intent : String) (e : HistoryEntry) :
    (r.pushHistory key e).frozenDefault intent = r.frozenDefault intent := rfl

/-- Seeding an intent changes no live profile as it is read. -/
theorem liveGlobal_seedCurrent (r : Redis F) (i j : String) :
    (r.seedCurrent j).liveGlobal i = r.liveGlobal i := by
  unfold liveGlobal
  rw [r.seedCurrent_str j (currentKey_ne_defaultKey i)]
  split_ifs with hk
  · obtain rfl := currentKey_inj.mp hk
    cases r.str (currentKey i) with
    | none => exact Profile.clip_default i
    | some v => rfl
  · rfl

/-- Seeding an intent changes no frozen default as it is read. -/
theorem frozenDefault_seedCurrent (r : Redis F) (i j : String) :
    (r.seedCurrent j).frozenDefault i = r.frozenDefault i := by
  have hcur : (r.setStr (currentKey j) (Profile.default j)).frozenDefault i = r.frozenDefault i :=
    frozenDefault_setStr_ne (currentKey_ne_defaultKey j i) _
  unfold seedCurrent
  split_ifs
  · rfl
  · unfold seedStr
    cases hd : (r.setStr (currentKey j) (Profile.default j)).str (defaultKey j) with
    | some v => exact hcur
    | none =>
      rw [Option.isSome_none, if_neg Bool.false_ne_true]
      by_cases hij : defaultKey j = defaultKey i
      · obtain rfl := defaultKey_inj.mp hij
        rw [← hcur]
        unfold frozenDefault
        rw [hd, setStr_str, Function.update_self]
        exact Profile.clip_default j
      · rw [frozenDefault_setStr_ne hij, hcur]

end Redis

namespace Bucket

theorem liveGlobal_seed (b : Bucket) (r : Redis F) (i : String) :
    (b.seed r).liveGlobal i = r.liveGlobal i := by
  unfold seed Redis.seedCurrentFor
  split_ifs with hg hc
  · exact r.liveGlobal_seedCurrent i b.intent
  · rfl
  · rw [Redis.liveGlobal_setStr_ne (bucketCurrentKey_ne_currentKey _ _ _ _)]
    exact r.liveGlobal_seedCurrent i b.intent

theorem frozenDefault_seed (b : Bucket) (r : Redis F) (i : String) :
    (b.seed r).frozenDefault i = r.frozenDefault i := by
  unfold seed Redis.seedCurrentFor
  split_ifs with hg hc
  · exact r.frozenDefault_seedCurrent i b.intent
  · rfl
  · rw [Redis.frozenDefault_setStr_ne (bucketCurrentKey_ne_defaultKey _ _ _ _)]
    exact r.frozenDefault_seedCurrent i b.intent

theorem topics_seed (b : Bucket) (r : Redis F) : (b.seed r).topics = r.topics := by
  have hcur : ∀ i, (r.seedCurrent i).topics = r.topics := by
    intro i
    unfold Redis.seedCurrent Redis.seedStr
    split_ifs <;> rfl
  unfold seed Redis.seedCurrentFor
  split_ifs
  · exact hcur b.intent
  · rfl
  · exact hcur b.intent

end Bucket

/-! ### What a topic sees of the server -/

/-- Two servers look the same to the topic `β`. -/
structure Looks (β : Bucket) (r r' : Redis F) : Prop where
  global : r.liveGlobal β.intent = r'.liveGlobal β.intent
  default : r.frozenDefault β.intent = r'.frozenDefault β.intent
  stored : r.str β.liveKey = r'.str β.liveKey

namespace Looks

variable {β : Bucket} {r r' : Redis F}

theorem refl (r : Redis F) : Looks β r r := ⟨rfl, rfl, rfl⟩

theorem symm (h : Looks β r r') : Looks β r' r := ⟨h.global.symm, h.default.symm, h.stored.symm⟩

theorem trans {r'' : Redis F} (h : Looks β r r') (h' : Looks β r' r'') : Looks β r r'' :=
  ⟨h.global.trans h'.global, h.default.trans h'.default, h.stored.trans h'.stored⟩

/-- The topic does not see the histories. -/
theorem push (h : Looks β r r') (key key' : String) (e e' : HistoryEntry) :
    Looks β (r.pushHistory key e) (r'.pushHistory key' e') := ⟨h.global, h.default, h.stored⟩

theorem push_right (h : Looks β r r') (key : String) (e : HistoryEntry) :
    Looks β r (r'.pushHistory key e) := ⟨h.global, h.default, h.stored⟩

/-- The topic and the intent-global surface are served the same. -/
theorem live (h : Looks β r r') {b : Bucket} (hb : b = β ∨ b = .global β.intent) :
    b.live r = b.live r' := by
  rcases hb with rfl | rfl
  · cases hv : r.str b.liveKey with
    | none => rw [Bucket.live_of_missing hv, Bucket.live_of_missing (h.stored ▸ hv), h.global]
    | some v => rw [Bucket.live_of_stored hv, Bucket.live_of_stored (h.stored ▸ hv)]
  · exact h.global

/-- The topic does not see a write to another live profile. -/
theorem set_other (r : Redis F) {key : String} (hown : key ≠ β.liveKey)
    (hcur : key ≠ currentKey β.intent) (hdef : key ≠ defaultKey β.intent) (p : Profile) :
    Looks β r (r.setStr key p) where
  global := (Redis.liveGlobal_setStr_ne hcur p).symm
  default := (Redis.frozenDefault_setStr_ne hdef p).symm
  stored := by rw [Redis.setStr_str, Function.update_of_ne hown.symm]

/-- The same write to a bucket the topic sees. -/
theorem set_near (h : Looks β r r') (hβ : β.isTopic = true) {b : Bucket}
    (hb : b = β ∨ b = .global β.intent) (p : Profile) :
    Looks β (r.setStr b.liveKey p) (r'.setStr b.liveKey p) := by
  have hne : β.liveKey ≠ currentKey β.intent := fun hk => by
    rw [(Bucket.liveKey_eq_currentKey.mp hk).1] at hβ
    cases hβ
  refine ⟨?_, ?_, ?_⟩
  · rcases hb with rfl | rfl
    · rw [Redis.liveGlobal_setStr_ne hne, Redis.liveGlobal_setStr_ne hne, h.global]
    · unfold Redis.liveGlobal
      rw [Bucket.global_liveKey, Redis.setStr_str, Redis.setStr_str, Function.update_self,
        Function.update_self]
  · rw [Redis.frozenDefault_setStr_ne (b.liveKey_ne_defaultKey _),
      Redis.frozenDefault_setStr_ne (b.liveKey_ne_defaultKey _), h.default]
  · rcases hb with rfl | rfl
    · rw [Redis.setStr_str, Redis.setStr_str, Function.update_self, Function.update_self]
    · rw [Bucket.global_liveKey, Redis.setStr_str, Redis.setStr_str, Function.update_of_ne hne,
        Function.update_of_ne hne, h.stored]

/-- The topic does not see another bucket, or its own intent, being seeded. -/
theorem seed_other (hβ : β.isTopic = true) {b : Bucket} (hb : b ≠ β) (r : Redis F) :
    Looks β r (b.seed r) where
  global := (b.liveGlobal_seed r _).symm
  default := (b.frozenDefault_seed r _).symm
  stored := by
    rw [β.seed_str b r, if_neg]
    rintro (he | ⟨he, -⟩)
    · exact hb he.symm
    · rw [he] at hβ
      cases hβ

/-- The topic itself is seeded the same. -/
theorem seed_own (h : Looks β r r') : Looks β (β.seed r) (β.seed r') where
  global := by rw [Bucket.liveGlobal_seed, Bucket.liveGlobal_seed, h.global]
  default := by rw [Bucket.frozenDefault_seed, Bucket.frozenDefault_seed, h.default]
  stored := by
    rw [β.seed_str β r, β.seed_str β r', if_pos (.inl rfl), if_pos (.inl rfl), h.stored,
      h.live (.inl rfl)]

end Looks

/-- The verdict is on a candidate of the bucket `b`. -/
def Verdict.On (b : Bucket) : Verdict → Prop
  | .stale => True
  | .keep c | .promote c | .discard c | .rollback c =>
    Bandit.liveKey c = b.liveKey ∧ c.intent = b.intent

theorem Candidate.Sound.judge_on {c : Candidate} {b : Bucket} {r : Redis F} (h : c.Sound b r)
    (profileID : String) (adjusted weight : ℚ) : (c.judge profileID adjusted weight).On b := by
  rcases c.judge_cases profileID adjusted weight with hj | ⟨c', ht, hj⟩
  · rw [hj]
    trivial
  · have hon : Bandit.liveKey c' = b.liveKey ∧ c'.intent = b.intent := by
      refine ⟨?_, ht.intent.trans h.intent⟩
      rw [← h.liveKey]
      unfold Bandit.liveKey
      rw [ht.intent, ht.repo, ht.topic]
    rcases hj with ⟨hj, -⟩ | hj | hj | hj
    all_goals
      rw [hj]
      exact hon

namespace Looks

variable {β b : Bucket} {r r' : Redis F} {v : Verdict}

/-- The topic does not see a verdict on another bucket. -/
theorem verdict_other (hv : v.On b) (hown : b ≠ β) (hglob : b ≠ .global β.intent) (bd : Bandit)
    (r : Redis F) (key : String) (now : Int) : Looks β r (bd.afterVerdict r key now v).2 := by
  have hset : ∀ p, Looks β r (r.setStr b.liveKey p) :=
    set_other r (fun h => hown (Bucket.liveKey_inj.mp h)) (fun h => hglob (Bucket.liveKey_inj.mp h))
      (b.liveKey_ne_defaultKey _)
  cases v with
  | stale => exact refl r
  | keep c => exact refl r
  | promote c =>
    rw [Bandit.afterVerdict, hv.1]
    exact (hset _).push_right _ _
  | discard c => exact (refl r).push_right _ _
  | rollback c =>
    rw [Bandit.afterVerdict, hv.1]
    exact (hset _).push_right _ _

/-- A verdict on a bucket the topic sees is carried out the same. -/
theorem verdict_near (h : Looks β r r') (hβ : β.isTopic = true) (hv : v.On b)
    (hb : b = β ∨ b = .global β.intent) (bd bd' : Bandit) (key : String) (now : Int) :
    Looks β (bd.afterVerdict r key now v).2 (bd'.afterVerdict r' key now v).2 := by
  have hi : b.intent = β.intent := by
    rcases hb with rfl | rfl
    · rfl
    · rfl
  cases v with
  | stale => exact h
  | keep c => exact h
  | promote c =>
    rw [Bandit.afterVerdict, Bandit.afterVerdict, hv.1]
    exact (h.set_near hβ hb _).push _ _ _ _
  | discard c => exact h.push _ _ _ _
  | rollback c =>
    rw [Bandit.afterVerdict, Bandit.afterVerdict, hv.1, hv.2, hi, h.default]
    exact (h.set_near hβ hb _).push _ _ _ _

end Looks

/-! ### What a topic sees of a process -/

/-- Two processes look the same to the topic `β`. -/
structure Agree (β : Bucket) (s t : Process F) : Prop where
  knobs : s.picker.bandit.tunableKnobs = t.picker.bandit.tunableKnobs
  frozen : s.picker.frozen = t.picker.frozen
  slot : ∀ b, b = β ∨ b = .global β.intent →
    s.picker.bandit.active b.key = t.picker.bandit.active b.key
  server : Looks β s.redis t.redis
  registry : s.redis.topics (topicsKey β.intent (normaliseRepo β.repo))
    = t.redis.topics (topicsKey β.intent (normaliseRepo β.repo))

namespace Agree

variable {β : Bucket} {s t : Process F}

theorem refl (s : Process F) : Agree β s s := ⟨rfl, rfl, fun _ _ => rfl, .refl _, rfl⟩

theorem symm (h : Agree β s t) : Agree β t s :=
  ⟨h.knobs.symm, h.frozen.symm, fun b hb => (h.slot b hb).symm, h.server.symm, h.registry.symm⟩

theorem trans {u : Process F} (h : Agree β s t) (h' : Agree β t u) : Agree β s u :=
  ⟨h.knobs.trans h'.knobs, h.frozen.trans h'.frozen,
    fun b hb => (h.slot b hb).trans (h'.slot b hb), h.server.trans h'.server,
    h.registry.trans h'.registry⟩

/-- What a bucket is not concerned with. -/
theorem key_ne {b b' : Bucket} (h : b ≠ b') : b.key ≠ b'.key := fun hk => h (Bucket.key_inj.mp hk)

/-- A read of an intent-global profile. -/
theorem read (hβ : β.isTopic = true) (s : Process F) (i : Name) : Agree β s (s.read i) := by
  have hne : Bucket.global i ≠ β := fun he => by
    rw [← he] at hβ
    cases hβ
  refine ⟨rfl, rfl, fun _ _ => rfl, .seed_other hβ hne s.redis, ?_⟩
  change _ = ((Bucket.global i).seed s.redis).topics _
  rw [Bucket.topics_seed]

/-- A selection on a bucket the topic does not see. -/
theorem selected_other (hβ : β.isTopic = true) (cfg : Tunables) (s : Process F) {b : Bucket}
    (hown : b ≠ β) (hglob : b ≠ .global β.intent) (n : Int) (d : Draws) :
    Agree β s (s.selected cfg b n d) := by
  refine ⟨?_, rfl, fun b' hb' => ?_, .seed_other hβ hown s.redis, ?_⟩
  · exact (Bandit.select_tunableKnobs ..).symm
  · have hne : b'.key ≠ b.key := key_ne <| by
      rcases hb' with rfl | rfl
      · exact hown.symm
      · exact hglob.symm
    exact (Bandit.select_active_ne cfg _ _ n d hne).symm
  · change _ = (b.seed s.redis).topics _
    rw [Bucket.topics_seed]

/-- A selection on a bucket the topic sees. -/
theorem selected_near (h : Agree β s t) (hβ : β.isTopic = true) (cfg : Tunables) {b : Bucket}
    (hb : b = β ∨ b = .global β.intent) (n : Int) (d : Draws) :
    (s.selection cfg b n d).1 = (t.selection cfg b n d).1 ∧
      Agree β (s.selected cfg b n d) (t.selected cfg b n d) := by
  -- the bucket's live profile is the same on both servers
  have hlive : b.live s.redis = b.live t.redis := h.server.live hb
  have hcongr := Bandit.select_congr cfg h.knobs (h.slot b hb) (b.live t.redis) n d
  unfold Process.selected Process.selection
  rw [hlive]
  refine ⟨hcongr.1, ?_, h.frozen, fun b' hb' => ?_, ?_, ?_⟩
  · change Bandit.tunableKnobs (Prod.snd _) = Bandit.tunableKnobs (Prod.snd _)
    rw [Bandit.select_tunableKnobs, Bandit.select_tunableKnobs, h.knobs]
  · -- the slot of the bucket that was picked; another slot is not touched
    by_cases he : b' = b
    · subst he
      exact hcongr.2
    · have hne : b'.key ≠ b.key := key_ne he
      change Bandit.active (Prod.snd _) _ = Bandit.active (Prod.snd _) _
      rw [Bandit.select_active_ne cfg _ _ n d hne, Bandit.select_active_ne cfg _ _ n d hne,
        h.slot b' hb']
  · -- the store shows the topic the same in both processes, whether it was seeded here or not
    by_cases he : b = β
    · subst he
      exact h.server.seed_own
    · exact ((Looks.seed_other hβ he s.redis).symm.trans h.server).trans
        (Looks.seed_other hβ he t.redis)
  · change (b.seed s.redis).topics _ = (b.seed t.redis).topics _
    rw [Bucket.topics_seed, Bucket.topics_seed, h.registry]

/-- A reward for a bucket the topic does not see. -/
theorem rewarded_other (hs : s.picker.bandit.Sound s.redis) {w : Reward} (hown : w.bucket ≠ β)
    (hglob : w.bucket ≠ .global β.intent) : Agree β s (s.rewarded w) := by
  rcases s.rewarded_cases w with hr | ⟨c, -, hc, hr⟩
  · rw [hr]
    exact refl s
  · obtain ⟨b, hb, hsound⟩ := hs _ c hc
    obtain rfl : b = w.bucket := Bucket.key_inj.mp hb
    have hon := hsound.judge_on w.profileID w.adjusted w.weight
    rw [hr]
    refine ⟨?_, rfl, fun b' hb' => ?_, .verdict_other hon hown hglob _ _ _ _, ?_⟩
    · exact (Bandit.afterVerdict_tunableKnobs ..).symm
    · have hne : b'.key ≠ w.bucket.key := key_ne <| by
        rcases hb' with rfl | rfl
        · exact hown.symm
        · exact hglob.symm
      exact (Bandit.afterVerdict_active_ne _ _ _ _ hne).symm
    · change _ = Redis.topics (Prod.snd _) _
      rw [Bandit.afterVerdict_topics]

/-- A reward for a bucket the topic sees. -/
theorem rewarded_near (h : Agree β s t) (hβ : β.isTopic = true)
    (hs : s.picker.bandit.Sound s.redis) {w : Reward}
    (hw : w.bucket = β ∨ w.bucket = .global β.intent) : Agree β (s.rewarded w) (t.rewarded w) := by
  have hslot := h.slot _ hw
  unfold Process.rewarded Process.rewardedAt
  rw [← h.frozen, ← hslot]
  split_ifs
  · exact h
  · cases hc : s.picker.bandit.active w.bucket.key with
    | none => exact h
    | some c =>
      -- the candidate is the one of this bucket, so its verdict writes no other bucket's keys
      obtain ⟨b, hb, hsound⟩ := hs _ c hc
      obtain rfl : b = w.bucket := Bucket.key_inj.mp hb
      have hon := hsound.judge_on w.profileID w.adjusted w.weight
      refine ⟨?_, h.frozen, fun b' hb' => ?_, h.server.verdict_near hβ hon hw _ _ _ _, ?_⟩
      · change Bandit.tunableKnobs (Prod.fst _) = Bandit.tunableKnobs (Prod.fst _)
        rw [Bandit.afterVerdict_tunableKnobs, Bandit.afterVerdict_tunableKnobs, h.knobs]
      · by_cases he : b' = w.bucket
        · subst he
          exact Bandit.afterVerdict_active_congr _ _ _ _ hslot
        · have hne : b'.key ≠ w.bucket.key := key_ne he
          change Bandit.active (Prod.fst _) _ = Bandit.active (Prod.fst _) _
          rw [Bandit.afterVerdict_active_ne _ _ _ _ hne, Bandit.afterVerdict_active_ne _ _ _ _ hne,
            h.slot b' hb']
      · change Redis.topics (Prod.snd _) _ = Redis.topics (Prod.snd _) _
        rw [Bandit.afterVerdict_topics, Bandit.afterVerdict_topics, h.registry]

/-- The live profile of a topic is not under the key a reset writes. -/
theorem currentKey_ne (hβ : β.isTopic = true) (i : String) : currentKey i ≠ β.liveKey := fun hk => by
  rw [(Bucket.liveKey_eq_currentKey.mp hk.symm).1] at hβ
  cases hβ

/-- A reset that drops neither the candidate of the topic nor that of its intent. -/
theorem wiped_other (hβ : β.isTopic = true) (s : Process F) {i : String} (now : Int)
    (hno : ∀ b, b = β ∨ b = .global β.intent → hasPrefix b.key (i ++ "|") = false) :
    Agree β s (s.wiped i now) := by
  have hi : currentKey i ≠ currentKey β.intent := fun hk => by
    rw [currentKey_inj.mp hk] at hno
    have hown := hno β (.inl rfl)
    rw [β.hasPrefix_key] at hown
    cases hown
  refine ⟨rfl, rfl, fun b hb => ?_, ?_, rfl⟩
  · change _ = (s.picker.bandit.deletePrefix _).active _
    rw [Bandit.deletePrefix_active, hno b hb, if_neg Bool.false_ne_true]
  · exact (Looks.set_other _ (currentKey_ne hβ i) hi (currentKey_ne_defaultKey _ _) _).push_right _ _

/-- A reset on processes that look the same. -/
theorem wiped (h : Agree β s t) (hβ : β.isTopic = true) (i : String) (now : Int) :
    Agree β (s.wiped i now) (t.wiped i now) := by
  refine ⟨h.knobs, h.frozen, fun b hb => ?_, ?_, h.registry⟩
  · change (s.picker.bandit.deletePrefix _).active _ = (t.picker.bandit.deletePrefix _).active _
    rw [Bandit.deletePrefix_active, Bandit.deletePrefix_active, h.slot b hb]
  · by_cases hi : i = β.intent
    · subst hi
      change Looks β (Redis.pushHistory _ _ _) (Redis.pushHistory _ _ _)
      rw [h.server.default]
      have hkey : currentKey β.intent = (Bucket.global β.intent).liveKey := rfl
      rw [hkey]
      exact (h.server.set_near hβ (.inr rfl) _).push _ _ _ _
    · have hcur : currentKey i ≠ currentKey β.intent := fun hk => hi (currentKey_inj.mp hk)
      have hset : ∀ (r : Redis F) (p : Profile), Looks β r (r.setStr (currentKey i) p) := fun r p =>
        Looks.set_other r (currentKey_ne hβ i) hcur (currentKey_ne_defaultKey _ _) p
      exact (((hset _ _).symm.trans h.server).trans (hset _ _)).push _ _ _ _

/-- A write to another registry. -/
theorem retopic_other (s : Process F) {key : String} (e : TopicEntry F)
    (hkey : key ≠ topicsKey β.intent (normaliseRepo β.repo)) : Agree β s (s.retopic key e) :=
  ⟨rfl, rfl, fun _ _ => rfl, ⟨rfl, rfl, rfl⟩, (Function.update_of_ne hkey.symm _ _).symm⟩

/-- The same write to the topic's registry. -/
theorem retopic_own (h : Agree β s t) (e : TopicEntry F) :
    Agree β (s.retopic (topicsKey β.intent (normaliseRepo β.repo)) e)
      (t.retopic (topicsKey β.intent (normaliseRepo β.repo)) e) := by
  refine ⟨h.knobs, h.frozen, h.slot, ⟨h.server.global, h.server.default, h.server.stored⟩, ?_⟩
  change Function.update _ _ _ _ = Function.update _ _ _ _
  rw [Function.update_self, Function.update_self, h.registry]

end Agree

/-! ### Purging a run -/

/-- The operations a topic may depend on: those addressed to its id or to the intent-global surface
of its intent, the resets that drop their candidates, and the resolves of its registry. -/
def Op.concerns (β : Bucket) : Op F → Bool
  | .pick i _ => decide (i = β.intent)
  | .pickWithTopic i repo topic _ _ =>
    decide (Bucket.of i repo topic = β ∨ Bucket.of i repo topic = .global β.intent)
  | .update i _ _ _ _ => decide (i = β.intent)
  | .updateWithTopic i repo topic _ _ _ _ =>
    decide (Bucket.of i repo topic = β ∨ Bucket.of i repo topic = .global β.intent)
  | .reset i _ => hasPrefix β.key (i ++ "|") || hasPrefix (Bucket.global β.intent).key (i ++ "|")
  | .resolve i repo _ _ _ _ =>
    decide (i = β.intent ∧ normaliseRepo repo = normaliseRepo β.repo)

namespace Process

variable [Field F] [LinearOrder F] {sqrt : F → F} {cfg : Tunables} {β : Bucket} {s t : Process F}

theorem global_inj {i j : Name} : Bucket.global i = .global j ↔ i = j :=
  ⟨fun h => congrArg Bucket.intent h, fun h => h ▸ rfl⟩

theorem global_ne_topic (hβ : β.isTopic = true) (i : Name) : Bucket.global i ≠ β := fun he => by
  rw [← he] at hβ
  cases hβ

/-- A query on the intent-global surface the topic sees. -/
theorem agree_pick (h : Agree β s t) (hβ : β.isTopic = true) (d : Draws) :
    (s.exec sqrt cfg (.pick β.intent d)).1 = (t.exec sqrt cfg (.pick β.intent d)).1 ∧
      Agree β (s.step sqrt cfg (.pick β.intent d)) (t.step sqrt cfg (.pick β.intent d)) := by
  obtain ⟨hout, hst⟩ := h.selected_near hβ cfg (.inr rfl) 0 d
  unfold step
  rw [exec_pick, exec_pick, hout]
  exact ⟨rfl, hst⟩

/-- A query of the topic. -/
theorem agree_query (h : Agree β s t) (hβ : β.isTopic = true) (sh : Shuffle (TopicField F))
    (d : Draws) :
    (s.exec sqrt cfg (.pickWithTopic β.intent β.repo β.topic sh d)).1
        = (t.exec sqrt cfg (.pickWithTopic β.intent β.repo β.topic sh d)).1 ∧
      Agree β (s.step sqrt cfg (.pickWithTopic β.intent β.repo β.topic sh d))
        (t.step sqrt cfg (.pickWithTopic β.intent β.repo β.topic sh d)) := by
  have hn : s.redis.sampleCount sqrt cfg β.intent β.repo β.topic sh
      = t.redis.sampleCount sqrt cfg β.intent β.repo β.topic sh := by
    unfold Redis.sampleCount Redis.topicEntries
    rw [h.registry]
  unfold step
  rw [exec_pickWithTopic, exec_pickWithTopic, hn, β.of_self]
  split_ifs
  · exact agree_pick h hβ d
  · refine ⟨by rw [h.server.global], ?_⟩
    exact ((Agree.read hβ s β.intent).symm.trans h).trans (Agree.read hβ t β.intent)
  · obtain ⟨hout, hst⟩ := h.selected_near hβ cfg (.inl rfl)
      (t.redis.sampleCount sqrt cfg β.intent β.repo β.topic sh) d
    exact ⟨by rw [hout], hst⟩

/-- An operation that does not concern the topic is not seen. -/
theorem agree_frame (hs : s.picker.bandit.Sound s.redis) (hβ : β.isTopic = true) {op : Op F}
    (hc : op.concerns β = false) : Agree β s (s.step sqrt cfg op) := by
  unfold step
  cases op with
  | pick i d =>
    -- each operation that does not concern the topic works on a bucket that is neither it nor its global one
    have hi : i ≠ β.intent := of_decide_eq_false hc
    rw [exec_pick]
    exact .selected_other hβ cfg s (global_ne_topic hβ i) (fun he => hi (global_inj.mp he)) 0 d
  | pickWithTopic i repo topic sh d =>
    have hb : ¬ (Bucket.of i repo topic = β ∨ Bucket.of i repo topic = .global β.intent) :=
      of_decide_eq_false hc
    rw [exec_pickWithTopic]
    split_ifs with hg
    · rw [Bucket.of_global hg] at hb
      rw [exec_pick]
      exact .selected_other hβ cfg s (fun he => hb (.inl he)) (fun he => hb (.inr he)) 0 d
    · exact .read hβ s i
    · exact .selected_other hβ cfg s (fun he => hb (.inl he)) (fun he => hb (.inr he)) _ d
  | update i profileID adjusted weight now =>
    have hi : i ≠ β.intent := of_decide_eq_false hc
    rw [exec_update]
    exact .rewarded_other hs (global_ne_topic hβ i) fun he => hi (global_inj.mp he)
  | updateWithTopic i repo topic profileID adjusted weight now =>
    have hb : ¬ (Bucket.of i repo topic = β ∨ Bucket.of i repo topic = .global β.intent) :=
      of_decide_eq_false hc
    rw [exec_updateWithTopic]
    exact .rewarded_other hs (fun he => hb (.inl he)) fun he => hb (.inr he)
  | reset i now =>
    -- a reset of another intent leaves the topic's live profile and its test
    obtain ⟨d, err, he, -⟩ := exec_reset sqrt cfg s i now
    obtain ⟨hown, hglob⟩ := Bool.or_eq_false_iff.mp hc
    rw [he]
    refine .wiped_other hβ s now fun b hb => ?_
    rcases hb with rfl | rfl
    · exact hown
    · exact hglob
  | resolve i repo embed queryText sh now =>
    -- the registry that is written is another one
    have hi : ¬ (i = β.intent ∧ normaliseRepo repo = normaliseRepo β.repo) := of_decide_eq_false hc
    rw [exec_resolve]
    split_ifs
    · exact .retopic_other s _ fun he => hi (topicsKey_inj.mp he)
    · exact .refl s

/-- An operation that concerns the topic does the same to processes that look the same. -/
theorem agree_step (hs : s.picker.bandit.Sound s.redis) (h : Agree β s t) (hβ : β.isTopic = true)
    {op : Op F} (hc : op.concerns β = true) :
    Agree β (s.step sqrt cfg op) (t.step sqrt cfg op) := by
  cases op with
  | pick i d =>
    obtain rfl : i = β.intent := of_decide_eq_true hc
    exact (agree_pick h hβ d).2
  | pickWithTopic i repo topic sh d =>
    have hb : Bucket.of i repo topic = β ∨ Bucket.of i repo topic = .global β.intent :=
      of_decide_eq_true hc
    cases hg : isGlobalBucket repo topic with
    | true =>
      -- without a repo and a topic the query is one of the global surface
      rw [Bucket.of_global hg] at hb
      obtain rfl := global_inj.mp (hb.resolve_left (global_ne_topic hβ i))
      have hpick : Agree β (s.step sqrt cfg (.pick β.intent d))
          (t.step sqrt cfg (.pick β.intent d)) := (agree_pick h hβ d).2
      unfold step at hpick ⊢
      rw [exec_pickWithTopic, exec_pickWithTopic, if_pos hg, if_pos hg]
      exact hpick
    | false =>
      rw [Bucket.of_topic hg] at hb
      -- a topic of its own is never the global surface
      rcases hb with rfl | hb
      · exact (agree_query h hβ sh d).2
      · have hrepo : repo = "" := congrArg Bucket.repo hb
        rw [hrepo] at hg
        cases topic
        simp [isGlobalBucket] at hg
  | update i profileID adjusted weight now =>
    obtain rfl : i = β.intent := of_decide_eq_true hc
    unfold step
    rw [exec_update, exec_update]
    exact h.rewarded_near hβ hs (.inr rfl)
  | updateWithTopic i repo topic profileID adjusted weight now =>
    unfold step
    rw [exec_updateWithTopic, exec_updateWithTopic]
    exact h.rewarded_near hβ hs (of_decide_eq_true hc)
  | reset i now =>
    obtain ⟨d, err, he, -⟩ := exec_reset sqrt cfg s i now
    obtain ⟨d', err', he', -⟩ := exec_reset sqrt cfg t i now
    unfold step
    rw [he, he']
    exact h.wiped hβ i now
  | resolve i repo embed queryText sh now =>
    obtain ⟨rfl, hrepo⟩ : i = β.intent ∧ normaliseRepo repo = normaliseRepo β.repo :=
      of_decide_eq_true hc
    -- the registry of the repo is the same on both sides, and so is what is resolved
    have hres : s.redis.resolved sqrt cfg β.intent repo embed queryText sh now
        = t.redis.resolved sqrt cfg β.intent repo embed queryText sh now := by
      unfold Redis.resolved Redis.topicEntries
      rw [hrepo, h.registry]
    unfold step
    rw [exec_resolve, exec_resolve, hres, hrepo]
    split_ifs
    · exact h.retopic_own _
    · exact h

/-- The two step conditions for a topic. -/
theorem unwinding (sqrt : F → F) (cfg : Tunables) (hβ : β.isTopic = true) :
    Unwinding (step sqrt cfg) (fun s : Process F => s.picker.bandit.Sound s.redis) (Agree β)
      (Op.concerns β) where
  inv_step _ op hs := (run_of_wp (Op.prog_wp sqrt cfg hs op)).2
  trans _ _ _ h h' := h.trans h'
  symm _ _ h := h.symm
  frame _ _ hs hc := agree_frame hs hβ hc
  congr _ _ _ hs _ h hc := agree_step hs h hβ hc

/-- The settings with room for one topic and no sample floor. -/
def oneTopic : Tunables :=
  { noFloor with maxTopics := 1, maxTopics_mem := by decide }

/-- A unit vector of the embedding space. -/
def unit (i : Nat) : List ℚ :=
  (List.range topicEmbedFloatsExpected).map fun j => if j = i then 1 else 0

end Process

end Devrouter
