import Devrouter.Heuristics.Picker

/-!
# Cold buckets

A topic below the sample floor is served the intent-global profile. The selection on it is called with
the topic's own coordinates and the guard of `Bandit.select` stops it, so a cold query takes no part
in the exploration of the intent-global surface, and a reward for it goes to the slot of the topic,
where no candidate was ever generated.

`Process.coldExec` is the system without topics in which this holds by definition: a topic-addressed
query is a plain read of the intent-global profile, a topic-addressed reward is dropped. A run in
which every topic-addressed query is cold is a run of that system (`Process.cold_run`). The invariant
is that no topic has a candidate, `Bandit.NoTopics`.
-/

namespace Devrouter

variable {F : Type}

/-- The operation of the system without topics that stands for an operation. -/
def Op.toGlobal : Op F → Op F
  | .pickWithTopic intent _ _ _ d => .pick intent d
  | .updateWithTopic intent _ _ profileID adjusted weight now =>
    .update intent profileID adjusted weight now
  | op => op

/-- The bucket a query or a reward is addressed to is a topic. -/
def Op.onTopic : Op F → Bool
  | .pickWithTopic _ repo topic _ _ => !isGlobalBucket repo topic
  | .updateWithTopic _ repo topic _ _ _ _ => !isGlobalBucket repo topic
  | _ => false

/-- No topic has a candidate. -/
def Bandit.NoTopics (bd : Bandit) : Prop := ∀ b : Bucket, b.isTopic = true → bd.active b.key = none

namespace Bandit.NoTopics

variable {bd : Bandit}

/-- What happens in the slot of an intent-global surface does not concern the topics. -/
theorem of_global (h : bd.NoTopics) {bd' : Bandit} (i : Name)
    (hother : ∀ key, key ≠ (Bucket.global i).key → bd'.active key = bd.active key) :
    bd'.NoTopics := by
  intro b hb
  have hne : b.key ≠ (Bucket.global i).key := fun hk => by
    rw [Bucket.key_inj.mp hk] at hb
    cases hb
  rw [hother b.key hne]
  exact h b hb

theorem deletePrefix (h : bd.NoTopics) (p : String) : (bd.deletePrefix p).NoTopics := by
  intro b hb
  rw [deletePrefix_active]
  split_ifs
  · rfl
  · exact h b hb

end Bandit.NoTopics

namespace Process

variable [Field F] [LinearOrder F] (sqrt : F → F) (cfg : Tunables)

/-- A query of a topic finds it below the sample floor. -/
def Cold (s : Process F) : Op F → Prop
  | .pickWithTopic intent repo topic sh _ =>
    isGlobalBucket repo topic = true ∨
      s.redis.sampleCount sqrt cfg intent repo topic sh < cfg.sampleFloor
  | _ => True

/-- Every query of a topic during the run finds it below the sample floor. -/
def ColdRun : Process F → List (Op F) → Prop
  | _, [] => True
  | s, op :: ops => s.Cold sqrt cfg op ∧ ColdRun (s.step sqrt cfg op) ops

/-- The system without topics: a query of a topic reads the intent-global profile, a reward for a
topic is dropped, every other operation is what it is. -/
def coldExec (s : Process F) (op : Op F) : Out × Process F :=
  match op with
  | .pickWithTopic intent _ _ _ _ =>
    if op.onTopic then
      (.served (Picker.serve (s.redis.liveGlobal intent) false), s.read intent)
    else s.exec sqrt cfg op.toGlobal
  | .updateWithTopic .. => if op.onTopic then (.updated, s) else s.exec sqrt cfg op.toGlobal
  | op => s.exec sqrt cfg op

def coldSteps (s : Process F) (ops : List (Op F)) : Process F :=
  ops.foldl (fun s op => (s.coldExec sqrt cfg op).2) s

def coldOuts : Process F → List (Op F) → List Out
  | _, [] => []
  | s, op :: ops => (s.coldExec sqrt cfg op).1 :: coldOuts (s.coldExec sqrt cfg op).2 ops

variable {sqrt} {cfg}

/-- The step lemma: a cold operation does what it does in the system without topics. -/
theorem exec_cold {s : Process F} (h : s.picker.bandit.NoTopics) {op : Op F}
    (hc : s.Cold sqrt cfg op) : s.exec sqrt cfg op = s.coldExec sqrt cfg op := by
  cases op with
  | pickWithTopic intent repo topic sh d =>
    rw [exec_pickWithTopic]
    cases hg : isGlobalBucket repo topic with
    | true => simp [coldExec, Op.onTopic, Op.toGlobal, hg]
    | false =>
      have hn : s.redis.sampleCount sqrt cfg intent repo topic sh < cfg.sampleFloor :=
        hc.resolve_left (by simp [hg])
      simp [coldExec, Op.onTopic, hg, hn]
  | updateWithTopic intent repo topic profileID adjusted weight now =>
    rw [exec_updateWithTopic]
    cases hg : isGlobalBucket repo topic with
    | true =>
      rw [Bucket.of_global hg]
      simp [coldExec, Op.onTopic, Op.toGlobal, hg, exec_update]
    | false =>
      -- the slot of the topic is empty, so the reward is dropped
      have htopic : (Bucket.of intent repo topic).isTopic = true := by
        rw [Bucket.of_topic hg]
        simp [Bucket.isTopic, hg]
      have hnone := h _ htopic
      have hr : s.rewarded ⟨.of intent repo topic, profileID, adjusted, weight, now⟩ = s := by
        unfold rewarded rewardedAt
        rw [hnone]
        split_ifs <;> rfl
      rw [hr]
      simp [coldExec, Op.onTopic, hg]
  | pick intent d => rfl
  | update intent profileID adjusted weight now => rfl
  | reset intent now => rfl
  | resolve intent repo embed queryText sh now => rfl

omit [Field F] [LinearOrder F] in
/-- A reward on an intent-global surface concerns its slot alone. -/
theorem rewarded_global (s : Process F) {w : Reward} {i : Name} (hw : w.bucket = .global i)
    {key : String} (hk : key ≠ (Bucket.global i).key) :
    (s.rewarded w).picker.bandit.active key = s.picker.bandit.active key := by
  rw [← hw] at hk
  rcases s.rewarded_cases w with hr | ⟨c, -, -, hr⟩
  · rw [hr]
  · rw [hr]
    exact s.picker.bandit.afterVerdict_active_ne s.redis w.now _ hk

/-- A cold operation generates no candidate for a topic. -/
theorem noTopics_step {s : Process F} (h : s.picker.bandit.NoTopics) {op : Op F}
    (hc : s.Cold sqrt cfg op) : (s.step sqrt cfg op).picker.bandit.NoTopics := by
  -- a pick or an update without a topic touches the global bucket alone
  have hpick : ∀ (i : Name) (d : Draws),
      (s.step sqrt cfg (.pick i d)).picker.bandit.NoTopics := by
    intro i d
    rw [step, exec_pick]
    exact h.of_global i fun key hk => Bandit.select_active_ne cfg s.picker.bandit _ 0 d hk
  have hupdate : ∀ (i : Name) (profileID : String) (adjusted weight : ℚ) (now : Int),
      (s.step sqrt cfg (.update i profileID adjusted weight now)).picker.bandit.NoTopics := by
    intro i profileID adjusted weight now
    rw [step, exec_update]
    exact h.of_global i fun key hk => rewarded_global s rfl hk
  -- as long as no topic is known, the step is that of the cold execution
  rw [step, exec_cold h hc]
  cases op with
  | pick i d => exact hpick i d
  | pickWithTopic i repo topic sh d =>
    rw [coldExec]
    split_ifs
    · exact h
    · exact hpick i d
  | update i profileID adjusted weight now => exact hupdate i profileID adjusted weight now
  | updateWithTopic i repo topic profileID adjusted weight now =>
    rw [coldExec]
    split_ifs
    · exact h
    · exact hupdate i profileID adjusted weight now
  | reset i now =>
    -- a reset deletes tests, so it adds none
    obtain ⟨d, err, he, -⟩ := exec_reset sqrt cfg s i now
    change (s.exec sqrt cfg (.reset i now)).2.picker.bandit.NoTopics
    rw [he]
    exact h.deletePrefix _
  | resolve i repo embed queryText sh now =>
    change (s.exec sqrt cfg (.resolve i repo embed queryText sh now)).2.picker.bandit.NoTopics
    rw [exec_resolve]
    split_ifs
    · exact h
    · exact h

/-- The run lemma. -/
theorem cold_steps {s : Process F} (h : s.picker.bandit.NoTopics) (ops : List (Op F))
    (hc : s.ColdRun sqrt cfg ops) :
    s.outs sqrt cfg ops = s.coldOuts sqrt cfg ops ∧
      s.steps sqrt cfg ops = s.coldSteps sqrt cfg ops ∧
      (s.steps sqrt cfg ops).picker.bandit.NoTopics := by
  induction ops generalizing s with
  | nil => exact ⟨rfl, rfl, h⟩
  | cons op ops ih =>
    obtain ⟨hop, hrest⟩ := hc
    have hexec := exec_cold h hop
    obtain ⟨houts, hsteps, hno⟩ := ih (noTopics_step h hop) hrest
    refine ⟨?_, ?_, hno⟩
    · rw [outs, coldOuts, ← hexec]
      exact congrArg _ houts
    · rw [steps_cons, hsteps, step, hexec]
      rfl

end Process

end Devrouter
