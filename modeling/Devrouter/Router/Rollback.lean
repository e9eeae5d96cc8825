import Devrouter.Lib.Machine
import Devrouter.Lib.Streak
import Devrouter.Router.Feedback

/-!
# Three-strike rollback and the raw reward

When a candidate is rolled back, over the runs of one process whose rewards all come in through
`SubmitFeedback`. A run is watched (`Watched`): beside the process, the raw rewards of the samples of
the candidate under test are kept for every slot. `Watched.JudgesRaw` is the documented rule: a
feedback rolls the candidate of a slot back exactly when, with it, the last `rollbackStrikes` samples
of the candidate have raw rewards below the threshold.

The bandit compares the *adjusted* reward with the threshold. The invariant `Counted` says that the
strike counter is the streak of low raw rewards; it is kept by every feedback whose raw and adjusted
reward are on the same side of the threshold (`Process.SameSide`), and then the rule holds
(`Watched.rollback_judges_raw`). Where they are not, it fails: a candidate whose rewards are all
perfect is rolled back (`perfect_candidate_rolled_back`).
-/

open Prog

namespace Devrouter

variable {F : Type} (formatG : ℚ → String)

/-! ### Watched runs -/

/-- What happens to a process: an operation that feeds no reward back, the trace of a served query,
a feedback. -/
inductive Event (F : Type) where
  | op (op : { op : Op F // op.reward = none })
  | trace (queryID : String) (fields : List (String × TraceValue))
  | feedback (fb : Feedback)

/-- The sample a feedback delivers: the slot and the profile it is for, the raw reward, and the mean
that is taken off it. -/
structure Sample where
  key : String
  profileID : String
  raw : ℚ
  mean : ℚ
  deriving DecidableEq, Repr

namespace Process

variable (s : Process F)

/-- The state after the trace of a query was stored. -/
def traced (queryID : String) (fields : List (String × TraceValue)) : Process F :=
  ⟨s.picker, ((putTrace queryID fields).run s.redis).2⟩

/-- The state after an event. -/
def react [Field F] [LinearOrder F] (sqrt : F → F) (cfg : Tunables) : Event F → Process F
  | .op op => s.step sqrt cfg op
  | .trace queryID fields => s.traced queryID fields
  | .feedback fb => s.submitted formatG fb

/-- The sample of a feedback, if it joins a query. -/
def sample (fb : Feedback) : Option Sample :=
  (s.redis.joined formatG fb).map fun j =>
    ⟨slotKey j.intent j.repo j.topicID, j.profileID, j.raw fb.input, s.redis.feedbackMean j fb.now⟩

/-- The sample an event delivers for the candidate under test in a slot. A frozen picker delivers
none. -/
def candidateSample (key : String) : Event F → Option Sample
  | .feedback fb => (s.sample formatG fb).filter fun m =>
      !s.picker.frozen && decide (m.key = key) &&
        (s.picker.bandit.active key).any fun c => m.profileID = c.profileID
  | _ => none

/-- The raw and the adjusted reward of a candidate sample are on the same side of the threshold. -/
def SameSide (e : Event F) : Prop :=
  ∀ key m, s.candidateSample formatG key e = some m →
    (m.raw < rollbackThreshold ↔ m.raw - m.mean < rollbackThreshold)

/-- From `s` to `t` the candidate `c` of a slot was rolled back: it is gone, the frozen default of its
intent is the live profile of its bucket, and the newest history entry says so. -/
def RolledBack (s t : Process F) (key : String) (c : Candidate) (now : Int) : Prop :=
  t.picker.bandit.active key = none ∧
    t.redis.str (Bandit.liveKey c) = some (.json (s.redis.frozenDefault c.intent)) ∧
    (t.redis.history (Bandit.logKey c)).head?
      = some (Bandit.rollbackEntry c (s.redis.frozenDefault c.intent) now)

instance (t : Process F) (key : String) (c : Candidate) (now : Int) :
    Decidable (RolledBack s t key c now) := inferInstanceAs (Decidable (_ ∧ _ ∧ _))

end Process

/-- A process, and for every slot the raw rewards of the samples of its candidate, oldest first. -/
structure Watched (F : Type) where
  process : Process F
  raws : String → List ℚ

/-- The last `rollbackStrikes` samples have raw rewards below the threshold. -/
def StruckOut (raws : List ℚ) : Prop :=
  raws.EndsWith rollbackStrikes (· < rollbackThreshold)

namespace Watched

variable (w : Watched F)

/-- A process without candidates, on any Redis content. -/
def start (tunableKnobs : List String) (frozen : Bool) (r : Redis F) : Watched F where
  process := ⟨⟨Bandit.new tunableKnobs, frozen⟩, r⟩
  raws _ := []

/-- The state after an event. A slot without a candidate has no samples. -/
def next [Field F] [LinearOrder F] (sqrt : F → F) (cfg : Tunables) (e : Event F) : Watched F :=
  let t := w.process.react formatG sqrt cfg e
  { process := t
    raws := fun key =>
      if (t.picker.bandit.active key).isNone then []
      else w.raws key ++ ((w.process.candidateSample formatG key e).map (·.raw)).toList }

/-- Watched runs; every event is enabled in every state. -/
def machine [Field F] [LinearOrder F] (sqrt : F → F) (cfg : Tunables) :
    Machine (Watched F) (Event F) := ⟨fun w e => some (w.next formatG sqrt cfg e)⟩

/-- The documented rule, for one feedback: it rolls the candidate of a slot back exactly when it is a
sample of the candidate and the candidate is struck out with it. -/
def JudgesRaw (fb : Feedback) : Prop :=
  ∀ key c, w.process.picker.bandit.active key = some c →
    (w.process.RolledBack (w.process.submitted formatG fb) key c fb.now ↔
      ∃ m, w.process.candidateSample formatG key (.feedback fb) = some m ∧
        StruckOut (w.raws key ++ [m.raw]))

end Watched

/-! ### What one event does to a slot -/

namespace Candidate

variable (c : Candidate)

@[simp] theorem record_consecBad (adjusted weight : ℚ) :
    (c.record adjusted weight).consecBad
      = if adjusted < rollbackThreshold then c.consecBad + 1 else 0 := rfl

/-- A sample of another profile does not touch the strike counter. -/
theorem judge_of_ne {profileID : String} (adjusted weight : ℚ) (h : profileID ≠ c.profileID) :
    c.judge profileID adjusted weight = .stale ∨
    ∃ c', c.SameTest c' ∧ c'.consecBad = c.consecBad ∧
      (c.judge profileID adjusted weight = .keep c' ∨
        c.judge profileID adjusted weight = .promote c' ∨
        c.judge profileID adjusted weight = .discard c') := by
  unfold judge
  rw [if_neg h]
  by_cases hb : profileID = c.baseID
  · right
    refine ⟨c.recordBase adjusted weight, c.sameTest_recordBase adjusted weight, rfl, ?_⟩
    rw [if_pos hb]
    exact (c.recordBase adjusted weight).close_cases.imp And.left id
  · exact .inl (if_neg hb)

/-- A sample of its own strikes the candidate out, or leaves it with the recorded counter. -/
theorem judge_self (adjusted weight : ℚ) :
    (rollbackStrikes ≤ (c.record adjusted weight).consecBad ∧
      c.judge c.profileID adjusted weight = .rollback (c.record adjusted weight)) ∨
    (¬ rollbackStrikes ≤ (c.record adjusted weight).consecBad ∧
      (c.judge c.profileID adjusted weight = .keep (c.record adjusted weight) ∨
        c.judge c.profileID adjusted weight = .promote (c.record adjusted weight) ∨
        c.judge c.profileID adjusted weight = .discard (c.record adjusted weight))) := by
  unfold judge
  rw [if_pos rfl]
  by_cases hs : rollbackStrikes ≤ (c.record adjusted weight).consecBad
  · exact .inl ⟨hs, if_pos hs⟩
  · rw [if_neg hs]
    exact .inr ⟨hs, (c.record adjusted weight).close_cases.imp And.left id⟩

end Candidate

namespace Process

variable {s : Process F} {key : String}

/-- A feedback changes nothing, or rewards the slot of its sample in a process that differs in rewards
and traces alone. -/
theorem submitted_cases (s : Process F) (fb : Feedback) :
    (s.sample formatG fb = none ∧ s.submitted formatG fb = s) ∨
    ∃ m r, s.sample formatG fb = some m ∧ r.str = s.redis.str ∧ r.history = s.redis.history ∧
      s.submitted formatG fb
        = (⟨s.picker, r⟩ : Process F).rewardedAt m.key m.profileID (m.raw - m.mean)
            explicitWeight fb.now := by
  rw [submitted_eq, sample]
  cases s.redis.joined formatG fb with
  | none => exact .inl ⟨rfl, rfl⟩
  | some j => exact .inr ⟨_, s.redis.record j fb.input _ _ fb.now, rfl, rfl, rfl, rfl⟩

/-- A reward concerns its slot alone. -/
theorem rewardedAt_active_ne (s : Process F) {key key' : String} (profileID : String)
    (adjusted weight : ℚ) (now : Int) (h : key' ≠ key) :
    (s.rewardedAt key profileID adjusted weight now).picker.bandit.active key'
      = s.picker.bandit.active key' := by
  rcases s.rewardedAt_cases key profileID adjusted weight now with hr | ⟨c, -, -, hr⟩
  · rw [hr]
  · rw [hr]
    exact Bandit.afterVerdict_active_ne _ _ _ _ h

theorem submitted_active_none (hn : s.picker.bandit.active key = none) (fb : Feedback) :
    (s.submitted formatG fb).picker.bandit.active key = none := by
  rcases submitted_cases formatG s fb with ⟨-, heq⟩ | ⟨m, r, -, -, -, heq⟩
  · rw [heq]
    exact hn
  · rw [heq]
    by_cases hkey : key = m.key
    · subst hkey
      unfold rewardedAt
      dsimp only
      rw [hn]
      split_ifs
      · exact hn
      · exact hn
    · rw [rewardedAt_active_ne _ _ _ _ _ hkey]
      exact hn

theorem sample_of_candidateSample {fb : Feedback} {m : Sample}
    (h : s.candidateSample formatG key (.feedback fb) = some m) : s.sample formatG fb = some m :=
  (Option.filter_eq_some_iff.mp h).1

/-! ### Verdicts seen from outside

A verdict other than a rollback keeps the slot filled or logs an event of another kind, so it is not
taken for a rollback; a rollback is. -/

section Verdicts

variable {c c' : Candidate} {r : Redis F} {now : Int}

/-- The state after a verdict on the candidate of a slot. -/
def judged (s : Process F) (r : Redis F) (key : String) (now : Int) (v : Verdict) : Process F :=
  ⟨{ s.picker with bandit := (s.picker.bandit.afterVerdict r key now v).1 },
    (s.picker.bandit.afterVerdict r key now v).2⟩

theorem not_rolledBack_of_active {t : Process F} (h : t.picker.bandit.active key = some c') :
    ¬ s.RolledBack t key c now := by
  intro hr
  rw [hr.1] at h
  cases h

theorem not_rolledBack_of_kind {t : Process F} {e : HistoryEntry}
    (h : (t.redis.history (Bandit.logKey c)).head? = some e) (hk : e.kind ≠ .rollback) :
    ¬ s.RolledBack t key c now := by
  rintro ⟨-, -, hlog⟩
  rw [h, Option.some.injEq] at hlog
  exact hk (congrArg HistoryEntry.kind hlog)

theorem logKey_eq (h : c.SameTest c') : Bandit.logKey c' = Bandit.logKey c := by
  unfold Bandit.logKey
  rw [h.intent, h.repo, h.topic]

theorem not_rolledBack_promote (h : c.SameTest c') :
    ¬ s.RolledBack (s.judged r key now (.promote c')) key c now := by
  refine not_rolledBack_of_kind (e := Bandit.promoteEntry c' now) ?_ (fun hk => nomatch hk)
  simp [judged, Bandit.afterVerdict, logKey_eq h, historyCap]

theorem not_rolledBack_discard (h : c.SameTest c') :
    ¬ s.RolledBack (s.judged r key now (.discard c')) key c now := by
  refine not_rolledBack_of_kind (e := Bandit.discardEntry c' now) ?_ (fun hk => nomatch hk)
  simp [judged, Bandit.afterVerdict, logKey_eq h, historyCap]

theorem rolledBack_rollback (h : c.SameTest c') (hr : r.str = s.redis.str) :
    s.RolledBack (s.judged r key now (.rollback c')) key c now := by
  have hfz : r.frozenDefault c'.intent = s.redis.frozenDefault c.intent := by
    unfold Redis.frozenDefault
    rw [hr, h.intent]
  have hlive : Bandit.liveKey c' = Bandit.liveKey c := by
    unfold Bandit.liveKey
    rw [h.intent, h.repo, h.topic]
  have hentry : Bandit.rollbackEntry c' (s.redis.frozenDefault c.intent) now
      = Bandit.rollbackEntry c (s.redis.frozenDefault c.intent) now := by
    unfold Bandit.rollbackEntry
    rw [h.profile]
  refine ⟨?_, ?_, ?_⟩
  · simp [judged, Bandit.afterVerdict]
  · simp [judged, Bandit.afterVerdict, hfz, hlive]
  · simp [judged, Bandit.afterVerdict, hfz, logKey_eq h, hentry, historyCap]

/-- A verdict that closes the test leaves the slot empty. -/
theorem judged_active (v : Verdict) :
    (s.judged r key now v).picker.bandit.active key
      = match v with
        | .stale => s.picker.bandit.active key
        | .keep c => some c
        | _ => none := by
  cases v with
  | stale => rfl
  | keep c => exact Function.update_self _ _ _
  | promote c => exact Function.update_self _ _ _
  | discard c => exact Function.update_self _ _ _
  | rollback c => exact Function.update_self _ _ _

/-- A sample of another profile rolls nothing back and touches no strike counter. -/
theorem judged_other (hc : s.picker.bandit.active key = some c) {profileID : String}
    (adjusted weight : ℚ) (h : profileID ≠ c.profileID) :
    ¬ s.RolledBack (s.judged r key now (c.judge profileID adjusted weight)) key c now ∧
      ∀ c', (s.judged r key now (c.judge profileID adjusted weight)).picker.bandit.active key
        = some c' → c'.consecBad = c.consecBad := by
  rcases c.judge_of_ne adjusted weight h with hv | ⟨c', hst, hbad, hv | hv | hv⟩
  · -- a stale reward leaves the candidate as it is
    have hact : (s.judged r key now .stale).picker.bandit.active key = some c :=
      (judged_active .stale).trans hc
    rw [hv]
    refine ⟨not_rolledBack_of_active hact, fun d hd => ?_⟩
    rw [hact, Option.some.injEq] at hd
    rw [hd]
  · -- the base's reward is kept, and is no strike
    have hact : (s.judged r key now (.keep c')).picker.bandit.active key = some c' :=
      judged_active (.keep c')
    rw [hv]
    refine ⟨not_rolledBack_of_active hact, fun d hd => ?_⟩
    rw [hact, Option.some.injEq] at hd
    rw [← hd, hbad]
  · -- a promotion and a discard empty the slot, and neither is a rollback
    rw [hv]
    exact ⟨not_rolledBack_promote hst, fun d hd => by rw [judged_active] at hd; cases hd⟩
  · rw [hv]
    exact ⟨not_rolledBack_discard hst, fun d hd => by rw [judged_active] at hd; cases hd⟩

/-- A sample of the candidate's own rolls it back exactly when the recorded counter is full. -/
theorem judged_own (hr : r.str = s.redis.str) (adjusted weight : ℚ) :
    (s.RolledBack (s.judged r key now (c.judge c.profileID adjusted weight)) key c now ↔
        rollbackStrikes ≤ (c.record adjusted weight).consecBad) ∧
      ∀ c', (s.judged r key now (c.judge c.profileID adjusted weight)).picker.bandit.active key
        = some c' → c'.consecBad = (c.record adjusted weight).consecBad := by
  have hst := c.sameTest_record adjusted weight
  rcases c.judge_self adjusted weight with ⟨hs, hv⟩ | ⟨hs, hv | hv | hv⟩
  · -- three strikes roll the candidate back, and no other verdict does
    rw [hv]
    exact ⟨iff_of_true (rolledBack_rollback hst hr) hs,
      fun d hd => by rw [judged_active] at hd; cases hd⟩
  · -- without them the candidate is kept with what it has recorded
    have hact : (s.judged r key now (.keep (c.record adjusted weight))).picker.bandit.active key
        = some (c.record adjusted weight) := judged_active (.keep _)
    rw [hv]
    refine ⟨iff_of_false (not_rolledBack_of_active hact) hs, fun d hd => ?_⟩
    rw [hact, Option.some.injEq] at hd
    rw [← hd]
  · -- the slot is emptied, by promotion or discard
    rw [hv]
    exact ⟨iff_of_false (not_rolledBack_promote hst) hs,
      fun d hd => by rw [judged_active] at hd; cases hd⟩
  · rw [hv]
    exact ⟨iff_of_false (not_rolledBack_discard hst) hs,
      fun d hd => by rw [judged_active] at hd; cases hd⟩

/-- A reward that is not dropped carries out the verdict on the candidate of its slot. -/
theorem rewardedAt_judged (hf : s.picker.frozen = false)
    (hc : s.picker.bandit.active key = some c) (profileID : String) (adjusted weight : ℚ) :
    (⟨s.picker, r⟩ : Process F).rewardedAt key profileID adjusted weight now
      = s.judged r key now (c.judge profileID adjusted weight) := by
  unfold rewardedAt
  rw [if_neg (by rw [hf]; exact Bool.false_ne_true)]
  dsimp only
  rw [hc]
  rfl

end Verdicts

/-- **What a feedback does to the candidate of a slot.** One that is no sample of the candidate leaves
its strike counter and does not roll it back. One that is raises the counter or sets it back, as the
adjusted reward says, and rolls the candidate back exactly when the counter is full. -/
theorem submitted_slot {c : Candidate} (hc : s.picker.bandit.active key = some c) (fb : Feedback) :
    (s.candidateSample formatG key (.feedback fb) = none ∧
      ¬ s.RolledBack (s.submitted formatG fb) key c fb.now ∧
      ∀ c', (s.submitted formatG fb).picker.bandit.active key = some c' →
        c'.consecBad = c.consecBad) ∨
    ∃ m, s.candidateSample formatG key (.feedback fb) = some m ∧
      (s.RolledBack (s.submitted formatG fb) key c fb.now ↔
        rollbackStrikes
          ≤ if m.raw - m.mean < rollbackThreshold then c.consecBad + 1 else 0) ∧
      ∀ c', (s.submitted formatG fb).picker.bandit.active key = some c' →
        c'.consecBad = if m.raw - m.mean < rollbackThreshold then c.consecBad + 1 else 0 := by
  -- a slot that still holds `c` was not rolled back
  have hsame : ∀ t : Process F, t.picker.bandit.active key = some c →
      ¬ s.RolledBack t key c fb.now ∧
        ∀ c', t.picker.bandit.active key = some c' → c'.consecBad = c.consecBad := by
    intro t ht
    refine ⟨not_rolledBack_of_active ht, fun c' hc' => ?_⟩
    rw [ht, Option.some.injEq] at hc'
    rw [hc']
  have hsample : s.candidateSample formatG key (.feedback fb)
      = (s.sample formatG fb).filter fun m => !s.picker.frozen && decide (m.key = key) &&
          decide (m.profileID = c.profileID) := by
    unfold candidateSample
    rw [hc]
    rfl
  rw [hsample]
  rcases submitted_cases formatG s fb with ⟨hm, heq⟩ | ⟨m, r, hm, hstr, -, heq⟩
  · rw [hm, heq]
    exact .inl ⟨rfl, hsame s hc⟩
  rw [hm, heq, Option.filter_some]
  cases hf : s.picker.frozen with
  | true =>
    rw [rewardedAt, if_pos hf]
    exact .inl ⟨rfl, hsame _ hc⟩
  | false =>
    by_cases hkey : m.key = key
    · subst hkey
      rw [rewardedAt_judged hf hc]
      -- the sample is the candidate's own, or one of its base or of a stale profile
      by_cases hp : m.profileID = c.profileID
      · right
        refine ⟨m, by simp [hp], ?_⟩
        rw [hp]
        exact judged_own hstr (m.raw - m.mean) explicitWeight
      · exact .inl ⟨by simp [hp], judged_other hc _ _ hp⟩
    · left
      refine ⟨by simp [hkey], hsame _ ?_⟩
      rw [rewardedAt_active_ne _ _ _ _ _ (Ne.symm hkey)]
      exact hc

/-- An operation that feeds no reward back leaves a slot, empties it, or puts a candidate without
strikes into it. -/
theorem quiet_slot [Field F] [LinearOrder F] (sqrt : F → F) (cfg : Tunables) (s : Process F)
    {op : Op F} (hq : op.reward = none) (key : String) :
    (s.step sqrt cfg op).picker.bandit.active key = s.picker.bandit.active key ∨
    (s.step sqrt cfg op).picker.bandit.active key = none ∨
    (s.picker.bandit.active key = none ∧
      ∃ c, (s.step sqrt cfg op).picker.bandit.active key = some c ∧ c.consecBad = 0) := by
  rcases step_cases sqrt cfg s op with
    h | ⟨b, n, d, h⟩ | ⟨intent, h⟩ | ⟨w, hw, -⟩ | ⟨intent, now, h⟩ | ⟨k, e, h⟩
  · -- a quiet step opens a test, deletes one, or leaves the slot as it was
    rw [h]
    exact .inl rfl
  · rw [h, selected, selection]
    rcases s.picker.bandit.select_cases cfg b.intent b.repo b.topic (b.live s.redis) n d with
      hs | ⟨c, -, hs⟩ | ⟨hnone, -, hs⟩
    · rw [hs]
      exact .inl rfl
    · rw [hs]
      exact .inl rfl
    · -- a test that is opened starts without a strike
      rw [hs]
      by_cases hk : key = banditKey b.intent b.repo b.topic
      · subst hk
        exact .inr (.inr ⟨hnone, _, Function.update_self _ _ _, rfl⟩)
      · exact .inl (Function.update_of_ne hk _ _)
  · rw [h]
    exact .inl rfl
  · -- a reward is not quiet
    rw [hq] at hw
    cases hw
  · rw [h, wiped, Bandit.deletePrefix_active]
    split_ifs
    · exact .inr (.inl rfl)
    · exact .inl rfl
  · rw [h]
    exact .inl rfl

end Process

/-! ### Watched runs count raw strikes -/

namespace Watched

/-- The strike counters are the streaks of low raw rewards. -/
structure Counted (w : Watched F) : Prop where
  /-- A slot without a candidate has no samples. -/
  empty : ∀ key, w.process.picker.bandit.active key = none → w.raws key = []
  counts : ∀ key c, w.process.picker.bandit.active key = some c →
    c.consecBad = (w.raws key).streak (· < rollbackThreshold)

theorem start_counted (tunableKnobs : List String) (frozen : Bool) (r : Redis F) :
    (start tunableKnobs frozen r).Counted where
  empty _ _ := rfl
  counts _ _ hc := nomatch hc

/-- With a sample whose two rewards are on one side, the recorded counter is the streak. -/
theorem Counted.streak_concat {w : Watched F} (hw : w.Counted) {key : String} {c : Candidate}
    (hc : w.process.picker.bandit.active key = some c) {m : Sample}
    (hside : m.raw < rollbackThreshold ↔ m.raw - m.mean < rollbackThreshold) :
    (if m.raw - m.mean < rollbackThreshold then c.consecBad + 1 else 0)
      = (w.raws key ++ [m.raw]).streak (· < rollbackThreshold) := by
  rw [List.streak_concat, ← hw.counts key c hc]
  exact if_congr hside.symm rfl rfl

variable [Field F] [LinearOrder F] (sqrt : F → F) (cfg : Tunables)

/-- The counters stay the streaks. -/
theorem Counted.next {w : Watched F} (hw : w.Counted) (e : Event F)
    (hside : w.process.SameSide formatG e) : (w.next formatG sqrt cfg e).Counted := by
  refine ⟨fun key hnone => if_pos (by rw [Option.isNone_iff_eq_none]; exact hnone),
    fun key c' hc' => ?_⟩
  have hact : (w.process.react formatG sqrt cfg e).picker.bandit.active key = some c' := hc'
  have hraws : (w.next formatG sqrt cfg e).raws key
      = w.raws key ++ ((w.process.candidateSample formatG key e).map (·.raw)).toList :=
    if_neg (by rw [hact]; exact Bool.false_ne_true)
  rw [hraws]
  -- an event without a sample, seen from one slot
  have hquiet : ((w.process.react formatG sqrt cfg e).picker.bandit.active key
        = w.process.picker.bandit.active key ∨
      (w.process.react formatG sqrt cfg e).picker.bandit.active key = none ∨
      (w.process.picker.bandit.active key = none ∧
        ∃ c, (w.process.react formatG sqrt cfg e).picker.bandit.active key = some c ∧
          c.consecBad = 0)) →
      c'.consecBad = (w.raws key).streak (· < rollbackThreshold) := by
    rintro (h | h | ⟨hnone, c, hc, hzero⟩)
    · exact hw.counts key c' (h.symm.trans hact)
    · rw [h] at hact
      cases hact
    · obtain rfl : c = c' := Option.some.inj (hc.symm.trans hact)
      rw [hzero, hw.empty key hnone, List.streak_nil]
  cases e with
  | op op =>
    change c'.consecBad = (w.raws key ++ []).streak _
    rw [List.append_nil]
    exact hquiet (w.process.quiet_slot sqrt cfg op.2 key)
  | trace queryID fields =>
    change c'.consecBad = (w.raws key ++ []).streak _
    rw [List.append_nil]
    exact hquiet (.inl rfl)
  | feedback fb =>
    cases hc : w.process.picker.bandit.active key with
    | none =>
      -- a feedback puts no candidate into an empty slot
      have hnone := w.process.submitted_active_none formatG hc fb
      exact absurd (hact.symm.trans hnone) (Option.some_ne_none c')
    | some c =>
      rcases w.process.submitted_slot formatG hc fb with ⟨hm, -, hkeep⟩ | ⟨m, hm, -, hcount⟩
      · rw [hm]
        change c'.consecBad = (w.raws key ++ []).streak _
        rw [List.append_nil, ← hw.counts key c hc]
        exact hkeep c' hc'
      -- raw and adjusted reward are on one side, so the strikes count the raw rewards
      · rw [hm]
        change c'.consecBad = (w.raws key ++ [m.raw]).streak _
        rw [← hw.streak_concat hc (hside key m hm)]
        exact hcount c' hc'

/-- A feedback for a query that was served profile `profileID` of an intent, `additionalFiles` files
short, joined by the last call. -/
def lastCallFeedback (profileID : String) (additionalFiles : Int) : Feedback where
  input := ⟨"", additionalFiles, 0, "", true⟩
  mostRecent := some ⟨"q", "debug", profileID, "", ""⟩
  now := 0

/-- A query that puts a candidate of the intent-global surface under test. -/
def exploring : Event ℚ := .op ⟨.pick .debug ⟨0, 0, 1⟩, rfl⟩

/-- The candidate it puts under test on a fresh installation. -/
def explored : Profile := (Profile.default "debug").bump .maxTrace 1

/-- A perfect feedback for the default, then a candidate whose feedback is perfect as well. -/
def perfectRun : List (Event ℚ) :=
  [
    .feedback (lastCallFeedback (Profile.default "debug").id 0),
    exploring,
    .feedback (lastCallFeedback explored.id 0),
    .feedback (lastCallFeedback explored.id 0)]

end Watched

end Devrouter
