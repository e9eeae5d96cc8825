import Mathlib.Data.List.Induction
import Devrouter.Heuristics.Knobs

/-!
# The audit history

For one process without Redis failures, started on an empty server: the history of a bucket replays to
its live profile, and what the bandit keeps in memory agrees with both.

What one operation can do to a bucket is `Logged`: nothing, the first write of the live profile
without an entry, a promotion or rollback that writes the live profile and pushes the entry that says
so, or a discard, whose entry names the profile that stays. `Process.step_logged` shows it of every
operation and every bucket. It needs the invariant `Process.Audited`: the candidates are sound
(`Bandit.Sound`, from the knob-safety development), below the thresholds that end a test, and the live
profiles are stored in the form they are read.

`Process.audit_replays` then goes along the run. A decision entry pushed last is the newest one; a
discard pushes the older entries back by one, and the trim to `historyCap` only removes from the far
end. As long as no decision was ever logged the live profile is the seed, `Bucket.SeededBy`.
-/

open Prog

namespace Devrouter

variable {F : Type}

/-- What one operation can do to the live profile and the history of a bucket; `promotes` says that
it promotes the bucket's candidate. -/
inductive Logged (promotes : Prop) (b : Bucket) (r r' : Redis F) : Prop
  /-- Neither changes. -/
  | idle (hs : r'.str b.liveKey = r.str b.liveKey) (hh : r'.history b.logKey = r.history b.logKey)
  /-- The live profile is written for the first time. -/
  | seeded (hn : r.str b.liveKey = none) (hs : r'.str b.liveKey = some (.json (b.live r)))
    (hh : r'.history b.logKey = r.history b.logKey)
  /-- A promotion. -/
  | promoted (e : HistoryEntry) (hp : promotes) (hk : e.kind = .promote) (hin : e.to_.InBounds)
    (hs : r'.str b.liveKey = some (.json e.to_))
    (hh : r'.history b.logKey = (e :: r.history b.logKey).take historyCap)
  /-- A rollback or a reset. -/
  | rolledBack (e : HistoryEntry) (hk : e.kind = .rollback)
    (ht : e.to_ = r.frozenDefault b.intent) (hs : r'.str b.liveKey = some (.json e.to_))
    (hh : r'.history b.logKey = (e :: r.history b.logKey).take historyCap)
  /-- A discard. -/
  | discarded (e : HistoryEntry) (hk : e.kind = .discard)
    (ht : r.str b.liveKey = some (.json e.to_)) (hs : r'.str b.liveKey = r.str b.liveKey)
    (hh : r'.history b.logKey = (e :: r.history b.logKey).take historyCap)

/-- The live profiles are stored in the form they are read: as JSON, within their bounds. -/
def Redis.Canonical (r : Redis F) : Prop :=
  ∀ (b : Bucket) v, r.str b.liveKey = some v → ∃ p : Profile, v = .json p ∧ p.InBounds

namespace Redis.Canonical

variable {r r' : Redis F}

/-- What is stored is what is served. -/
theorem stored_live (h : r.Canonical) {b : Bucket} {v : Stored} (hv : r.str b.liveKey = some v) :
    v = .json (b.live r) := by
  obtain ⟨p, rfl, hp⟩ := h b v hv
  rw [Bucket.live_of_stored hv, Stored.read_json, hp.clip_eq]

theorem of_logged (h : r.Canonical) {promotes : Bucket → Prop}
    (hl : ∀ b, Logged (promotes b) b r r') : r'.Canonical := by
  intro b v hv
  cases hl b with
  | idle hs hh => exact h b v (hs ▸ hv)
  | seeded hn hs hh =>
    rw [hs, Option.some.injEq] at hv
    exact ⟨_, hv.symm, b.live_inBounds r⟩
  | promoted e hp hk hin hs hh =>
    rw [hs, Option.some.injEq] at hv
    exact ⟨_, hv.symm, hin⟩
  | rolledBack e hk ht hs hh =>
    rw [hs, Option.some.injEq] at hv
    exact ⟨_, hv.symm, ht ▸ r.frozenDefault_inBounds _⟩
  | discarded e hk ht hs hh => exact h b v (hs ▸ hv)

end Redis.Canonical

/-- The invariant of a process. -/
structure Process.Audited (s : Process F) : Prop where
  sound : s.picker.bandit.Sound s.redis
  canonical : s.redis.Canonical
  /-- A candidate under test is below the thresholds that end the test. -/
  open_ : ∀ key c, s.picker.bandit.active key = some c →
    c.consecBad < rollbackStrikes ∧ ¬ c.WindowFull

/-! ### One step -/

namespace Logged

variable {r : Redis F} {promotes : Prop} (b : Bucket)

theorem refl : Logged promotes b r r := .idle rfl rfl

theorem mono {p q : Prop} {b : Bucket} {r r' : Redis F} (h : Logged p b r r') (hpq : p → q) :
    Logged q b r r' := by
  cases h with
  | idle hs hh => exact .idle hs hh
  | seeded hn hs hh => exact .seeded hn hs hh
  | promoted e hp hk hin hs hh => exact .promoted e (hpq hp) hk hin hs hh
  | rolledBack e hk ht hs hh => exact .rolledBack e hk ht hs hh
  | discarded e hk ht hs hh => exact .discarded e hk ht hs hh

/-- The live profile of a bucket is read. -/
theorem seed (b' : Bucket) : Logged promotes b r (b'.seed r) := by
  have hh : (b'.seed r).history b.logKey = r.history b.logKey := by rw [Bucket.seed_history]
  have hs := b.seed_str b' r
  split_ifs at hs
  · cases hv : r.str b.liveKey with
    | none =>
      rw [hv] at hs
      exact .seeded hv hs hh
    | some v =>
      rw [hv] at hs
      exact .idle (hs.trans hv.symm) hh
  · exact .idle hs hh

/-- A write to the live profile and the history of another bucket. -/
theorem other {b b' : Bucket} (hb : b ≠ b') (p : Profile) (e : HistoryEntry) :
    Logged promotes b r ((r.setStr b'.liveKey p).pushHistory b'.logKey e) := by
  refine .idle ?_ ?_
  · rw [Redis.pushHistory_str, Redis.setStr_str,
      Function.update_of_ne fun h => hb (Bucket.liveKey_inj.mp h)]
  · rw [Redis.pushHistory_history, Redis.setStr_history,
      Function.update_of_ne fun h => hb (Bucket.logKey_inj.mp h)]

/-- A write of the frozen default with the entry that says so. -/
theorem rollback (b' : Bucket) {e : HistoryEntry} (hk : e.kind = .rollback)
    (ht : e.to_ = r.frozenDefault b'.intent) :
    Logged promotes b r
      ((r.setStr b'.liveKey (r.frozenDefault b'.intent)).pushHistory b'.logKey e) := by
  by_cases hb : b = b'
  · subst hb
    refine .rolledBack e hk ht ?_ ?_
    · rw [Redis.pushHistory_str, Redis.setStr_str, Function.update_self, ht]
    · rw [Redis.pushHistory_history, Redis.setStr_history, Function.update_self]
  · exact other hb _ e

/-- A verdict on the candidate of the bucket `b'`. -/
theorem verdict (hr : r.Canonical) {bd : Bandit} {b' : Bucket} {c : Candidate} (hc : c.Sound b' r)
    (profileID : String) (adjusted weight : ℚ) (now : Int) :
    Logged (b = b' ∧ ∃ c', c.judge profileID adjusted weight = .promote c') b r
      (bd.afterVerdict r b'.key now (c.judge profileID adjusted weight)).2 := by
  rcases c.judge_cases profileID adjusted weight with hj | ⟨c', ht, hj⟩
  · rw [hj]
    exact refl b
  · have hlive : Bandit.liveKey c' = b'.liveKey := by
      rw [← hc.liveKey]
      unfold Bandit.liveKey
      rw [ht.intent, ht.repo, ht.topic]
    have hlog : Bandit.logKey c' = b'.logKey := by
      unfold Bandit.logKey Bucket.logKey
      rw [ht.intent, ht.repo, ht.topic, hc.intent, hc.repo, hc.topic]
    have hi : c'.intent = b'.intent := ht.intent.trans hc.intent
    have hin : c'.profile.InBounds := ht.profile ▸ hc.inBounds
    rcases hj with ⟨hj, -⟩ | hj | hj | hj
    · rw [hj]
      exact refl b
    · rw [hj, Bandit.afterVerdict, hlive, hlog, hin.clip_eq]
      by_cases hb : b = b'
      · subst hb
        refine .promoted (Bandit.promoteEntry c' now) ⟨rfl, c', rfl⟩ rfl hin ?_ ?_
        · rw [Redis.pushHistory_str, Redis.setStr_str, Function.update_self]
          rfl
        · rw [Redis.pushHistory_history, Redis.setStr_history, Function.update_self]
      · exact other hb _ _
    · rw [hj, Bandit.afterVerdict, hlog]
      by_cases hb : b = b'
      · subst hb
        -- the base that stays is what is stored
        obtain ⟨v, hv, -⟩ := hc.stored
        have hbase : c'.base = b.live r := ht.base.trans hc.base_eq
        refine .discarded (Bandit.discardEntry c' now) rfl ?_ rfl ?_
        · rw [hv, hr.stored_live hv, ← hbase]
          rfl
        · rw [Redis.pushHistory_history, Function.update_self]
      · refine .idle rfl ?_
        rw [Redis.pushHistory_history,
          Function.update_of_ne fun h => hb (Bucket.logKey_inj.mp h)]
    · rw [hj, Bandit.afterVerdict, hlive, hlog, hi]
      exact rollback b b' rfl rfl

/-- A reset of an intent. -/
theorem reset (intent : String) (now : Int) :
    Logged promotes b r ((r.setStr (currentKey intent) (r.frozenDefault intent)).pushHistory
      (historyKey intent) (Bandit.resetEntry (r.frozenDefault intent) now)) := by
  by_cases hb : b = .global b.intent ∧ b.intent.str = intent
  · obtain ⟨-, rfl⟩ := hb
    exact rollback b (.global b.intent) rfl rfl
  · refine .idle ?_ ?_
    · rw [Redis.pushHistory_str, Redis.setStr_str,
        Function.update_of_ne fun h => hb (Bucket.liveKey_eq_currentKey.mp h)]
    · rw [Redis.pushHistory_history, Redis.setStr_history,
        Function.update_of_ne fun h => hb (Bucket.logKey_eq_historyKey.mp h)]

end Logged

namespace Process

/-- The operation promotes the candidate of the bucket `b`. -/
def Promotes (s : Process F) (op : Op F) (b : Bucket) : Prop :=
  ∃ w c c', op.reward = some w ∧ w.bucket = b ∧ s.picker.frozen = false ∧
    s.picker.bandit.active b.key = some c ∧
    c.judge w.profileID w.adjusted w.weight = .promote c'

variable [Field F] [LinearOrder F] (sqrt : F → F) (cfg : Tunables) {s : Process F}

/-- **One operation on one bucket.** -/
theorem step_logged (h : s.Audited) (op : Op F) (b : Bucket) :
    Logged (s.Promotes op b) b s.redis (s.step sqrt cfg op).redis := by
  rcases s.step_cases sqrt cfg op with hs | ⟨b', n, d, hs⟩ | ⟨i, hs⟩ | ⟨w, hw, hs⟩ |
    ⟨intent, now, hs⟩ | ⟨key, e, hs⟩
  · -- an operation seeds a bucket, judges a candidate, resets an intent, or leaves the store alone
    rw [hs]
    exact .refl b
  · rw [hs]
    exact .seed b b'
  · rw [hs]
    exact .seed b (.global i)
  · rw [hs]
    rcases s.rewarded_cases w with hr | ⟨c, hf, hc, hr⟩
    · rw [hr]
      exact .refl b
    · -- the candidate that is judged is the one of this bucket
      rw [hr]
      obtain ⟨b', hb', hsound⟩ := h.sound _ c hc
      obtain rfl : b' = w.bucket := Bucket.key_inj.mp hb'
      have hp : b = w.bucket ∧ (∃ c', c.judge w.profileID w.adjusted w.weight = .promote c') →
          s.Promotes op b := by
        rintro ⟨rfl, c', hj⟩
        exact ⟨w, c, c', hw, rfl, hf, hc, hj⟩
      exact (Logged.verdict b h.canonical hsound w.profileID w.adjusted w.weight w.now).mono hp
  · rw [hs]
    exact .reset b intent now
  · rw [hs]
    exact .idle rfl rfl

/-- A new candidate has no sample, so nothing to decide on. -/
theorem fresh_open (intent repo topic : String) (base cand : Profile) :
    (Candidate.fresh intent repo topic base cand).consecBad < rollbackStrikes ∧
      ¬ (Candidate.fresh intent repo topic base cand).WindowFull := by
  refine ⟨Nat.zero_lt_succ _, fun hw => ?_⟩
  have h20 : promotionWindow ≤ 0 := hw.1
  exact absurd h20 (Nat.not_succ_le_zero _)

/-- **The step lemma.** -/
theorem Audited.step (h : s.Audited) (op : Op F) : (s.step sqrt cfg op).Audited where
  sound := (run_of_wp (Op.prog_wp sqrt cfg h.sound op)).2
  canonical := h.canonical.of_logged fun b => step_logged sqrt cfg h op b
  open_ := by
    intro key c hc
    rcases s.step_cases sqrt cfg op with hs | ⟨b, n, d, hs⟩ | ⟨i, hs⟩ | ⟨w, -, hs⟩ |
      ⟨intent, now, hs⟩ | ⟨key', e, hs⟩
    · rw [hs] at hc
      exact h.open_ key c hc
    · rw [hs] at hc
      change (s.selection cfg b n d).2.active key = some c at hc
      unfold selection at hc
      -- only a selection puts a candidate, and it puts a fresh one
      rcases s.picker.bandit.select_cases cfg b.intent b.repo b.topic (b.live s.redis) n d with
        hsel | ⟨c', -, hsel⟩ | ⟨-, -, hsel⟩
      · rw [hsel] at hc
        exact h.open_ key c hc
      · rw [hsel] at hc
        exact h.open_ key c hc
      · rw [hsel] at hc
        rcases Bandit.active_of_put hc with ⟨-, rfl⟩ | ⟨-, hc⟩
        · exact fresh_open _ _ _ _ _
        · exact h.open_ key c hc
    · rw [hs] at hc
      exact h.open_ key c hc
    · rw [hs] at hc
      rcases s.rewarded_cases w with hr | ⟨c₀, -, ha, hr⟩
      · rw [hr] at hc
        exact h.open_ key c hc
      · rw [hr] at hc
        dsimp only at hc
        -- a candidate that a decision drops is gone, one that is kept is below the thresholds
        have hdel : (s.picker.bandit.delete w.bucket.key).active key = some c →
            c.consecBad < rollbackStrikes ∧ ¬ c.WindowFull :=
          fun hc => h.open_ key c (Bandit.active_of_delete hc).2
        rcases c₀.judge_cases w.profileID w.adjusted w.weight with hj | ⟨c', -, hj⟩
        · rw [hj] at hc
          exact h.open_ key c hc
        · rcases hj with ⟨hj, hw, hb⟩ | hj | hj | hj
          · rw [hj] at hc
            rcases Bandit.active_of_put hc with ⟨-, rfl⟩ | ⟨-, hc⟩
            · exact ⟨hb (h.open_ _ c₀ ha).1, hw⟩
            · exact h.open_ key c hc
          · rw [hj] at hc
            exact hdel hc
          · rw [hj] at hc
            exact hdel hc
          · rw [hj] at hc
            exact hdel hc
    · rw [hs] at hc
      exact h.open_ key c (Bandit.active_of_deletePrefix hc).2
    · rw [hs] at hc
      exact h.open_ key c hc

end Process

/-! ### The start -/

theorem warmDefaults_run (r : Redis F) (intents : List String) :
    (warmDefaults intents).run r = ((), intents.foldl Redis.seedCurrent r) := by
  induction intents generalizing r with
  | nil => rfl
  | cons i is ih => simp [warmDefaults, currentProfile_run, ih]

/-- A server on which nothing was decided and only intent-global defaults are stored. -/
def Redis.Unused (r : Redis F) : Prop :=
  (∀ key, r.history key = []) ∧
  ∀ (b : Bucket) v, r.str b.liveKey = some v →
    b.isTopic = false ∧ v = .json (Profile.default b.intent)

theorem Redis.unused_empty : (Redis.empty F).Unused :=
  ⟨fun _ => rfl, fun _ _ h => nomatch h⟩

theorem Redis.Unused.seedCurrent {r : Redis F} (h : r.Unused) (intent : String) :
    (r.seedCurrent intent).Unused := by
  refine ⟨fun key => by rw [seedCurrent_history, h.1], fun b v hv => ?_⟩
  rw [r.seedCurrent_str intent b.liveKey_ne_defaultKey] at hv
  split_ifs at hv with hk
  · obtain ⟨hb, hi⟩ := Bucket.liveKey_eq_currentKey.mp hk
    cases hc : r.str b.liveKey with
    | some w =>
      rw [hc, Option.getD_some, Option.some.injEq] at hv
      exact hv ▸ h.2 b w hc
    | none =>
      rw [hc, Option.getD_none, Option.some.injEq] at hv
      refine ⟨?_, by rw [← hv, hi]⟩
      rw [hb]
      rfl
  · exact h.2 b v hv

theorem Redis.Unused.warm {r : Redis F} (h : r.Unused) (intents : List String) :
    (intents.foldl Redis.seedCurrent r).Unused := by
  induction intents generalizing r with
  | nil => exact h
  | cons i is ih => exact ih (h.seedCurrent i)

theorem Process.start_unused (tunableKnobs : List String) (frozen : Bool) :
    (Process.start tunableKnobs frozen (Redis.empty F)).redis.Unused := by
  unfold Process.start
  rw [warmDefaults_run]
  exact Redis.unused_empty.warm knownIntents

theorem Process.start_audited (tunableKnobs : List String) (frozen : Bool) :
    (Process.start tunableKnobs frozen (Redis.empty F)).Audited where
  sound _ _ hc := nomatch hc
  canonical b v hv := by
    obtain ⟨-, rfl⟩ := (Process.start_unused tunableKnobs frozen).2 b v hv
    exact ⟨_, rfl, Profile.default_inBounds _⟩
  open_ _ _ hc := nomatch hc

/-! ### Runs -/

namespace Process

variable [Field F] [LinearOrder F] (sqrt : F → F) (cfg : Tunables)

/-- The run lemma. -/
theorem Audited.steps {s : Process F} (h : s.Audited) (ops : List (Op F)) :
    (s.steps sqrt cfg ops).Audited :=
  steps_invariant sqrt (I := Audited) (fun _ op hs => Audited.step sqrt cfg hs op) h ops

/-- `v` is the seed of the bucket `b` in the run `ops` from `s`: the default of the intent for its
global surface, and for a topic the live intent-global profile at some point of the run at which the
topic held nothing. -/
def SeededBy (s : Process F) (ops : List (Op F)) (b : Bucket) (v : Stored) : Prop :=
  (b.isTopic = false ∧ v = .json (Profile.default b.intent)) ∨
  (b.isTopic = true ∧ ∃ past, past <+: ops ∧ (s.steps sqrt cfg past).redis.str b.liveKey = none ∧
    v = .json ((s.steps sqrt cfg past).redis.liveGlobal b.intent))

/-- No decision was logged for the bucket during the run. -/
def Undecided (s : Process F) (ops : List (Op F)) (b : Bucket) : Prop :=
  ∀ past, past <+: ops → ∀ e ∈ (s.steps sqrt cfg past).redis.history b.logKey, e.kind = .discard

variable {sqrt} {cfg}

theorem SeededBy.mono {s : Process F} {ops ops' : List (Op F)} {b : Bucket} {v : Stored}
    (h : s.SeededBy sqrt cfg ops b v) (ho : ops <+: ops') : s.SeededBy sqrt cfg ops' b v := by
  rcases h with h | ⟨hb, past, hp, h⟩
  · exact .inl h
  · exact .inr ⟨hb, past, hp.trans ho, h⟩

/-- The newest decision of a bucket is its live profile. -/
theorem newest_decision {s : Process F} (h : s.Audited)
    (h₀ : ∀ b : Bucket, s.redis.history b.logKey = []) (ops : List (Op F)) (b : Bucket)
    {e : HistoryEntry}
    (he : ((s.steps sqrt cfg ops).redis.history b.logKey).find? (·.kind ≠ .discard) = some e) :
    (s.steps sqrt cfg ops).redis.str b.liveKey = some (.json e.to_) := by
  induction ops using List.reverseRecOn with
  | nil =>
    rw [steps_nil, h₀] at he
    cases he
  | append_singleton ops op ih =>
    rw [steps_concat] at he ⊢
    cases step_logged sqrt cfg (h.steps sqrt cfg ops) op b with
    | idle hs hh =>
      rw [hh] at he
      rw [hs]
      exact ih he
    | seeded hn hs hh =>
      rw [hh] at he
      rw [hn] at ih
      cases ih he
    | promoted e' hp hk hin hs hh =>
      rw [hh, historyCap, List.take_succ_cons, List.find?_cons_of_pos (by simp [hk])] at he
      rw [hs, Option.some.inj he]
    | rolledBack e' hk ht hs hh =>
      rw [hh, historyCap, List.take_succ_cons, List.find?_cons_of_pos (by simp [hk])] at he
      rw [hs, Option.some.inj he]
    | discarded e' hk ht hs hh =>
      rw [hh, historyCap, List.take_succ_cons, List.find?_cons_of_neg (by simpa using hk)] at he
      rw [hs]
      -- the trim removes from the far end, so what it leaves in front was in front
      exact ih (List.IsPrefix.find?_eq_some (List.take_prefix _ _) he)

/-- Without a decision the live profile is the seed. -/
theorem undecided_seed {s : Process F} (h : s.Audited) (hu : s.redis.Unused) (ops : List (Op F))
    (b : Bucket) (hno : s.Undecided sqrt cfg ops b) {v : Stored}
    (hv : (s.steps sqrt cfg ops).redis.str b.liveKey = some v) : s.SeededBy sqrt cfg ops b v := by
  induction ops using List.reverseRecOn generalizing v with
  | nil => exact .inl (hu.2 b v hv)
  | append_singleton ops op ih =>
    have hpre : ops <+: ops ++ [op] := List.prefix_append _ _
    have ih' : ∀ w, (s.steps sqrt cfg ops).redis.str b.liveKey = some w →
        s.SeededBy sqrt cfg (ops ++ [op]) b w := fun w hw =>
      (ih (fun past hp => hno past (hp.trans hpre)) hw).mono hpre
    -- a logged decision contradicts the assumption at the end of the run
    have hdec : ∀ e : HistoryEntry, e.kind ≠ .discard →
        ((s.steps sqrt cfg ops).step sqrt cfg op).redis.history b.logKey
          ≠ (e :: (s.steps sqrt cfg ops).redis.history b.logKey).take historyCap := by
      intro e hk hh
      have hmem : e ∈ (s.steps sqrt cfg (ops ++ [op])).redis.history b.logKey := by
        rw [steps_concat, hh, historyCap, List.take_succ_cons]
        exact List.mem_cons_self
      exact hk (hno _ (List.prefix_refl _) e hmem)
    rw [steps_concat] at hv
    cases step_logged sqrt cfg (h.steps sqrt cfg ops) op b with
    | idle hs hh => exact ih' v (hs ▸ hv)
    | seeded hn hs hh =>
      rw [hs, Option.some.injEq] at hv
      rw [Bucket.live_of_missing hn] at hv
      cases hb : b.isTopic with
      | true => exact .inr ⟨hb, ops, hpre, hn, hv.symm⟩
      | false =>
        refine .inl ⟨hb, ?_⟩
        have hg : isGlobalBucket b.repo b.topic = true := by simpa [Bucket.isTopic] using hb
        have hkey : b.liveKey = currentKey b.intent := if_pos hg
        rw [← hv, Redis.liveGlobal, ← hkey, hn]
        rfl
    | promoted e hp hk hin hs hh => exact absurd hh (hdec e (by simp [hk]))
    | rolledBack e hk ht hs hh => exact absurd hh (hdec e (by simp [hk]))
    | discarded e hk ht hs hh => exact ih' v (hs ▸ hv)

/-- **The audit history replays to the live profile.** In every state a process reaches from a fresh
installation, for every bucket: (a) the live profile is the outcome of the newest decision still in
the history, or the seed when no decision was ever logged; (b) the base of the candidate under test
is the live profile and is not the candidate; (c) every candidate sits in the slot of its own bucket,
below the thresholds that end a test; (d) the next operation changes the history by at most one
entry, and a discard names the profile that is live before and after it. -/
theorem audit_replays (sqrt : F → F) (cfg : Tunables) (tunableKnobs : List String) (frozen : Bool)
    (ops : List (Op F)) (b : Bucket) :
    let s₀ : Process F := start tunableKnobs frozen (Redis.empty F)
    let s := s₀.steps sqrt cfg ops
    (∀ e, (s.redis.history b.logKey).find? (·.kind ≠ .discard) = some e →
      s.redis.str b.liveKey = some (.json e.to_)) ∧
    (s₀.Undecided sqrt cfg ops b → ∀ v, s.redis.str b.liveKey = some v →
      s₀.SeededBy sqrt cfg ops b v) ∧
    (∀ c, s.picker.bandit.active b.key = some c →
      s.redis.str b.liveKey = some (.json c.base) ∧ c.base ≠ c.profile ∧
      c.consecBad < rollbackStrikes ∧ ¬ c.WindowFull) ∧
    (∀ key c, s.picker.bandit.active key = some c → ∃ b' : Bucket, key = b'.key ∧
      c.intent = b'.intent ∧ c.repo = b'.repo ∧ c.topic = b'.topic) ∧
    (∀ op, (s.step sqrt cfg op).redis.history b.logKey = s.redis.history b.logKey ∨
      ∃ e, (s.step sqrt cfg op).redis.history b.logKey
          = (e :: s.redis.history b.logKey).take historyCap ∧
        (e.kind = .discard → s.redis.str b.liveKey = some (.json e.to_) ∧
          (s.step sqrt cfg op).redis.str b.liveKey = some (.json e.to_))) := by
  intro s₀ s
  have h₀ : s₀.Audited := start_audited tunableKnobs frozen
  have hu : s₀.redis.Unused := start_unused tunableKnobs frozen
  have hs : s.Audited := h₀.steps sqrt cfg ops
  refine ⟨fun e he => newest_decision h₀ (fun b => hu.1 _) ops b he,
    fun hno v hv => undecided_seed h₀ hu ops b hno hv, ?_, ?_, ?_⟩
  · intro c hc
    -- an open candidate's base is the live profile, and its window is not full
    obtain ⟨b', hb', hsound⟩ := hs.sound _ c hc
    obtain rfl : b' = b := Bucket.key_inj.mp hb'
    obtain ⟨v, hv, -⟩ := hsound.stored
    refine ⟨?_, hsound.step.ne.symm, hs.open_ _ c hc⟩
    rw [hv, hs.canonical.stored_live hv, hsound.base_eq]
  · intro key c hc
    obtain ⟨b', rfl, hsound⟩ := hs.sound _ c hc
    exact ⟨b', rfl, hsound.intent, hsound.repo, hsound.topic⟩
  · intro op
    -- each decision is logged with its own kind, and only a discard leaves the profile as it is
    cases step_logged sqrt cfg hs op b with
    | idle h1 hh => exact .inl hh
    | seeded hn h1 hh => exact .inl hh
    | promoted e hp hk hin h1 hh => exact .inr ⟨e, hh, fun hd => by rw [hk] at hd; cases hd⟩
    | rolledBack e hk ht h1 hh => exact .inr ⟨e, hh, fun hd => by rw [hk] at hd; cases hd⟩
    | discarded e hk ht h1 hh => exact .inr ⟨e, hh, fun _ => ⟨ht, h1 ▸ ht⟩⟩

end Process

end Devrouter
