import Devrouter.Heuristics.Picker

/-!
# Knob safety

Every profile that leaves the heuristics package, to the router or to Redis, has each knob within its
bounds, and a query is served either the live profile of its bucket or one knob step away from it. The
Redis keys may hold anything at the start, and any Redis command may fail.

The bounds on what is written are a property of the programs alone (`Op.issues_safeWrite`): every
`SET` is behind a `clip`. The bounds on what is served and the one-knob law rest on one invariant of
the process, `Process.Sound`: a candidate under test sits at the key of its own bucket, its base is
what is stored for that bucket, and it is one knob step from its base. Two facts keep it: a live
profile that is stored changes only with a promotion, a rollback or a reset (`Redis.LiveKept`), and
each of these drops the candidates of the buckets it writes to.
-/

open Prog

namespace Devrouter

variable {F : Type}

/-! ### What is written -/

/-- A command that writes no profile, or one within its bounds. Only `EnsureDefault` writes a frozen
default. -/
def Cmd.SafeWrite : Cmd F → Prop
  | .set caller key v =>
    (∃ p : Profile, v = .json p ∧ p.InBounds) ∧
      (caller ≠ .ensureDefault → ∀ intent, key ≠ defaultKey intent)
  | _ => True

section Writes

theorem safeWrite_admitted : Cmd.Admitted (F := F) Cmd.SafeWrite where
  get _ := trivial
  lpush _ _ := trivial
  ltrim _ _ := trivial
  set _ _ p hkey := ⟨⟨p.clip, rfl, p.clip_inBounds⟩, fun _ => hkey⟩

theorem ensureDefault_safeWrite (intent : String) (p : Profile) :
    (ensureDefault (F := F) intent p).Issues Cmd.SafeWrite := by
  refine Issues.bind ⟨trivial, fun _ => trivial⟩ fun n => ?_
  split
  · exact issues_pure _
  · refine Issues.bind ⟨⟨⟨p.clip, rfl, p.clip_inBounds⟩, ?_⟩, fun _ => trivial⟩ fun _ => issues_pure _
    exact fun h => absurd rfl h

theorem currentProfile_safeWrite (intent : String) :
    (currentProfile (F := F) intent).Issues Cmd.SafeWrite := by
  refine Issues.bind ⟨trivial, fun _ => trivial⟩ fun val => ?_
  rcases val with _ | _ | v
  · exact issues_pure _
  · refine (setCurrent_issues safeWrite_admitted _ _ _).bind fun e => ?_
    cases e with
    | some e => exact issues_pure _
    | none =>
      refine (ensureDefault_safeWrite _ _).bind fun e => ?_
      cases e with
      | some e => exact issues_pure _
      | none => exact issues_pure _
  · cases v with
    | json p => exact issues_pure _
    | corrupt => exact issues_pure _

theorem currentProfileFor_safeWrite (intent repo topic : String) :
    (currentProfileFor (F := F) intent repo topic).Issues Cmd.SafeWrite := by
  unfold currentProfileFor
  split
  · exact currentProfile_safeWrite intent
  · -- the answer may be a fault, nothing, or a profile
    refine Issues.bind ⟨trivial, fun _ => trivial⟩ fun val => ?_
    rcases val with _ | _ | v
    · exact issues_pure _
    · refine (currentProfile_safeWrite intent).bind fun pe => ?_
      obtain ⟨p, err⟩ := pe
      cases err with
      | some e => exact issues_pure _
      | none =>
        refine (setCurrentFor_issues safeWrite_admitted _ _ _ _ _).bind fun e => ?_
        cases e with
        | some e => exact issues_pure _
        | none => exact issues_pure _
    · cases v with
      | json p => exact issues_pure _
      | corrupt => exact issues_pure _

theorem warmDefaults_safeWrite : ∀ intents : List String,
    (warmDefaults (F := F) intents).Issues Cmd.SafeWrite
  | [] => issues_pure _
  | intent :: intents =>
    (currentProfile_safeWrite intent).bind fun _ => warmDefaults_safeWrite intents

variable [Field F] [LinearOrder F] (sqrt : F → F) (cfg : Tunables)

namespace Picker

omit [Field F] [LinearOrder F] in
theorem pick_safeWrite (p : Picker) (intent : String) (d : Draws) :
    (p.pick (F := F) cfg intent d).Issues Cmd.SafeWrite := by
  refine (currentProfile_safeWrite intent).bind fun pe => ?_
  obtain ⟨base, err⟩ := pe
  cases err with
  | some e => exact issues_pure _
  | none => exact issues_pure _

theorem samples_safeWrite (intent repo topic : String) (sh : Shuffle (TopicField F)) :
    (samples sqrt cfg intent repo topic sh).Issues Cmd.SafeWrite := by
  unfold samples
  split
  · exact issues_pure _
  · refine Issues.bind ⟨trivial, fun r => ?_⟩ fun entries => ?_
    · cases r <;> exact issues_pure _
    · cases entries.find? fun e => e.id = topic with
      | none => exact issues_pure _
      | some e => exact issues_pure _

theorem pickWithTopic_safeWrite (p : Picker) (intent repo topic : String)
    (sh : Shuffle (TopicField F)) (d : Draws) :
    (p.pickWithTopic sqrt cfg intent repo topic sh d).Issues Cmd.SafeWrite := by
  unfold pickWithTopic
  split
  · exact p.pick_safeWrite cfg intent d
  · refine (samples_safeWrite sqrt cfg intent repo topic sh).bind fun n => ?_
    split
    · refine (currentProfile_safeWrite intent).bind fun pe => ?_
      obtain ⟨base, err⟩ := pe
      cases err with
      | some e => exact issues_pure _
      | none => exact issues_pure _
    · refine (currentProfileFor_safeWrite intent repo topic).bind fun pe => ?_
      obtain ⟨base, err⟩ := pe
      cases err with
      | some e => exact issues_pure _
      | none => exact issues_pure _

omit [Field F] [LinearOrder F] in
theorem updateWithTopic_safeWrite (p : Picker) (intent repo topic profileID : String)
    (adjusted weight : ℚ) (now : Int) :
    (p.updateWithTopic (F := F) intent repo topic profileID adjusted weight now).Issues
      Cmd.SafeWrite := by
  unfold updateWithTopic
  split_ifs
  · exact issues_pure _
  · exact (p.bandit.update_issues safeWrite_admitted _ _ _ _ _ _ _).bind fun _ => issues_pure _
  · exact (p.bandit.update_issues safeWrite_admitted _ _ _ _ _ _ _).bind fun _ => issues_pure _

omit [Field F] [LinearOrder F] in
theorem update_safeWrite (p : Picker) (intent profileID : String) (adjusted weight : ℚ)
    (now : Int) : (p.update (F := F) intent profileID adjusted weight now).Issues Cmd.SafeWrite := by
  unfold update
  split_ifs
  · exact issues_pure _
  · exact (p.bandit.update_issues safeWrite_admitted _ _ _ _ _ _ _).bind fun _ => issues_pure _

omit [Field F] [LinearOrder F] in
theorem reset_safeWrite (p : Picker) (intent : String) (now : Int) :
    (p.reset (F := F) intent now).Issues Cmd.SafeWrite := by
  refine (p.bandit.resetIntent_issues safeWrite_admitted intent now).bind fun eb => ?_
  obtain ⟨err, b⟩ := eb
  cases err with
  | some e => exact issues_pure _
  | none =>
    refine (loadDefault_issues safeWrite_admitted intent).bind fun de => ?_
    obtain ⟨d, err⟩ := de
    cases err with
    | some e => exact issues_pure _
    | none => exact issues_pure _

end Picker

theorem resolve_safeWrite (intent repo : String) (embed : List F) (queryText : String)
    (sh : Shuffle (TopicField F)) (now : Int) :
    (resolve sqrt cfg intent repo embed queryText sh now).Issues Cmd.SafeWrite := by
  unfold resolve
  split
  · exact issues_pure _
  · refine Issues.bind ⟨trivial, fun r => ?_⟩ fun entries => ?_
    · cases r <;> exact issues_pure _
    · exact ⟨trivial, fun _ => trivial⟩

/-- **Every write is clipped.** No operation can issue a `SET` of a profile outside its bounds,
whatever Redis answers. -/
theorem Op.issues_safeWrite (p : Picker) (op : Op F) :
    (op.prog sqrt cfg p).Issues Cmd.SafeWrite := by
  cases op with
  | pick intent d => exact (p.pick_safeWrite cfg intent d).bind fun _ => issues_pure _
  | pickWithTopic intent repo topic sh d =>
    exact (p.pickWithTopic_safeWrite sqrt cfg intent repo topic sh d).bind fun _ => issues_pure _
  | update intent profileID adjusted weight now =>
    exact (p.update_safeWrite _ _ _ _ _).bind fun _ => issues_pure _
  | updateWithTopic intent repo topic profileID adjusted weight now =>
    exact (p.updateWithTopic_safeWrite _ _ _ _ _ _ _).bind fun _ => issues_pure _
  | reset intent now => exact (p.reset_safeWrite _ _).bind fun _ => issues_pure _
  | resolve intent repo embed queryText sh now =>
    exact (resolve_safeWrite sqrt cfg _ _ _ _ _ _).bind fun _ => issues_pure _

end Writes

/-! ### The invariant -/

namespace Redis

/-- Every live profile that was stored is stored unchanged. -/
def LiveKept (r r' : Redis F) : Prop :=
  ∀ (b : Bucket) (v : Stored), r.str b.liveKey = some v → r'.str b.liveKey = some v

theorem LiveKept.of_str {r r' : Redis F} (h : r'.str = r.str) : r.LiveKept r' :=
  fun b v hv => by rw [h]; exact hv

end Redis

/-- What is known of a candidate under test for the bucket `b`: it carries the coordinates of `b`,
its base is what is stored for `b`, and it is one knob step from its base. -/
structure Candidate.Sound (c : Candidate) (b : Bucket) (r : Redis F) : Prop where
  intent : c.intent = b.intent
  repo : c.repo = b.repo
  topic : c.topic = b.topic
  stored : ∃ v, r.str b.liveKey = some v ∧ v.read b.intent = c.base
  step : Profile.OneKnobStep c.base c.profile
  inBounds : c.profile.InBounds

/-- Every candidate sits at the key of a bucket it is sound for. -/
def Bandit.Sound (bd : Bandit) (r : Redis F) : Prop :=
  ∀ key c, bd.active key = some c → ∃ b : Bucket, b.key = key ∧ c.Sound b r

namespace Candidate.Sound

variable {c : Candidate} {b : Bucket} {r r' : Redis F}

theorem kept (h : c.Sound b r) (hr : r.LiveKept r') : c.Sound b r' := by
  obtain ⟨v, hv, hread⟩ := h.stored
  exact ⟨h.intent, h.repo, h.topic, ⟨v, hr b v hv, hread⟩, h.step, h.inBounds⟩

/-- The base of a candidate is what its bucket is served. -/
theorem base_eq (h : c.Sound b r) : c.base = b.live r := by
  obtain ⟨v, hv, hread⟩ := h.stored
  rw [Bucket.live_of_stored hv, hread]

theorem liveKey (h : c.Sound b r) : Bandit.liveKey c = b.liveKey := by
  unfold Bandit.liveKey Bucket.liveKey
  rw [h.intent, h.repo, h.topic]

end Candidate.Sound

namespace Bandit.Sound

variable {bd : Bandit} {r r' : Redis F}

theorem kept (h : bd.Sound r) (hr : r.LiveKept r') : bd.Sound r' := fun key c hc => by
  obtain ⟨b, hb, hs⟩ := h key c hc
  exact ⟨b, hb, hs.kept hr⟩

theorem put (h : bd.Sound r) {b : Bucket} {c : Candidate} (hc : c.Sound b r) :
    (bd.put b.key c).Sound r := fun key c' hc' => by
  rcases active_of_put hc' with ⟨rfl, rfl⟩ | ⟨-, hc'⟩
  · exact ⟨b, rfl, hc⟩
  · exact h key c' hc'

/-- Dropping a bucket's candidate and writing to the bucket's live profile. -/
theorem delete (h : bd.Sound r) (b : Bucket)
    (hr : ∀ b' : Bucket, b' ≠ b → r'.str b'.liveKey = r.str b'.liveKey) :
    (bd.delete b.key).Sound r' := fun key c hc => by
  obtain ⟨hk, hc⟩ := active_of_delete hc
  obtain ⟨b', rfl, hs⟩ := h key c hc
  have hne : b' ≠ b := fun hb => hk (by rw [hb])
  obtain ⟨v, hv, hread⟩ := hs.stored
  exact ⟨b', rfl, hs.intent, hs.repo, hs.topic, ⟨v, by rw [hr b' hne]; exact hv, hread⟩, hs.step,
    hs.inBounds⟩

/-- Dropping the candidates of an intent and writing to its live profile. -/
theorem deletePrefix (h : bd.Sound r) (intent : String)
    (hr : ∀ b : Bucket, b.liveKey ≠ currentKey intent → r'.str b.liveKey = r.str b.liveKey) :
    (bd.deletePrefix (intent ++ "|")).Sound r' := fun key c hc => by
  obtain ⟨hp, hc⟩ := active_of_deletePrefix hc
  obtain ⟨b, rfl, hs⟩ := h key c hc
  -- a candidate that is kept is not one of the intent, so its live profile was not written
  have hne : b.liveKey ≠ currentKey intent := fun hk => by
    obtain ⟨-, hi⟩ := Bucket.liveKey_eq_currentKey.mp hk
    rw [← hi] at hp
    exact Bool.eq_false_iff.mp hp b.hasPrefix_key
  obtain ⟨v, hv, hread⟩ := hs.stored
  exact ⟨b, rfl, hs.intent, hs.repo, hs.topic, ⟨v, by rw [hr b hne]; exact hv, hread⟩, hs.step,
    hs.inBounds⟩

/-- **One knob.** On the live profile of a bucket, a selection serves the profile itself or one knob
step from it. -/
theorem select_step (h : bd.Sound r) (cfg : Tunables) (b : Bucket) (n : Int) (d : Draws) :
    ((bd.select cfg b.intent b.repo b.topic (b.live r) n d).1 = b.live r ∨
      Profile.OneKnobStep (b.live r)
        (bd.select cfg b.intent b.repo b.topic (b.live r) n d).1) ∧
    (bd.select cfg b.intent b.repo b.topic (b.live r) n d).1.InBounds := by
  rcases bd.select_cases cfg b.intent b.repo b.topic (b.live r) n d with
    hres | ⟨c, hc, hres⟩ | ⟨-, -, hres⟩
  · rw [hres]
    exact ⟨.inl rfl, b.live_inBounds r⟩
  · -- the candidate under test was generated from the profile that is still live
    obtain ⟨b', hb', hs⟩ := h _ c hc
    obtain rfl : b' = b := Bucket.key_inj.mp hb'
    rw [hres]
    exact ⟨.inr (hs.base_eq ▸ hs.step), hs.inBounds⟩
  · rw [hres]
    exact ⟨bd.perturb_eq_or_step (b.live_inBounds r) d, bd.perturb_inBounds (b.live_inBounds r) d⟩

/-- A selection on the profile stored for the bucket keeps the candidates sound. -/
theorem select (h : bd.Sound r) (cfg : Tunables) {b : Bucket} {v : Stored}
    (hv : r.str b.liveKey = some v) (n : Int) (d : Draws) :
    (bd.select cfg b.intent b.repo b.topic (v.read b.intent) n d).2.Sound r := by
  rcases bd.select_cases cfg b.intent b.repo b.topic (v.read b.intent) n d with
    hres | ⟨c, -, hres⟩ | ⟨-, hid, hres⟩
  · rw [hres]
    exact h
  · rw [hres]
    exact h
  · rw [hres]
    have hin := Stored.read_inBounds b.intent v
    have hne : bd.perturb (v.read b.intent) d ≠ v.read b.intent := fun he => hid (by rw [he])
    exact h.put ⟨rfl, rfl, rfl, ⟨v, hv, rfl⟩, (bd.perturb_eq_or_step hin d).resolve_left hne,
      bd.perturb_inBounds hin d⟩

end Bandit.Sound

/-! ### The operations under failures -/

section Failures

variable {r : Redis F} {intent : String}

theorem setCurrent_wp {caller : Caller} {p : Profile} {Q : Option StoreErr → Redis F → Prop}
    (hfail : Q (some .redis) r) (hok : Q none (r.setStr (currentKey intent) p.clip)) :
    (setCurrent caller intent p).wp Q r := ⟨hfail, hok⟩

theorem setCurrentFor_wp {caller : Caller} {repo topic : String} {p : Profile}
    {Q : Option StoreErr → Redis F → Prop} (hfail : Q (some .redis) r)
    (hok : Q none (r.setStr (currentKeyFor intent repo topic) p.clip)) :
    (setCurrentFor caller intent repo topic p).wp Q r := by
  unfold setCurrentFor
  unfold currentKeyFor at hok
  split_ifs with hg
  · rw [if_pos hg] at hok
    exact setCurrent_wp hfail hok
  · rw [if_neg hg] at hok
    exact ⟨hfail, hok⟩

/-- `EnsureDefault` touches the frozen default alone. -/
theorem ensureDefault_wp {p : Profile} {Q : Option StoreErr → Redis F → Prop}
    (h : ∀ e r', (∀ key, key ≠ defaultKey intent → r'.str key = r.str key) → Q e r') :
    (ensureDefault intent p).wp Q r := by
  have hset : ∀ key, key ≠ defaultKey intent →
      (r.setStr (defaultKey intent) p.clip).str key = r.str key :=
    fun key hk => Function.update_of_ne hk _ _
  unfold ensureDefault
  rw [wp_bind, Rdb.existsKey_wp]
  -- a failed check is followed by a write, like a negative one
  refine ⟨⟨h _ _ fun _ _ => rfl, h _ _ hset⟩, ?_⟩
  cases hd : (r.str (defaultKey intent)).isSome with
  | true => exact h _ _ fun _ _ => rfl
  | false => exact ⟨h _ _ fun _ _ => rfl, h _ _ hset⟩

/-- `CurrentProfile` under failures: without an error the profile is the one now stored. -/
theorem currentProfile_wp {Q : Profile × Option StoreErr → Redis F → Prop}
    (h : ∀ p err r', r.LiveKept r' → p.InBounds →
      (err = none → ∃ v, r'.str (currentKey intent) = some v ∧ v.read intent = p) →
      Q (p, err) r') : (currentProfile intent).wp Q r := by
  have hdef : (Profile.default intent).InBounds := Profile.default_inBounds intent
  unfold currentProfile
  rw [wp_bind, Rdb.get_wp]
  refine ⟨h _ _ r (.of_str rfl) hdef (fun he => nomatch he), ?_⟩
  cases hc : r.str (currentKey intent) with
  | some v =>
    cases v with
    | json p => exact h _ _ r (.of_str rfl) p.clip_inBounds fun _ => ⟨.json p, hc, rfl⟩
    | corrupt => exact h _ _ r (.of_str rfl) hdef fun _ => ⟨.corrupt, hc, rfl⟩
  | none =>
    change (setCurrent .currentProfile intent (Profile.default intent) >>= _).wp Q r
    rw [wp_bind]
    refine setCurrent_wp (h _ _ r (.of_str rfl) hdef fun he => nomatch he) ?_
    change (ensureDefault intent (Profile.default intent) >>= _).wp Q _
    rw [wp_bind]
    refine ensureDefault_wp fun e r' hr' => ?_
    -- the live key now holds the default, whatever becomes of the frozen one
    have hcur : r'.str (currentKey intent) = some (.json (Profile.default intent)) := by
      rw [hr' _ (currentKey_ne_defaultKey intent intent), Redis.setStr_str, Function.update_self,
        Profile.clip_default]
    have hkept : r.LiveKept r' := fun b v hv => by
      have hne : b.liveKey ≠ currentKey intent := fun hk => by
        rw [hk, hc] at hv
        cases hv
      rw [hr' _ (b.liveKey_ne_defaultKey intent), Redis.setStr_str, Function.update_of_ne hne, hv]
    cases e with
    | none => exact h _ _ r' hkept hdef fun _ => ⟨_, hcur, Profile.clip_default intent⟩
    | some e => exact h _ _ r' hkept hdef fun he => nomatch he

/-- `CurrentProfileFor` under failures: without an error the profile is the one now stored for the
bucket. -/
theorem currentProfileFor_wp {b : Bucket} {Q : Profile × Option StoreErr → Redis F → Prop}
    (h : ∀ p err r', r.LiveKept r' → p.InBounds →
      (err = none → ∃ v, r'.str b.liveKey = some v ∧ v.read b.intent = p) →
      Q (p, err) r') : (currentProfileFor b.intent b.repo b.topic).wp Q r := by
  -- whatever goes wrong, the default profile is served, and it is in bounds
  have hdef : (Profile.default b.intent).InBounds := Profile.default_inBounds b.intent
  unfold currentProfileFor
  split_ifs with hg
  · have hkey : b.liveKey = currentKey b.intent := if_pos hg
    rw [hkey] at h
    exact currentProfile_wp h
  · have hkey : b.liveKey = bucketCurrentKey b.intent b.repo b.topic := if_neg hg
    rw [hkey] at h
    rw [wp_bind, Rdb.get_wp]
    refine ⟨h _ _ r (.of_str rfl) hdef (fun he => nomatch he), ?_⟩
    -- a stored profile is clipped as it is read
    cases hc : r.str (bucketCurrentKey b.intent b.repo b.topic) with
    | some v =>
      cases v with
      | json p => exact h _ _ r (.of_str rfl) p.clip_inBounds fun _ => ⟨.json p, hc, rfl⟩
      | corrupt => exact h _ _ r (.of_str rfl) hdef fun _ => ⟨.corrupt, hc, rfl⟩
    | none =>
      -- nothing is stored: the global profile is read and written for the bucket
      change (currentProfile b.intent >>= _).wp Q r
      rw [wp_bind]
      refine currentProfile_wp fun p err r₁ hk₁ hp _ => ?_
      cases err with
      | some e => exact h _ _ r₁ hk₁ hp fun he => nomatch he
      | none =>
        change (setCurrentFor .currentProfileFor b.intent b.repo b.topic p >>= _).wp Q r₁
        rw [wp_bind]
        refine setCurrentFor_wp (h _ _ r₁ hk₁ hp fun he => nomatch he) ?_
        change b.liveKey = _ at hkey
        rw [show currentKeyFor b.intent b.repo b.topic = _ from hkey]
        -- the bucket had no live value, so writing one keeps those that the other buckets have
        have hkept : r.LiveKept (r₁.setStr (bucketCurrentKey b.intent b.repo b.topic) p.clip) :=
          fun b' v hv => by
            have hne : b'.liveKey ≠ bucketCurrentKey b.intent b.repo b.topic := fun hk => by
              rw [hk, hc] at hv
              cases hv
            rw [Redis.setStr_str, Function.update_of_ne hne]
            exact hk₁ b' v hv
        refine h _ _ _ hkept hp fun _ => ⟨.json p.clip, ?_, ?_⟩
        · rw [Redis.setStr_str, Function.update_self]
        · rw [Stored.read_json, Profile.clip_clip, hp.clip_eq]

theorem loadDefault_wp {Q : Profile × Option StoreErr → Redis F → Prop}
    (h : ∀ p err, p.InBounds → Q (p, err) r) : (loadDefault intent).wp Q r := by
  have hdef : (Profile.default intent).InBounds := Profile.default_inBounds intent
  unfold loadDefault
  rw [wp_bind, Rdb.get_wp]
  refine ⟨h _ _ hdef, ?_⟩
  cases r.str (defaultKey intent) with
  | none => exact h _ _ hdef
  | some v =>
    cases v with
    | json p => exact h _ _ p.clip_inBounds
    | corrupt => exact h _ _ hdef

theorem appendHistory_wp {e : HistoryEntry} {Q : Option StoreErr → Redis F → Prop}
    (h : ∀ err r', r'.str = r.str → Q err r') : (appendHistory intent e).wp Q r :=
  ⟨⟨h _ _ rfl, h _ _ rfl⟩, h _ _ rfl, h _ _ rfl⟩

theorem appendHistoryFor_wp {repo topic : String} {e : HistoryEntry}
    {Q : Option StoreErr → Redis F → Prop} (h : ∀ err r', r'.str = r.str → Q err r') :
    (appendHistoryFor intent repo topic e).wp Q r := by
  unfold appendHistoryFor
  split_ifs
  · exact appendHistory_wp h
  · exact ⟨⟨h _ _ rfl, h _ _ rfl⟩, h _ _ rfl, h _ _ rfl⟩

namespace Bandit

/-- A decision under failures: the candidate is dropped and at most its bucket's live profile was
written, or it stays and nothing was. -/
theorem carryOut_wp {bd : Bandit} {b : Bucket} (h : bd.Sound r) (now : Int) {v : Verdict}
    (hv : v = .stale ∨ ∃ c : Candidate, c.Sound b r ∧
      (v = .keep c ∨ v = .promote c ∨ v = .discard c ∨ v = .rollback c)) :
    (bd.carryOut b.key now v).wp (fun bd' r' => bd'.Sound r') r := by
  -- dropping the candidate is sound whatever was written to its own live profile
  have hdel : ∀ (c : Candidate) (r' : Redis F), (r'.str = r.str ∨ ∃ p, r'.str =
      Function.update r.str b.liveKey (some (.json p))) →
      ((bd.put b.key c).delete b.key).Sound r' := by
    intro c r' hr'
    rw [delete_put]
    refine h.delete b fun b' hb' => ?_
    rcases hr' with hr' | ⟨p, hr'⟩
    · rw [hr']
    · rw [hr', Function.update_of_ne fun hk => hb' (Bucket.liveKey_inj.mp hk)]
  -- the log entry that ends every decision
  have hlog : ∀ (c : Candidate) (e : HistoryEntry) (r₁ : Redis F), (r₁.str = r.str ∨ ∃ p, r₁.str =
      Function.update r.str b.liveKey (some (.json p))) →
      (appendHistoryFor c.intent c.repo c.topic e >>= fun _ =>
        pure ((bd.put b.key c).delete b.key)).wp (fun bd' r' => bd'.Sound r') r₁ := by
    intro c e r₁ hr₁
    rw [wp_bind]
    exact appendHistoryFor_wp fun _ r' hr' => hdel c r' (by rwa [hr'])
  rcases hv with rfl | ⟨c, hc, rfl | rfl | rfl | rfl⟩
  · exact h
  · exact h.put hc
  · change (setCurrentFor .promote c.intent c.repo c.topic c.profile >>= _).wp _ r
    rw [wp_bind]
    refine setCurrentFor_wp (h.put hc) ?_
    exact hlog c _ _ (.inr ⟨_, by rw [← hc.liveKey]; rfl⟩)
  · exact hlog c _ _ (.inl rfl)
  · change (loadDefault c.intent >>= _).wp _ _
    rw [wp_bind]
    refine loadDefault_wp fun d err _ => ?_
    change (setCurrentFor .rollback c.intent c.repo c.topic _ >>= _).wp _ _
    rw [wp_bind]
    refine setCurrentFor_wp ?_ ?_
    · exact hlog c _ _ (.inl rfl)
    · exact hlog c _ _ (.inr ⟨_, by rw [← hc.liveKey]; rfl⟩)

theorem update_wp {bd : Bandit} (h : bd.Sound r) (b : Bucket) (profileID : String)
    (adjusted weight : ℚ) (now : Int) :
    (bd.update b.intent b.repo b.topic profileID adjusted weight now).wp
      (fun bd' r' => bd'.Sound r') r := by
  cases hc : bd.active (banditKey b.intent b.repo b.topic) with
  | none =>
    rw [update_none bd profileID adjusted weight now hc]
    exact h
  | some c =>
    obtain ⟨b', hb', hs⟩ := h _ c hc
    obtain rfl : b' = b := Bucket.key_inj.mp hb'
    rw [update_eq bd profileID adjusted weight now hc]
    refine carryOut_wp h now ?_
    -- the candidate stays sound in each verdict, as a verdict changes its samples only
    rcases c.judge_cases profileID adjusted weight with hst | ⟨c', ht, hj⟩
    · exact .inl hst
    · have hs' : c'.Sound b' r :=
        ⟨ht.intent.trans hs.intent, ht.repo.trans hs.repo, ht.topic.trans hs.topic,
          ht.base ▸ hs.stored, ht.base ▸ ht.profile ▸ hs.step, ht.profile ▸ hs.inBounds⟩
      rcases hj with ⟨hj, -⟩ | hj | hj | hj
      · exact .inr ⟨c', hs', .inl hj⟩
      · exact .inr ⟨c', hs', .inr (.inl hj)⟩
      · exact .inr ⟨c', hs', .inr (.inr (.inl hj))⟩
      · exact .inr ⟨c', hs', .inr (.inr (.inr hj))⟩

theorem resetIntent_wp {bd : Bandit} (h : bd.Sound r) (intent : String) (now : Int) :
    (bd.resetIntent intent now).wp (fun eb r' => eb.2.Sound r') r := by
  unfold resetIntent
  rw [wp_bind]
  refine loadDefault_wp fun d err _ => ?_
  change (setCurrent .resetIntent intent _ >>= _).wp _ _
  rw [wp_bind]
  refine setCurrent_wp h ?_
  change (appendHistory intent _ >>= _).wp _ _
  rw [wp_bind]
  refine appendHistory_wp fun _ r' hr' => h.deletePrefix intent fun b hb => ?_
  rw [hr', Redis.setStr_str, Function.update_of_ne hb]

end Bandit

/-- What is returned to the router is within its bounds. -/
def Out.InBounds : Out → Prop
  | .served s => s.profile.InBounds
  | .reset d _ => d.InBounds
  | _ => True

/-- A query on a bucket whose live profile could be read. -/
theorem Bandit.Sound.serve {bd : Bandit} {r : Redis F} (h : bd.Sound r) (cfg : Tunables)
    {b : Bucket} {v : Stored} (hv : r.str b.liveKey = some v) (n : Int) (d : Draws) :
    (bd.select cfg b.intent b.repo b.topic (v.read b.intent) n d).1.InBounds ∧
      (bd.select cfg b.intent b.repo b.topic (v.read b.intent) n d).2.Sound r := by
  refine ⟨?_, h.select cfg hv n d⟩
  rw [← Bucket.live_of_stored hv]
  exact (h.select_step cfg b n d).2

variable [Field F] [LinearOrder F] (sqrt : F → F) (cfg : Tunables)

omit [Field F] [LinearOrder F] in
theorem Picker.pick_wp {p : Picker} (h : p.bandit.Sound r) (intent : Name) (d : Draws) :
    (p.pick cfg intent d).wp
      (fun sp r' => sp.1.profile.InBounds ∧ sp.2.bandit.Sound r') r := by
  unfold pick
  rw [wp_bind]
  refine currentProfile_wp fun base err r' hk hb hst => ?_
  cases err with
  | some e => exact ⟨Profile.default_inBounds _, h.kept hk⟩
  | none =>
    obtain ⟨v, hv, rfl⟩ := hst rfl
    exact (h.kept hk).serve cfg (b := .global intent) hv 0 d

theorem loadBucket_wp {repo : String} {sh : Shuffle (TopicField F)}
    {Q : List (TopicEntry F) → Redis F → Prop} (h : ∀ entries, Q entries r) :
    (loadBucket sqrt sh intent repo).wp Q r := ⟨h _, h _⟩

/-- `Samples` under failures reads some number. -/
theorem samples_wp {repo topic : String} {sh : Shuffle (TopicField F)} {Q : Int → Redis F → Prop}
    (h : ∀ n, Q n r) : (samples sqrt cfg intent repo topic sh).wp Q r := by
  unfold samples
  split_ifs
  · exact h 0
  · rw [wp_bind]
    refine loadBucket_wp sqrt fun entries => ?_
    cases entries.find? fun e => e.id = topic with
    | none => exact h 0
    | some e => exact h e.samples

theorem Picker.pickWithTopic_wp {p : Picker} (h : p.bandit.Sound r) (intent : Name) (repo : String)
    (topic : Name) (sh : Shuffle (TopicField F)) (d : Draws) :
    (p.pickWithTopic sqrt cfg intent repo topic sh d).wp
      (fun sp r' => sp.1.profile.InBounds ∧ sp.2.bandit.Sound r') r := by
  unfold pickWithTopic
  split_ifs with hg
  · exact pick_wp cfg h intent d
  · have hg' : isGlobalBucket repo topic = false := Bool.eq_false_iff.mpr hg
    rw [wp_bind]
    refine samples_wp sqrt cfg fun n => ?_
    by_cases hn : n < cfg.sampleFloor
    · rw [if_pos hn, wp_bind]
      refine currentProfile_wp fun base err r' hk hb hst => ?_
      cases err with
      | some e => exact ⟨Profile.default_inBounds _, h.kept hk⟩
      | none =>
        -- below the floor the base is served and no candidate is generated
        have hcold : p.bandit.select cfg intent repo topic base n d = (base, p.bandit) :=
          Bandit.select_cold cfg p.bandit hg' hn
        change (p.bandit.select cfg intent repo topic base n d).1.InBounds ∧
          (p.bandit.select cfg intent repo topic base n d).2.Sound r'
        rw [hcold]
        exact ⟨hb, h.kept hk⟩
    · rw [if_neg hn, wp_bind]
      have hread : currentProfileFor (F := F) intent repo topic
          = currentProfileFor (Bucket.of intent repo topic).intent (Bucket.of intent repo topic).repo
            (Bucket.of intent repo topic).topic := by rw [Bucket.of_topic hg']
      have hsel : ∀ base, p.bandit.select cfg intent repo topic base n d
          = p.bandit.select cfg (Bucket.of intent repo topic).intent
            (Bucket.of intent repo topic).repo (Bucket.of intent repo topic).topic base n d := by
        intro base
        rw [Bucket.of_topic hg']
      rw [hread]
      refine currentProfileFor_wp fun base err r' hk hb hst => ?_
      cases err with
      | some e => exact ⟨Profile.default_inBounds _, h.kept hk⟩
      | none =>
        obtain ⟨v, hv, rfl⟩ := hst rfl
        change (p.bandit.select cfg intent repo topic _ n d).1.InBounds ∧
          (p.bandit.select cfg intent repo topic _ n d).2.Sound r'
        rw [hsel]
        exact (h.kept hk).serve cfg hv n d

omit [Field F] [LinearOrder F] in
theorem Picker.update_wp {p : Picker} (h : p.bandit.Sound r) (intent : Name) (profileID : String)
    (adjusted weight : ℚ) (now : Int) :
    (p.update intent profileID adjusted weight now).wp (fun p' r' => p'.bandit.Sound r') r := by
  unfold update
  split_ifs
  · exact h
  · rw [wp_bind]
    exact Bandit.update_wp h (.global intent) profileID adjusted weight now

omit [Field F] [LinearOrder F] in
theorem Picker.updateWithTopic_wp {p : Picker} (h : p.bandit.Sound r) (intent : Name)
    (repo : String) (topic : Name) (profileID : String) (adjusted weight : ℚ) (now : Int) :
    (p.updateWithTopic intent repo topic profileID adjusted weight now).wp
      (fun p' r' => p'.bandit.Sound r') r := by
  unfold updateWithTopic
  split_ifs with hf hg
  · exact h
  · rw [wp_bind]
    exact Bandit.update_wp h (.global intent) profileID adjusted weight now
  · rw [wp_bind]
    exact Bandit.update_wp h ⟨intent, repo, topic, fun h' => absurd h' hg⟩ profileID adjusted weight
      now

omit [Field F] [LinearOrder F] in
theorem Picker.reset_wp {p : Picker} (h : p.bandit.Sound r) (intent : String) (now : Int) :
    (p.reset intent now).wp (fun dp r' => dp.1.1.InBounds ∧ dp.2.bandit.Sound r') r := by
  unfold reset
  rw [wp_bind]
  refine wp_mono (Bandit.resetIntent_wp h intent now) fun eb r' hs => ?_
  obtain ⟨err, bd⟩ := eb
  cases err with
  | some e => exact ⟨Profile.default_inBounds _, hs⟩
  | none =>
    change (loadDefault intent >>= _).wp _ r'
    rw [wp_bind]
    refine loadDefault_wp fun d err hd => ?_
    cases err with
    | some e => exact ⟨Profile.default_inBounds _, hs⟩
    | none => exact ⟨hd, hs⟩

/-- `Resolve` under failures touches no profile. -/
theorem resolve_wp {p : Picker} (h : p.bandit.Sound r) (intent repo : String) (embed : List F)
    (queryText : String) (sh : Shuffle (TopicField F)) (now : Int) :
    (resolve sqrt cfg intent repo embed queryText sh now).wp (fun _ r' => p.bandit.Sound r') r := by
  unfold resolve
  split_ifs
  · exact h
  · rw [wp_bind]
    refine loadBucket_wp sqrt fun entries => ?_
    exact ⟨h, h.kept (.of_str rfl)⟩

/-- **One operation under failures** returns a profile within its bounds and keeps the candidates
sound. -/
theorem Op.prog_wp {p : Picker} (h : p.bandit.Sound r) (op : Op F) :
    (op.prog sqrt cfg p).wp (fun res r' => res.1.InBounds ∧ res.2.bandit.Sound r') r := by
  -- each operation is the call of the picker, and the result is passed on
  cases op with
  | pick intent d =>
    change (p.pick cfg intent d >>= _).wp _ r
    rw [wp_bind]
    exact Picker.pick_wp cfg h intent d
  | pickWithTopic intent repo topic sh d =>
    change (p.pickWithTopic sqrt cfg intent repo topic sh d >>= _).wp _ r
    rw [wp_bind]
    exact Picker.pickWithTopic_wp sqrt cfg h intent repo topic sh d
  | update intent profileID adjusted weight now =>
    change (p.update intent profileID adjusted weight now >>= _).wp _ r
    rw [wp_bind]
    exact wp_mono (Picker.update_wp h intent profileID adjusted weight now) fun p' r' hs =>
      ⟨trivial, hs⟩
  | updateWithTopic intent repo topic profileID adjusted weight now =>
    change (p.updateWithTopic intent repo topic profileID adjusted weight now >>= _).wp _ r
    rw [wp_bind]
    exact wp_mono (Picker.updateWithTopic_wp h intent repo topic profileID adjusted weight now)
      fun p' r' hs => ⟨trivial, hs⟩
  | reset intent now =>
    change (p.reset intent now >>= _).wp _ r
    rw [wp_bind]
    exact Picker.reset_wp h intent now
  | resolve intent repo embed queryText sh now =>
    change (Devrouter.resolve sqrt cfg intent repo embed queryText sh now >>= _).wp _ r
    rw [wp_bind]
    exact wp_mono (resolve_wp sqrt cfg h intent repo embed queryText sh now) fun _ r' hs =>
      ⟨trivial, hs⟩

end Failures

/-! ### Runs with failures -/

section Runs

variable [Field F] [LinearOrder F] (sqrt : F → F) (cfg : Tunables)

/-- The runs of one process in which any command may fail, with what each operation returned. -/
inductive Process.FaultyRun : Process F → List (Op F × Out) → Process F → Prop
  | nil (s : Process F) : FaultyRun s [] s
  | cons {s s' t : Process F} {op : Op F} {o : Out} {l : List (Op F × Out)} :
    Outcome (op.prog sqrt cfg s.picker) s.redis (o, s'.picker) s'.redis → FaultyRun s' l t →
    FaultyRun s ((op, o) :: l) t

/-- A run without failures is one of them. -/
theorem Process.faultyRun_steps (s : Process F) (ops : List (Op F)) :
    FaultyRun sqrt cfg s (ops.zip (s.outs sqrt cfg ops)) (s.steps sqrt cfg ops) := by
  induction ops generalizing s with
  | nil => exact .nil s
  | cons op ops ih =>
    refine .cons ?_ (ih (s.step sqrt cfg op))
    exact outcome_run (op.prog sqrt cfg s.picker) s.redis

/-- The run lemma: along a run the candidates stay sound and what is returned is within its
bounds. -/
theorem Process.FaultyRun.sound {s t : Process F} {l : List (Op F × Out)}
    (h : Process.FaultyRun sqrt cfg s l t) (hs : s.picker.bandit.Sound s.redis) :
    t.picker.bandit.Sound t.redis ∧ ∀ op o, (op, o) ∈ l → o.InBounds := by
  induction h with
  | nil s => exact ⟨hs, fun _ _ hm => absurd hm List.not_mem_nil⟩
  | cons hstep _ ih =>
    obtain ⟨ho, hs'⟩ := hstep.of_wp (Op.prog_wp sqrt cfg hs _)
    obtain ⟨ht, hl⟩ := ih hs'
    refine ⟨ht, fun op' o' hm => ?_⟩
    rcases List.mem_cons.mp hm with heq | hm
    · cases heq
      exact ho
    · exact hl op' o' hm

/-- **Knob safety.** Along every run of a process that starts without candidates, on any Redis
content and with any commands failing: every profile returned to the router is within its bounds;
every profile an operation can write is; and a selection on the live profile of a bucket returns that
profile or one knob step from it. A query below the sample floor passes another base, and gets it
back. -/
theorem Process.knob_safety (tunableKnobs : List String) (frozen : Bool) (r : Redis F)
    {l : List (Op F × Out)} {s : Process F}
    (h : FaultyRun sqrt cfg ⟨⟨Bandit.new tunableKnobs, frozen⟩, r⟩ l s) :
    (∀ op o, (op, o) ∈ l → o.InBounds) ∧
    (∀ op : Op F, (op.prog sqrt cfg s.picker).Issues Cmd.SafeWrite) ∧
    (warmDefaults (F := F) knownIntents).Issues Cmd.SafeWrite ∧
    (∀ b n d, (s.selection cfg b n d).1 ≠ b.live s.redis →
      Profile.OneKnobStep (b.live s.redis) (s.selection cfg b n d).1) ∧
    (∀ (b : Bucket) base n d, b.isTopic = true → n < cfg.sampleFloor →
      (s.picker.bandit.select cfg b.intent b.repo b.topic base n d).1 = base) := by
  obtain ⟨hs, hl⟩ := h.sound sqrt cfg fun key c hc => nomatch hc
  refine ⟨hl, fun op => op.issues_safeWrite sqrt cfg s.picker, warmDefaults_safeWrite _, ?_, ?_⟩
  · intro b n d hne
    exact (hs.select_step cfg b n d).1.resolve_left hne
  · intro b base n d hb hn
    rw [Bandit.select_cold cfg s.picker.bandit (by simpa [Bucket.isTopic] using hb) hn]

/-- On corrupted profile keys, with a knob enabled that does not exist. -/
theorem Process.knob_safety_corrupt :
    let r : Redis ℚ := { Redis.empty ℚ with str := fun _ => some .corrupt }
    let s : Process ℚ := ⟨⟨Bandit.new ["max_trace", "max_tokens"], false⟩, r⟩
    let ops : List (Op ℚ) := [.pick .debug ⟨0, 0, 0⟩, .reset "debug" 1]
    ∀ op o, (op, o) ∈ ops.zip (s.outs id .default ops) → o.InBounds :=
  (knob_safety id .default _ false _ (faultyRun_steps id .default _ _)).1

end Runs

end Devrouter
