import Devrouter.Router.Submit

/-!
# What a feedback is credited to

What `SubmitFeedback` changes is keyed by the query it joined: one row in the rewards of the query's bucket,
the fields of its trace, samples of its profile in its slot, the candidate of its bucket in the source
bandit, the patterns that were anchored for it, and the false positives of the memories it was returned.
`creditJoin_wp` says so for a whole feedback, whatever fails; there is one lemma for each of the services it
writes to.
-/

open Prog

namespace Devrouter

variable {F : Type}

/-! ### The rewards and the traces -/

/-- The command writes no reward and no trace. -/
def Cmd.NotLog : Cmd F → Prop
  | .rpush _ _ => False
  | .hsetTrace _ _ => False
  | _ => True

/-- The rewards and the traces are the same. -/
def SameLog (r r' : Redis F) : Prop := r'.rewards = r.rewards ∧ r'.trace = r.trace

theorem SameLog.refl (r : Redis F) : SameLog r r := ⟨rfl, rfl⟩

theorem SameLog.trans (r r' r'' : Redis F) (h : SameLog r r') (h' : SameLog r' r'') : SameLog r r'' :=
  ⟨h'.1.trans h.1, h'.2.trans h.2⟩

theorem Cmd.NotLog.same {c : Cmd F} (hc : c.NotLog) (r : Redis F) : SameLog r (c.apply r).2 := by
  cases c with
  | rpush key row => exact hc.elim
  | hsetTrace key fields => exact hc.elim
  | _ => exact .refl r

theorem notLog_admitted : Cmd.Admitted (F := F) Cmd.NotLog where
  get _ := trivial
  lpush _ _ := trivial
  ltrim _ _ := trivial
  set _ _ _ _ := trivial

/-! ### The bandit -/

/-- A verdict changes the slot of its candidate alone, and a stale one changes no slot. -/
theorem carryOut_active (b : Bandit) (key : String) (now : Int) (v : Verdict) (r : Redis F) :
    (b.carryOut key now v).wp (fun b' _ => (∀ k, k ≠ key → b'.active k = b.active k) ∧
      (v = .stale → b' = b)) r := by
  -- a write into the slot of `key` leaves the others
  have hput : ∀ c : Candidate, ∀ k, k ≠ key → (b.put key c).active k = b.active k := fun c k hk =>
    Function.update_of_ne hk _ _
  have hdelete : ∀ c : Candidate, ∀ k, k ≠ key → ((b.put key c).delete key).active k = b.active k := by
    intro c k hk
    rw [Bandit.delete_put]
    exact Function.update_of_ne hk _ _
  cases v with
  | stale => exact ⟨fun _ _ => rfl, fun _ => rfl⟩
  | keep c => exact ⟨hput c, nofun⟩
  | promote c =>
    refine wp_bind_of_forall (V := redis F) (fun err r' => ?_) r
    cases err with
    | some e => exact ⟨hput c, nofun⟩
    | none =>
      refine wp_bind_of_forall (V := redis F) (fun _ _ => ?_) r'
      exact ⟨hdelete c, nofun⟩
  | discard c =>
    refine wp_bind_of_forall (V := redis F) (fun _ _ => ?_) r
    exact ⟨hdelete c, nofun⟩
  | rollback c =>
    refine wp_bind_of_forall (V := redis F) (fun d r' => ?_) r
    refine wp_bind_of_forall (V := redis F) (fun _ r'' => ?_) r'
    refine wp_bind_of_forall (V := redis F) (fun _ _ => ?_) r''
    exact ⟨hdelete c, nofun⟩

/-- The reward is for a profile that is not under test in the slot. -/
def StaleFor (b : Bandit) (slot profileID : String) : Prop :=
  ∀ c, b.active slot = some c → profileID ≠ c.profileID ∧ profileID ≠ c.baseID

/-- An update of a slot. -/
theorem update_wp_slot (b : Bandit) (intent repo topic profileID : String) (adjusted weight : ℚ)
    (now : Int) (r : Redis F) :
    (b.update intent repo topic profileID adjusted weight now).wp (fun b' r' => SameLog r r' ∧
      (∀ k, k ≠ banditKey intent repo topic → b'.active k = b.active k) ∧
      (StaleFor b (banditKey intent repo topic) profileID → b' = b)) r := by
  cases hc : b.active (banditKey intent repo topic) with
  | none =>
    unfold Bandit.update
    dsimp only
    rw [hc]
    exact ⟨.refl r, fun _ _ => rfl, fun _ => rfl⟩
  | some c =>
    rw [b.update_eq profileID adjusted weight now hc]
    -- what is issued settles the server, the verdict settles the slot
    have hlog := (b.carryOut_issues (F := F) notLog_admitted (banditKey intent repo topic) now
      (c.judge profileID adjusted weight)).within SameLog.refl SameLog.trans fun _ hn => hn.same
    refine wp_mono (wp_and (hlog r) (carryOut_active b _ now _ r)) ?_
    rintro b' r' ⟨hsame, hactive, hstale⟩
    refine ⟨hsame, hactive, fun h => hstale ?_⟩
    obtain ⟨hprofile, hbase⟩ := h c hc
    -- the profile is neither the candidate nor its base: the verdict is stale
    unfold Candidate.judge
    rw [if_neg hprofile, if_neg hbase]

/-- A reward for a query of a bucket. -/
theorem updateWithTopic_wp (p : Picker) (intent repo topic profileID : String) (adjusted weight : ℚ)
    (now : Int) (r : Redis F) :
    (p.updateWithTopic intent repo topic profileID adjusted weight now).wp (fun p' r' =>
      SameLog r r' ∧
      (∀ k, k ≠ Process.slotKey intent repo topic → p'.bandit.active k = p.bandit.active k) ∧
      (StaleFor p.bandit (Process.slotKey intent repo topic) profileID → p' = p)) r := by
  unfold Picker.updateWithTopic Process.slotKey
  -- a frozen picker does not learn
  by_cases hfrozen : p.frozen = true
  · rw [if_pos hfrozen]
    exact ⟨.refl r, fun _ _ => rfl, fun _ => rfl⟩
  rw [if_neg hfrozen]
  -- by the global bucket's key or the topic's own
  split_ifs
  · rw [wp_bind]
    refine wp_mono (update_wp_slot p.bandit _ _ _ _ _ _ _ r) ?_
    rintro b' r' ⟨hsame, hactive, hstale⟩
    exact ⟨hsame, hactive, fun h => by rw [hstale h]⟩
  · rw [wp_bind]
    refine wp_mono (update_wp_slot p.bandit _ _ _ _ _ _ _ r) ?_
    rintro b' r' ⟨hsame, hactive, hstale⟩
    exact ⟨hsame, hactive, fun h => by rw [hstale h]⟩

/-! ### The bucket -/

/-- The rolling mean is read. -/
theorem rollingMeanFor_wp (intent repo topic : String) (now : Int) (samples : ℕ) (r : Redis F) :
    (rollingMeanFor intent repo topic now samples).wp (fun _ r' => r' = r) r := by
  -- the rewards are read, and nothing else is asked of the store
  have hreads : ∀ limit keys out, (collectRewards (F := F) limit keys out).Issues
      (fun c : Cmd F => ∃ key, c = Cmd.lrange key) := by
    intro limit keys out
    induction keys generalizing out with
    | nil => exact issues_pure _
    | cons key keys ih =>
      unfold collectRewards
      refine Issues.bind ⟨⟨key, rfl⟩, fun _ => trivial⟩ fun items => ?_
      dsimp only
      split_ifs
      · exact issues_pure _
      · exact ih _
  have hissues : (rollingMeanFor (F := F) intent repo topic now samples).Issues
      (fun c : Cmd F => ∃ key, c = Cmd.lrange key) := by
    unfold rollingMeanFor recentRewardsFor
    refine Issues.bind (hreads _ _ _) fun rows => ?_
    split_ifs
    · exact issues_pure _
    · exact issues_pure _
  refine Issues.within (R := fun r r' : Redis F => r' = r) (fun _ => rfl)
    (fun _ _ _ h h' => h'.trans h) ?_ hissues r
  rintro c ⟨key, rfl⟩ r
  rfl

/-- A row is appended to the rewards of its bucket. -/
theorem appendRewardFor_wp (intent repo topic : String) (row : RewardRow) (r : Redis F) :
    (appendRewardFor intent repo topic row).wp (fun _ r' => r'.trace = r.trace ∧
      (r'.rewards = r.rewards ∨
        r'.rewards = Function.update r.rewards (rewardKeyFor intent repo topic (dayOf row.timestamp))
          (r.rewards (rewardKeyFor intent repo topic (dayOf row.timestamp)) ++ [row]))) r := by
  unfold appendRewardFor appendReward rewardKeyFor
  split_ifs
  · exact ⟨⟨rfl, .inl rfl⟩, ⟨rfl, .inr rfl⟩⟩
  · exact ⟨⟨rfl, .inl rfl⟩, ⟨rfl, .inr rfl⟩⟩

/-- The fields of one trace are patched. -/
theorem patchTrace_wp (queryID : String) (fields : TraceFields) (r : Redis F) :
    (patchTrace queryID fields).wp (fun _ r' => r'.rewards = r.rewards ∧
      ∀ key, key ≠ traceKey queryID → r'.trace key = r.trace key) r := by
  unfold patchTrace
  split_ifs
  · exact ⟨rfl, fun _ _ => rfl⟩
  · exact ⟨⟨rfl, fun _ _ => rfl⟩, ⟨rfl, fun _ hkey => Function.update_of_ne hkey _ _⟩⟩

/-- What a feedback that joined `j` does to the rewards, the traces and the bandit: one row of the query in
the rewards of its bucket, its own trace, and samples of its profile in the slot of its bucket. -/
structure BucketCredited (j : Join) (now : Int) (p p' : Picker) (r r' : Redis F) : Prop where
  rewards : ∀ key, r'.rewards key = r.rewards key ∨
    key = rewardKeyFor j.intent j.repo j.topicID (dayOf now) ∧
      ∃ row : RewardRow, row.queryID = j.queryID ∧ row.profileID = j.profileID ∧
        r'.rewards key = r.rewards key ++ [row]
  traces : ∀ key, key ≠ traceKey j.queryID → r'.trace key = r.trace key
  samples : ∀ key, key ≠ Process.slotKey j.intent j.repo j.topicID →
    p'.bandit.active key = p.bandit.active key
  profile : StaleFor p.bandit (Process.slotKey j.intent j.repo j.topicID) j.profileID → p' = p

theorem creditBucket_wp (p : Picker) (j : Join) (input : FeedbackInput) (now : Int) (r : Redis F) :
    (creditBucket p j input now).wp (fun out r' => BucketCredited j now p out.2 r r') r := by
  unfold creditBucket
  rw [wp_bind]
  refine wp_mono (rollingMeanFor_wp _ _ _ _ _ r) ?_
  rintro rollingMean _ rfl
  dsimp only
  rw [wp_bind]
  refine wp_mono (appendRewardFor_wp _ _ _ _ _) ?_
  rintro _ r₁ ⟨htrace₁, hrewards₁⟩
  rw [wp_bind]
  -- the row may be lost and the patch still made: neither error ends the feedback
  refine wp_mono (patchTrace_wp _ _ r₁) ?_
  rintro _ r₂ ⟨hrewards₂, htrace₂⟩
  rw [wp_bind]
  refine wp_mono (updateWithTopic_wp p _ _ _ _ _ _ _ r₂) ?_
  rintro p' r₃ ⟨⟨hrewards₃, htrace₃⟩, hactive, hstale⟩
  refine ⟨fun key => ?_, fun key hkey => ?_, hactive, hstale⟩
  · rw [hrewards₃, hrewards₂]
    rcases hrewards₁ with hsame | hrow
    · exact .inl (congrFun hsame key)
    · rw [hrow]
      by_cases hkey : key = rewardKeyFor j.intent j.repo j.topicID (dayOf now)
      · subst hkey
        refine .inr ⟨rfl, _, ?_, ?_, Function.update_self _ _ _⟩
        · rfl
        · rfl
      · exact .inl (Function.update_of_ne hkey _ _)
  · rw [htrace₃, htrace₂ key hkey, htrace₁]

/-! ### The source bandit -/

/-- The candidates of the other buckets are the same. -/
def SourceBandit.SameOff (key : String) (b b' : SourceBandit) : Prop :=
  ∀ k, k ≠ key → b'.active k = b.active k

namespace SourceBandit

theorem delete_sameOff {key : String} {b b' : SourceBandit} (h : b.SameOff key b') :
    b.SameOff key (b'.delete key) := by
  intro k hk
  exact (Function.update_of_ne hk _ _).trans (h k hk)

theorem put_sameOff (b : SourceBandit) (key : String) (c : SourceCandidate) :
    b.SameOff key (b.put key c) := fun _ hk => Function.update_of_ne hk _ _

theorem rollback_sameOff {key : String} {b b' : SourceBandit} (h : b.SameOff key b')
    (c : SourceCandidate) (reason : String) (now : Int) (db : SourceDb) :
    (b'.rollback key c reason now).wp (fun b'' _ => b.SameOff key b'') db := by
  refine wp_bind_of_forall (V := sourceRedis) (fun d db' => ?_) db
  refine wp_bind_of_forall (V := sourceRedis) (fun _ db'' => ?_) db'
  refine wp_bind_of_forall (V := sourceRedis) (fun _ _ => ?_) db''
  exact delete_sameOff h

theorem checkPromotion_sameOff {key : String} {b b' : SourceBandit} (h : b.SameOff key b')
    (c : SourceCandidate) (now : Int) (db : SourceDb) :
    (b'.checkPromotion key c now).wp (fun b'' _ => b.SameOff key b'') db := by
  unfold checkPromotion
  split_ifs
  · refine wp_bind_of_forall (V := sourceRedis) (fun err db' => ?_) db
    cases err with
    | some e => exact h
    | none =>
      refine wp_bind_of_forall (V := sourceRedis) (fun _ _ => ?_) db'
      exact delete_sameOff h
  · exact delete_sameOff h
  · exact h

theorem update_sameOff (b : SourceBandit) (intent repo topic source : String) (servedVal : Int)
    (adjusted weight : ℚ) (now : Int) (db : SourceDb) :
    (b.update intent repo topic source servedVal adjusted weight now).wp
      (fun b' _ => b.SameOff (banditKey intent repo topic) b') db := by
  have hput := b.put_sameOff (banditKey intent repo topic)
  have hsame : b.SameOff (banditKey intent repo topic) b := fun _ _ => rfl
  unfold update
  dsimp only
  cases b.active (banditKey intent repo topic) with
  | none => exact hsame
  | some c =>
    dsimp only
    split_ifs
    · exact hsame
    -- the candidate at its value: the third strike, a strike, no strike
    · exact rollback_sameOff (hput _) _ _ now db
    · exact checkPromotion_sameOff (hput _) _ now db
    · exact checkPromotion_sameOff (hput _) _ now db
    · exact checkPromotion_sameOff (hput _) _ now db
    · exact hsame

end SourceBandit

theorem creditSource_wp (frozen : Bool) (b : SourceBandit) (j : Join) (explored : Option (String × Int))
    (adjusted : ℚ) (now : Int) (db : SourceDb) :
    (creditSource frozen b j explored adjusted now).wp
      (fun b' _ => b.SameOff (banditKey j.intent j.repo j.topicID) b') db := by
  have hsame : b.SameOff (banditKey j.intent j.repo j.topicID) b := fun _ _ => rfl
  unfold creditSource
  cases explored with
  | none => exact hsame
  | some e =>
    dsimp only
    split_ifs
    · exact hsame
    · exact b.update_sameOff _ _ _ _ _ _ _ now db

/-! ### The memories -/

section Memories

open Memory

/-- The key holds the false positives of a memory that was returned for the query, or is the overlay the
feedback names. -/
def MemoryCredits (env : FeedbackEnv F) (call : FeedbackCall) (fields : TraceFields) (key : String) : Prop :=
  (∃ mk ∈ splitCSV (traceField env.formatG fields "memory_keys"), key = fpKey mk) ∨
    ∃ repo name, cutSlash call.flowID = some (repo, name) ∧ key = flowOverlayKey env.keyspace repo name

theorem readMemoryFiles_spares {P : String → Prop} (memKeys : List String) :
    (readMemoryFiles (F := F) memKeys).Within (Spares P) := by
  induction memKeys with
  | nil => exact within_pure Spares.refl _
  | cons k ks ih =>
    have hget : (Mdb.hgetall (F := F) k).Within (Spares P) :=
      (call_spares (c := .hgetall k) trivial).map _
    unfold readMemoryFiles
    refine hget.bind Spares.trans fun h => ?_
    exact ih.bind Spares.trans fun rest => within_pure Spares.refl _

theorem recordFalsePositives_spares {P : String → Prop} (env : FeedbackEnv F)
    (files : String → List String) (agentFiles : List String) (emb : List F) {memKeys : List String}
    (hP : ∀ mk ∈ memKeys, P (fpKey mk)) :
    (recordFalsePositives env files agentFiles emb memKeys).Within (Spares P) := by
  induction memKeys with
  | nil => exact within_pure Spares.refl _
  | cons mk mks ih =>
    have hrest := ih fun mk' hmk' => hP mk' (List.mem_cons_of_mem mk hmk')
    have hrecord : (recordFalsePositive env.mean mk emb).Within (Spares P) :=
      recordFalsePositive_spares env.mean (.inr (.inr (hP mk List.mem_cons_self)))
    unfold recordFalsePositives
    split_ifs
    · exact hrest
    · refine hrecord.bind Spares.trans fun err => ?_
      exact hrest.bind Spares.trans fun n => within_pure Spares.refl _

theorem attributeFalsePositives_spares (env : FeedbackEnv F) (call : FeedbackCall) (fields : TraceFields) :
    (attributeFalsePositives env fields call.toFeedbackInput).Within
      (Spares (MemoryCredits env call fields)) := by
  unfold attributeFalsePositives
  dsimp only
  split_ifs
  · exact within_pure Spares.refl _
  · exact within_pure Spares.refl _
  · cases env.embed (traceField env.formatG fields "query") with
    | none => exact within_pure Spares.refl _
    | some emb =>
      have hload : (loadMemoryFiles (F := F) (splitCSV (traceField env.formatG fields "memory_keys"))).Within
          (Spares (MemoryCredits env call fields)) :=
        (readMemoryFiles_spares _).bind Spares.trans fun m => within_pure Spares.refl _
      refine hload.bind Spares.trans fun files => ?_
      exact recordFalsePositives_spares env files _ emb fun mk hmk => .inl ⟨mk, hmk, rfl⟩

theorem applyFlowOverlay_spares (env : FeedbackEnv F) (call : FeedbackCall) (fields : TraceFields)
    (queryID : String) (now : Int) :
    (applyFlowOverlay env call queryID now).Within (Spares (MemoryCredits env call fields)) := by
  unfold applyFlowOverlay
  cases hcut : cutSlash call.flowID with
  | none => exact within_pure Spares.refl _
  | some p =>
    obtain ⟨repo, name⟩ := p
    dsimp only
    split_ifs
    · exact within_pure Spares.refl _
    · refine (updateFlowOverlay_spares env.lower now (.inr ⟨repo, name, hcut, rfl⟩) _).bind Spares.trans ?_
      exact fun err => within_pure Spares.refl _

/-- No overlay is a record of false positives. -/
theorem fpKey_ne_flowOverlayKey (K : Keyspace) (mk repo name : String) :
    fpKey mk ≠ flowOverlayKey K repo name := by
  intro h
  have hchars := congrArg String.toList h
  simp [fpKey, fpKeyPrefix, flowOverlayKey, flowOverlayBase] at hchars

/-- The false positives of the other memories are the same. -/
theorem lookup_fpKey_of_spares {env : FeedbackEnv F} {call : FeedbackCall} {fields : TraceFields}
    {s t : Server F} (h : Spares (MemoryCredits env call fields) s t) {mk : String}
    (hmk : mk ∉ splitCSV (traceField env.formatG fields "memory_keys")) :
    t.keys.lookup (fpKey mk) = s.keys.lookup (fpKey mk) := by
  refine h _ ?_
  -- a key of another memory is no key of a returned one, and no overlay
  rintro (⟨mk', hmk', heq⟩ | ⟨repo, name, -, heq⟩)
  · rw [fpKey_inj.mp heq] at hmk
    exact hmk hmk'
  · exact fpKey_ne_flowOverlayKey _ _ _ _ heq

end Memories

/-! ### The whole of a feedback -/

/-- What a feedback that joined `j` changes, by the trace with these fields. -/
structure Credited (env : FeedbackEnv F) (call : FeedbackCall) (now : Int) (j : Join) (fields : TraceFields)
    (s s' : Session) (w w' : (stores F).State) : Prop where
  bucket : BucketCredited j now s.picker s'.picker w.1 w'.1
  sources : s.sources.SameOff (banditKey j.intent j.repo j.topicID) s'.sources
  anchors : w.2.2.1.Spares (fun key =>
    ∃ obs, Anchorlearn.Observation.ofFields (w.2.2.1.hash (Anchorlearn.obsKey j.queryID)) = some obs ∧
      obs.Credits key) w'.2.2.1
  memories : Memory.Spares (MemoryCredits env call fields) w.2.2.2 w'.2.2.2
  falsePositives : ∀ mk, mk ∉ splitCSV (traceField env.formatG fields "memory_keys") →
    w'.2.2.2.keys.lookup (Memory.fpKey mk) = w.2.2.2.keys.lookup (Memory.fpKey mk)

/-- **A feedback that joined a query** changes what is keyed by that query, whatever fails. -/
theorem creditJoin_wp (env : FeedbackEnv F) (s : Session) (call : FeedbackCall) (now : Int) (j : Join)
    (fields : TraceFields) (w : (stores F).State) :
    (creditJoin env s call now j fields).wp (fun out w' =>
      Credited env call now j fields s out.2 w w' ∧ out.1.1.joinedVia = j.joinedVia) w := by
  obtain ⟨r, db, anchors, memories⟩ := w
  unfold creditJoin
  rw [wp_bind, wp_left]
  -- each stage keeps to its own service, so the facts of the stages before stand
  refine wp_mono (creditBucket_wp s.picker j call.toFeedbackInput now r) ?_
  rintro ⟨⟨raw, adjusted⟩, picker⟩ r' hbucket
  dsimp only
  rw [wp_bind, wp_right, wp_left]
  refine wp_mono (creditSource_wp picker.frozen s.sources j _ adjusted now db) ?_
  intro sources db' hsources
  rw [wp_bind, wp_right, wp_right, wp_left]
  refine wp_mono (Anchorlearn.rewardFeedback_wp j.queryID _ call.success (now / 1000) anchors) ?_
  intro _ anchors' hanchors
  rw [wp_bind, wp_right, wp_right, wp_right]
  refine wp_mono (attributeFalsePositives_spares env call fields memories) ?_
  intro _ memories' hfalse
  rw [wp_bind, wp_right, wp_right, wp_right]
  refine wp_mono (applyFlowOverlay_spares env call fields j.queryID now memories') ?_
  intro overlay memories'' hoverlay
  have hmemories := hfalse.trans _ _ _ hoverlay
  exact ⟨⟨hbucket, hsources, hanchors, hmemories, fun mk hmk => lookup_fpKey_of_spares hmemories hmk⟩, rfl⟩

end Devrouter
