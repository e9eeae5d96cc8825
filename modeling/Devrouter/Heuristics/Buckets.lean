import Devrouter.Heuristics.Bandit

/-!
# Buckets

A bucket is what the heuristics package keeps one live profile, one history and at most one candidate
for: the intent-global surface of an intent, or one topic of one repo. The source passes the triple
`(intent, repo, topic)` around and every function routes the triples that mean the intent-global
surface by itself. `Bucket` is the triple after that routing: `Bucket.of` is the routing, and the
field `canonical` keeps the triple of a global surface in the one form the picker uses.

The three keys of a bucket determine it (`Bucket.key_inj`, `Bucket.liveKey_inj`,
`Bucket.logKey_inj`). This is where the names' missing separators are used.
-/

namespace Devrouter

variable {F : Type}

/-- A bucket, with the intent-global surface in the form `("", "*")`. -/
structure Bucket where
  intent : Name
  repo : String
  topic : Name
  canonical : isGlobalBucket repo topic = true → repo = "" ∧ topic.str = intentGlobalTopic
  deriving DecidableEq

/-- The sentinel topic as a name. -/
def Name.global : Name := ⟨intentGlobalTopic, by decide, by decide⟩

/-- One of the router's intents. -/
def Name.debug : Name := ⟨"debug", by decide, by decide⟩

/-- The id of the first topic of a repo. -/
def Name.topic0 : Name := ⟨"t-0", by decide, by decide⟩

namespace Bucket

/-- The intent-global surface of an intent. -/
def global (intent : Name) : Bucket := ⟨intent, "", Name.global, fun _ => ⟨rfl, rfl⟩⟩

/-- The routing of a query or a reward to a bucket. -/
def of (intent : Name) (repo : String) (topic : Name) : Bucket :=
  if h : isGlobalBucket repo topic = true then global intent
  else ⟨intent, repo, topic, fun h' => absurd h' h⟩

/-- The bucket is not an intent-global surface. -/
def isTopic (b : Bucket) : Bool := !isGlobalBucket b.repo b.topic

/-- The key of the bucket's candidate. -/
def key (b : Bucket) : String := banditKey b.intent b.repo b.topic

/-- The key of the bucket's live profile. -/
def liveKey (b : Bucket) : String := currentKeyFor b.intent b.repo b.topic

/-- The key of the bucket's history. -/
def logKey (b : Bucket) : String := historyKeyFor b.intent b.repo b.topic

@[simp] theorem global_intent (i : Name) : (global i).intent = i := rfl

@[simp] theorem global_repo (i : Name) : (global i).repo = "" := rfl

@[simp] theorem global_topic (i : Name) : (global i).topic.str = intentGlobalTopic := rfl

@[simp] theorem of_intent (i : Name) (repo : String) (t : Name) : (of i repo t).intent = i := by
  unfold of
  split <;> rfl

theorem of_global {i : Name} {repo : String} {t : Name} (h : isGlobalBucket repo t = true) :
    of i repo t = global i := dif_pos h

theorem of_topic {i : Name} {repo : String} {t : Name} (h : isGlobalBucket repo t = false) :
    of i repo t = ⟨i, repo, t, fun h' => absurd h' (by simp [h])⟩ :=
  dif_neg (by simp [h])

/-- Two intent-global buckets of one intent are equal. -/
theorem eq_global {b : Bucket} (h : isGlobalBucket b.repo b.topic = true) :
    b = global b.intent := by
  obtain ⟨i, r, t, hc⟩ := b
  obtain ⟨rfl, ht⟩ := hc h
  have ht' : t = Name.global := Name.str_inj.mp ht
  subst ht'
  rfl

/-- A bucket is the routing of its own coordinates. -/
theorem of_self (b : Bucket) : of b.intent b.repo b.topic = b := by
  cases h : isGlobalBucket b.repo b.topic with
  | true => rw [of_global h, ← eq_global h]
  | false => rw [of_topic h]

/-- The candidate key determines the bucket: the intent ends at the first bar, the topic starts after
the last one. -/
theorem key_inj {b b' : Bucket} : b.key = b'.key ↔ b = b' := by
  refine ⟨fun h => ?_, fun h => h ▸ rfl⟩
  have hsep : ("|" : String).toList = ['|'] := rfl
  unfold key banditKey at h
  rw [String.append_sep_inj_right hsep b.topic.no_bar b'.topic.no_bar,
    String.append_sep_inj hsep b.intent.no_bar b'.intent.no_bar, Name.str_inj, Name.str_inj] at h
  obtain ⟨⟨hi, hr⟩, ht⟩ := h
  cases b; cases b'
  cases hi; cases hr; cases ht
  rfl

/-- The shape shared by the keys of the live profile and of the history. -/
private theorem routed_inj {g : String → String} {k : String → String → String → String}
    (hg : ∀ {i j}, g i = g j ↔ i = j)
    (hk : ∀ {i i' t t' : Name} {r r' : String}, k i r t = k i' r' t' ↔ i = i' ∧ r = r' ∧ t = t')
    (hkg : ∀ i r t j, k i r t ≠ g j) {b b' : Bucket}
    (h : (if isGlobalBucket b.repo b.topic then g b.intent else k b.intent b.repo b.topic)
      = if isGlobalBucket b'.repo b'.topic then g b'.intent else k b'.intent b'.repo b'.topic) :
    b = b' := by
  cases hb : isGlobalBucket b.repo b.topic with
  | true =>
    -- two global buckets have one key only if they have one intent
    cases hb' : isGlobalBucket b'.repo b'.topic with
    | true =>
      rw [if_pos hb, if_pos hb', hg, Name.str_inj] at h
      rw [eq_global hb, eq_global hb', h]
    | false =>
      -- a global key is no key of a repository or a topic
      rw [if_pos hb, if_neg (by simp [hb'])] at h
      exact absurd h.symm (hkg _ _ _ _)
  | false =>
    cases hb' : isGlobalBucket b'.repo b'.topic with
    | true =>
      rw [if_neg (by simp [hb]), if_pos hb'] at h
      exact absurd h (hkg _ _ _ _)
    | false =>
      -- two buckets that are not global agree in all three parts
      rw [if_neg (by simp [hb]), if_neg (by simp [hb']), hk] at h
      obtain ⟨hi, hr, ht⟩ := h
      cases b; cases b'
      cases hi; cases hr; cases ht
      rfl

/-- The key of the live profile determines the bucket. -/
theorem liveKey_inj {b b' : Bucket} : b.liveKey = b'.liveKey ↔ b = b' :=
  ⟨fun h => routed_inj currentKey_inj bucketCurrentKey_inj bucketCurrentKey_ne_currentKey h,
    fun h => h ▸ rfl⟩

/-- The key of the history determines the bucket. -/
theorem logKey_inj {b b' : Bucket} : b.logKey = b'.logKey ↔ b = b' :=
  ⟨fun h => routed_inj historyKey_inj bucketHistoryKey_inj bucketHistoryKey_ne_historyKey h,
    fun h => h ▸ rfl⟩

@[simp] theorem global_liveKey (i : Name) : (global i).liveKey = currentKey i := rfl

@[simp] theorem global_logKey (i : Name) : (global i).logKey = historyKey i := rfl

/-- A live-profile key is never a frozen-default key. -/
theorem liveKey_ne_defaultKey (b : Bucket) (j : String) : b.liveKey ≠ defaultKey j :=
  currentKeyFor_ne_defaultKey _ _ _ j

/-- The key of the live profile of an intent, whatever the intent, is the one of its own surface. -/
theorem liveKey_eq_currentKey {b : Bucket} {j : String} :
    b.liveKey = currentKey j ↔ b = global b.intent ∧ b.intent.str = j := by
  constructor
  · intro h
    cases hb : isGlobalBucket b.repo b.topic with
    | true =>
      refine ⟨eq_global hb, ?_⟩
      rwa [liveKey, currentKeyFor, if_pos hb, currentKey_inj] at h
    | false =>
      rw [liveKey, currentKeyFor, if_neg (by simp [hb])] at h
      exact absurd h (bucketCurrentKey_ne_currentKey _ _ _ _)
  · rintro ⟨hb, rfl⟩
    rw [hb]
    rfl

/-- The key of the history of an intent, whatever the intent, is the one of its own surface. -/
theorem logKey_eq_historyKey {b : Bucket} {j : String} :
    b.logKey = historyKey j ↔ b = global b.intent ∧ b.intent.str = j := by
  constructor
  · intro h
    cases hb : isGlobalBucket b.repo b.topic with
    | true =>
      refine ⟨eq_global hb, ?_⟩
      rwa [logKey, historyKeyFor, if_pos hb, historyKey_inj] at h
    | false =>
      rw [logKey, historyKeyFor, if_neg (by simp [hb])] at h
      exact absurd h (bucketHistoryKey_ne_historyKey _ _ _ _)
  · rintro ⟨hb, rfl⟩
    rw [hb]
    rfl

/-- What a reset of an intent drops: its own candidates start with its name and a bar. -/
theorem hasPrefix_key (b : Bucket) : hasPrefix b.key (b.intent ++ "|") = true := by
  unfold hasPrefix key banditKey
  rw [List.isPrefixOf_iff_prefix]
  exact ⟨(b.repo ++ "|" ++ (b.topic : String)).toList, by simp⟩

/-- A reset of an intent that is a name drops no candidate of another intent. -/
theorem hasPrefix_key_iff (b : Bucket) (i : Name) :
    hasPrefix b.key (i ++ "|") = true ↔ b.intent = i := by
  refine ⟨fun h => ?_, fun h => h ▸ b.hasPrefix_key⟩
  unfold hasPrefix key banditKey at h
  rw [List.isPrefixOf_iff_prefix] at h
  obtain ⟨z, hz⟩ := h
  have hz' : (i : String).toList ++ '|' :: z
      = (b.intent : String).toList ++ '|' :: (b.repo ++ "|" ++ (b.topic : String)).toList := by
    simpa using hz
  have hi := ((List.append_sep_inj i.no_bar b.intent.no_bar).mp hz').1
  exact (Name.str_inj.mp (String.toList_inj.mp hi)).symm

/-- The live profile of a bucket, as its next query is served it. -/
def live (b : Bucket) (r : Redis F) : Profile := r.live b.intent b.repo b.topic

/-- The state after the bucket's live profile was read and what was missing seeded. -/
def seed (b : Bucket) (r : Redis F) : Redis F := r.seedCurrentFor b.intent b.repo b.topic

theorem live_inBounds (b : Bucket) (r : Redis F) : (b.live r).InBounds :=
  r.live_inBounds _ _ _

@[simp] theorem live_global (i : Name) (r : Redis F) : (global i).live r = r.liveGlobal i := rfl

@[simp] theorem seed_global (i : Name) (r : Redis F) : (global i).seed r = r.seedCurrent i := rfl

/-- What is stored for a bucket is what it is served. -/
theorem live_of_stored {b : Bucket} {r : Redis F} {v : Stored} (h : r.str b.liveKey = some v) :
    b.live r = v.read b.intent := by
  unfold live Redis.live
  cases hb : isGlobalBucket b.repo b.topic with
  | true =>
    rw [liveKey, currentKeyFor, if_pos hb] at h
    simp [Redis.liveGlobal, h]
  | false =>
    rw [liveKey, currentKeyFor, if_neg (by simp [hb])] at h
    simp [h]

/-- A bucket with nothing stored is served the live profile of its intent. -/
theorem live_of_missing {b : Bucket} {r : Redis F} (h : r.str b.liveKey = none) :
    b.live r = r.liveGlobal b.intent := by
  unfold live Redis.live
  cases hb : isGlobalBucket b.repo b.topic with
  | true => simp
  | false =>
    rw [liveKey, currentKeyFor, if_neg (by simp [hb])] at h
    simp [h]

@[simp] theorem seed_history (b : Bucket) (r : Redis F) : (b.seed r).history = r.history :=
  r.seedCurrentFor_history _ _ _

/-- **What a read can seed**: the bucket itself and, when the bucket held nothing, the intent-global
surface it is seeded from. Each gets the profile it is then served, and what is stored stays. -/
theorem seed_str (b b' : Bucket) (r : Redis F) :
    (b'.seed r).str b.liveKey
      = if b = b' ∨ b = global b'.intent ∧ r.str b'.liveKey = none then
          some ((r.str b.liveKey).getD (.json (b.live r)))
        else r.str b.liveKey := by
  -- a global surface that holds nothing is served the default of its intent
  have hlive : ∀ i : Name, r.str (currentKey i) = none →
      (global i).live r = Profile.default i := fun i h => by
    simp [live_global, Redis.liveGlobal, h]
  have hglob : ∀ i : Name, (r.seedCurrent i).str b.liveKey
      = if b = global i then some ((r.str b.liveKey).getD (.json (b.live r)))
        else r.str b.liveKey := by
    intro i
    rw [r.seedCurrent_str i (b.liveKey_ne_defaultKey)]
    by_cases hb : b = global i
    · subst hb
      rw [if_pos rfl, if_pos (global_liveKey i)]
      cases hc : r.str (global i).liveKey with
      | some v => rfl
      | none => rw [hlive i hc]
    · have hne : b.liveKey ≠ currentKey i := fun h => hb (liveKey_inj.mp h)
      rw [if_neg hb, if_neg hne]
  unfold seed Redis.seedCurrentFor
  cases hg : isGlobalBucket b'.repo b'.topic with
  | true =>
    -- the global surface seeds itself
    have hb' : b' = global b'.intent := eq_global hg
    rw [if_pos rfl, hglob]
    refine if_congr ?_ rfl rfl
    rw [← hb']
    exact ⟨.inl, fun h => h.elim id fun h => h.1⟩
  | false =>
    have hkey : b'.liveKey = bucketCurrentKey b'.intent b'.repo b'.topic :=
      if_neg (Bool.eq_false_iff.mp hg)
    rw [if_neg Bool.false_ne_true, ← hkey]
    cases hc : r.str b'.liveKey with
    -- a bucket that is stored is read and left
    | some v =>
      rw [Option.isSome_some, if_pos rfl]
      by_cases hb : b = b'
      · subst hb
        rw [if_pos (.inl rfl), hc]
        rfl
      · rw [if_neg]
        rintro (h | ⟨-, h⟩)
        · exact hb h
        · cases h
    -- a missing one is seeded from the global surface, which may be seeded on the way
    | none =>
      rw [Option.isSome_none, if_neg Bool.false_ne_true, Redis.setStr_str]
      by_cases hb : b = b'
      · subst hb
        rw [Function.update_self, if_pos (.inl rfl), hc, live_of_missing hc]
        rfl
      · rw [Function.update_of_ne fun h => hb (liveKey_inj.mp h), hglob]
        refine if_congr ?_ rfl rfl
        exact ⟨fun h => .inr ⟨h, rfl⟩, fun h => h.elim (fun h => absurd h hb) fun h => h.1⟩

/-- What is stored stays when a live profile is read. -/
theorem seed_stored (b : Bucket) {r : Redis F} {key : String} {v : Stored}
    (h : r.str key = some v) : (b.seed r).str key = some v := by
  have hcur : ∀ i, (r.seedCurrent i).str key = some v := fun i => r.seedCurrent_stored i h
  unfold seed Redis.seedCurrentFor
  split_ifs with hg hc
  · exact hcur b.intent
  · exact h
  · have hne : key ≠ bucketCurrentKey b.intent b.repo b.topic := fun hk => by
      rw [hk] at h
      simp [h] at hc
    rw [Redis.setStr_str, Function.update_of_ne hne]
    exact hcur b.intent

end Bucket

end Devrouter
