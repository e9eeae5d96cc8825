import Devrouter.Heuristics.Topics

/-!
# Anchor rewards

Model of `RewardFeedback` in `internal/anchorlearn/learner.go`, of the functions of `RedisStore` in
`internal/anchorlearn/store.go` it calls and of `extractKeywords` in `internal/anchorlearn/policy.go`: the
patterns of the anchors that were injected for a query are credited when the agent names their files.

Weights are rationals: `float64` rounding is not modelled, and neither are expiry times. An observation is
read as the texts of its hash.
-/

open Prog

namespace Devrouter.Anchorlearn

/-! ### The server -/

/-- Observations and pattern statistics (hashes), and keyword affinities (floats). -/
structure AnchorDb where
  hash : String → List (String × TraceValue)
  float : String → Option ℚ

/-- The server of a fresh installation. -/
def AnchorDb.empty : AnchorDb := ⟨fun _ => [], fun _ => none⟩

inductive AnchorCmd where
  | hgetall (key : String)
  | hset (key : String) (field : String × TraceValue)
  | hincrbyfloat (key field : String) (delta : ℚ)
  | incrbyfloat (key : String) (delta : ℚ)

/-- The answer to a command; `none` is an error answer. -/
abbrev AnchorCmd.Reply : AnchorCmd → Type
  | .hgetall _ => List (String × TraceValue)
  | .hset _ _ => Unit
  | _ => Option Unit

/-- A field of a hash as text; empty when it is missing. -/
def fieldText (fields : List (String × TraceValue)) (name : String) : String :=
  match fields.find? (·.1 = name) with
  | some (_, .text s) => s
  | _ => ""

/-- The value of a field after `HINCRBYFLOAT`; no text is read as a number. -/
def incrValue (delta : ℚ) : Option (String × TraceValue) → Option ℚ
  | none => some delta
  | some (_, .real q) => some (q + delta)
  | some (_, .text _) => none

namespace AnchorDb

variable (db : AnchorDb) (key : String)

def hset (field : String × TraceValue) : AnchorDb :=
  { db with hash := Function.update db.hash key (hsetField (db.hash key) field) }

def incrbyfloat (delta : ℚ) : AnchorDb :=
  { db with float := Function.update db.float key (some ((db.float key).getD 0 + delta)) }

end AnchorDb

def AnchorCmd.apply : (c : AnchorCmd) → AnchorDb → c.Reply × AnchorDb
  | .hgetall key, db => (db.hash key, db)
  | .hset key field, db => ((), db.hset key field)
  | .hincrbyfloat key field delta, db =>
    match incrValue delta ((db.hash key).find? (·.1 = field)) with
    | none => (none, db)
    | some q => (some (), db.hset key (field, .real q))
  | .incrbyfloat key delta, db => (some (), db.incrbyfloat key delta)

abbrev anchorRedis : Service where
  State := AnchorDb
  Cmd := AnchorCmd
  Reply := AnchorCmd.Reply
  apply := AnchorCmd.apply

/-! ### The store -/

def obsKey (queryID : String) : String := "anchor:obs:" ++ queryID

def patternKey (repo patternID : String) : String :=
  if repo = "" then "anchor:pattern:" ++ patternID
  else "anchor:repo:" ++ repo ++ ":pattern:" ++ patternID

def keywordKey (kw patternID : String) : String := "anchor:keyword:" ++ kw ++ ":" ++ patternID

/-- `splitList`. -/
def splitList (s : String) : List String :=
  if s = "" then [] else (s.toList.splitOn '|').map String.ofList

/-- What was injected for a query, as far as a reward reads it. -/
structure Observation where
  repo : String
  query : String
  files : List String
  patternIDs : List String
  deriving DecidableEq, Repr

/-- The observation in a hash. -/
def Observation.ofFields (fields : List (String × TraceValue)) : Option Observation :=
  if fields.isEmpty then none
  else
    some {
      repo := fieldText fields "repo"
      query := fieldText fields "query"
      files := splitList (fieldText fields "files")
      patternIDs := splitList (fieldText fields "pattern_ids")
    }

/-- `GetObservation`; an error reads as no observation. -/
def getObservation (queryID : String) : Prog anchorRedis (Option Observation) := do
  let fields ← call (V := anchorRedis) (.hgetall (obsKey queryID))
  return (fields.bind Observation.ofFields)

/-- `IncPatternSuccess`, at the second `now`. -/
def incPatternSuccess (repo patternID : String) (weight : ℚ) (now : Int) : Prog anchorRedis Unit := do
  let r ← call (V := anchorRedis) (.hincrbyfloat (patternKey repo patternID) "success" weight)
  if r.join.isSome then
    let _ ← call (V := anchorRedis) (.hset (patternKey repo patternID) ("last_seen", .text (toString now)))
    return ()
  else return ()

/-- `IncKeywordAffinity`, for each keyword. -/
def incKeywordAffinities (patternID : String) (delta : ℚ) : List String → Prog anchorRedis Unit
  | [] => return ()
  | kw :: kws => do
    let _ ← call (V := anchorRedis) (.incrbyfloat (keywordKey kw patternID) delta)
    incKeywordAffinities patternID delta kws

/-! ### Keywords -/

/-- The characters of a keyword. -/
def isKeywordChar (c : Char) : Bool :=
  decide ('a' ≤ c ∧ c ≤ 'z') || decide ('A' ≤ c ∧ c ≤ 'Z') || decide ('0' ≤ c ∧ c ≤ '9')

/-- The word that ends here. -/
def flushKeyword (cur : List Char) : List String :=
  if cur.length < 3 then [] else [String.ofList (cur.reverse.map lowerRune)]

/-- The loop of `extractKeywords`; `cur` is the current word reversed. -/
def keywordTokens : List Char → List Char → List String
  | [], cur => flushKeyword cur
  | c :: cs, cur =>
    if isKeywordChar c then keywordTokens cs (c :: cur) else flushKeyword cur ++ keywordTokens cs []

/-- `extractKeywords`: the distinct words, in order. -/
def extractKeywords (query : List Char) : List String := (keywordTokens query []).eraseDups

/-- The keywords of an observed query, lower-cased first. -/
def Observation.keywords (obs : Observation) : List String :=
  extractKeywords (obs.query.toList.map lowerRune)

/-! ### The reward -/

/-- Credit a pattern, everywhere and in the repo of the query, and its keywords. -/
def creditPattern (obs : Observation) (patternID : String) (weight : ℚ) (now : Int) :
    Prog anchorRedis Unit := do
  incPatternSuccess "" patternID weight now
  incPatternSuccess obs.repo patternID weight now
  incKeywordAffinities patternID weight obs.keywords

/-- The loop of `RewardFeedback`, over the anchored files and the patterns they came from. -/
def rewardFiles (obs : Observation) (additionalFiles : List String) (weight : ℚ) (now : Int) :
    List String → List String → Prog anchorRedis Unit
  | [], _ => return ()
  | file :: files, patternIDs => do
    let patternID := patternIDs.headD ""
    if additionalFiles.contains file && decide (patternID ≠ "") then
      creditPattern obs patternID weight now
    rewardFiles obs additionalFiles weight now files patternIDs.tail

/-- The reward of an observation. -/
def rewardObservation (additionalFiles : List String) (success : Bool) (now : Int) :
    Option Observation → Prog anchorRedis Unit
  | none => return ()
  | some obs =>
    let weight : ℚ := if success then 1 else 1 / 2
    rewardFiles obs additionalFiles weight now obs.files obs.patternIDs

/-- `RewardFeedback`. -/
def rewardFeedback (queryID : String) (additionalFiles : List String) (success : Bool) (now : Int) :
    Prog anchorRedis Unit :=
  if queryID = "" then return ()
  else do
    let obs ← getObservation queryID
    rewardObservation additionalFiles success now obs

/-! ### What a reward writes -/

/-- The key holds statistics of a pattern that was injected for the query. -/
def Observation.Credits (obs : Observation) (key : String) : Prop :=
  ∃ patternID ∈ obs.patternIDs, key = patternKey "" patternID ∨ key = patternKey obs.repo patternID ∨
    ∃ kw ∈ obs.keywords, key = keywordKey kw patternID

/-- Every key without `P` holds what it held. -/
def AnchorDb.Spares (P : String → Prop) (db db' : AnchorDb) : Prop :=
  ∀ key, ¬ P key → db'.hash key = db.hash key ∧ db'.float key = db.float key

/-- The key a command writes has `P`. -/
def AnchorCmd.WritesIn (P : String → Prop) : AnchorCmd → Prop
  | .hgetall _ => True
  | .hset key _ => P key
  | .hincrbyfloat key _ _ => P key
  | .incrbyfloat key _ => P key

variable {P : String → Prop}

namespace AnchorDb

theorem Spares.refl (db : AnchorDb) : db.Spares P db := fun _ _ => ⟨rfl, rfl⟩

theorem Spares.trans (db db' db'' : AnchorDb) (h : db.Spares P db') (h' : db'.Spares P db'') :
    db.Spares P db'' := by
  intro key hkey
  exact ⟨(h' key hkey).1.trans (h key hkey).1, (h' key hkey).2.trans (h key hkey).2⟩

theorem hset_spares {key : String} (hP : P key) (db : AnchorDb) (field : String × TraceValue) :
    db.Spares P (db.hset key field) := by
  intro key' hkey'
  refine ⟨Function.update_of_ne (fun h => hkey' ?_) _ _, rfl⟩
  rwa [h]

end AnchorDb

theorem AnchorCmd.spares {c : AnchorCmd} (hc : c.WritesIn P) (db : AnchorDb) :
    db.Spares P (c.apply db).2 := by
  cases c with
  | hgetall key => exact .refl db
  | hset key field => exact AnchorDb.hset_spares hc db field
  | hincrbyfloat key field delta =>
    cases hv : incrValue delta ((db.hash key).find? (·.1 = field)) with
    | none => simpa [AnchorCmd.apply, hv] using AnchorDb.Spares.refl db
    | some q => simpa [AnchorCmd.apply, hv] using AnchorDb.hset_spares hc db (field, .real q)
  | incrbyfloat key delta =>
    intro key' hkey'
    refine ⟨rfl, Function.update_of_ne (fun h => hkey' ?_) _ _⟩
    rwa [h]

/-- A predicate on the commands that credit a pattern for an observation. -/
structure Observation.CreditsWith (obs : Observation) (Q : AnchorCmd → Prop) (patternID : String) (weight : ℚ) :
    Prop where
  success : ∀ scope, scope = "" ∨ scope = obs.repo → Q (.hincrbyfloat (patternKey scope patternID) "success" weight)
  seen : ∀ scope, scope = "" ∨ scope = obs.repo →
    ∀ t, Q (.hset (patternKey scope patternID) ("last_seen", .text t))
  affinity : ∀ kw ∈ obs.keywords, Q (.incrbyfloat (keywordKey kw patternID) weight)

section Issues

variable {Q : AnchorCmd → Prop} {obs : Observation} {patternID : String} {weight : ℚ}

theorem incPatternSuccess_issues {repo : String}
    (hsuccess : Q (.hincrbyfloat (patternKey repo patternID) "success" weight))
    (hseen : ∀ t, Q (.hset (patternKey repo patternID) ("last_seen", .text t))) (now : Int) :
    (incPatternSuccess repo patternID weight now).Issues Q := by
  refine Issues.bind ⟨hsuccess, fun _ => trivial⟩ fun r => ?_
  split_ifs
  · exact Issues.bind ⟨hseen _, fun _ => trivial⟩ fun _ => issues_pure _
  · exact issues_pure _

theorem incKeywordAffinities_issues {kws : List String}
    (h : ∀ kw ∈ kws, Q (.incrbyfloat (keywordKey kw patternID) weight)) :
    (incKeywordAffinities patternID weight kws).Issues Q := by
  induction kws with
  | nil => exact issues_pure _
  | cons kw kws ih =>
    refine Issues.bind ⟨h kw List.mem_cons_self, fun _ => trivial⟩ fun _ => ?_
    exact ih fun kw' hkw' => h kw' (List.mem_cons_of_mem kw hkw')

theorem creditPattern_issues (h : obs.CreditsWith Q patternID weight) (now : Int) :
    (creditPattern obs patternID weight now).Issues Q := by
  refine Issues.bind (incPatternSuccess_issues (h.success _ (.inl rfl)) (h.seen _ (.inl rfl)) now) fun _ => ?_
  refine Issues.bind (incPatternSuccess_issues (h.success _ (.inr rfl)) (h.seen _ (.inr rfl)) now) fun _ => ?_
  exact incKeywordAffinities_issues h.affinity

theorem rewardFiles_issues (additionalFiles : List String) (now : Int) (files : List String)
    {patternIDs : List String} (h : ∀ p ∈ patternIDs, obs.CreditsWith Q p weight) :
    (rewardFiles obs additionalFiles weight now files patternIDs).Issues Q := by
  induction files generalizing patternIDs with
  | nil => exact issues_pure _
  | cons file files ih =>
    have hrest := ih fun p hp => h p (List.mem_of_mem_tail hp)
    unfold rewardFiles
    dsimp only
    split_ifs with hcredit
    · have hne : patternIDs.headD "" ≠ "" := by simpa using (Bool.and_eq_true_iff.mp hcredit).2
      refine Issues.bind (creditPattern_issues (h _ ?_) now) fun _ => hrest
      cases patternIDs with
      | nil => exact absurd rfl hne
      | cons p ps => exact List.mem_cons_self
    · exact hrest

end Issues

/-- A credit writes keys of the pattern. -/
theorem Observation.creditsWith_writesIn {obs : Observation} {patternID : String} (h : patternID ∈ obs.patternIDs)
    (weight : ℚ) : obs.CreditsWith (AnchorCmd.WritesIn obs.Credits) patternID weight := by
  have hscope : ∀ scope, scope = "" ∨ scope = obs.repo → obs.Credits (patternKey scope patternID) := by
    rintro scope (rfl | rfl)
    · exact ⟨patternID, h, .inl rfl⟩
    · exact ⟨patternID, h, .inr (.inl rfl)⟩
  exact ⟨hscope, fun scope hs _ => hscope scope hs, fun kw hkw => ⟨patternID, h, .inr (.inr ⟨kw, hkw, rfl⟩)⟩⟩

/-- **A reward** writes the statistics of the patterns that were injected for the query, and nothing when
none were. -/
theorem rewardFeedback_wp (queryID : String) (additionalFiles : List String) (success : Bool) (now : Int)
    (db : AnchorDb) :
    (rewardFeedback queryID additionalFiles success now).wp (fun _ db' =>
      db.Spares (fun key => ∃ obs, Observation.ofFields (db.hash (obsKey queryID)) = some obs ∧
        obs.Credits key) db') db := by
  have hnone : ∀ P : String → Prop,
      (rewardObservation additionalFiles success now none).wp (fun _ db' => db.Spares P db') db :=
    fun P => .refl db
  unfold rewardFeedback
  -- without a query id nothing is looked up
  by_cases hq : queryID = ""
  · rw [if_pos hq]
    exact .refl db
  · rw [if_neg hq, wp_bind]
    refine ⟨hnone _, ?_⟩
    change (rewardObservation additionalFiles success now
      (Observation.ofFields (db.hash (obsKey queryID)))).wp _ db
    -- the observation names the patterns and keywords that are credited
    cases hobs : Observation.ofFields (db.hash (obsKey queryID)) with
    | none => exact hnone _
    | some obs =>
      have hwithin : (rewardObservation additionalFiles success now (some obs)).Within
          (AnchorDb.Spares obs.Credits) :=
        Issues.within AnchorDb.Spares.refl AnchorDb.Spares.trans (fun c hc => AnchorCmd.spares hc)
          (rewardFiles_issues _ now obs.files fun _ hp => obs.creditsWith_writesIn hp _)
      refine wp_mono (hwithin db) fun _ db' hspares key hkey => hspares key fun hcredits => hkey ?_
      exact ⟨obs, rfl, hcredits⟩

end Devrouter.Anchorlearn
