import Devrouter.Lib.Fields
import Devrouter.Heuristics.Redis

/-!
# The heuristics store

Model of `internal/heuristics/store.go`: the key layout and the functions that read and write
profiles, histories and reward rows. Each function is a program of the Redis service; the Go pair of
a value and an `error` is a pair with an `Option StoreErr`, because callers use the value even when
the error is set. `SetCurrent` and `SetCurrentFor` take the calling function in place of the Go
context.

For every function that later proofs call there is one theorem about its sequential run (`_run`) and,
where it is used under failures, one about its weakest precondition (`_wp`). They are stated with
`Redis.live`, the profile a bucket serves, and `Redis.seedCurrent`, the state after the self-seeding
of an intent.
-/

open Prog

namespace Devrouter

variable {F : Type}

/-! ### Keys -/

def keyCurrent : String := "heuristics:current"
def keyDefault : String := "heuristics:default"
def keyHistory : String := "heuristics:history"
def keyReward : String := "heuristics:reward"
def keyTrace : String := "feedback:trace"
def keyBucket : String := "heuristics:bucket"
def defaultShape : String := "*"

/-- The sentinel topic of the intent-global surface. -/
def intentGlobalTopic : String := "*"

/-- The sentinel repo used when the caller has none. -/
def globalRepo : String := "*"

def currentKey (intent : String) : String := keyCurrent ++ ":" ++ intent ++ ":" ++ defaultShape

def defaultKey (intent : String) : String := keyDefault ++ ":" ++ intent ++ ":" ++ defaultShape

def historyKey (intent : String) : String := keyHistory ++ ":" ++ intent

/-- The day is the number of the UTC day, where the source prints its date. -/
def rewardKey (intent : String) (day : Int) : String :=
  keyReward ++ ":" ++ intent ++ ":" ++ toString day

def traceKey (queryID : String) : String := keyTrace ++ ":" ++ queryID

/-- `(repo, topic)` addresses the intent-global surface. -/
def isGlobalBucket (repo topic : String) : Bool :=
  topic = "" || topic = intentGlobalTopic || repo = "" || repo = globalRepo

def bucketCurrentKey (intent repo topic : String) : String :=
  keyBucket ++ ":" ++ intent ++ ":" ++ repo ++ ":" ++ topic ++ ":current"

def bucketHistoryKey (intent repo topic : String) : String :=
  keyBucket ++ ":" ++ intent ++ ":" ++ repo ++ ":" ++ topic ++ ":history"

def bucketRewardKey (intent repo topic : String) (day : Int) : String :=
  keyBucket ++ ":" ++ intent ++ ":" ++ repo ++ ":" ++ topic ++ ":reward:" ++ toString day

/-- The UTC day of a millisecond timestamp. -/
def dayOf (ms : Int) : Int := ms / 86400000

/-- A name without the separators of the keys. The router's intents and the topic ids it passes on
are such names; a repo name is any string. -/
structure Name where
  str : String
  no_colon : ':' ∉ str.toList
  no_bar : '|' ∉ str.toList
  deriving DecidableEq

instance : CoeOut Name String := ⟨Name.str⟩

theorem Name.str_inj {a b : Name} : a.str = b.str ↔ a = b :=
  ⟨fun h => by cases a; cases b; cases h; rfl, fun h => h ▸ rfl⟩

/-- The key of the live profile of a bucket, after the routing of the `…For` functions. -/
def currentKeyFor (intent repo topic : String) : String :=
  if isGlobalBucket repo topic then currentKey intent else bucketCurrentKey intent repo topic

/-- The key of the history of a bucket, after the routing of the `…For` functions. -/
def historyKeyFor (intent repo topic : String) : String :=
  if isGlobalBucket repo topic then historyKey intent else bucketHistoryKey intent repo topic

/-! The four families of keys are disjoint, and a key determines the bucket it was rendered for. -/

theorem currentKey_inj {i j : String} : currentKey i = currentKey j ↔ i = j := by
  simp [currentKey, String.append_left_inj, String.append_right_inj, String.append_assoc]

theorem defaultKey_inj {i j : String} : defaultKey i = defaultKey j ↔ i = j := by
  simp [defaultKey, String.append_left_inj, String.append_right_inj, String.append_assoc]

theorem historyKey_inj {i j : String} : historyKey i = historyKey j ↔ i = j := by
  simp [historyKey, String.append_right_inj]

theorem currentKey_ne_defaultKey (i j : String) : currentKey i ≠ defaultKey j := by
  intro h
  have hl := congrArg String.toList h
  simp [currentKey, defaultKey, keyCurrent, keyDefault] at hl

theorem bucketCurrentKey_ne_currentKey (i r t j : String) :
    bucketCurrentKey i r t ≠ currentKey j := by
  intro h
  have hl := congrArg String.toList h
  simp [bucketCurrentKey, currentKey, keyCurrent, keyBucket] at hl

theorem bucketCurrentKey_ne_defaultKey (i r t j : String) :
    bucketCurrentKey i r t ≠ defaultKey j := by
  intro h
  have hl := congrArg String.toList h
  simp [bucketCurrentKey, defaultKey, keyDefault, keyBucket] at hl

theorem bucketHistoryKey_ne_historyKey (i r t j : String) :
    bucketHistoryKey i r t ≠ historyKey j := by
  intro h
  have hl := congrArg String.toList h
  simp [bucketHistoryKey, historyKey, keyHistory, keyBucket] at hl

/-- The fields of a bucket key can be read back: the intent ends at the first colon, the topic starts
after the last one, and the repo, which may hold colons itself, is what lies between. -/
theorem bucketFields_inj {i i' t t' : Name} {r r' : String}
    (h : (i : String) ++ ":" ++ r ++ ":" ++ t = (i' : String) ++ ":" ++ r' ++ ":" ++ t') :
    i = i' ∧ r = r' ∧ t = t' := by
  have hsep : (":" : String).toList = [':'] := rfl
  rw [String.append_sep_inj_right hsep t.no_colon t'.no_colon,
    String.append_sep_inj hsep i.no_colon i'.no_colon, Name.str_inj, Name.str_inj, and_assoc] at h
  exact h

theorem bucketCurrentKey_inj {i i' t t' : Name} {r r' : String} :
    bucketCurrentKey i r t = bucketCurrentKey i' r' t' ↔ i = i' ∧ r = r' ∧ t = t' := by
  refine ⟨fun h => bucketFields_inj ?_, by rintro ⟨rfl, rfl, rfl⟩; rfl⟩
  have hl := congrArg String.toList h
  rw [← String.toList_inj]
  simpa [bucketCurrentKey, keyBucket, ← List.append_assoc] using hl

theorem bucketHistoryKey_inj {i i' t t' : Name} {r r' : String} :
    bucketHistoryKey i r t = bucketHistoryKey i' r' t' ↔ i = i' ∧ r = r' ∧ t = t' := by
  refine ⟨fun h => bucketFields_inj ?_, by rintro ⟨rfl, rfl, rfl⟩; rfl⟩
  have hl := congrArg String.toList h
  rw [← String.toList_inj]
  simpa [bucketHistoryKey, keyBucket, ← List.append_assoc] using hl

/-- No live-profile key is a frozen-default key. -/
theorem currentKeyFor_ne_defaultKey (i r t j : String) : currentKeyFor i r t ≠ defaultKey j := by
  unfold currentKeyFor
  split
  · exact currentKey_ne_defaultKey i j
  · exact bucketCurrentKey_ne_defaultKey i r t j

/-! ### Profiles -/

/-- The errors of the store's functions: a failed command, a missing key, a text that does not
decode. -/
inductive StoreErr where
  | redis | nil | json
  deriving DecidableEq, Repr

/-- The error of a command whose answer is not used. -/
def errOf {α : Type} : Option α → Option StoreErr
  | none => some .redis
  | some _ => none

/-- `SetCurrent`: overwrite the live profile of an intent. -/
def setCurrent (caller : Caller) (intent : String) (p : Profile) :
    Prog (redis F) (Option StoreErr) := do
  let r ← Rdb.set caller (currentKey intent) (.json p.clip)
  return errOf r

/-- `EnsureDefault`: an existence check, and a `SET` when it does not report the key. -/
def ensureDefault (intent : String) (p : Profile) : Prog (redis F) (Option StoreErr) := do
  let n ← Rdb.existsKey (defaultKey intent)
  if n.any (0 < ·) then
    return none
  else
    let r ← Rdb.set .ensureDefault (defaultKey intent) (.json p.clip)
    return errOf r

/-- `CurrentProfile`: the live profile of an intent. A missing key is seeded with the intent's
default, which becomes the frozen default too. -/
def currentProfile (intent : String) : Prog (redis F) (Profile × Option StoreErr) := do
  let val ← Rdb.get (currentKey intent)
  match val with
  | none => return (Profile.default intent, some .redis)
  | some none =>
    -- the first reader writes the default, live and frozen
    let seed := Profile.default intent
    match ← setCurrent .currentProfile intent seed with
    | some e => return (seed, some e)
    | none =>
      match ← ensureDefault intent seed with
      | some e => return (seed, some e)
      | none => return (seed, none)
  | some (some v) =>
    match v.decode with
    -- a value that cannot be read counts as the default, and is left as it is
    | none => return (Profile.default intent, none)
    | some p => return (p.clip, none)

/-- `LoadDefault`: the frozen default of an intent. -/
def loadDefault (intent : String) : Prog (redis F) (Profile × Option StoreErr) := do
  let val ← Rdb.get (defaultKey intent)
  match val with
  | none => return (Profile.default intent, some .redis)
  | some none => return (Profile.default intent, some .nil)
  | some (some v) =>
    match v.decode with
    | none => return (Profile.default intent, some .json)
    | some p => return (p.clip, none)

/-- `SetCurrentFor`: overwrite the live profile of a bucket. -/
def setCurrentFor (caller : Caller) (intent repo topic : String) (p : Profile) :
    Prog (redis F) (Option StoreErr) :=
  if isGlobalBucket repo topic then
    setCurrent caller intent p
  else do
    let r ← Rdb.set caller (bucketCurrentKey intent repo topic) (.json p.clip)
    return errOf r

/-- `CurrentProfileFor`: the live profile of a bucket. A missing bucket key is seeded with the live
profile of the intent. -/
def currentProfileFor (intent repo topic : String) : Prog (redis F) (Profile × Option StoreErr) :=
  if isGlobalBucket repo topic then
    currentProfile intent
  else do
    let val ← Rdb.get (bucketCurrentKey intent repo topic)
    match val with
    | none => return (Profile.default intent, some .redis)
    | some none =>
      -- the first reader of a bucket copies the intent's profile
      let (seed, err) ← currentProfile intent
      match err with
      | some e => return (seed, some e)
      | none =>
        match ← setCurrentFor .currentProfileFor intent repo topic seed with
        | some e => return (seed, some e)
        | none => return (seed, none)
    | some (some v) =>
      match v.decode with
      | none => return (Profile.default intent, none)
      | some p => return (p.clip, none)

/-! ### History -/

/-- Entries a history list is trimmed to. -/
def historyCap : Nat := 200

/-- `AppendHistory`: push an entry and trim the list, in one pipeline. -/
def appendHistory (intent : String) (entry : HistoryEntry) : Prog (redis F) (Option StoreErr) := do
  let r₁ ← Rdb.lpush (historyKey intent) entry
  let r₂ ← Rdb.ltrim (historyKey intent) (historyCap - 1)
  return (errOf r₁).or (errOf r₂)

/-- `AppendHistoryFor`: the same for a bucket. -/
def appendHistoryFor (intent repo topic : String) (entry : HistoryEntry) :
    Prog (redis F) (Option StoreErr) :=
  if isGlobalBucket repo topic then
    appendHistory intent entry
  else do
    let r₁ ← Rdb.lpush (bucketHistoryKey intent repo topic) entry
    let r₂ ← Rdb.ltrim (bucketHistoryKey intent repo topic) (historyCap - 1)
    return (errOf r₁).or (errOf r₂)

/-! ### Rewards -/

/-- `AppendReward`. -/
def appendReward (intent : String) (row : RewardRow) : Prog (redis F) (Option StoreErr) := do
  let r ← Rdb.rpush (rewardKey intent (dayOf row.timestamp)) row
  return errOf r

/-- `AppendRewardFor`: the same for a bucket. -/
def appendRewardFor (intent repo topic : String) (row : RewardRow) :
    Prog (redis F) (Option StoreErr) :=
  if isGlobalBucket repo topic then
    appendReward intent row
  else do
    let r ← Rdb.rpush (bucketRewardKey intent repo topic (dayOf row.timestamp)) row
    return errOf r

/-- The loop of `RecentRewards` and `RecentRewardsFor`: walk the daily lists, each from its newest
row, until `limit` rows are collected. A list that cannot be read is skipped. -/
def collectRewards (limit : Nat) : List String → List RewardRow → Prog (redis F) (List RewardRow)
  | [], out => return out
  | key :: keys, out => do
    let items ← Rdb.lrange key
    let out := (out ++ (items.getD []).reverse).take limit
    if out.length ≥ limit then return out else collectRewards limit keys out

/-- `RecentRewardsFor`, for `days` and `limit` positive: the newest rows of a bucket. -/
def recentRewardsFor (intent repo topic : String) (now : Int) (days limit : Nat) :
    Prog (redis F) (List RewardRow) :=
  let key (day : Int) : String :=
    if isGlobalBucket repo topic then rewardKey intent day
    else bucketRewardKey intent repo topic day
  collectRewards limit ((List.range days).map fun i => key (dayOf now - i)) []

/-- `RollingMeanFor`: the mean raw reward over the newest rows of two days. -/
def rollingMeanFor (intent repo topic : String) (now : Int) (samples : Nat) : Prog (redis F) ℚ := do
  let rows ← recentRewardsFor intent repo topic now 2 samples
  if rows.isEmpty then return 0 else return (rows.map (·.rawReward)).sum / rows.length

/-! ### Traces -/

/-- `PutTrace`: the fields of a served query. The index of recent traces is not modelled. -/
def putTrace (queryID : String) (fields : List (String × TraceValue)) :
    Prog (redis F) (Option StoreErr) :=
  if queryID = "" || fields.isEmpty then return none
  else do
    let r ← Rdb.hsetTrace (traceKey queryID) fields
    return errOf r

/-- `PatchTrace`: more fields of a served query. -/
def patchTrace (queryID : String) (fields : List (String × TraceValue)) :
    Prog (redis F) (Option StoreErr) :=
  if queryID = "" || fields.isEmpty then return none
  else do
    let r ← Rdb.hsetTrace (traceKey queryID) fields
    return errOf r

/-- `GetTrace`: the fields of a query; none when they cannot be read, which the callers take for a
missing trace. -/
def getTrace (queryID : String) : Prog (redis F) (List (String × TraceValue)) :=
  if queryID = "" then return []
  else do
    let r ← Rdb.hgetallTrace (traceKey queryID)
    return r.getD []

/-! ### What the writers of profiles issue -/

/-- Reads, history entries and `SET`s of a clipped profile, outside the frozen defaults, have `P`. -/
structure Cmd.Admitted (P : Cmd F → Prop) : Prop where
  get (key : String) : P (.get key)
  lpush (key : String) (e : HistoryEntry) : P (.lpush key e)
  ltrim (key : String) (stop : ℕ) : P (.ltrim key stop)
  set (caller : Caller) {key : String} (p : Profile) (hkey : ∀ intent, key ≠ defaultKey intent) :
    P (.set caller key (.json p.clip))

section Admitted

variable {P : Cmd F → Prop} (hP : Cmd.Admitted P)
include hP

theorem setCurrent_issues (caller : Caller) (intent : String) (p : Profile) :
    (setCurrent caller intent p).Issues P :=
  Issues.bind ⟨hP.set caller p (currentKey_ne_defaultKey intent), fun _ => trivial⟩
    fun _ => issues_pure _

theorem setCurrentFor_issues (caller : Caller) (intent repo topic : String) (p : Profile) :
    (setCurrentFor caller intent repo topic p).Issues P := by
  unfold setCurrentFor
  split_ifs
  · exact setCurrent_issues hP caller intent p
  · exact Issues.bind ⟨hP.set caller p (bucketCurrentKey_ne_defaultKey _ _ _), fun _ => trivial⟩
      fun _ => issues_pure _

theorem loadDefault_issues (intent : String) : (loadDefault intent).Issues P := by
  refine Issues.bind ⟨hP.get (defaultKey intent), fun _ => trivial⟩ fun val => ?_
  rcases val with _ | _ | v
  · exact issues_pure _
  · exact issues_pure _
  · cases v with
    | json p => exact issues_pure _
    | corrupt => exact issues_pure _

theorem appendHistory_issues (intent : String) (e : HistoryEntry) :
    (appendHistory intent e).Issues P :=
  ⟨hP.lpush _ e, fun _ => ⟨hP.ltrim _ _, fun _ => trivial⟩⟩

theorem appendHistoryFor_issues (intent repo topic : String) (e : HistoryEntry) :
    (appendHistoryFor intent repo topic e).Issues P := by
  unfold appendHistoryFor
  split_ifs
  · exact appendHistory_issues hP intent e
  · exact ⟨hP.lpush _ e, fun _ => ⟨hP.ltrim _ _, fun _ => trivial⟩⟩

end Admitted

/-! ### What the server's state says about a bucket -/

/-- The profile a stored value is read as. -/
def Stored.read (intent : String) (v : Stored) : Profile :=
  match v.decode with
  | none => Profile.default intent
  | some p => p.clip

theorem Stored.read_inBounds (intent : String) (v : Stored) : (v.read intent).InBounds := by
  unfold Stored.read
  split
  · exact Profile.default_inBounds intent
  · exact Profile.clip_inBounds _

@[simp] theorem Stored.read_json (intent : String) (p : Profile) :
    (Stored.json p).read intent = p.clip := rfl

namespace Redis

/-- The live profile of an intent: what is stored, or the default it would be seeded with. -/
def liveGlobal (r : Redis F) (intent : String) : Profile :=
  ((r.str (currentKey intent)).map (Stored.read intent)).getD (Profile.default intent)

/-- The live profile of a bucket: what is stored, or the live profile of the intent it would be
seeded with. -/
def live (r : Redis F) (intent repo topic : String) : Profile :=
  if isGlobalBucket repo topic then r.liveGlobal intent
  else ((r.str (bucketCurrentKey intent repo topic)).map (Stored.read intent)).getD
    (r.liveGlobal intent)

/-- The frozen default of an intent, as `LoadDefault` or its fallback gives it. -/
def frozenDefault (r : Redis F) (intent : String) : Profile :=
  ((r.str (defaultKey intent)).map (Stored.read intent)).getD (Profile.default intent)

/-- `SET` on a profile key. -/
def setStr (r : Redis F) (key : String) (p : Profile) : Redis F :=
  { r with str := Function.update r.str key (some (.json p)) }

/-- Set a key that holds nothing. -/
def seedStr (r : Redis F) (key : String) (p : Profile) : Redis F :=
  if (r.str key).isSome then r else r.setStr key p

/-- The state after `CurrentProfile`: the two keys of an intent seeded where the live one was
missing. -/
def seedCurrent (r : Redis F) (intent : String) : Redis F :=
  if (r.str (currentKey intent)).isSome then r
  else (r.setStr (currentKey intent) (Profile.default intent)).seedStr (defaultKey intent)
    (Profile.default intent)

/-- Push a history entry and trim. -/
def pushHistory (r : Redis F) (key : String) (e : HistoryEntry) : Redis F :=
  { r with history := Function.update r.history key ((e :: r.history key).take historyCap) }

/-- The state after `CurrentProfileFor`: a missing bucket key seeded from the intent's. -/
def seedCurrentFor (r : Redis F) (intent repo topic : String) : Redis F :=
  if isGlobalBucket repo topic then r.seedCurrent intent
  else if (r.str (bucketCurrentKey intent repo topic)).isSome then r
  else (r.seedCurrent intent).setStr (bucketCurrentKey intent repo topic) (r.liveGlobal intent)

@[simp] theorem setStr_str (r : Redis F) (key : String) (p : Profile) :
    (r.setStr key p).str = Function.update r.str key (some (.json p)) := rfl

@[simp] theorem setStr_history (r : Redis F) (key : String) (p : Profile) :
    (r.setStr key p).history = r.history := rfl

@[simp] theorem setStr_rewards (r : Redis F) (key : String) (p : Profile) :
    (r.setStr key p).rewards = r.rewards := rfl

@[simp] theorem setStr_topics (r : Redis F) (key : String) (p : Profile) :
    (r.setStr key p).topics = r.topics := rfl

@[simp] theorem pushHistory_str (r : Redis F) (key : String) (e : HistoryEntry) :
    (r.pushHistory key e).str = r.str := rfl

@[simp] theorem pushHistory_history (r : Redis F) (key : String) (e : HistoryEntry) :
    (r.pushHistory key e).history
      = Function.update r.history key ((e :: r.history key).take historyCap) := rfl

@[simp] theorem pushHistory_rewards (r : Redis F) (key : String) (e : HistoryEntry) :
    (r.pushHistory key e).rewards = r.rewards := rfl

@[simp] theorem pushHistory_topics (r : Redis F) (key : String) (e : HistoryEntry) :
    (r.pushHistory key e).topics = r.topics := rfl

/-- `CurrentProfile` changes no key but the two of the intent, and what is stored stays. -/
theorem seedCurrent_str (r : Redis F) (intent : String) {key : String}
    (hk : ∀ j, key ≠ defaultKey j) :
    (r.seedCurrent intent).str key
      = if key = currentKey intent then some ((r.str key).getD (.json (Profile.default intent)))
        else r.str key := by
  -- the default is written under another key
  have hseed : ∀ r' : Redis F, (r'.seedStr (defaultKey intent) (Profile.default intent)).str key
      = r'.str key := by
    intro r'
    unfold seedStr
    split_ifs
    · rfl
    · exact Function.update_of_ne (hk intent) _ _
  unfold seedCurrent
  cases hc : r.str (currentKey intent) with
  | some v =>
    -- a stored profile is kept
    by_cases hkey : key = currentKey intent
    · subst hkey
      simp [hc]
    · simp [hkey]
  | none =>
    -- the default of the intent is written
    simp only [Option.isSome_none, Bool.false_eq_true, if_false, hseed, setStr_str]
    by_cases hkey : key = currentKey intent
    · subst hkey
      simp [hc]
    · simp [hkey]

theorem seedCurrent_stored (r : Redis F) (intent : String) {key : String} {v : Stored}
    (h : r.str key = some v) : (r.seedCurrent intent).str key = some v := by
  have hset : ∀ (r' : Redis F) (k : String) (p : Profile), r'.str key = some v →
      r'.str k = none → (r'.setStr k p).str key = some v := by
    intro r' k p hk hn
    have hne : key ≠ k := fun he => by
      rw [he, hn] at hk
      cases hk
    rw [setStr_str, Function.update_of_ne hne, hk]
  unfold seedCurrent
  cases hc : r.str (currentKey intent) with
  | some w => exact h
  | none =>
    have h₁ := hset r _ (Profile.default intent) h hc
    unfold seedStr
    cases hd : (r.setStr (currentKey intent) (Profile.default intent)).str (defaultKey intent) with
    | some w => exact h₁
    | none => exact hset _ _ _ h₁ hd

@[simp] theorem seedStr_history (r : Redis F) (key : String) (p : Profile) :
    (r.seedStr key p).history = r.history := by
  unfold seedStr
  split_ifs <;> rfl

@[simp] theorem seedCurrent_history (r : Redis F) (intent : String) :
    (r.seedCurrent intent).history = r.history := by
  unfold seedCurrent
  split_ifs
  · rfl
  · rw [seedStr_history, setStr_history]

@[simp] theorem seedCurrentFor_history (r : Redis F) (intent repo topic : String) :
    (r.seedCurrentFor intent repo topic).history = r.history := by
  unfold seedCurrentFor
  split_ifs
  · exact seedCurrent_history r intent
  · rfl
  · rw [setStr_history, seedCurrent_history]

theorem liveGlobal_inBounds (r : Redis F) (intent : String) : (r.liveGlobal intent).InBounds := by
  unfold liveGlobal
  cases r.str (currentKey intent) with
  | none => exact Profile.default_inBounds intent
  | some v => exact Stored.read_inBounds intent v

theorem live_inBounds (r : Redis F) (intent repo topic : String) :
    (r.live intent repo topic).InBounds := by
  unfold live
  split
  · exact liveGlobal_inBounds r intent
  · cases r.str (bucketCurrentKey intent repo topic) with
    | none => exact liveGlobal_inBounds r intent
    | some v => exact Stored.read_inBounds intent v

theorem frozenDefault_inBounds (r : Redis F) (intent : String) :
    (r.frozenDefault intent).InBounds := by
  unfold frozenDefault
  cases r.str (defaultKey intent) with
  | none => exact Profile.default_inBounds intent
  | some v => exact Stored.read_inBounds intent v

end Redis

/-! ### The sequential runs -/

section Runs

variable (r : Redis F) (intent repo topic : String)

@[simp] theorem setCurrent_run (caller : Caller) (p : Profile) :
    (setCurrent caller intent p).run r = (none, r.setStr (currentKey intent) p.clip) := rfl

/-- `EnsureDefault` writes the default where there is none. -/
theorem ensureDefault_run (p : Profile) :
    (ensureDefault intent p).run r = (none, r.seedStr (defaultKey intent) p.clip) := by
  unfold ensureDefault Redis.seedStr
  cases hd : r.str (defaultKey intent) with
  | none => simp [hd, errOf, Redis.setStr]
  | some v => simp [hd]

/-- `CurrentProfile` serves the live profile and seeds what is missing. -/
theorem currentProfile_run :
    (currentProfile intent).run r = ((r.liveGlobal intent, none), r.seedCurrent intent) := by
  unfold currentProfile Redis.liveGlobal Redis.seedCurrent
  cases hc : r.str (currentKey intent) with
  | none => simp [hc, ensureDefault_run]
  | some v =>
    cases v with
    | json p => simp [hc, Stored.decode]
    | corrupt => simp [hc, Stored.decode, Stored.read]

theorem setCurrentFor_run (caller : Caller) (p : Profile) :
    (setCurrentFor caller intent repo topic p).run r
      = (none, r.setStr (currentKeyFor intent repo topic) p.clip) := by
  unfold setCurrentFor currentKeyFor
  split
  · rfl
  · rfl

/-- `CurrentProfileFor` serves the live profile of the bucket and seeds what is missing. -/
theorem currentProfileFor_run :
    (currentProfileFor intent repo topic).run r
      = ((r.live intent repo topic, none), r.seedCurrentFor intent repo topic) := by
  unfold currentProfileFor Redis.live Redis.seedCurrentFor
  by_cases hg : isGlobalBucket repo topic
  · simp only [hg, if_true]
    exact currentProfile_run r intent
  · simp only [hg, Bool.false_eq_true, if_false]
    cases hc : r.str (bucketCurrentKey intent repo topic) with
    | none =>
      have hclip : (r.liveGlobal intent).clip = r.liveGlobal intent :=
        (r.liveGlobal_inBounds intent).clip_eq
      simp [hc, currentProfile_run, setCurrentFor_run, currentKeyFor, hg, hclip]
    | some v =>
      cases v with
      | json p => simp [hc, Stored.decode]
      | corrupt => simp [hc, Stored.decode, Stored.read]

/-- `LoadDefault` changes nothing and, with the callers' fallback, gives the frozen default. -/
theorem loadDefault_run :
    ∃ err, (loadDefault intent).run r = ((r.frozenDefault intent, err), r) ∧
      (if err.isSome then Profile.default intent else r.frozenDefault intent)
        = r.frozenDefault intent ∧
      (err = none ↔ ∃ p, r.str (defaultKey intent) = some (.json p)) := by
  unfold loadDefault Redis.frozenDefault
  cases hc : r.str (defaultKey intent) with
  | none => exact ⟨some .nil, by simp [hc], rfl, by simp⟩
  | some v =>
    cases v with
    | json p => exact ⟨none, by simp [hc, Stored.decode], rfl, by simp⟩
    | corrupt => exact ⟨some .json, by simp [hc, Stored.decode, Stored.read], rfl, by simp⟩

theorem appendHistoryFor_run (e : HistoryEntry) :
    (appendHistoryFor intent repo topic e).run r
      = (none, r.pushHistory (historyKeyFor intent repo topic) e) := by
  unfold appendHistoryFor appendHistory historyKeyFor
  split <;> simp [errOf, Redis.pushHistory, historyCap]

theorem appendHistory_run (e : HistoryEntry) :
    (appendHistory intent e).run r = (none, r.pushHistory (historyKey intent) e) := by
  unfold appendHistory
  simp [errOf, Redis.pushHistory, historyCap]

end Runs

end Devrouter
