import Devrouter.Lib.Product
import Devrouter.Anchorlearn.Reward
import Devrouter.Heuristics.SourceBandit
import Devrouter.Memory.Keyspace
import Devrouter.Router.Feedback

/-!
# The whole of a feedback

Model of `SubmitFeedback` in `internal/router/feedback.go` with everything it writes to: the rewards, the
trace and the bandit of the query's bucket (`creditBucket`, which is what `Router/Feedback.lean` models),
the source bandit, the anchor statistics, the false positives and the flow overlay; and of the last-call
LRU in `internal/heuristics/lru.go`. The router has a Redis server, whose key families are four services
side by side (`stores`).

What other programs answer during one call is a `FeedbackEnv`. Metrics are not modelled.
-/

open Prog

namespace Devrouter

variable {F : Type}

/-! ### The last-call LRU -/

/-- The last calls on the connection, newest first, each with its time in milliseconds. -/
structure LastCallLRU where
  capacity : ℕ
  ttl : Int
  entries : List (LastCallEntry × Int)
  deriving DecidableEq, Repr

namespace LastCallLRU

/-- `NewLastCallLRU`. -/
def new (capacity : ℕ) (ttl : Int) : LastCallLRU where
  capacity := if capacity = 0 then 16 else capacity
  ttl := if ttl ≤ 0 then 10 * 60 * 1000 else ttl
  entries := []

/-- `Push`: a call moves to the front, the oldest ones over the capacity go. -/
def push (l : LastCallLRU) (e : LastCallEntry) (timestamp : Int) : LastCallLRU :=
  if e.queryID = "" then l
  else
    { l with
      entries := ((e, timestamp) :: l.entries.filter fun p => p.1.queryID ≠ e.queryID).take l.capacity }

/-- `MostRecent`: the newest call, unless it is too old. -/
def mostRecent (l : LastCallLRU) (now : Int) : Option LastCallEntry :=
  match l.entries with
  | [] => none
  | (e, timestamp) :: _ => if now - timestamp > l.ttl then none else some e

end LastCallLRU

/-! ### The payload and its environment -/

/-- The whole payload of a feedback. -/
structure FeedbackCall extends FeedbackInput where
  flowID : String
  missingFiles : String
  deriving DecidableEq, Repr

/-- What changed on a flow overlay. -/
structure FlowOverlayResult where
  repo : String
  name : String
  markedUseful : ℕ
  markedMissing : ℕ
  deriving DecidableEq, Repr

/-- What other programs answer, and how numbers and runes are rendered. -/
structure FeedbackEnv (F : Type) where
  /-- `%g`. -/
  formatG : ℚ → String
  /-- `memory.Embed`. -/
  embed : String → Option (List F)
  /-- One coordinate of a running mean. -/
  mean : ℤ → F → F → F
  /-- `unicode.ToLower`. -/
  lower : Char → Char
  keyspace : Memory.Keyspace

/-- The fields of a trace. -/
abbrev TraceFields := List (String × TraceValue)

/-- The part of Redis that a feedback uses. -/
abbrev stores (F : Type) : Service :=
  (redis F).prod (sourceRedis.prod (Anchorlearn.anchorRedis.prod (Memory.memdb F)))

/-! ### The join -/

section Join

variable (formatG : ℚ → String)

/-- The join of a query and its trace. -/
def joinNamed (queryID : String) (fields : TraceFields) : Join where
  queryID := queryID
  intent := traceField formatG fields "intent"
  profileID := traceField formatG fields "heuristic_profile_id"
  repo := traceField formatG fields "repo"
  topicID := traceField formatG fields "topic_id"
  promptTokens := atoiValue (traceField formatG fields "prompt_tokens")
  joinedVia := "explicit"

/-- The join of the most recent call; its trace fills in what the entry lacks. -/
def joinRecent (e : LastCallEntry) (fields : TraceFields) : Join where
  queryID := e.queryID
  intent := e.intent
  profileID := e.profileID
  repo := if e.repo = "" then traceField formatG fields "repo" else e.repo
  topicID := if e.topicID = "" then traceField formatG fields "topic_id" else e.topicID
  promptTokens := atoiValue (traceField formatG fields "prompt_tokens")
  joinedVia := "lru_fallback"

/-- A join with a query and an intent. -/
def completeJoin (j : Join) (fields : TraceFields) : Option (Join × TraceFields) :=
  if j.complete then some (j, fields) else none

/-- The join of a feedback and the trace it goes by, from the fields of the trace it names. -/
def joinFrom (queryID : String) (recent : Option LastCallEntry) (fields : TraceFields) :
    Prog (redis F) (Option (Join × TraceFields)) :=
  -- a missing trace and a failed read both force the fallback
  if fields.isEmpty then
    match recent with
    | none => return none
    | some e => do
      -- the trace of the entry is optional: the entry alone makes a join
      let fields ← getTrace e.queryID
      return completeJoin (joinRecent formatG e fields) fields
  else return completeJoin (joinNamed formatG queryID fields) fields

end Join

/-! ### The bandits -/

/-- The reward of a feedback: its row, its trace, and the bandit of the query's bucket. -/
def creditBucket (p : Picker) (j : Join) (input : FeedbackInput) (now : Int) :
    Prog (redis F) ((ℚ × ℚ) × Picker) := do
  let rollingMean ← rollingMeanFor j.intent j.repo j.topicID now rollingSamples
  let (raw, adjusted) := compute input.additionalFiles input.revisitedFiles j.promptTokens
    trimmedPaths (splitCSV input.filePaths) rollingMean
  let _ ← appendRewardFor j.intent j.repo j.topicID (feedbackRow j input raw adjusted now)
  let _ ← patchTrace j.queryID (feedbackPatch input raw adjusted now)
  let p ← p.updateWithTopic j.intent j.repo j.topicID j.profileID adjusted explicitWeight now
  return ((raw, adjusted), p)

/-- `sourceExploreFromTrace`: the source a query explored, and the breadth it was served. -/
def sourceExploreFromTrace (formatG : ℚ → String) (fields : TraceFields) : Option (String × Int) :=
  let name := traceField formatG fields "src_explore_name"
  if name = "" then none
  else (atoi (traceField formatG fields "src_explore_val")).map fun v => (name, v)

/-- `UpdateSource`, when the query explored a source. -/
def creditSource (frozen : Bool) (b : SourceBandit) (j : Join) (explored : Option (String × Int))
    (adjusted : ℚ) (now : Int) : Prog sourceRedis SourceBandit :=
  match explored with
  | none => return b
  | some (name, val) =>
    if frozen then return b
    else b.update j.intent j.repo j.topicID name val adjusted explicitWeight now

/-! ### The memories -/

section Memories

open Memory

/-- The files a memory references. -/
def memoryFiles (h : Hash F) : List String :=
  ["path", "file", "files"].flatMap fun f => splitCSV (Hash.text h f)

/-- The pipeline of `LoadMemoryFiles`; `HMGET` reads the three fields of the hash. -/
def readMemoryFiles : List String → Prog (memdb F) (Option (String → List String))
  | [] => return some fun _ => []
  | k :: ks => do
    let h ← Mdb.hgetall k
    let rest ← readMemoryFiles ks
    return h.bind fun h => rest.map fun m => Function.update m k (memoryFiles h)

/-- `LoadMemoryFiles`; an error reads as no files at all. -/
def loadMemoryFiles (memKeys : List String) : Prog (memdb F) (String → List String) := do
  let m ← readMemoryFiles memKeys
  return m.getD fun _ => []

def normalisePath (lower : Char → Char) (p : String) : String := normalisePathLower lower p

/-- `filesOverlap`. -/
def filesOverlap (lower : Char → Char) (memoryOwned agentRead : List String) : Bool :=
  memoryOwned.any fun m => agentRead.any fun a =>
    let m := normalisePath lower m
    let a := normalisePath lower a
    decide (m ≠ "") && decide (a ≠ "") && (decide (a = m) || contains a m || contains m a)

/-- The loop of `attributeFalsePositives`: how many were recorded. -/
def recordFalsePositives (env : FeedbackEnv F) (files : String → List String) (agentFiles : List String)
    (emb : List F) : List String → Prog (memdb F) ℕ
  | [] => return 0
  | mk :: mks => do
    if filesOverlap env.lower (files mk) agentFiles then recordFalsePositives env files agentFiles emb mks
    else
      -- no file in common: a false positive; an error is logged and not counted
      let err ← recordFalsePositive env.mean mk emb
      let n ← recordFalsePositives env files agentFiles emb mks
      return if err.isNone then n + 1 else n

/-- `attributeFalsePositives`. -/
def attributeFalsePositives (env : FeedbackEnv F) (fields : TraceFields) (input : FeedbackInput) :
    Prog (memdb F) ℕ :=
  let agentFiles := splitCSV input.filePaths
  let memKeys := splitCSV (traceField env.formatG fields "memory_keys")
  let queryText := traceField env.formatG fields "query"
  -- nothing was missed, or nothing says what was read
  if input.additionalFiles ≤ 0 then return 0
  else if agentFiles.isEmpty || memKeys.isEmpty || decide (queryText = "") then return 0
  else
    match env.embed queryText with
    | none => return 0
    | some emb => do
      let files ← loadMemoryFiles memKeys
      recordFalsePositives env files agentFiles emb memKeys

/-- `strings.Cut` at the first slash. -/
def cutSlash (s : String) : Option (String × String) :=
  match s.toList.dropWhile (· ≠ '/') with
  | [] => none
  | _ :: name => some (String.ofList (s.toList.takeWhile (· ≠ '/')), String.ofList name)

/-- `applyFlowOverlay`. -/
def applyFlowOverlay (env : FeedbackEnv F) (call : FeedbackCall) (queryID : String) (now : Int) :
    Prog (memdb F) (Option FlowOverlayResult) :=
  match cutSlash call.flowID with
  | none => return none
  | some (repo, name) =>
    -- a flow is named by its repository and its name
    if repo = "" || name = "" then return none
    else do
      let readFiles := splitCSV call.filePaths
      let missing := splitCSV call.missingFiles
      let err ← updateFlowOverlay env.lower env.keyspace now repo name
        { queryID, readFiles, missingFiles := missing, success := call.success
          additionalFiles := call.additionalFiles }
      -- an overlay that cannot be written is left out of the answer
      return if err.isSome then none else some ⟨repo, name, readFiles.length, missing.length⟩

end Memories

/-! ### The feedback -/

/-- What the router keeps in memory. -/
structure Session where
  picker : Picker
  sources : SourceBandit
  lastCalls : LastCallLRU

/-- What a dropped feedback is answered. -/
def droppedResult : FeedbackResult :=
  ⟨"", "", "", 0, 0, "dropped", "no matching trace; Path 2 (implicit repeat) remains the safety net"⟩

/-- The rest of a feedback that joined a query, by the trace with these fields. -/
def creditJoin (env : FeedbackEnv F) (s : Session) (call : FeedbackCall) (now : Int) (j : Join)
    (fields : TraceFields) :
    Prog (stores F) ((FeedbackResult × Option FlowOverlayResult) × Session) := do
  let ((raw, adjusted), picker) ← (creditBucket s.picker j call.toFeedbackInput now).left
  let sources ← (creditSource picker.frozen s.sources j (sourceExploreFromTrace env.formatG fields)
    adjusted now).left.right
  -- the anchors' clock is in seconds
  (Anchorlearn.rewardFeedback j.queryID (splitCSV call.filePaths) call.success
    (now / 1000)).left.right.right
  let _ ← (attributeFalsePositives env fields call.toFeedbackInput).right.right.right
  let overlay ← (applyFlowOverlay env call j.queryID now).right.right.right
  return ((⟨j.queryID, j.intent, j.profileID, raw, adjusted, j.joinedVia, ""⟩, overlay),
    { s with picker, sources })

/-- The feedback once the trace it names is read, as far as it could be. -/
def submitFrom (env : FeedbackEnv F) (s : Session) (call : FeedbackCall) (now : Int)
    (fields : TraceFields) :
    Prog (stores F) ((FeedbackResult × Option FlowOverlayResult) × Session) := do
  match ← (joinFrom env.formatG call.queryID (s.lastCalls.mostRecent now) fields).left with
  | none => return ((droppedResult, none), s)
  | some (j, fields) => creditJoin env s call now j fields

/-- `SubmitFeedback`. -/
def submit (env : FeedbackEnv F) (s : Session) (call : FeedbackCall) (now : Int) :
    Prog (stores F) ((FeedbackResult × Option FlowOverlayResult) × Session) := do
  let fields ← (getTrace call.queryID).left
  submitFrom env s call now fields

/-! ### The bucket's part of it -/

theorem completeJoin_fst (j : Join) (fields : TraceFields) :
    (completeJoin j fields).map Prod.fst = (some j).filter Join.complete := by
  unfold completeJoin
  rw [Option.filter_some]
  split_ifs
  · rfl
  · rfl

/-- The join is that of `joinFeedback`. -/
theorem joinFeedback_eq (formatG : ℚ → String) (input : FeedbackInput) (recent : Option LastCallEntry) :
    joinFeedback (F := F) formatG input recent
      = Option.map Prod.fst <$> (getTrace input.queryID >>= joinFrom formatG input.queryID recent) := by
  unfold joinFeedback joinExplicit
  rw [bind_assoc, map_bind]
  -- both read the trace that is named first; they are compared from its fields on
  refine congrArg (getTrace (F := F) input.queryID >>= ·) (funext fun fields => ?_)
  unfold joinFrom
  by_cases hfields : fields.isEmpty = true
  · rw [if_pos hfields, if_pos hfields]
    cases recent with
    | none => rfl
    | some e =>
      rw [pure_bind]
      unfold joinFallback
      dsimp only
      rw [bind_assoc, map_bind]
      refine congrArg (getTrace (F := F) e.queryID >>= ·) (funext fun fields' => ?_)
      rw [pure_bind, map_pure, completeJoin_fst]
      rfl
  · rw [if_neg hfields, if_neg hfields, pure_bind, map_pure, completeJoin_fst]
    rfl

/-- **The bucket's part of a feedback** is `submitFeedback`: its answer, its picker and its server. -/
theorem submit_run (env : FeedbackEnv F) (s : Session) (call : FeedbackCall) (now : Int)
    (w : (stores F).State) :
    let out := (submit env s call now).run w
    (submitFeedback env.formatG s.picker call.toFeedbackInput (s.lastCalls.mostRecent now) now).run w.1
      = ((out.1.1.1, out.1.2.picker), out.2.1) := by
  dsimp only
  unfold submit submitFrom submitFeedback
  rw [run_bind, run_bind, run_left, joinFeedback_eq, run_map, run_bind, getTrace_run]
  dsimp only
  rw [run_bind, run_left]
  dsimp only
  -- what the other services do is projected away
  cases ((joinFrom env.formatG call.queryID (s.lastCalls.mostRecent now)
      (Redis.traceOf w.1 call.queryID)).run w.1).1 with
  | none => rfl
  | some p =>
    obtain ⟨j, fields⟩ := p
    dsimp only [Option.map_some]
    unfold creditJoin creditBucket
    simp only [run_bind, run_left, run_right, run_pure]

end Devrouter
