import Mathlib.Data.List.Basic
import Devrouter.Heuristics.Picker
import Devrouter.Heuristics.Reward

/-!
# Explicit feedback

Model of `SubmitFeedback` in `internal/router/feedback.go`: a feedback is joined with the trace of the
query it is about, or with the most recent call on the connection; its reward is computed against the
rolling mean of the bucket, appended to the bucket's rewards, patched into the trace and handed to the
picker. Flow overlays, false-positive attribution, anchor learning and the per-source breadth bandit
write to state of their own and are added in `Router/Submit.lean`.

`%g`, which prints a float of a trace, is an argument (`formatG`): no field that is read here is one
the package prints that way.

The effect is given in closed form by `Process.submitted_eq`: a feedback that joins nothing does
nothing; one that does is recorded (`Redis.record`, which touches no profile and no history) and then
rewards the slot of its bucket with the adjusted reward (`Process.rewardedAt`).
-/

open Prog

namespace Devrouter

variable {F : Type} (formatG : ℚ → String)

/-! ### The join -/

/-- The payload of a feedback. -/
structure FeedbackInput where
  queryID : String
  additionalFiles : Int
  revisitedFiles : Int
  filePaths : String
  success : Bool
  deriving DecidableEq, Repr

/-- An entry of the last-call LRU. -/
structure LastCallEntry where
  queryID : String
  intent : String
  profileID : String
  repo : String
  topicID : String
  deriving DecidableEq, Repr

/-- What `SubmitFeedback` returns. -/
structure FeedbackResult where
  joinedQueryID : String
  intent : String
  profileID : String
  rawReward : ℚ
  adjustedReward : ℚ
  joinedVia : String
  note : String
  deriving DecidableEq, Repr

/-- The query a feedback is about. -/
structure Join where
  queryID : String
  intent : String
  profileID : String
  repo : String
  topicID : String
  promptTokens : Int
  joinedVia : String
  deriving DecidableEq, Repr

/-- The join found a query and its intent. -/
def Join.complete (j : Join) : Bool := decide (j.queryID ≠ "") && decide (j.intent ≠ "")

/-- `splitCSV`: the non-empty trimmed parts of a comma-separated list. -/
def splitCSV (s : String) : List String :=
  if s = "" then []
  else ((s.toList.splitOn ',').map fun p => trimSpace (String.ofList p)).filter (· ≠ "")

/-- The number `strconv.Atoi` returns beside its error: 0 for a text that is no number, the nearest
64-bit integer for one out of range. -/
def atoiValue (s : String) : Int :=
  match parseInt s with
  | none => 0
  | some n => max (-2 ^ 63) (min (2 ^ 63 - 1) n)

/-- A field of a trace as text; empty when it is missing. -/
def traceField (fields : List (String × TraceValue)) (name : String) : String :=
  match fields.find? (·.1 = name) with
  | none => ""
  | some (_, .text s) => s
  | some (_, .real q) => formatG q

/-- Join by the query id of the feedback. -/
def joinExplicit (queryID : String) : Prog (redis F) (Option Join) := do
  let fields ← getTrace queryID
  if fields.isEmpty then return none
  else
    return some {
      queryID
      intent := traceField formatG fields "intent"
      profileID := traceField formatG fields "heuristic_profile_id"
      repo := traceField formatG fields "repo"
      topicID := traceField formatG fields "topic_id"
      promptTokens := atoiValue (traceField formatG fields "prompt_tokens")
      joinedVia := "explicit"
    }

/-- Join by the most recent call. The trace of the call, when there is one, fills in what the entry
lacks. -/
def joinFallback : Option LastCallEntry → Prog (redis F) (Option Join)
  | none => return none
  | some e => do
    let fields ← getTrace e.queryID
    return some {
      queryID := e.queryID
      intent := e.intent
      profileID := e.profileID
      -- what the entry does not name is looked up in its trace
      repo := if e.repo = "" then traceField formatG fields "repo" else e.repo
      topicID := if e.topicID = "" then traceField formatG fields "topic_id" else e.topicID
      promptTokens := atoiValue (traceField formatG fields "prompt_tokens")
      joinedVia := "lru_fallback"
    }

/-- The join of a feedback; none when no query or no intent is found. -/
def joinFeedback (input : FeedbackInput) (mostRecent : Option LastCallEntry) :
    Prog (redis F) (Option Join) := do
  match ← joinExplicit formatG input.queryID with
  | some j => return (some j).filter Join.complete
  | none =>
    let j ← joinFallback formatG mostRecent
    return j.filter Join.complete

/-! ### The feedback -/

/-- The row of a feedback. -/
def feedbackRow (j : Join) (input : FeedbackInput) (raw adjusted : ℚ) (now : Int) : RewardRow where
  queryID := j.queryID
  profileID := j.profileID
  rawReward := raw
  adjustedReward := adjusted
  promptTokens := j.promptTokens
  additionalFiles := input.additionalFiles
  source := "explicit"
  weight := explicitWeight
  timestamp := now

/-- The fields a feedback adds to the trace. -/
def feedbackPatch (input : FeedbackInput) (raw adjusted : ℚ) (now : Int) :
    List (String × TraceValue) :=
  [
    ("additional_files", .text (toString input.additionalFiles)),
    ("revisits", .text (toString input.revisitedFiles)),
    ("explicit_success", .text (toString input.success)),
    ("raw_reward", .real raw),
    ("adjusted_reward", .real adjusted),
    ("feedback_source", .text "explicit"),
    ("feedback_at", .text (toString now))]

/-- Samples of the rolling mean. -/
def rollingSamples : Nat := 50

/-- The paths trimmed from the response: not stored on the trace. -/
def trimmedPaths : List String := []

/-- `SubmitFeedback`. -/
def submitFeedback (p : Picker) (input : FeedbackInput) (mostRecent : Option LastCallEntry)
    (now : Int) : Prog (redis F) (FeedbackResult × Picker) := do
  match ← joinFeedback formatG input mostRecent with
  | none =>
    return (⟨"", "", "", 0, 0, "dropped",
      "no matching trace; Path 2 (implicit repeat) remains the safety net"⟩, p)
  | some j =>
    let rollingMean ← rollingMeanFor j.intent j.repo j.topicID now rollingSamples
    let (raw, adjusted) := compute input.additionalFiles input.revisitedFiles j.promptTokens
      trimmedPaths (splitCSV input.filePaths) rollingMean
    -- the row and the trace are written though the bandit may not learn from them
    let _ ← appendRewardFor j.intent j.repo j.topicID (feedbackRow j input raw adjusted now)
    let _ ← patchTrace j.queryID (feedbackPatch input raw adjusted now)
    let p ← p.updateWithTopic j.intent j.repo j.topicID j.profileID adjusted explicitWeight now
    return (⟨j.queryID, j.intent, j.profileID, raw, adjusted, j.joinedVia, ""⟩, p)

/-! ### The sequential run -/

/-- A call of `SubmitFeedback`: its payload, what the LRU holds, and the time. -/
structure Feedback where
  input : FeedbackInput
  mostRecent : Option LastCallEntry
  now : Int
  deriving DecidableEq, Repr

namespace Redis

variable (r : Redis F)

/-- The trace of a query. -/
def traceOf (queryID : String) : List (String × TraceValue) :=
  if queryID = "" then [] else r.trace (traceKey queryID)

/-- The query a feedback is about. -/
def joined (fb : Feedback) : Option Join :=
  ((joinFeedback formatG fb.input fb.mostRecent).run r).1

/-- The mean a feedback is measured against. -/
def feedbackMean (j : Join) (now : Int) : ℚ :=
  r.rollingMean j.intent j.repo j.topicID now rollingSamples

/-- The state after a feedback was written to its bucket's rewards and to the trace. -/
def record (j : Join) (input : FeedbackInput) (raw adjusted : ℚ) (now : Int) : Redis F :=
  let key := rewardKeyFor j.intent j.repo j.topicID (dayOf now)
  { r with
    rewards := Function.update r.rewards key
      (r.rewards key ++ [feedbackRow j input raw adjusted now])
    trace := Function.update r.trace (traceKey j.queryID)
      ((feedbackPatch input raw adjusted now).foldl hsetField (r.trace (traceKey j.queryID))) }

@[simp] theorem record_str (j : Join) (input : FeedbackInput) (raw adjusted : ℚ) (now : Int) :
    (r.record j input raw adjusted now).str = r.str := rfl

@[simp] theorem record_history (j : Join) (input : FeedbackInput) (raw adjusted : ℚ) (now : Int) :
    (r.record j input raw adjusted now).history = r.history := rfl

@[simp] theorem record_frozenDefault (j : Join) (input : FeedbackInput) (raw adjusted : ℚ)
    (now : Int) (intent : String) :
    (r.record j input raw adjusted now).frozenDefault intent = r.frozenDefault intent := rfl

end Redis

/-- The documented raw reward of a feedback: its counts and the prompt tokens of its query. -/
def Join.raw (j : Join) (input : FeedbackInput) : ℚ :=
  explicitReward input.additionalFiles input.revisitedFiles j.promptTokens
    (hasOverlap trimmedPaths (splitCSV input.filePaths))

theorem getTrace_run (r : Redis F) (queryID : String) :
    (getTrace queryID).run r = (r.traceOf queryID, r) := by
  unfold getTrace Redis.traceOf
  split_ifs
  · rfl
  · rfl

/-- The join reads traces and changes nothing. -/
theorem joinFeedback_run (r : Redis F) (fb : Feedback) :
    (joinFeedback formatG fb.input fb.mostRecent).run r = (r.joined formatG fb, r) := by
  -- both ways of joining read traces and write nothing
  have hexplicit : ∀ q, ((joinExplicit formatG q).run r).2 = r := by
    intro q
    unfold joinExplicit
    rw [run_bind, getTrace_run]
    dsimp only
    split_ifs
    · rfl
    · rfl
  have hfallback : ∀ e, ((joinFallback formatG e).run r).2 = r := by
    intro e
    cases e with
    | none => rfl
    | some e =>
      unfold joinFallback
      rw [run_bind, getTrace_run]
      rfl
  refine Prod.ext rfl ?_
  unfold joinFeedback
  rw [run_bind, hexplicit]
  cases ((joinExplicit formatG fb.input.queryID).run r).1 with
  | some j => rfl
  | none =>
    dsimp only
    rw [run_bind, hfallback]
    rfl

/-- A join has a query and an intent. -/
theorem Redis.joined_ne (r : Redis F) {fb : Feedback} {j : Join} (h : r.joined formatG fb = some j) :
    j.queryID ≠ "" ∧ j.intent ≠ "" := by
  have hfilter : ∃ o : Option Join, o.filter Join.complete = some j := by
    unfold joined joinFeedback at h
    rw [run_bind] at h
    cases he : ((joinExplicit formatG fb.input.queryID).run r).1 with
    | some j' =>
      rw [he] at h
      exact ⟨some j', h⟩
    | none =>
      rw [he] at h
      dsimp only at h
      rw [run_bind] at h
      exact ⟨_, h⟩
  obtain ⟨o, ho⟩ := hfilter
  simpa [Join.complete] using (Option.filter_eq_some_iff.mp ho).2

theorem appendRewardFor_run (r : Redis F) (intent repo topic : String) (row : RewardRow) :
    (appendRewardFor intent repo topic row).run r
      = (none, { r with
          rewards := Function.update r.rewards (rewardKeyFor intent repo topic (dayOf row.timestamp))
            (r.rewards (rewardKeyFor intent repo topic (dayOf row.timestamp)) ++ [row]) }) := by
  unfold appendRewardFor appendReward rewardKeyFor
  split_ifs
  · rfl
  · rfl

theorem patchTrace_run (r : Redis F) {queryID : String} {fields : List (String × TraceValue)}
    (hq : queryID ≠ "") (hf : fields ≠ []) :
    (patchTrace queryID fields).run r
      = (none, { r with
          trace := Function.update r.trace (traceKey queryID)
            (fields.foldl hsetField (r.trace (traceKey queryID))) }) := by
  unfold patchTrace
  rw [if_neg (by simp [hq, hf])]
  rfl

namespace Process

variable (s : Process F)

/-- The state after a feedback. -/
def submitted (fb : Feedback) : Process F :=
  let res := (submitFeedback formatG s.picker fb.input fb.mostRecent fb.now).run s.redis
  ⟨res.1.2, res.2⟩

/-- **A feedback** that joins a query is recorded, and rewards the slot of the query's bucket with its
raw reward less the rolling mean. -/
theorem submitted_eq (fb : Feedback) :
    s.submitted formatG fb
      = match s.redis.joined formatG fb with
        | none => s
        | some j =>
          let raw := j.raw fb.input
          let adjusted := raw - s.redis.feedbackMean j fb.now
          (⟨s.picker, s.redis.record j fb.input raw adjusted fb.now⟩ : Process F).rewardedAt
            (slotKey j.intent j.repo j.topicID) j.profileID adjusted explicitWeight fb.now := by
  unfold submitted submitFeedback
  rw [run_bind, joinFeedback_run]
  dsimp only
  cases hj : s.redis.joined formatG fb with
  | none => rfl
  | some j =>
    have hq := (s.redis.joined_ne formatG hj).1
    -- the reward is recorded before the candidate is judged
    have hrec : ∀ raw adjusted, (patchTrace j.queryID (feedbackPatch fb.input raw adjusted fb.now)).run
        ((appendRewardFor j.intent j.repo j.topicID
          (feedbackRow j fb.input raw adjusted fb.now)).run s.redis).2
        = (none, s.redis.record j fb.input raw adjusted fb.now) := by
      intro raw adjusted
      rw [appendRewardFor_run, patchTrace_run _ hq (by simp [feedbackPatch])]
      rfl
    have hup : ∀ (r : Redis F) (adjusted : ℚ),
        (s.picker.updateWithTopic j.intent j.repo j.topicID j.profileID adjusted explicitWeight
            fb.now).run r
          = (let t := (⟨s.picker, r⟩ : Process F).rewardedAt (slotKey j.intent j.repo j.topicID)
              j.profileID adjusted explicitWeight fb.now
            (t.picker, t.redis)) :=
      fun r adjusted => (⟨s.picker, r⟩ : Process F).updateWithTopic_run _ _ _ _ _ _ _
    dsimp only
    simp only [run_bind, rollingMeanFor_run, compute_eq, hrec, hup, run_pure]
    rfl

end Process

end Devrouter
