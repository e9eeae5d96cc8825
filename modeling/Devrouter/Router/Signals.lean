import Devrouter.Router.Rollback
import Devrouter.Router.TraceRecords
import Devrouter.Heuristics.Observed

/-!
# Explicit and implicit signals

A query is judged by feedbacks (`SubmitFeedback`) and by the implicit repeat detection at the end of a later query
(`HandleQueryWithPlan` in `internal/router/router.go`, with `ComputeImplicit` of `internal/heuristics/reward.go`). Both
append to the rewards of its bucket, write the feedback side of its trace and reward the slot of its bucket. Runs mix
them in any order with operations of the picker and with the traces of served queries.

A run keeps a log of the explicit samples. `OneReward` is the law that a query has at most one and that a trace holds
on to it; `SamplesStored` ties the log to what is stored. Neither path looks for an earlier signal, and `oneReward_iff`
says which runs are lawful all the same. The per-source breadth bandit has state of its own and is left out.
-/

open Prog

namespace Devrouter

variable {F : Type} (formatG : ℚ → String) (encode : List String → String)

/-! ### The repeat detection -/

/-- A similar query that was made before. -/
structure RepeatHit where
  prevQueryID : String
  prevIntent : String
  prevProfileID : String
  prevRepo : String
  prevTopicID : String
  sim : ℚ
  deriving DecidableEq, Repr

def repeatSimThreshold : ℚ := 7 / 10

def implicitWeight : ℚ := 1 / 2

/-- `ComputeImplicit`: the raw reward, and whether the repeat counts. -/
def computeImplicit (sim : ℚ) : ℚ × Bool :=
  if 95 / 100 < sim then (0, true)
  else if 7 / 10 < sim then (4 / 10, true)
  else (0, false)

/-- The row of a repeat. -/
def repeatRow (hit : RepeatHit) (raw adjusted : ℚ) (now : Int) : RewardRow where
  queryID := hit.prevQueryID
  profileID := hit.prevProfileID
  rawReward := raw
  adjustedReward := adjusted
  promptTokens := 0
  additionalFiles := 0
  source := "implicit_repeat"
  weight := implicitWeight
  timestamp := now

/-- The part of `HandleQueryWithPlan` that handles a repeat. -/
def handleRepeat (p : Picker) (hit : RepeatHit) (now : Int) : Prog (redis F) Picker :=
  if hit.sim < repeatSimThreshold then return p
  else
    let (raw, fired) := computeImplicit hit.sim
    if !fired then return p
    else do
      let rollingMean ← rollingMeanFor hit.prevIntent hit.prevRepo hit.prevTopicID now rollingSamples
      let adjusted := raw - rollingMean
      let _ ← appendRewardFor hit.prevIntent hit.prevRepo hit.prevTopicID (repeatRow hit raw adjusted now)
      let _ ← patchTrace hit.prevQueryID (repeatPatch raw adjusted now)
      p.updateWithTopic hit.prevIntent hit.prevRepo hit.prevTopicID hit.prevProfileID adjusted implicitWeight now

/-! ### Runs -/

/-- An explicit sample: the query, its raw and its adjusted reward. -/
structure ExplicitSample where
  queryID : String
  raw : ℚ
  adjusted : ℚ
  deriving DecidableEq

/-- A process, and the explicit samples that were handed to it, oldest first. -/
structure Signalled (F : Type) where
  process : Process F
  log : List ExplicitSample

inductive Signal (F : Type) where
  | op (op : Op F)
  | served (t : ServedQuery)
  | feedback (fb : Feedback)
  | repeated (hit : RepeatHit) (now : Int)

/-- The sample of a feedback that joins a query. -/
def Process.explicitSample (s : Process F) (fb : Feedback) (j : Join) : ExplicitSample where
  queryID := j.queryID
  raw := j.raw fb.input
  adjusted := j.raw fb.input - s.redis.feedbackMean j fb.now

/-- The state after a repeat was handled. -/
def Process.repeated (s : Process F) (hit : RepeatHit) (now : Int) : Process F :=
  let res := (handleRepeat s.picker hit now).run s.redis
  ⟨res.1, res.2⟩

namespace Signalled

/-- A started process on an empty server. -/
def start (tunableKnobs : List String) (frozen : Bool) : Signalled F :=
  ⟨Process.start tunableKnobs frozen (Redis.empty F), []⟩

variable [Field F] [LinearOrder F] (sqrt : F → F) (cfg : Tunables)

def next (s : Signalled F) : Signal F → Signalled F
  | .op op => { s with process := s.process.step sqrt cfg op }
  | .served t => { s with process := s.process.traced t.queryID (traceHashFields encode t) }
  | .feedback fb =>
    { process := s.process.submitted formatG fb
      log := s.log ++ ((s.process.redis.joined formatG fb).map (s.process.explicitSample fb)).toList }
  | .repeated hit now => { s with process := s.process.repeated hit now }

theorem next_feedback (s : Signalled F) (fb : Feedback) : s.next formatG encode sqrt cfg (.feedback fb) =
    { process := s.process.submitted formatG fb
      log := s.log ++ ((s.process.redis.joined formatG fb).map (s.process.explicitSample fb)).toList } := rfl

def runs : Machine (Signalled F) (Signal F) := ⟨fun s a => some (s.next formatG encode sqrt cfg a)⟩

end Signalled

/-! ### The law -/

/-- The explicit rows of a query in a list of rewards. -/
def Redis.explicitRows (r : Redis F) (key queryID : String) : ℕ :=
  (r.rewards key).countP fun row => decide (row.queryID = queryID) && decide (row.source = "explicit")

/-- The trace of the sample's query says that it is explicit, with its rewards. -/
structure ExplicitSample.Kept (e : ExplicitSample) (r : Redis F) : Prop where
  source : fieldOf (r.trace (traceKey e.queryID)) "feedback_source" = some (.text "explicit")
  raw : fieldOf (r.trace (traceKey e.queryID)) "raw_reward" = some (.real e.raw)
  adjusted : fieldOf (r.trace (traceKey e.queryID)) "adjusted_reward" = some (.real e.adjusted)

/-- **The law.** -/
structure OneReward (r : Redis F) (log : List ExplicitSample) : Prop where
  /-- A list of rewards has at most one explicit row of a query, -/
  row : ∀ key queryID, r.explicitRows key queryID ≤ 1
  /-- and one list has it. -/
  bucket : ∀ key key' queryID, 0 < r.explicitRows key queryID → 0 < r.explicitRows key' queryID → key = key'
  /-- The bandit was handed at most one explicit sample of it. -/
  bandit : ∀ queryID, log.countP (·.queryID = queryID) ≤ 1
  /-- Explicit feedback stays on the trace. -/
  kept : ∀ e ∈ log, e.Kept r

/-- The log is that of the stored rows. -/
structure SamplesStored (r : Redis F) (log : List ExplicitSample) : Prop where
  logged : ∀ key queryID, 0 < r.explicitRows key queryID → ∃ e ∈ log, e.queryID = queryID
  named : ∀ e ∈ log, e.queryID ≠ ""

/-- A feedback joins no query that has an explicit sample, and no repeat of such a query counts. -/
def Signalled.Once (s : Signalled F) : Signal F → Prop
  | .op _ => True
  | .served _ => True
  | .feedback fb => ∀ j, s.process.redis.joined formatG fb = some j → ∀ e ∈ s.log, e.queryID ≠ j.queryID
  | .repeated hit _ => (computeImplicit hit.sim).2 = true → ∀ e ∈ s.log, e.queryID ≠ hit.prevQueryID

section Law

variable {r r' : Redis F} {log : List ExplicitSample}

/-- What the law is about. -/
theorem law_congr (hrows : ∀ key q, r'.explicitRows key q = r.explicitRows key q)
    (htrace : ∀ e ∈ log, ∀ name ∈ ["feedback_source", "raw_reward", "adjusted_reward"],
      fieldOf (r'.trace (traceKey e.queryID)) name = fieldOf (r.trace (traceKey e.queryID)) name) :
    (OneReward r log → OneReward r' log) ∧ (SamplesStored r log → SamplesStored r' log) := by
  constructor
  · intro h
    refine ⟨fun key q => ?_, fun key key' q hk hk' => ?_, h.bandit, fun e he => ?_⟩
    · rw [hrows]
      exact h.row key q
    · rw [hrows] at hk hk'
      exact h.bucket key key' q hk hk'
    · have hkept := h.kept e he
      exact ⟨(htrace e he _ (by simp)).trans hkept.source, (htrace e he _ (by simp)).trans hkept.raw,
        (htrace e he _ (by simp)).trans hkept.adjusted⟩
  · intro h
    refine ⟨fun key q hk => ?_, h.named⟩
    rw [hrows] at hk
    exact h.logged key q hk

theorem explicitRows_append {key : String} {row : RewardRow}
    (h : r'.rewards = Function.update r.rewards key (r.rewards key ++ [row])) (k q : String) :
    r'.explicitRows k q
      = r.explicitRows k q + if k = key ∧ row.queryID = q ∧ row.source = "explicit" then 1 else 0 := by
  rw [Redis.explicitRows, h]
  by_cases hk : k = key
  · subst hk
    rw [Function.update_self, List.countP_append]
    simp [Redis.explicitRows, List.countP_cons]
  · rw [Function.update_of_ne hk, if_neg fun hkey => hk hkey.1]
    rfl

/-- The fields of the law after a patch of another trace. -/
theorem trace_patched {q : String} {fields : List (String × TraceValue)}
    (h : r'.trace = Function.update r.trace (traceKey q) (fields.foldl hsetField (r.trace (traceKey q)))) {q' : String}
    (hq : q' ≠ q) : r'.trace (traceKey q') = r.trace (traceKey q') := by
  rw [h, Function.update_of_ne fun hkey => hq (traceKey_inj.mp hkey)]

section Feedback

variable {e : ExplicitSample} {key : String} {row : RewardRow}

/-- The sample of a feedback is logged with its row. -/
theorem samplesStored_feedback (hrec : SamplesStored r log) (hne : e.queryID ≠ "") (hrow : row.queryID = e.queryID)
    (hrewards : r'.rewards = Function.update r.rewards key (r.rewards key ++ [row])) :
    SamplesStored r' (log ++ [e]) := by
  refine ⟨fun k q hk => ?_, fun e' he' => ?_⟩
  · rw [explicitRows_append hrewards, hrow] at hk
    by_cases hq : e.queryID = q
    · exact ⟨e, by simp, hq⟩
    · rw [if_neg fun h => hq h.2.1] at hk
      obtain ⟨e', he', hq'⟩ := hrec.logged k q hk
      exact ⟨e', List.mem_append_left [e] he', hq'⟩
  · obtain he' | he' := List.mem_append.mp he'
    · exact hrec.named e' he'
    · rw [List.mem_singleton.mp he']
      exact hne

/-- Where the law holds, the last sample is the first of its query. -/
theorem first_of_oneReward (h : OneReward r' (log ++ [e])) : ∀ e' ∈ log, e'.queryID ≠ e.queryID := by
  intro e' he' hq
  have hcount := h.bandit e.queryID
  have hpos : 0 < log.countP (·.queryID = e.queryID) := List.countP_pos_iff.mpr ⟨e', he', by simp [hq]⟩
  rw [List.countP_append] at hcount
  simp only [List.countP_singleton, decide_true, if_true] at hcount
  omega

/-- The first sample of a query keeps the law. -/
theorem oneReward_of_first (hrec : SamplesStored r log) (hlaw : OneReward r log) {input : FeedbackInput} {now : Int}
    (hrow : row.queryID = e.queryID)
    (hrewards : r'.rewards = Function.update r.rewards key (r.rewards key ++ [row]))
    (htrace : r'.trace = Function.update r.trace (traceKey e.queryID)
      ((feedbackPatch input e.raw e.adjusted now).foldl hsetField (r.trace (traceKey e.queryID))))
    (hnew : ∀ e' ∈ log, e'.queryID ≠ e.queryID) : OneReward r' (log ++ [e]) := by
  have hrows := explicitRows_append hrewards
  rw [hrow] at hrows
  have hnone : ∀ k, r.explicitRows k e.queryID = 0 := by
    intro k
    by_contra hk
    obtain ⟨e', he', hq⟩ := hrec.logged k e.queryID (Nat.pos_of_ne_zero hk)
    exact hnew e' he' hq
  -- the rows of the query are in the bucket of the feedback
  have hbucket : ∀ k, 0 < r'.explicitRows k e.queryID → k = key := by
    intro k hk
    rw [hrows, hnone] at hk
    by_contra hkey
    rw [if_neg fun h => hkey h.1] at hk
    exact Nat.lt_irrefl 0 hk
  refine ⟨fun k q => ?_, fun k k' q hk hk' => ?_, fun q => ?_, fun e' he' => ?_⟩
  · rw [hrows]
    by_cases hq : e.queryID = q
    · rw [← hq, hnone]
      split_ifs <;> simp
    · rw [if_neg fun h => hq h.2.1]
      exact hlaw.row k q
  · by_cases hq : e.queryID = q
    · subst hq
      rw [hbucket k hk, hbucket k' hk']
    · rw [hrows, if_neg fun h => hq h.2.1] at hk hk'
      exact hlaw.bucket k k' q hk hk'
  · rw [List.countP_append]
    by_cases hq : e.queryID = q
    · have hzero : log.countP (·.queryID = q) = 0 :=
        List.countP_eq_zero.mpr fun e' he' => by simpa [← hq] using hnew e' he'
      simp [hzero, hq]
    · simpa [hq] using hlaw.bandit q
  · obtain he' | he' := List.mem_append.mp he'
    · have hother := trace_patched htrace (hnew e' he')
      have hkept := hlaw.kept e' he'
      exact ⟨by rw [hother]; exact hkept.source, by rw [hother]; exact hkept.raw,
        by rw [hother]; exact hkept.adjusted⟩
    · obtain rfl := List.mem_singleton.mp he'
      have hself : ∀ name ∈ (feedbackPatch input e'.raw e'.adjusted now).map Prod.fst,
          fieldOf (r'.trace (traceKey e'.queryID)) name
            = fieldOf (feedbackPatch input e'.raw e'.adjusted now) name := by
        intro name hname
        rw [htrace, Function.update_self]
        exact fieldOf_foldl_of_nodup (by simp [feedbackPatch]) hname _
      exact ⟨hself _ (by simp [feedbackPatch]), hself _ (by simp [feedbackPatch]), hself _ (by simp [feedbackPatch])⟩

/-- A feedback that joins a query is lawful when it is the query's first. -/
theorem oneReward_feedback (hrec : SamplesStored r log) (hlaw : OneReward r log) {input : FeedbackInput} {now : Int}
    (hne : e.queryID ≠ "") (hrow : row.queryID = e.queryID)
    (hrewards : r'.rewards = Function.update r.rewards key (r.rewards key ++ [row]))
    (htrace : r'.trace = Function.update r.trace (traceKey e.queryID)
      ((feedbackPatch input e.raw e.adjusted now).foldl hsetField (r.trace (traceKey e.queryID)))) :
    SamplesStored r' (log ++ [e]) ∧ (OneReward r' (log ++ [e]) ↔ ∀ e' ∈ log, e'.queryID ≠ e.queryID) :=
  ⟨samplesStored_feedback hrec hne hrow hrewards, first_of_oneReward,
    oneReward_of_first hrec hlaw hrow hrewards htrace⟩

end Feedback

/-- A repeat that counts is lawful when its query has no explicit sample. -/
theorem oneReward_repeat (hrec : SamplesStored r log) (hlaw : OneReward r log) {q key : String} {row : RewardRow}
    {raw adjusted : ℚ} {now : Int} (hrow : row.source = "implicit_repeat")
    (hrewards : r'.rewards = Function.update r.rewards key (r.rewards key ++ [row]))
    (htrace : q ≠ "" → r'.trace = Function.update r.trace (traceKey q)
      ((repeatPatch raw adjusted now).foldl hsetField (r.trace (traceKey q))))
    (hnone : q = "" → r'.trace = r.trace) :
    SamplesStored r' log ∧ (OneReward r' log ↔ ∀ e ∈ log, e.queryID ≠ q) := by
  have hrows : ∀ k q', r'.explicitRows k q' = r.explicitRows k q' := by
    intro k q'
    rw [explicitRows_append hrewards, if_neg fun h => by simp [hrow] at h, Nat.add_zero]
  refine ⟨⟨fun k q' hk => hrec.logged k q' (hrows k q' ▸ hk), hrec.named⟩, fun h e he hq => ?_, fun hnew => ?_⟩
  · -- the patch says that the query's feedback is implicit
    subst hq
    have hsource := (h.kept e he).source
    rw [htrace (hrec.named e he), Function.update_self,
      fieldOf_foldl_of_nodup (by simp [repeatPatch]) (by simp [repeatPatch])] at hsource
    simp [fieldOf, repeatPatch] at hsource
  · refine (law_congr hrows fun e he name _ => ?_).1 hlaw
    by_cases hq : q = ""
    · rw [hnone hq]
    · rw [trace_patched (htrace hq) (hnew e he)]

end Law

/-! ### What a signal does -/

namespace Process

variable (s : Process F)

theorem rewardedAt_record (key profileID : String) (adjusted weight : ℚ) (now : Int) :
    (s.rewardedAt key profileID adjusted weight now).redis.rewards = s.redis.rewards ∧
      (s.rewardedAt key profileID adjusted weight now).redis.trace = s.redis.trace := by
  rcases s.rewardedAt_cases key profileID adjusted weight now with hr | ⟨c, -, -, hr⟩
  · rw [hr]
    exact ⟨rfl, rfl⟩
  · rw [hr]
    cases c.judge profileID adjusted weight with
    | stale => exact ⟨rfl, rfl⟩
    | keep c => exact ⟨rfl, rfl⟩
    | promote c => exact ⟨rfl, rfl⟩
    | discard c => exact ⟨rfl, rfl⟩
    | rollback c => exact ⟨rfl, rfl⟩

/-- An operation of the picker writes no reward and no trace. -/
theorem step_record [Field F] [LinearOrder F] (sqrt : F → F) (cfg : Tunables) (op : Op F) :
    (s.step sqrt cfg op).redis.rewards = s.redis.rewards ∧ (s.step sqrt cfg op).redis.trace = s.redis.trace := by
  rcases s.step_cases sqrt cfg op with hs | ⟨b, n, d, hs⟩ | ⟨i, hs⟩ | ⟨w, -, hs⟩ | ⟨i, now, hs⟩ | ⟨k, e, hs⟩
  · rw [hs]
    exact ⟨rfl, rfl⟩
  · rw [hs]
    obtain ⟨-, -, hrewards, htrace, -⟩ := s.redis.le_seedCurrentFor b.intent b.repo b.topic
    exact ⟨hrewards.symm, htrace.symm⟩
  · rw [hs]
    obtain ⟨-, -, hrewards, htrace, -⟩ := s.redis.le_seedCurrent i
    exact ⟨hrewards.symm, htrace.symm⟩
  · rw [hs]
    exact s.rewardedAt_record w.bucket.key w.profileID w.adjusted w.weight w.now
  · rw [hs]
    exact ⟨rfl, rfl⟩
  · rw [hs]
    exact ⟨rfl, rfl⟩

/-- A repeat that does not count changes nothing. -/
theorem repeated_of_quiet {hit : RepeatHit} (h : (computeImplicit hit.sim).2 = false) (now : Int) :
    s.repeated hit now = s := by
  unfold repeated handleRepeat
  split_ifs
  · rfl
  · simp only [h]
    rfl

theorem repeated_of_fired {hit : RepeatHit} (h : (computeImplicit hit.sim).2 = true) (now : Int) :
    ∃ (r : Redis F) (adjusted : ℚ),
      r.rewards = Function.update s.redis.rewards
        (rewardKeyFor hit.prevIntent hit.prevRepo hit.prevTopicID (dayOf now))
        (s.redis.rewards (rewardKeyFor hit.prevIntent hit.prevRepo hit.prevTopicID (dayOf now)) ++
          [repeatRow hit (computeImplicit hit.sim).1 adjusted now]) ∧
      (hit.prevQueryID ≠ "" → r.trace = Function.update s.redis.trace (traceKey hit.prevQueryID)
        ((repeatPatch (computeImplicit hit.sim).1 adjusted now).foldl hsetField
          (s.redis.trace (traceKey hit.prevQueryID)))) ∧
      (hit.prevQueryID = "" → r.trace = s.redis.trace) ∧
      (s.repeated hit now).redis.rewards = r.rewards ∧ (s.repeated hit now).redis.trace = r.trace := by
  -- a signal that fires is above the threshold
  have hsim : ¬hit.sim < repeatSimThreshold := by
    intro hlt
    have hbelow : hit.sim < 7 / 10 := hlt
    rw [computeImplicit, if_neg (by linarith), if_neg (by linarith)] at h
    exact Bool.false_ne_true h
  set adjusted := (computeImplicit hit.sim).1
    - s.redis.rollingMean hit.prevIntent hit.prevRepo hit.prevTopicID now rollingSamples
  set r₁ := ((appendRewardFor hit.prevIntent hit.prevRepo hit.prevTopicID
    (repeatRow hit (computeImplicit hit.sim).1 adjusted now)).run s.redis).2 with hr₁
  set r := ((patchTrace hit.prevQueryID (repeatPatch (computeImplicit hit.sim).1 adjusted now)).run r₁).2 with hr
  rw [appendRewardFor_run] at hr₁
  -- the reward and the trace are written before the candidate is judged
  have hrun : s.repeated hit now = (⟨s.picker, r⟩ : Process F).rewardedAt
      (slotKey hit.prevIntent hit.prevRepo hit.prevTopicID) hit.prevProfileID adjusted implicitWeight now := by
    have hup := (⟨s.picker, r⟩ : Process F).updateWithTopic_run hit.prevIntent hit.prevRepo hit.prevTopicID
      hit.prevProfileID adjusted implicitWeight now
    unfold repeated handleRepeat
    rw [if_neg hsim]
    simp only [h, Bool.not_true, Bool.false_eq_true, if_false, run_bind, rollingMeanFor_run]
    exact congrArg (fun res : Picker × Redis F => (⟨res.1, res.2⟩ : Process F)) hup
  have hfields : repeatPatch (computeImplicit hit.sim).1 adjusted now ≠ [] := List.cons_ne_nil _ _
  rw [hrun]
  refine ⟨r, adjusted, ?_, fun hq => ?_, fun hq => ?_, rewardedAt_record _ _ _ _ _ _⟩
  · -- without a query id there is no trace to patch, and the row is appended all the same
    by_cases hq : hit.prevQueryID = ""
    · rw [hr, patchTrace, if_pos (by simp [hq]), hr₁]
      rfl
    · rw [hr, patchTrace_run _ hq hfields, hr₁]
      rfl
  · rw [hr, patchTrace_run _ hq hfields, hr₁]
  · rw [hr, patchTrace, if_pos (by simp [hq]), hr₁]
    rfl

end Process

namespace Signalled

variable {formatG encode} [Field F] [LinearOrder F] {sqrt : F → F} {cfg : Tunables} {s : Signalled F}

omit [Field F] [LinearOrder F] in
/-- A served query writes the decision side of its trace. -/
theorem law_served (t : ServedQuery) (hrec : SamplesStored s.process.redis s.log)
    (hlaw : OneReward s.process.redis s.log) :
    SamplesStored (s.process.traced t.queryID (traceHashFields encode t)).redis s.log ∧
      OneReward (s.process.traced t.queryID (traceHashFields encode t)).redis s.log := by
  -- a served query writes none of the three fields that the law reads
  have hnames : ∀ name ∈ ["feedback_source", "raw_reward", "adjusted_reward"],
      name ∉ (traceHashFields encode t).map Prod.fst := by
    have hall : ∀ name ∈ ["feedback_source", "raw_reward", "adjusted_reward"], name ∉ traceNames := by decide
    exact fun name hname hmem => hall name hname ((traceHashFields_names encode t).subset hmem)
  have hrows : ∀ key q, (s.process.traced t.queryID (traceHashFields encode t)).redis.explicitRows key q
      = s.process.redis.explicitRows key q := by
    intro key q
    unfold Process.traced putTrace
    split_ifs <;> rfl
  -- the rows stay, and the trace keeps these fields even if it is the query's own
  have hcongr := law_congr hrows fun e (_ : e ∈ s.log) name hname => by
    unfold Process.traced putTrace
    split_ifs
    · rfl
    · show fieldOf (Function.update s.process.redis.trace (traceKey t.queryID) _ (traceKey e.queryID)) name = _
      by_cases hq : e.queryID = t.queryID
      · rw [hq, Function.update_self, fieldOf_foldl_of_notMem (hnames name hname)]
      · rw [Function.update_of_ne fun hkey => hq (traceKey_inj.mp hkey)]
  exact ⟨hcongr.2 hrec, hcongr.1 hlaw⟩

/-- The step lemma. -/
theorem law_next (a : Signal F) (hrec : SamplesStored s.process.redis s.log) (hlaw : OneReward s.process.redis s.log) :
    SamplesStored (s.next formatG encode sqrt cfg a).process.redis (s.next formatG encode sqrt cfg a).log ∧
      (OneReward (s.next formatG encode sqrt cfg a).process.redis (s.next formatG encode sqrt cfg a).log ↔
        s.Once formatG a) := by
  cases a with
  | op op =>
    -- a bandit's step records no reward and no trace
    obtain ⟨hrewards, htrace⟩ := s.process.step_record sqrt cfg op
    have hrows : ∀ key q, (s.process.step sqrt cfg op).redis.explicitRows key q
        = s.process.redis.explicitRows key q := by
      intro key q
      rw [Redis.explicitRows, hrewards]
      rfl
    have hcongr := law_congr hrows fun e (_ : e ∈ s.log) name _ => by rw [htrace]
    exact ⟨hcongr.2 hrec, iff_of_true (hcongr.1 hlaw) trivial⟩
  | served t =>
    obtain ⟨hrec', hlaw'⟩ := law_served t hrec hlaw
    exact ⟨hrec', iff_of_true hlaw' trivial⟩
  | feedback fb =>
    rw [next_feedback, Process.submitted_eq]
    cases hj : s.process.redis.joined formatG fb with
    | none =>
      -- nothing was joined, so nothing was rewarded
      rw [Option.map_none, Option.toList_none, List.append_nil]
      refine ⟨hrec, iff_of_true hlaw fun j hjoined => ?_⟩
      rw [hj] at hjoined
      cases hjoined
    | some j =>
      have hrecord := Process.rewardedAt_record (⟨s.process.picker, s.process.redis.record j fb.input (j.raw fb.input)
        (j.raw fb.input - s.process.redis.feedbackMean j fb.now) fb.now⟩ : Process F)
        (Process.slotKey j.intent j.repo j.topicID) j.profileID
        (j.raw fb.input - s.process.redis.feedbackMean j fb.now) explicitWeight fb.now
      obtain ⟨hrec', hiff⟩ := oneReward_feedback hrec hlaw (e := s.process.explicitSample fb j)
        -- a sample of the query is added, and the law stays if it is the first one
        (s.process.redis.joined_ne formatG hj).1 rfl hrecord.1 hrecord.2
      refine ⟨hrec', hiff.trans ⟨fun h j' hj' => ?_, fun h => h j hj⟩⟩
      obtain rfl := Option.some.inj (hj.symm.trans hj')
      exact h
  | repeated hit now =>
    show SamplesStored (s.process.repeated hit now).redis s.log ∧
      (OneReward (s.process.repeated hit now).redis s.log ↔ _)
    cases hfired : (computeImplicit hit.sim).2 with
    | false =>
      -- a repeat below the threshold writes nothing
      rw [s.process.repeated_of_quiet hfired]
      exact ⟨hrec, iff_of_true hlaw fun h => absurd (hfired.symm.trans h) Bool.false_ne_true⟩
    | true =>
      obtain ⟨r, adjusted, hrewards, htrace, hnone, hredis, hredis'⟩ := s.process.repeated_of_fired hfired now
      -- one that fires overwrites the reward of the query that is repeated
      obtain ⟨hrec', hiff⟩ := oneReward_repeat hrec hlaw rfl (hredis.trans hrewards)
        (fun hq => hredis'.trans (htrace hq)) (fun hq => hredis'.trans (hnone hq))
      exact ⟨hrec', hiff.trans ⟨fun h _ => h, fun h => h hfired⟩⟩

end Signalled

/-- **One explicit reward for a query, and it stays.** In a run from a started process on an empty server the law holds
in every state that is reached if and only if no feedback joins a query that has an explicit sample and no repeat of
such a query counts. -/
theorem oneReward_iff [Field F] [LinearOrder F] (sqrt : F → F) (cfg : Tunables) (tunableKnobs : List String)
    (frozen : Bool) (signals : List (Signal F)) :
    (Signalled.runs formatG encode sqrt cfg).Along (Signalled.Once formatG) (.start tunableKnobs frozen) signals ↔
      ∀ before after s, signals = before ++ after →
        (Signalled.runs formatG encode sqrt cfg).exec (.start tunableKnobs frozen) before = some s →
        OneReward s.process.redis s.log := by
  -- the process starts without a row, and the law holds of an empty log
  have hrewards : (Signalled.start (F := F) tunableKnobs frozen).process.redis.rewards = fun _ => [] := by
    rw [Signalled.start, Process.start, warmDefaults_run]
    exact ((Process.le_warm (Redis.empty F) knownIntents).2.2.1).symm
  have hrows : ∀ key q, (Signalled.start (F := F) tunableKnobs frozen).process.redis.explicitRows key q = 0 := by
    intro key q
    rw [Redis.explicitRows, hrewards]
    rfl
  refine Machine.along_iff_reached (I := fun s : Signalled F => OneReward s.process.redis s.log)
    (J := fun s : Signalled F => SamplesStored s.process.redis s.log) ?_
    (fun (s : Signalled F) a => ⟨s.next formatG encode sqrt cfg a, rfl⟩) ?_ ?_ signals
  · rintro s a _ hrec hlaw ⟨⟩
    exact Signalled.law_next a hrec hlaw
  · refine ⟨fun key q hk => ?_, fun e he => absurd he List.not_mem_nil⟩
    rw [hrows] at hk
    exact absurd hk (Nat.lt_irrefl 0)
  · refine ⟨fun key q => ?_, fun key key' q hk => ?_, fun q => Nat.zero_le 1, fun e he => absurd he List.not_mem_nil⟩
    · rw [hrows]
      exact Nat.zero_le 1
    · rw [hrows] at hk
      exact absurd hk (Nat.lt_irrefl 0)

/-! ### A retry, and a repeat after a feedback -/

/-- The trace of a query of the intent `debug`. -/
def debugQuery : ServedQuery where
  queryID := "q1"
  query := "why does the flush hang"
  repo := "r"
  intent := "debug"
  profileID := "p"
  profile := Profile.default "debug"
  planSource := "auto"
  mustAutoAnchored := false
  mustTerms := []
  shouldTerms := []
  excludeTerms := []
  phrases := []
  contextHints := []
  memKeys := []
  timestamp := 0
  finalTokens := 0
  totalLatencyMs := 0
  searchFiles := []
  graphFiles := []
  repeatedExplorationOf := ""
  topicID := "*"
  topicLabel := ""
  heuristicFromTopic := false
  sourceExplore := none
  outcome := none

/-- A perfect feedback about it. -/
def perfectFeedback : Feedback := ⟨⟨"q1", 0, 0, "", true⟩, none, 0⟩

/-- The same question again. -/
def askedAgain : RepeatHit := ⟨"q1", "debug", "p", "r", "*", 99 / 100⟩

/-- A feedback that is sent twice leaves two explicit rows and two samples of its query; a repeat after it turns the
trace of the query into that of a failed one. -/
theorem retried_repeated :
    (∃ s : Signalled ℚ, (Signalled.runs (fun _ => "") (fun _ => "") id .default).exec (.start [] false)
        [.served debugQuery, .feedback perfectFeedback, .feedback perfectFeedback] = some s ∧
      s.process.redis.explicitRows (rewardKey "debug" 0) "q1" = 2 ∧ s.log.length = 2 ∧
      ¬OneReward s.process.redis s.log) ∧
    (∃ s : Signalled ℚ, (Signalled.runs (fun _ => "") (fun _ => "") id .default).exec (.start [] false)
        [.served debugQuery, .feedback perfectFeedback, .repeated askedAgain 0] = some s ∧
      s.log.map (fun e => (e.queryID, e.raw)) = [("q1", 1)] ∧
      fieldOf (s.process.redis.trace (traceKey "q1")) "feedback_source" = some (.text "implicit_repeat") ∧
      fieldOf (s.process.redis.trace (traceKey "q1")) "raw_reward" = some (.real 0) ∧
      ¬OneReward s.process.redis s.log) := by
  constructor
  · -- the same feedback twice leaves two rows for one query
    have hrows : (((Signalled.runs (F := ℚ) (fun _ => "") (fun _ => "") id .default).exec (.start [] false)
        [.served debugQuery, .feedback perfectFeedback, .feedback perfectFeedback]).map fun s =>
          (s.process.redis.explicitRows (rewardKey "debug" 0) "q1", s.log.length)) = some (2, 2) := by
      decide +kernel
    obtain ⟨s, hs, hpair⟩ := Option.map_eq_some_iff.mp hrows
    obtain ⟨htwo, hlog⟩ := Prod.mk.inj hpair
    refine ⟨s, hs, htwo, hlog, fun h => ?_⟩
    have hrow := h.row (rewardKey "debug" 0) "q1"
    rw [htwo] at hrow
    exact absurd hrow (by decide)
  · -- the repeat overwrites what the feedback has written into the trace
    have hfields : (((Signalled.runs (F := ℚ) (fun _ => "") (fun _ => "") id .default).exec (.start [] false)
        [.served debugQuery, .feedback perfectFeedback, .repeated askedAgain 0]).map fun s =>
          (s.log.map fun e => (e.queryID, e.raw), fieldOf (s.process.redis.trace (traceKey "q1")) "feedback_source",
            fieldOf (s.process.redis.trace (traceKey "q1")) "raw_reward"))
        = some ([("q1", 1)], some (.text "implicit_repeat"), some (.real 0)) := by
      decide +kernel
    obtain ⟨s, hs, hpair⟩ := Option.map_eq_some_iff.mp hfields
    obtain ⟨hlog, hrest⟩ := Prod.mk.inj hpair
    obtain ⟨hsource, hraw⟩ := Prod.mk.inj hrest
    refine ⟨s, hs, hlog, hsource, hraw, fun h => ?_⟩
    obtain ⟨e, he, heq⟩ := List.mem_map.mp (hlog ▸ List.mem_singleton.mpr rfl)
    have hkept := (h.kept e he).source
    rw [(Prod.mk.inj heq).1, hsource] at hkept
    simp at hkept

end Devrouter
