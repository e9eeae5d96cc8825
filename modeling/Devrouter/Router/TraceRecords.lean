import Mathlib.Data.List.Sort
import Devrouter.Lib.Machine
import Devrouter.Router.Feedback

/-!
# Trace records and their time to live

Model of `PutTrace` and `PatchTrace` in `internal/heuristics/store.go` on a server that knows the time to
live of a key and the index of recent traces, and of the fields `traceHashFields` in
`internal/router/router.go` writes at the end of a query. The two patches are those of `SubmitFeedback`
and of the implicit repeat detection of `HandleQueryWithPlan`.

`PatchTrace` is a plain `HSET`, which makes the key when it is missing. `Intact` says what a record is
supposed to be; `put_intact`, `patch_intact_iff` and `wait_intact` say what each event does to it, and
`traces_intact_iff` is the run.
-/

namespace Devrouter

/-! ### The server -/

/-- A trace hash and the time it expires at; none when it never does. -/
structure TraceRecord where
  fields : List (String × TraceValue)
  expiresAt : Option ℤ
  deriving DecidableEq, Repr

/-- The keys of the traces and their index. Times are in milliseconds. -/
structure TraceDb where
  records : String → Option TraceRecord
  /-- The members of the index, lowest score first, then by name. -/
  index : List (ℚ × String)
  now : ℤ

/-- 30 days. -/
def traceTTL : ℤ := 30 * 24 * 60 * 60 * 1000

/-- Bound on the index of recent traces. -/
def traceIndexCap : ℕ := 500

/-- The order of a sorted set: by score, then by member. -/
def indexLe (a b : ℚ × String) : Prop := a.1 < b.1 ∨ (a.1 = b.1 ∧ a.2 ≤ b.2)

instance : DecidableRel indexLe := fun _ _ => inferInstanceAs (Decidable (_ ∨ _))

namespace TraceDb

variable (s : TraceDb)

/-- The server of a fresh installation, at some time. -/
def empty (now : ℤ) : TraceDb := ⟨fun _ => none, [], now⟩

/-- `HSET`: a missing key is made, without a time to live. -/
def hset (key : String) (fields : List (String × TraceValue)) : TraceDb :=
  let old := (s.records key).getD ⟨[], none⟩
  { s with
    records := Function.update s.records key
      (some { old with fields := fields.foldl hsetField old.fields }) }

/-- `EXPIRE`. -/
def expire (key : String) (ttl : ℤ) : TraceDb :=
  { s with
    records := Function.update s.records key
      ((s.records key).map fun r => { r with expiresAt := some (s.now + ttl) }) }

/-- `ZADD` on the index. -/
def zadd (score : ℚ) (member : String) : TraceDb :=
  { s with index := (s.index.filter (·.2 ≠ member)).orderedInsert indexLe (score, member) }

/-- `ZREMRANGEBYRANK` on the index: the newest stay. -/
def zremrangebyrank (keep : ℕ) : TraceDb := { s with index := s.index.drop (s.index.length - keep) }

/-- Time passes; what has expired is gone. -/
def wait (ms : ℕ) : TraceDb :=
  { s with
    records := fun key => (s.records key).filter fun r => r.expiresAt.all fun t => s.now + ms < t
    now := s.now + ms }

end TraceDb

/-! ### The functions of the store -/

/-- A field of a trace. -/
def fieldOf (fields : List (String × TraceValue)) (name : String) : Option TraceValue :=
  (fields.find? (·.1 = name)).map Prod.snd

/-- `traceScore`: the timestamp of the trace, or now. `parseTime` reads the RFC 3339 form. -/
def traceScore (parseTime : String → Option ℤ) (now : ℤ) (fields : List (String × TraceValue)) : ℚ :=
  match fieldOf fields "timestamp" with
  | some (.real q) => q
  | some (.text t) => (((atoi t).or (parseTime t)).getD now : ℤ)
  | none => now

/-- `PutTrace`. -/
def TraceDb.putTrace (parseTime : String → Option ℤ) (s : TraceDb) (queryID : String)
    (fields : List (String × TraceValue)) : TraceDb :=
  if queryID = "" || fields.isEmpty then s
  else
    (((s.hset (traceKey queryID) fields).expire (traceKey queryID) traceTTL).zadd
      (traceScore parseTime s.now fields) queryID).zremrangebyrank traceIndexCap

/-- `PatchTrace`. -/
def TraceDb.patchTrace (s : TraceDb) (queryID : String) (fields : List (String × TraceValue)) :
    TraceDb :=
  if queryID = "" || fields.isEmpty then s else s.hset (traceKey queryID) fields

/-! ### What the router writes -/

/-- The source a query explored. -/
structure SourceExplore where
  source : String
  val : ℤ
  base : ℤ
  deriving DecidableEq, Repr

/-- What was delivered for a query. -/
structure TraceOutcome where
  promptTokens : ℤ
  filesReturned : ℤ
  symbolsReturned : ℤ
  snippetsReturned : ℤ
  trimmedFiles : ℤ
  budgetUsedFraction : ℚ
  latencyMs : ℤ
  deriving DecidableEq, Repr

/-- A served query, as `traceHashFields` reads it from its trace, its profile and its plan. -/
structure ServedQuery where
  queryID : String
  query : String
  repo : String
  intent : String
  profileID : String
  profile : Profile
  planSource : String
  mustAutoAnchored : Bool
  mustTerms : List String
  shouldTerms : List String
  excludeTerms : List String
  phrases : List String
  contextHints : List String
  memKeys : List String
  timestamp : ℤ
  finalTokens : ℤ
  totalLatencyMs : ℤ
  searchFiles : List String
  graphFiles : List String
  repeatedExplorationOf : String
  topicID : String
  topicLabel : String
  heuristicFromTopic : Bool
  sourceExplore : Option SourceExplore
  outcome : Option TraceOutcome
  deriving DecidableEq, Repr

/-- Bound on the file paths of a stage. -/
def codegraphFileFieldCap : ℕ := 50

/-- A list joined by commas, as a field; no field for an empty list. -/
def csvField (name : String) (xs : List String) : List (String × TraceValue) :=
  if xs.isEmpty then [] else [(name, .text (",".intercalate xs))]

/-- A field that is written when its value is not empty. -/
def textField (name value : String) : List (String × TraceValue) :=
  if value = "" then [] else [(name, .text value)]

def sourceFields (e : SourceExplore) : List (String × TraceValue) :=
  [
    ("src_explore_name", .text e.source),
    ("src_explore_val", .text (toString e.val)),
    ("src_explore_base", .text (toString e.base))]

def outcomeFields (o : TraceOutcome) : List (String × TraceValue) :=
  [
    ("prompt_tokens", .text (toString o.promptTokens)),
    ("files_returned", .text (toString o.filesReturned)),
    ("symbols_returned", .text (toString o.symbolsReturned)),
    ("snippets_returned", .text (toString o.snippetsReturned)),
    ("trimmed_files", .text (toString o.trimmedFiles)),
    ("budget_used_fraction", .real o.budgetUsedFraction),
    ("latency_ms", .text (toString o.latencyMs))]

/-- `traceHashFields`. `encode` is the JSON of a list of texts. -/
def traceHashFields (encode : List String → String) (t : ServedQuery) : List (String × TraceValue) :=
  [
    ("query_id", .text t.queryID),
    ("query", .text t.query),
    ("repo", .text t.repo),
    ("intent", .text t.intent),
    ("timestamp", .text (toString t.timestamp)),
    ("heuristic_profile_id", .text t.profileID),
    ("profile_max_trace", .text (toString t.profile.maxTrace)),
    ("profile_caller_hops", .text (toString t.profile.callerHops)),
    ("final_tokens", .text (toString t.finalTokens)),
    ("total_latency_ms", .text (toString t.totalLatencyMs)),
    ("plan_source", .text t.planSource),
    ("plan_auto_anchored", .text (toString t.mustAutoAnchored)),
    ("plan_must_terms", .text (encode t.mustTerms)),
    ("plan_should_terms", .text (encode t.shouldTerms)),
    ("plan_exclude_terms", .text (encode t.excludeTerms)),
    ("plan_phrases", .text (encode t.phrases)),
    ("plan_context_hints", .text (encode t.contextHints))] ++
    -- the fields from here on are left out when there is nothing to write
    csvField "memory_keys" t.memKeys ++
    csvField "search_files" (t.searchFiles.take codegraphFileFieldCap) ++
    csvField "graph_files" (t.graphFiles.take codegraphFileFieldCap) ++
    textField "repeated_exploration_of" t.repeatedExplorationOf ++
    textField "topic_id" t.topicID ++
    textField "topic_label" t.topicLabel ++
    (if t.heuristicFromTopic then [("heuristic_from_topic", .text "true")] else []) ++
    (t.sourceExplore.map sourceFields).getD [] ++
    (t.outcome.map outcomeFields).getD []

/-- The fields the repeat detection adds to the trace of the repeated query. -/
def repeatPatch (raw adjusted : ℚ) (now : ℤ) : List (String × TraceValue) :=
  [
    ("repeat_query", .text "true"),
    ("raw_reward", .real raw),
    ("adjusted_reward", .real adjusted),
    ("feedback_source", .text "implicit_repeat"),
    ("feedback_at", .text (toString now))]

/-! ### Runs -/

/-- What happens to the traces: a query ends, a feedback or a repeated query patches one, time passes. -/
inductive TraceEvent where
  | put (t : ServedQuery)
  | feedback (queryID : String) (input : FeedbackInput) (raw adjusted : ℚ) (now : ℤ)
  | repeated (prevQueryID : String) (raw adjusted : ℚ) (now : ℤ)
  | wait (ms : ℕ)

/-- The traces, with the fields that the last `PutTrace` wrote at each key as a record beside them. -/
structure Traced where
  db : TraceDb
  written : String → Option (List (String × TraceValue))

variable (parseTime : String → Option ℤ) (encode : List String → String)

def Traced.put (s : Traced) (queryID : String) (fields : List (String × TraceValue)) : Traced where
  db := s.db.putTrace parseTime queryID fields
  written :=
    if queryID = "" then s.written
    else Function.update s.written (traceKey queryID) (some fields)

def Traced.patch (s : Traced) (queryID : String) (fields : List (String × TraceValue)) : Traced :=
  { s with db := s.db.patchTrace queryID fields }

def TraceEvent.apply (s : Traced) : TraceEvent → Traced
  | .put t => s.put parseTime t.queryID (traceHashFields encode t)
  | .feedback queryID input raw adjusted now =>
    s.patch queryID (feedbackPatch input raw adjusted now)
  | .repeated prevQueryID raw adjusted now => s.patch prevQueryID (repeatPatch raw adjusted now)
  | .wait ms => { s with db := s.db.wait ms }

/-- The runs of the traces. -/
def traceRuns : Machine Traced TraceEvent := ⟨fun s e => some (e.apply parseTime encode s)⟩

/-- The fields of the decision side. -/
def decisionFields : List String := ["intent", "heuristic_profile_id", "timestamp"]

/-- **A record as it is supposed to be**: it expires, and has the decision side that `PutTrace` wrote. -/
structure TraceRecord.Intact (written : Option (List (String × TraceValue))) (r : TraceRecord) : Prop where
  expires : r.expiresAt ≠ none
  decided : ∃ fields, written = some fields ∧ ∀ name ∈ decisionFields,
    fieldOf r.fields name = fieldOf fields name ∧ fieldOf fields name ≠ none

/-- Every record is intact. -/
def Traced.Intact (s : Traced) : Prop :=
  ∀ key r, s.db.records key = some r → r.Intact (s.written key)

/-- **The condition on an event**: a patch finds its trace. -/
def PatchesStored (s : Traced) : TraceEvent → Prop
  | .feedback queryID _ _ _ _ => queryID = "" ∨ (s.db.records (traceKey queryID)).isSome = true
  | .repeated prevQueryID _ _ _ =>
    prevQueryID = "" ∨ (s.db.records (traceKey prevQueryID)).isSome = true
  | _ => True

/-! ### Fields -/

/-- Replacing a field in place leaves the others. -/
theorem fieldOf_map_of_ne {f : String × TraceValue} {name : String} (hne : name ≠ f.1)
    (fields : List (String × TraceValue)) :
    fieldOf (fields.map fun g => if g.1 = f.1 then f else g) name = fieldOf fields name := by
  unfold fieldOf
  congr 1
  induction fields with
  | nil => rfl
  | cons g fields ih =>
    rw [List.map_cons, List.find?_cons, List.find?_cons, ih]
    by_cases hg : g.1 = f.1
    · rw [if_pos hg, hg, decide_eq_false hne.symm]
    · rw [if_neg hg]

/-- The replaced field holds what it was set to. -/
theorem fieldOf_map_self {f : String × TraceValue} {fields : List (String × TraceValue)}
    (hany : fields.any (·.1 = f.1) = true) :
    fieldOf (fields.map fun g => if g.1 = f.1 then f else g) f.1 = some f.2 := by
  unfold fieldOf
  induction fields with
  | nil => exact absurd hany (by simp)
  | cons g fields ih =>
    rw [List.map_cons, List.find?_cons]
    by_cases hg : g.1 = f.1
    · rw [if_pos hg, decide_eq_true rfl]
      rfl
    · rw [if_neg hg, decide_eq_false hg]
      exact ih (by simpa [hg] using hany)

theorem fieldOf_hsetField (fields : List (String × TraceValue)) (f : String × TraceValue)
    (name : String) :
    fieldOf (hsetField fields f) name = if name = f.1 then some f.2 else fieldOf fields name := by
  unfold hsetField
  by_cases hany : fields.any (·.1 = f.1) = true
  · -- a field that is there is replaced in its place
    rw [if_pos hany]
    by_cases hname : name = f.1
    · rw [if_pos hname, hname, fieldOf_map_self hany]
    · rw [if_neg hname, fieldOf_map_of_ne hname]
  · -- a new field is put behind the others
    rw [if_neg hany]
    unfold fieldOf
    rw [List.find?_append]
    by_cases hname : name = f.1
    · have hnone : fields.find? (·.1 = name) = none := by
        rw [List.find?_eq_none]
        intro g hg heq
        exact hany (List.any_eq_true.mpr ⟨g, hg, by simpa [hname] using heq⟩)
      rw [if_pos hname, hnone, hname]
      simp
    · rw [if_neg hname]
      simp [Ne.symm hname]

/-- Fields that are not set stay. -/
theorem fieldOf_foldl_of_notMem {fields : List (String × TraceValue)} {name : String}
    (hname : name ∉ fields.map Prod.fst) (old : List (String × TraceValue)) :
    fieldOf (fields.foldl hsetField old) name = fieldOf old name := by
  induction fields generalizing old with
  | nil => rfl
  | cons f fields ih =>
    rw [List.map_cons, List.mem_cons, not_or] at hname
    rw [List.foldl_cons, ih hname.2, fieldOf_hsetField, if_neg hname.1]

/-- A field that is set once holds what it was set to. -/
theorem fieldOf_foldl_of_nodup {fields : List (String × TraceValue)}
    (hnodup : (fields.map Prod.fst).Nodup) {name : String} (hname : name ∈ fields.map Prod.fst)
    (old : List (String × TraceValue)) :
    fieldOf (fields.foldl hsetField old) name = fieldOf fields name := by
  induction fields generalizing old with
  | nil => exact absurd hname List.not_mem_nil
  | cons f fields ih =>
    rw [List.map_cons, List.nodup_cons] at hnodup
    rw [List.foldl_cons]
    by_cases heq : name = f.1
    · subst heq
      rw [fieldOf_foldl_of_notMem hnodup.1, fieldOf_hsetField, if_pos rfl]
      simp [fieldOf]
    · have htail : name ∈ fields.map Prod.fst := (List.mem_cons.mp hname).resolve_left heq
      rw [ih hnodup.2 htail]
      simp [fieldOf, Ne.symm heq]

/-- The names a served query can write. -/
def traceNames : List String :=
  ["query_id", "query", "repo", "intent", "timestamp", "heuristic_profile_id", "profile_max_trace",
    "profile_caller_hops", "final_tokens", "total_latency_ms", "plan_source", "plan_auto_anchored",
    "plan_must_terms", "plan_should_terms", "plan_exclude_terms", "plan_phrases",
    "plan_context_hints"] ++ ["memory_keys"] ++ ["search_files"] ++ ["graph_files"] ++
    ["repeated_exploration_of"] ++ ["topic_id"] ++ ["topic_label"] ++ ["heuristic_from_topic"] ++
    ["src_explore_name", "src_explore_val", "src_explore_base"] ++
    ["prompt_tokens", "files_returned", "symbols_returned", "snippets_returned", "trimmed_files",
      "budget_used_fraction", "latency_ms"]

theorem csvField_names (name : String) (xs : List String) :
    ((csvField name xs).map Prod.fst).Sublist [name] := by
  unfold csvField
  split_ifs
  · exact List.nil_sublist _
  · exact List.Sublist.refl _

theorem textField_names (name value : String) :
    ((textField name value).map Prod.fst).Sublist [name] := by
  unfold textField
  split_ifs
  · exact List.nil_sublist _
  · exact List.Sublist.refl _

/-- The fields of a served query, in order. -/
theorem traceHashFields_names (t : ServedQuery) :
    ((traceHashFields encode t).map Prod.fst).Sublist traceNames := by
  -- each optional part has its own names, or none
  have hflag : ((if t.heuristicFromTopic then [("heuristic_from_topic", TraceValue.text "true")]
      else []).map Prod.fst).Sublist ["heuristic_from_topic"] := by
    split_ifs
    · exact List.Sublist.refl _
    · exact List.nil_sublist _
  have hsource : (((t.sourceExplore.map sourceFields).getD []).map Prod.fst).Sublist
      ["src_explore_name", "src_explore_val", "src_explore_base"] := by
    cases t.sourceExplore with
    | none => exact List.nil_sublist _
    | some e => exact List.Sublist.refl _
  have houtcome : (((t.outcome.map outcomeFields).getD []).map Prod.fst).Sublist
      ["prompt_tokens", "files_returned", "symbols_returned", "snippets_returned", "trimmed_files",
        "budget_used_fraction", "latency_ms"] := by
    cases t.outcome with
    | none => exact List.nil_sublist _
    | some o => exact List.Sublist.refl _
  -- the parts stand in the order of `traceNames`
  unfold traceHashFields traceNames
  simp only [List.map_append]
  exact (((((((((List.Sublist.refl _).append (csvField_names _ _)).append (csvField_names _ _)).append
    (csvField_names _ _)).append (textField_names _ _)).append (textField_names _ _)).append
    (textField_names _ _)).append hflag).append hsource).append houtcome

theorem traceHashFields_nodup (t : ServedQuery) :
    ((traceHashFields encode t).map Prod.fst).Nodup := by
  have hall : traceNames.Nodup := by decide
  exact hall.sublist (traceHashFields_names encode t)

/-- The decision side is among the fields of a served query. -/
theorem decision_mem (t : ServedQuery) {name : String} (hname : name ∈ decisionFields) :
    name ∈ (traceHashFields encode t).map Prod.fst := by
  have hbase : ∀ n ∈ decisionFields,
      n ∈ ["query_id", "query", "repo", "intent", "timestamp", "heuristic_profile_id"] := by decide
  have hmem := hbase name hname
  unfold traceHashFields
  simp only [List.append_assoc, List.cons_append, List.map_cons]
  simp only [List.mem_cons, List.not_mem_nil, or_false] at hmem ⊢
  tauto

/-- The fields that a patch can name. -/
def patchFields : List String :=
  ["additional_files", "revisits", "explicit_success", "repeat_query", "raw_reward", "adjusted_reward", "feedback_source",
    "feedback_at"]

/-- A patch names no other field. -/
theorem patch_spares {name : String} (hname : name ∉ patchFields) :
    (∀ input raw adjusted now, name ∉ (feedbackPatch input raw adjusted now).map Prod.fst) ∧
      ∀ raw adjusted now, name ∉ (repeatPatch raw adjusted now).map Prod.fst := by
  have hfeedback : ["additional_files", "revisits", "explicit_success", "raw_reward", "adjusted_reward",
      "feedback_source", "feedback_at"] ⊆ patchFields := by decide
  have hrepeat : ["repeat_query", "raw_reward", "adjusted_reward", "feedback_source", "feedback_at"] ⊆ patchFields := by
    decide
  exact ⟨fun _ _ _ _ h => hname (hfeedback h), fun _ _ _ h => hname (hrepeat h)⟩

/-- A patch names no field of the decision side. -/
theorem patch_notMem {name : String} (hname : name ∈ decisionFields) :
    (∀ input raw adjusted now,
        name ∉ (feedbackPatch input raw adjusted now).map Prod.fst) ∧
      ∀ raw adjusted now, name ∉ (repeatPatch raw adjusted now).map Prod.fst := by
  have hnone : ∀ n ∈ decisionFields, n ∉ patchFields := by decide
  exact patch_spares (hnone name hname)

/-! ### What an event does -/

theorem traceKey_inj {q q' : String} : traceKey q = traceKey q' ↔ q = q' := by
  simp [traceKey, String.append_right_inj]

variable {s : Traced}

theorem TraceDb.putTrace_records (db : TraceDb) {queryID : String} (hq : queryID ≠ "")
    {fields : List (String × TraceValue)} (hf : fields ≠ []) :
    (db.putTrace parseTime queryID fields).records
      = Function.update db.records (traceKey queryID)
          (some ⟨fields.foldl hsetField ((db.records (traceKey queryID)).getD ⟨[], none⟩).fields,
            some (db.now + traceTTL)⟩) := by
  have hguard : ¬ (queryID = "" || fields.isEmpty) = true := by simp [hq, hf]
  unfold putTrace
  rw [if_neg hguard]
  simp only [zremrangebyrank, zadd, expire, hset, Function.update_self, Function.update_idem,
    Option.map_some]

theorem TraceDb.putTrace_index (db : TraceDb) {queryID : String} (hq : queryID ≠ "")
    {fields : List (String × TraceValue)} (hf : fields ≠ []) :
    (db.putTrace parseTime queryID fields).index
      = let index := (db.index.filter (·.2 ≠ queryID)).orderedInsert indexLe (traceScore parseTime db.now fields, queryID)
        index.drop (index.length - traceIndexCap) := by
  have hguard : ¬ (queryID = "" || fields.isEmpty) = true := by simp [hq, hf]
  unfold putTrace
  rw [if_neg hguard]
  simp only [zremrangebyrank, zadd, expire, hset]

/-- **`PutTrace`** with the decision side among its fields leaves an intact record. -/
theorem put_intact (hs : s.Intact) (queryID : String) {fields : List (String × TraceValue)}
    (hne : fields ≠ []) (hnodup : (fields.map Prod.fst).Nodup)
    (hdec : ∀ name ∈ decisionFields, name ∈ fields.map Prod.fst) :
    (s.put parseTime queryID fields).Intact := by
  by_cases hq : queryID = ""
  · have hsame : s.put parseTime queryID fields = s := by
      unfold Traced.put TraceDb.putTrace
      simp [hq]
    rw [hsame]
    exact hs
  intro key r hr
  unfold Traced.put at hr ⊢
  rw [if_neg hq]
  dsimp only at hr ⊢
  rw [s.db.putTrace_records parseTime hq hne] at hr
  -- the record that is put has the decision's fields, and another one is not touched
  by_cases hkey : key = traceKey queryID
  · subst hkey
    rw [Function.update_self] at hr ⊢
    obtain rfl := Option.some.inj hr
    refine ⟨by simp, fields, rfl, fun name hname => ?_⟩
    refine ⟨fieldOf_foldl_of_nodup hnodup (hdec name hname) _, ?_⟩
    obtain ⟨f, hf, rfl⟩ := List.mem_map.mp (hdec name hname)
    unfold fieldOf
    rw [ne_eq, Option.map_eq_none_iff, List.find?_eq_none]
    exact fun h => h f hf (by simp)
  · rw [Function.update_of_ne hkey] at hr ⊢
    exact hs key r hr

/-- **Time** keeps the records that have not expired as they are. -/
theorem wait_intact (hs : s.Intact) (ms : ℕ) : ({ s with db := s.db.wait ms } : Traced).Intact := by
  intro key r hr
  exact hs key r (Option.filter_eq_some_iff.mp hr).1

/-- **A patch** keeps the records intact exactly when it finds its trace. -/
theorem patch_intact_iff (hs : s.Intact) {queryID : String} {fields : List (String × TraceValue)}
    (hf : fields ≠ []) (hname : ∀ name ∈ decisionFields, name ∉ fields.map Prod.fst) :
    (s.patch queryID fields).Intact ↔
      queryID = "" ∨ (s.db.records (traceKey queryID)).isSome = true := by
  unfold Traced.patch TraceDb.patchTrace
  by_cases hq : queryID = ""
  · rw [if_pos (by simp [hq])]
    exact ⟨fun _ => .inl hq, fun _ => hs⟩
  rw [if_neg (by simp [hq, hf])]
  cases hold : s.db.records (traceKey queryID) with
  | none =>
    constructor
    · intro h
      -- the record that the patch makes does not expire
      have hmade := h (traceKey queryID) ⟨fields.foldl hsetField [], none⟩ (by
        unfold TraceDb.hset
        rw [hold]
        exact Function.update_self _ _ _)
      exact absurd rfl hmade.expires
    · rintro (h | h)
      · exact absurd h hq
      · exact absurd h (by simp)
  | some old =>
    refine ⟨fun _ => .inr rfl, fun _ key r hr => ?_⟩
    unfold TraceDb.hset at hr
    rw [hold] at hr
    dsimp only [Option.getD_some] at hr
    by_cases hkey : key = traceKey queryID
    · subst hkey
      rw [Function.update_self] at hr
      obtain rfl := Option.some.inj hr
      obtain ⟨hexp, gs, hgs, hdec⟩ := hs _ old hold
      refine ⟨hexp, gs, hgs, fun name hn => ?_⟩
      rw [fieldOf_foldl_of_notMem (hname name hn)]
      exact hdec name hn
    · rw [Function.update_of_ne hkey] at hr
      exact hs key r hr

/-- **The records of the traces are intact throughout a run** exactly when every patch finds its
trace. -/
theorem traces_intact_iff (hs : s.Intact) (events : List TraceEvent) :
    (traceRuns parseTime encode).Along PatchesStored s events ↔
      ∀ events₁ events₂ t, events = events₁ ++ events₂ →
        (traceRuns parseTime encode).exec s events₁ = some t → t.Intact := by
  refine Machine.along_iff_reached (J := fun _ => True) ?_ (fun s e => ⟨_, rfl⟩) trivial hs events
  intro s e s' _ hs hstep
  obtain rfl := Option.some.inj hstep
  refine ⟨trivial, ?_⟩
  -- a put writes the decision, a wait only lets records expire, a patch writes none of its fields
  cases e with
  | put t =>
    refine ⟨fun _ => trivial, fun _ => put_intact parseTime hs t.queryID ?_
      (traceHashFields_nodup encode t) fun name hname => decision_mem encode t hname⟩
    unfold traceHashFields
    simp
  | wait ms => exact ⟨fun _ => trivial, fun _ => wait_intact hs ms⟩
  | feedback queryID input raw adjusted now =>
    exact patch_intact_iff hs (by simp [feedbackPatch])
      fun name hname => (patch_notMem hname).1 input raw adjusted now
  | repeated prevQueryID raw adjusted now =>
    exact patch_intact_iff hs (by simp [repeatPatch])
      fun name hname => (patch_notMem hname).2 raw adjusted now

/-- A query of the repo `r` that returned nothing. -/
def emptyQuery (queryID : String) : ServedQuery where
  queryID := queryID
  query := "where is the login"
  repo := "r"
  intent := "debug"
  profileID := "p"
  profile := ⟨0, 0, 0, 0, 0, 0, 0, 0, 0, 0, 0, 0⟩
  planSource := "agent"
  mustAutoAnchored := false
  mustTerms := []
  shouldTerms := []
  excludeTerms := []
  phrases := []
  contextHints := []
  memKeys := []
  timestamp := 1000
  finalTokens := 0
  totalLatencyMs := 0
  searchFiles := []
  graphFiles := []
  repeatedExplorationOf := ""
  topicID := ""
  topicLabel := ""
  heuristicFromTopic := false
  sourceExplore := none
  outcome := none

/-- A feedback that read nothing more. -/
def plainFeedback (queryID : String) : FeedbackInput := ⟨queryID, 0, 0, "", true⟩

def msPerDay : ℕ := 24 * 60 * 60 * 1000

/-- The traces after some events on an empty server. -/
def afterEvents (events : List TraceEvent) : Traced :=
  events.foldl (TraceEvent.apply (fun _ => none) fun _ => "[]") ⟨.empty 0, fun _ => none⟩

/-- A feedback a day after its query. -/
theorem traces_intact_next_day :
    (afterEvents [.put (emptyQuery "q1"), .wait msPerDay,
      .feedback "q1" (plainFeedback "q1") 1 0 0]).Intact := by
  have hempty : Traced.Intact ⟨.empty 0, fun _ => none⟩ := fun _ _ h => nomatch h
  refine (traces_intact_iff (fun _ => none) (fun _ => "[]") hempty [.put (emptyQuery "q1"),
    .wait msPerDay, .feedback "q1" (plainFeedback "q1") 1 0 0]).mp ?_ _ [] _
      (List.append_nil _).symm rfl
  refine ⟨trivial, fun s hs => ⟨trivial, fun t ht => ⟨.inr ?_, fun _ _ => trivial⟩⟩⟩
  obtain rfl := Option.some.inj hs
  obtain rfl := Option.some.inj ht
  decide +kernel

/-- **Records out of nothing**: a repeated query found before the trace of the first one is written, and a
feedback for a trace that expired a day ago, make a record that does not expire and has no intent. -/
theorem patch_makes_record :
    ((afterEvents [.repeated "q1" (-1) (-1) 0]).db.records (traceKey "q1")).map
        (fun r => (r.expiresAt, fieldOf r.fields "intent")) = some (none, none) ∧
      ((afterEvents [.put (emptyQuery "q1"), .wait (31 * msPerDay),
        .feedback "q1" (plainFeedback "q1") 1 0 0]).db.records (traceKey "q1")).map
          (fun r => (r.expiresAt, fieldOf r.fields "intent")) = some (none, none) := by
  decide +kernel

end Devrouter
