import Mathlib.Data.List.Infix
import Devrouter.Memory.Conflicts
import Devrouter.Router.MemoryKeys

/-!
# The topics of a flow

Model of `LoadFlows`, `flowTopicIndex`, `LoadRecentQueries` and `traceFieldsToRow` in `internal/dashboard/data.go`, and
of `RecentTraceIDs` in `internal/heuristics/store.go`: the dashboard lists the flow memories and shows with each the
topics of the retained queries that returned it. The subgraph of a flow and the counters of its overlay, which are
attached to a node one by one, are left out.

The index of topics is keyed by the entries of the `memory_keys` of the traces, which are the keys the memories are
stored under, joined by commas and split again. A flow is looked up with its repo and its name as they are, while
`SaveFlow` sanitises the name. `flowTopics_exact_iff` says for which flows the two meet for all traces.
-/

namespace Devrouter.Dashboard

open Memory

variable {F : Type}

/-! ### The traces -/

/-- A query as the dashboard shows it. -/
structure QueryRow where
  queryID : String
  query : String
  repo : String
  intent : String
  profileID : String
  timestamp : ℤ
  latencyMs : ℤ
  promptTokens : ℤ
  filesReturned : ℤ
  symbolsReturned : ℤ
  snippetsReturned : ℤ
  trimmedFiles : ℤ
  budgetUsed : ℚ
  memoryKeys : List String
  searchFiles : List String
  graphFiles : List String
  topicID : String
  topicLabel : String
  heuristicFromTopic : Bool
  additionalFiles : ℤ
  revisits : ℤ
  rawReward : ℚ
  adjustedReward : ℚ
  feedbackSource : String
  feedbackAt : ℤ
  hasFeedback : Bool
  repeatedExplorationOf : String

section Rows

variable (formatG : ℚ → String) (parseFloat : String → ℚ)

/-- `traceFieldsToRow`. -/
def traceFieldsToRow (id : String) (f : List (String × TraceValue)) : QueryRow :=
  let text := traceField formatG f
  let int (name : String) : ℤ := atoiValue (text name)
  let float (name : String) : ℚ := if text name = "" then 0 else parseFloat (text name)
  { queryID := id
    query := text "query"
    repo := text "repo"
    intent := text "intent"
    profileID := text "heuristic_profile_id"
    timestamp := int "timestamp"
    latencyMs := int "latency_ms"
    promptTokens := int "prompt_tokens"
    filesReturned := int "files_returned"
    symbolsReturned := int "symbols_returned"
    snippetsReturned := int "snippets_returned"
    trimmedFiles := int "trimmed_files"
    budgetUsed := float "budget_used_fraction"
    memoryKeys := splitCSV (text "memory_keys")
    searchFiles := splitCSV (text "search_files")
    graphFiles := splitCSV (text "graph_files")
    topicID := text "topic_id"
    topicLabel := text "topic_label"
    heuristicFromTopic := text "heuristic_from_topic" = "true"
    additionalFiles := int "additional_files"
    revisits := int "revisits"
    rawReward := float "raw_reward"
    adjustedReward := float "adjusted_reward"
    feedbackSource := text "feedback_source"
    feedbackAt := int "feedback_at"
    hasFeedback := decide (0 < int "feedback_at") || decide (text "feedback_source" ≠ "")
    repeatedExplorationOf := text "repeated_exploration_of" }

/-- `RecentTraceIDs`: the newest first. -/
def recentTraceIDs (s : TraceDb) (limit : ℤ) : List String :=
  let limit := if limit ≤ 0 then 50 else limit
  ((s.index.map Prod.snd).reverse).take (min limit traceIndexCap).toNat

/-- `LoadRecentQueries`. An id without a trace is skipped. -/
def loadRecentQueries (s : TraceDb) (limit : ℤ) : List QueryRow :=
  (recentTraceIDs s limit).filterMap fun id =>
    match s.records (traceKey id) with
    | none => none
    | some r => if r.fields.isEmpty then none else some (traceFieldsToRow formatG parseFloat id r.fields)

end Rows

/-! ### The index of topics -/

/-- The topic of a query: its label, else its id; none for the intent-global fallback. -/
def topicOf (label id : String) : Option String :=
  let topic := if label = "" then id else label
  if topic = "" ∨ topic = "*" then none else some topic

def QueryRow.topic (q : QueryRow) : Option String := topicOf q.topicLabel q.topicID

/-- The loop over the memory keys of a query. -/
def indexKeys (topic : String) (tmp : String → List String) (keys : List String) : String → List String :=
  keys.foldl (fun tmp mk => if contains mk ":flow:" then Function.update tmp mk (List.insert topic (tmp mk)) else tmp) tmp

/-- The loop over the queries. -/
def indexRow (tmp : String → List String) (q : QueryRow) : String → List String :=
  match q.topic with
  | none => tmp
  | some topic => indexKeys topic tmp q.memoryKeys

/-- `flowTopicIndex`: the sorted topics of a memory key; none for a key that is missing. -/
def flowTopicIndex (rows : List QueryRow) (key : String) : List String :=
  (rows.foldl indexRow (fun _ => []) key).insertionSort (· ≤ ·)

/-! ### The flows -/

structure FlowNode where
  name : String
  repo : String
  purpose : String
  files : List String
  entryPoints : List String
  source : String
  updatedAt : ℤ
  topics : List String

/-- The search of `LoadFlows`. -/
def flowCommand (repo : String) : FtList where
  index := "idx:mem:flow"
  query := tagClause "mem_type" "flow" ++ (if repo ≠ "" then " " ++ tagClause "repo" (escapeTag repo) else "")
  limit := 500

/-- The fields of a hit; one that is missing is empty. -/
def setHit (m : String → String) : List Raw → String → String
  | name :: val :: rest =>
    setHit (if name.asString = "embedding" then m else Function.update m name.asString val.asString) rest
  | _ => m

/-- The loop of `parseFTHits`: keys and fields in turn. -/
def parseHits : List Raw → List (String → String)
  | _ :: .arr fields :: rest => setHit (fun _ => "") fields :: parseHits rest
  | _ :: _ :: rest => parseHits rest
  | _ => []

def parseFTHits : Raw → List (String → String)
  | .arr arr => if arr.length < 2 then [] else parseHits arr.tail
  | _ => []

/-- A node, before its topics are looked up. -/
def flowNode (repo : String) (h : String → String) : FlowNode where
  name := h "name"
  repo := if repo = "" then h "repo" else repo
  purpose := h "purpose"
  files := splitCSV (h "files")
  entryPoints := splitCSV (h "entry_points")
  source := h "source"
  updatedAt := atoiValue (h "updated_at")
  topics := []

/-- The key a flow is looked up with. -/
def lookupKey (repo name : String) : String := "mem:" ++ repo ++ ":flow:" ++ name

def attachTopics (rows : List QueryRow) (n : FlowNode) : FlowNode :=
  { n with topics := flowTopicIndex rows (lookupKey n.repo n.name) }

/-- `LoadFlows`. An error of the server is no flows. -/
def loadFlows (formatG : ℚ → String) (parseFloat : String → ℚ) (ftList : FtList → Option Raw) (s : TraceDb)
    (repo : String) : List FlowNode :=
  let nodes := ((ftList (flowCommand repo)).elim [] parseFTHits).map (flowNode repo)
  let nodes := nodes.map (attachTopics (loadRecentQueries formatG parseFloat s traceIndexCap))
  nodes.insertionSort fun a b => b.updatedAt ≤ a.updatedAt

/-! ### What the index holds -/

theorem mem_indexKeys {topic t key : String} {tmp : String → List String} {keys : List String} :
    t ∈ indexKeys topic tmp keys key ↔ t ∈ tmp key ∨ t = topic ∧ key ∈ keys ∧ contains key ":flow:" = true := by
  unfold indexKeys
  induction keys generalizing tmp with
  | nil => simp
  | cons mk keys ih =>
    rw [List.foldl_cons, ih]
    by_cases hflow : contains mk ":flow:" = true
    · rw [if_pos hflow]
      -- the key is the one that the topic is added to
      by_cases hkey : key = mk
      · subst hkey
        rw [Function.update_self, List.mem_insert_iff]
        simp only [List.mem_cons, true_or, hflow, and_true]
        tauto
      · rw [Function.update_of_ne hkey]
        simp only [List.mem_cons, hkey, false_or]
    · -- a key that is no flow's is passed over
      rw [if_neg hflow]
      have hne : contains key ":flow:" = true → key ≠ mk := fun hk heq => hflow (heq ▸ hk)
      simp only [List.mem_cons]
      tauto

theorem mem_foldl_indexRow {t key : String} {tmp : String → List String} {rows : List QueryRow} :
    t ∈ rows.foldl indexRow tmp key ↔ t ∈ tmp key ∨
      ∃ q ∈ rows, q.topic = some t ∧ key ∈ q.memoryKeys ∧ contains key ":flow:" = true := by
  induction rows generalizing tmp with
  | nil => simp
  | cons q rows ih =>
    have hrow : t ∈ indexRow tmp q key ↔
        t ∈ tmp key ∨ q.topic = some t ∧ key ∈ q.memoryKeys ∧ contains key ":flow:" = true := by
      unfold indexRow
      cases hq : q.topic with
      | none => simp
      | some topic =>
        dsimp only
        rw [mem_indexKeys, Option.some.injEq, eq_comm (a := t)]
    rw [List.foldl_cons, ih, hrow, List.exists_mem_cons_iff, or_assoc]

/-- **The topics of a key** are those of the queries that list it. -/
theorem mem_flowTopicIndex {t key : String} {rows : List QueryRow} :
    t ∈ flowTopicIndex rows key ↔
      ∃ q ∈ rows, q.topic = some t ∧ key ∈ q.memoryKeys ∧ contains key ":flow:" = true := by
  unfold flowTopicIndex
  rw [List.mem_insertionSort, mem_foldl_indexRow]
  simp

theorem contains_lookupKey (repo name : String) : contains (lookupKey repo name) ":flow:" = true := by
  refine decide_eq_true ⟨("mem:" ++ repo).toList, name.toList, ?_⟩
  simp [lookupKey]

/-! ### Retained traces -/

section Retained

variable (encode : List String → String)

/-- The record has the memory keys and the topic that the query was stored with. A patch leaves them. -/
structure StoredAs (q : ServedQuery) (r : TraceRecord) : Prop where
  not_empty : r.fields ≠ []
  same : ∀ name ∈ topicFields, fieldOf r.fields name = fieldOf (traceHashFields encode q) name

/-- **The retained traces**: the recent ids whose record is still there, each with the query it was stored for. -/
structure Retains (s : TraceDb) (qs : List ServedQuery) : Prop where
  nodup : (qs.map (·.queryID)).Nodup
  stored : ∀ q ∈ qs, q.queryID ∈ recentTraceIDs s traceIndexCap ∧
    ∃ r, s.records (traceKey q.queryID) = some r ∧ StoredAs encode q r
  all : ∀ id ∈ recentTraceIDs s traceIndexCap, ∀ r, s.records (traceKey id) = some r →
    ∃ q ∈ qs, q.queryID = id ∧ StoredAs encode q r

variable {encode} (formatG : ℚ → String) (parseFloat : String → ℚ)

theorem traceField_congr {fields fields' : List (String × TraceValue)} {name : String}
    (h : fieldOf fields name = fieldOf fields' name) :
    traceField formatG fields name = traceField formatG fields' name := by
  unfold fieldOf at h
  unfold traceField
  cases hf : fields.find? (·.1 = name) with
  | none =>
    cases hf' : fields'.find? (·.1 = name) with
    | none => rfl
    | some f' => simp [hf, hf'] at h
  | some f =>
    cases hf' : fields'.find? (·.1 = name) with
    | none => simp [hf, hf'] at h
    | some f' =>
      obtain ⟨n, v⟩ := f
      obtain ⟨n', v'⟩ := f'
      obtain rfl : v = v' := by simpa [hf, hf'] using h
      cases v with
      | text value => rfl
      | real value => rfl

/-- The row of a retained trace. -/
theorem StoredAs.row {q : ServedQuery} {r : TraceRecord} (h : StoredAs encode q r) (id : String) :
    (traceFieldsToRow formatG parseFloat id r.fields).topic = topicOf q.topicLabel q.topicID ∧
      (traceFieldsToRow formatG parseFloat id r.fields).memoryKeys = q.memKeys.flatMap splitCSV := by
  have htext : ∀ name ∈ topicFields,
      traceField formatG r.fields name = traceField formatG (traceHashFields encode q) name := fun name hname =>
    traceField_congr formatG (h.same name hname)
  constructor
  · show topicOf (traceField formatG r.fields "topic_label") (traceField formatG r.fields "topic_id") = _
    rw [htext _ (by decide), htext _ (by decide), traceField_topic_label, traceField_topic_id]
  · show splitCSV (traceField formatG r.fields "memory_keys") = _
    rw [htext _ (by decide), traceField_memory_keys, splitCSV_intercalate]

/-- What the index holds for the retained traces. -/
theorem Retains.mem_index {s : TraceDb} {qs : List ServedQuery} (h : Retains encode s qs) {key : String}
    (hkey : contains key ":flow:" = true) {t : String} :
    t ∈ flowTopicIndex (loadRecentQueries formatG parseFloat s traceIndexCap) key ↔
      ∃ q ∈ qs, topicOf q.topicLabel q.topicID = some t ∧ ∃ k ∈ q.memKeys, key ∈ splitCSV k := by
  rw [mem_flowTopicIndex]
  constructor
  · -- a row of the index goes back to a trace, and the trace to a query
    rintro ⟨row, hrow, htopic, hmem, -⟩
    obtain ⟨id, hid, hrow⟩ := List.mem_filterMap.mp hrow
    cases hr : s.records (traceKey id) with
    | none => simp [hr] at hrow
    | some r =>
      rw [hr] at hrow
      dsimp only at hrow
      split_ifs at hrow
      obtain rfl := Option.some.inj hrow
      obtain ⟨q, hq, -, hstored⟩ := h.all id hid r hr
      obtain ⟨htopic', hkeys⟩ := hstored.row formatG parseFloat id
      rw [hkeys] at hmem
      exact ⟨q, hq, htopic'.symm.trans htopic, List.mem_flatMap.mp hmem⟩
  · -- a query's trace is among those that are loaded
    rintro ⟨q, hq, htopic, hmem⟩
    obtain ⟨hid, r, hr, hstored⟩ := h.stored q hq
    obtain ⟨htopic', hkeys⟩ := hstored.row formatG parseFloat q.queryID
    refine ⟨traceFieldsToRow formatG parseFloat q.queryID r.fields, List.mem_filterMap.mpr ⟨q.queryID, hid, ?_⟩,
      htopic'.trans htopic, ?_, hkey⟩
    · rw [hr]
      dsimp only
      rw [if_neg (by simpa using hstored.not_empty)]
    · rw [hkeys]
      exact List.mem_flatMap.mpr hmem

end Retained

/-! ### Listed flows -/

/-- The row of a saved flow: its key, and the fields of its record, in some order of their names. -/
def RowOf (F : Type) (row : String × List Raw) (m : FlowMemory) : Prop :=
  row.1 = flowKey .mem m.repo m.name ∧ ∃ (env : Env F) (old : Hash F) (vec : List F) (names : List String),
    (∀ f, f ∈ names ↔ hsetFields old (m.fields env vec) f ≠ none) ∧
      row.2 = rowFields (hsetFields old (m.fields env vec)) names

/-- **The server lists saved flows**, of the repository when one is given. -/
def ListsFlows (F : Type) (ftList : FtList → Option Raw) (repo : String) (flows : List FlowMemory) : Prop :=
  ∃ rows, ftList (flowCommand repo) = some (reply rows) ∧
    List.Forall₂ (fun row m => RowOf F row m ∧ (repo = "" ∨ m.repo = repo)) rows flows

theorem setHit_rowFields (h : Hash F) {f : String} (hf : f ≠ "embedding") (names : List String) (m : String → String) :
    setHit m (rowFields h names) f = if f ∈ names then h.text f else m f := by
  have hself : ∀ (m : String → String) (t : String), (if f = "embedding" then m else Function.update m f t) f = t := by
    intro m t
    rw [if_neg hf, Function.update_self]
  have hother : ∀ (m : String → String) (n t : String), f ≠ n →
      (if n = "embedding" then m else Function.update m n t) f = m f := by
    intro m n t hn
    split_ifs
    · rfl
    · exact Function.update_of_ne hn _ _
  exact read_rowFields setHit (fun m n t => if n = "embedding" then m else Function.update m n t) (fun m => m f) id
    (fun _ => rfl) (fun _ _ _ _ => rfl) hself hother h names m

/-- A row is read as the flow it is of. -/
theorem RowOf.names {row : String × List Raw} {m : FlowMemory} (h : RowOf F row m) :
    setHit (fun _ => "") row.2 "name" = m.name ∧ setHit (fun _ => "") row.2 "repo" = m.repo := by
  obtain ⟨-, env, old, vec, names, hnames, hrow⟩ := h
  have hnodup : ((m.fields env vec).map Prod.fst).Nodup := (Record.flow m).names_nodup env vec
  have hread : ∀ f value : String, f ≠ "embedding" → (f, .text value) ∈ m.fields env vec →
      setHit (fun _ => "") row.2 f = value := by
    intro f value hf hmem
    have hthere : f ∈ names :=
      (hnames f).mpr ((hsetFields_ne_none_iff old).mpr (.inl (List.mem_map_of_mem (f := Prod.fst) hmem)))
    rw [hrow, setHit_rowFields _ hf, if_pos hthere, text_hsetFields hnodup hmem]
  exact ⟨hread "name" m.name (by decide) (by simp [FlowMemory.fields]),
    hread "repo" m.repo (by decide) (by simp [FlowMemory.fields])⟩

theorem parseFTHits_reply (rows : List (String × List Raw)) :
    parseFTHits (reply rows) = rows.map fun row => setHit (fun _ => "") row.2 :=
  parse_reply rfl (fun _ _ => rfl) rows

/-! ### The join -/

section Join

variable (encode : List String → String) (formatG : ℚ → String) (parseFloat : String → ℚ)

/-- The memory of a flow. -/
def flowMemoryOf (m : FlowMemory) : ReturnedMemory := ⟨m.repo, .flow m.name⟩

theorem flowMemoryOf_key (m : FlowMemory) : (flowMemoryOf m).key .mem = flowKey .mem m.repo m.name := rfl

/-- The traces return memories of `M` only. -/
def DrawnFrom (M : ReturnedMemory → Prop) (qs : List ServedQuery) : Prop :=
  ∀ q ∈ qs, ∀ k ∈ q.memKeys, ∃ x, M x ∧ x.key .mem = k

/-- **The join is exact** for a list of flows: whatever traces of queries that returned memories of `M` are retained,
a flow has a topic if and only if one of them is under this topic and was stored with the key of the flow. -/
def JoinExact (M : ReturnedMemory → Prop) (ftList : FtList → Option Raw) (repo : String) : Prop :=
  ∀ s qs, Retains encode s qs → DrawnFrom M qs → ∀ n ∈ loadFlows formatG parseFloat ftList s repo, ∀ t,
    t ∈ n.topics ↔ ∃ q ∈ qs, topicOf q.topicLabel q.topicID = some t ∧ flowKey .mem n.repo n.name ∈ q.memKeys

/-- The flow is found under its key: nothing in its name is replaced, the key survives the list of a trace, and no key
of another memory falls apart into it. -/
structure Found (M : ReturnedMemory → Prop) (m : FlowMemory) : Prop where
  name_kept : sanitizeKey m.name = m.name
  csv_safe : (flowMemoryOf m).CsvSafe .mem
  alone : ∀ x, M x → flowKey .mem m.repo m.name ∈ splitCSV (x.key .mem) → x.key .mem = flowKey .mem m.repo m.name

variable {encode formatG parseFloat}

theorem lookupKey_eq_iff (repo name : String) : lookupKey repo name = flowKey .mem repo name ↔ sanitizeKey name = name := by
  have hkey : flowKey .mem repo name = "mem:" ++ repo ++ ":flow:" ++ sanitizeKey name := rfl
  rw [hkey, lookupKey, String.append_right_inj, eq_comm]

theorem lookupKey_length (repo name : String) :
    (lookupKey repo name).toList.length = (flowKey .mem repo name).toList.length := by
  have hkey : flowKey .mem repo name = "mem:" ++ repo ++ ":flow:" ++ sanitizeKey name := rfl
  rw [hkey]
  simp [lookupKey, sanitizeKey]

/-- Looked up in the list of a trace with this key only, a flow is found just when its key is what it is looked up
with, and survives the list. -/
theorem lookupKey_mem_splitCSV_iff (m : FlowMemory) :
    lookupKey m.repo m.name ∈ splitCSV (flowKey .mem m.repo m.name) ↔
      sanitizeKey m.name = m.name ∧ (flowMemoryOf m).CsvSafe .mem := by
  rw [← ReturnedMemory.plain_key_iff, flowMemoryOf_key, ← lookupKey_eq_iff m.repo]
  constructor
  · intro hmem
    -- a part that is as long as the text is all of it
    have heq : lookupKey m.repo m.name = flowKey .mem m.repo m.name :=
      String.toList_inj.mp ((isInfix_of_mem_splitCSV hmem).eq_of_length (lookupKey_length _ _))
    exact ⟨heq, plain_of_mem_splitCSV (heq ▸ hmem)⟩
  · rintro ⟨heq, hplain⟩
    rw [heq, splitCSV_of_plain hplain]
    exact List.mem_singleton_self _

variable (formatG parseFloat) in
/-- What the dashboard shows for each listed flow. -/
theorem ListsFlows.shown {ftList : FtList → Option Raw} {repo : String} {flows : List FlowMemory}
    (hlists : ListsFlows F ftList repo flows) (s : TraceDb) :
    ((loadFlows formatG parseFloat ftList s repo).map fun n => (n.repo, n.name, n.topics)).Perm
      (flows.map fun m => (m.repo, m.name,
        flowTopicIndex (loadRecentQueries formatG parseFloat s traceIndexCap) (lookupKey m.repo m.name))) := by
  obtain ⟨rows, hanswer, hrows⟩ := hlists
  unfold loadFlows
  rw [hanswer, Option.elim_some, parseFTHits_reply]
  refine ((List.perm_insertionSort _ _).map _).trans (List.Perm.of_eq ?_)
  simp only [List.map_map]
  rw [← List.forall₂_eq_eq_eq, List.forall₂_map_left_iff, List.forall₂_map_right_iff]
  refine hrows.imp fun row m ⟨hrow, hof⟩ => ?_
  obtain ⟨hname, hrepo⟩ := hrow.names
  -- the repository of the node is that of the record, or the one asked for
  have hnode : (flowNode repo (setHit (fun _ => "") row.2)).repo = m.repo := by
    show (if repo = "" then setHit (fun _ => "") row.2 "repo" else repo) = m.repo
    split_ifs with hall
    · exact hrepo
    · exact (hof.resolve_left hall).symm
  simp only [Function.comp_apply, attachTopics, hnode]
  rw [← hname]
  rfl

/-- A field of a record that is made anew. -/
theorem fieldOf_new {fields : List (String × TraceValue)} (hnodup : (fields.map Prod.fst).Nodup) (name : String) :
    fieldOf (fields.foldl hsetField []) name = fieldOf fields name := by
  by_cases hname : name ∈ fields.map Prod.fst
  · exact fieldOf_foldl_of_nodup hnodup hname []
  · rw [fieldOf_foldl_of_notMem hname]
    unfold fieldOf
    rw [find?_eq_none_of_names (List.Sublist.refl _) hname]
    rfl

theorem hsetField_ne_nil (old : List (String × TraceValue)) (f : String × TraceValue) : hsetField old f ≠ [] := by
  unfold hsetField
  split_ifs with hany
  · obtain ⟨g, hg, -⟩ := List.any_eq_true.mp hany
    exact List.ne_nil_of_mem (List.mem_map_of_mem hg)
  · simp

theorem foldl_hsetField_ne_nil {fields : List (String × TraceValue)} (hne : fields ≠ [])
    (old : List (String × TraceValue)) : fields.foldl hsetField old ≠ [] := by
  have hkeeps : ∀ (fields old : List (String × TraceValue)), old ≠ [] → fields.foldl hsetField old ≠ [] := by
    intro fields
    induction fields with
    | nil => exact fun _ h => h
    | cons f fields ih => exact fun old _ => ih _ (hsetField_ne_nil old f)
  cases fields with
  | nil => exact absurd rfl hne
  | cons f fields => exact hkeeps fields _ (hsetField_ne_nil old f)

theorem traceHashFields_ne_nil (encode : List String → String) (q : ServedQuery) : traceHashFields encode q ≠ [] := by
  simp [traceHashFields]

/-- A trace that is put where there was none. -/
theorem storedAs_new (q : ServedQuery) {r : TraceRecord}
    (hr : r.fields = (traceHashFields encode q).foldl hsetField []) : StoredAs encode q r where
  not_empty := hr ▸ foldl_hsetField_ne_nil (traceHashFields_ne_nil encode q) []
  same name _ := by rw [hr, fieldOf_new (traceHashFields_nodup encode q)]

/-- What `PutTrace` leaves where there was no record. -/
theorem putTrace_new {db : TraceDb} (parseTime : String → Option ℤ) {q : ServedQuery} (hid : q.queryID ≠ "")
    (hmissing : db.records (traceKey q.queryID) = none) :
    ∃ r, (db.putTrace parseTime q.queryID (traceHashFields encode q)).records =
      Function.update db.records (traceKey q.queryID) (some r) ∧ StoredAs encode q r := by
  refine ⟨⟨(traceHashFields encode q).foldl hsetField [], some (db.now + traceTTL)⟩, ?_, ?_⟩
  · rw [db.putTrace_records parseTime hid (traceHashFields_ne_nil encode q), hmissing, Option.getD_none]
  · generalize hfields : (traceHashFields encode q).foldl hsetField [] = fields
    exact storedAs_new q hfields.symm

/-- The one trace of a query that returned some memories. -/
def probe (keys : List String) : ServedQuery := { emptyQuery "q" with memKeys := keys, topicLabel := "topic" }

def probeDb (encode : List String → String) (keys : List String) : TraceDb :=
  (TraceDb.empty 0).putTrace (fun _ => none) (probe keys).queryID (traceHashFields encode (probe keys))

theorem retains_probe (keys : List String) : Retains encode (probeDb encode keys) [probe keys] := by
  have hid : (probe keys).queryID ≠ "" := by
    show "q" ≠ ""
    decide
  have hmissing : (TraceDb.empty 0).records (traceKey (probe keys).queryID) = none := rfl
  -- the trace is the only one in the index
  have hids : recentTraceIDs (probeDb encode keys) traceIndexCap = [(probe keys).queryID] := by
    unfold probeDb recentTraceIDs
    rw [TraceDb.putTrace_index _ _ hid (traceHashFields_ne_nil encode _)]
    simp [TraceDb.empty, traceIndexCap]
  obtain ⟨r, hrecords, hstored⟩ := putTrace_new (fun _ => none) hid hmissing
  have hrecord : (probeDb encode keys).records (traceKey (probe keys).queryID) = some r := by
    rw [probeDb, hrecords, Function.update_self]
  refine ⟨List.nodup_singleton _, fun q hq => ?_, fun id hid r' hr => ?_⟩
  · obtain rfl := List.mem_singleton.mp hq
    rw [hids]
    exact ⟨List.mem_singleton_self _, r, hrecord, hstored⟩
  · rw [hids] at hid
    obtain rfl := List.mem_singleton.mp hid
    obtain rfl := Option.some.inj (hrecord.symm.trans hr)
    exact ⟨probe keys, List.mem_singleton_self _, rfl, hstored⟩

/-- What a flow is shown with when the one retained trace returned the memories of some keys. -/
theorem JoinExact.probe {M : ReturnedMemory → Prop} {ftList : FtList → Option Raw} {repo : String}
    {flows : List FlowMemory} (hexact : JoinExact encode formatG parseFloat M ftList repo)
    (hlists : ListsFlows F ftList repo flows) {m : FlowMemory} (hm : m ∈ flows) {x : ReturnedMemory} (hx : M x) :
    lookupKey m.repo m.name ∈ splitCSV (x.key .mem) ↔ x.key .mem = flowKey .mem m.repo m.name := by
  have hretains : Retains encode (probeDb encode [x.key .mem]) [Dashboard.probe [x.key .mem]] := retains_probe _
  have hdrawn : DrawnFrom M [Dashboard.probe [x.key .mem]] := by
    intro q hq k hk
    obtain rfl := List.mem_singleton.mp hq
    exact ⟨x, hx, (List.mem_singleton.mp hk).symm⟩
  have hshown := (hlists.shown formatG parseFloat (probeDb encode [x.key .mem])).mem_iff.mpr (List.mem_map_of_mem hm)
  obtain ⟨n, hn, heq⟩ := List.mem_map.mp hshown
  simp only [Prod.mk.injEq] at heq
  obtain ⟨hrepo, hname, htopics⟩ := heq
  have hiff := hexact _ _ hretains hdrawn n hn "topic"
  rw [htopics, hretains.mem_index formatG parseFloat (contains_lookupKey _ _), hrepo, hname] at hiff
  have htopic : topicOf (Dashboard.probe [x.key .mem]).topicLabel (Dashboard.probe [x.key .mem]).topicID = some "topic" := rfl
  have hkeys : (Dashboard.probe [x.key .mem]).memKeys = [x.key .mem] := rfl
  simpa [htopic, hkeys, eq_comm] using hiff

variable (encode formatG parseFloat) in
/-- **When the topics of the flows are exact.** `LoadFlows` shows the listed flows, each once. Whatever traces are
retained of queries that returned saved memories, each flow has exactly the topics of the traces that were stored with
its key if and only if each flow is found under its key. -/
theorem flowTopics_exact_iff (M : ReturnedMemory → Prop) {ftList : FtList → Option Raw} {repo : String}
    {flows : List FlowMemory} (hlists : ListsFlows F ftList repo flows) (hsaved : ∀ m ∈ flows, M (flowMemoryOf m)) :
    (∀ s, ((loadFlows formatG parseFloat ftList s repo).map fun n => (n.repo, n.name)).Perm
      (flows.map fun m => (m.repo, m.name))) ∧
    (JoinExact encode formatG parseFloat M ftList repo ↔ ∀ m ∈ flows, Found M m) := by
  refine ⟨fun s => ?_, fun hexact m hm => ?_, fun hfound s qs hretains hdrawn n hn t => ?_⟩
  · have hnames := (hlists.shown formatG parseFloat s).map fun x => (x.1, x.2.1)
    simpa only [List.map_map, Function.comp_def] using hnames
  · obtain ⟨hname, hsafe⟩ := (lookupKey_mem_splitCSV_iff m).mp ((hexact.probe hlists hm (hsaved m hm)).mpr rfl)
    refine ⟨hname, hsafe, fun x hx hmem => (hexact.probe hlists hm hx).mp ?_⟩
    rwa [(lookupKey_eq_iff m.repo m.name).mpr hname]
  · -- the node is that of a listed flow
    have hshown := (hlists.shown formatG parseFloat s).mem_iff.mp (List.mem_map_of_mem hn)
    obtain ⟨m, hm, heq⟩ := List.mem_map.mp hshown
    simp only [Prod.mk.injEq] at heq
    obtain ⟨hrepo, hname, htopics⟩ := heq
    obtain ⟨hkept, hsafe, halone⟩ := hfound m hm
    have hplain : Plain (flowKey .mem m.repo m.name) := ((flowMemoryOf m).plain_key_iff .mem).mpr hsafe
    rw [← htopics, hretains.mem_index formatG parseFloat (contains_lookupKey _ _), ← hrepo, ← hname,
      (lookupKey_eq_iff m.repo m.name).mpr hkept]
    refine exists_congr fun q => and_congr_right fun hq => and_congr_right fun _ => ⟨?_, fun hmem => ?_⟩
    · rintro ⟨k, hk, hmem⟩
      obtain ⟨x, hx, rfl⟩ := hdrawn q hq k hk
      exact halone x hx hmem ▸ hk
    · exact ⟨_, hmem, by rw [splitCSV_of_plain hplain]; exact List.mem_singleton_self _⟩

end Join

/-! ### The traces of a run -/

section Reached

variable (parseTime : String → Option ℤ) (encode : List String → String)

/-- The condition on an event: a query is put under an id of its own, and a patch finds its trace. -/
def Proper (s : Traced) : TraceEvent → Prop
  | .put q => q.queryID ≠ "" ∧ s.db.records (traceKey q.queryID) = none
  | e => PatchesStored s e

/-- Every record is that of a query, and every id is once in the index. -/
structure Kept (s : Traced) : Prop where
  stored : ∀ id r, s.db.records (traceKey id) = some r → ∃ q, q.queryID = id ∧ StoredAs encode q r
  nodup : (s.db.index.map Prod.snd).Nodup

variable {encode}

/-- A patch with fields of its own leaves what a record was stored as. -/
theorem StoredAs.patch {q : ServedQuery} {r : TraceRecord} (h : StoredAs encode q r)
    {fields : List (String × TraceValue)} (hf : fields ≠ []) (hname : ∀ name ∈ topicFields, name ∉ fields.map Prod.fst) :
    StoredAs encode q { r with fields := fields.foldl hsetField r.fields } where
  not_empty := foldl_hsetField_ne_nil hf r.fields
  same name hmem := (fieldOf_foldl_of_notMem (hname name hmem) r.fields).trans (h.same name hmem)

theorem Kept.patch {s : Traced} (hs : Kept encode s) {queryID : String} {fields : List (String × TraceValue)}
    (hf : fields ≠ []) (hname : ∀ name ∈ topicFields, name ∉ fields.map Prod.fst)
    (hfinds : queryID = "" ∨ (s.db.records (traceKey queryID)).isSome = true) : Kept encode (s.patch queryID fields) := by
  unfold Traced.patch TraceDb.patchTrace
  by_cases hq : queryID = ""
  · rw [if_pos (by simp [hq])]
    exact hs
  rw [if_neg (by simp [hq, hf])]
  refine ⟨fun id r hr => ?_, hs.nodup⟩
  -- the trace that is patched is there, so the patch makes no new one
  obtain ⟨old, hold⟩ := Option.isSome_iff_exists.mp (hfinds.resolve_left hq)
  unfold TraceDb.hset at hr
  rw [hold] at hr
  dsimp only [Option.getD_some] at hr
  by_cases hkey : traceKey id = traceKey queryID
  · rw [hkey, Function.update_self] at hr
    obtain rfl := Option.some.inj hr
    obtain ⟨q, hid, hstored⟩ := hs.stored id old (hkey ▸ hold)
    exact ⟨q, hid, hstored.patch hf hname⟩
  · rw [Function.update_of_ne hkey] at hr
    exact hs.stored id r hr

theorem Kept.put {s : Traced} (hs : Kept encode s) {q : ServedQuery} (hid : q.queryID ≠ "")
    (hmissing : s.db.records (traceKey q.queryID) = none) :
    Kept encode (s.put parseTime q.queryID (traceHashFields encode q)) := by
  obtain ⟨r, hrecords, hstored⟩ := putTrace_new parseTime hid hmissing
  refine ⟨fun id r' (hr : (s.db.putTrace _ _ _).records _ = _) => ?_, ?_⟩
  · rw [hrecords] at hr
    by_cases hkey : traceKey id = traceKey q.queryID
    · rw [hkey, Function.update_self] at hr
      obtain rfl := Option.some.inj hr
      exact ⟨q, (traceKey_inj.mp hkey).symm, hstored⟩
    · rw [Function.update_of_ne hkey] at hr
      exact hs.stored id r' hr
  · -- an id that is already in the index moves to its new place
    show ((s.db.putTrace _ _ _).index.map Prod.snd).Nodup
    rw [TraceDb.putTrace_index parseTime _ hid (traceHashFields_ne_nil encode q)]
    refine List.Nodup.sublist ((List.drop_sublist _ _).map _) ?_
    rw [((List.perm_orderedInsert indexLe _ _).map Prod.snd).nodup_iff, List.map_cons, List.nodup_cons]
    refine ⟨fun hmem => ?_, hs.nodup.sublist (List.filter_sublist.map _)⟩
    obtain ⟨p, hp, hid'⟩ := List.mem_map.mp hmem
    exact absurd hid' (of_decide_eq_true (List.mem_filter.mp hp).2)

/-- A patch names none of the fields that the join is about. -/
theorem patch_spares_topicFields {name : String} (hname : name ∈ topicFields) :
    (∀ input raw adjusted now, name ∉ (feedbackPatch input raw adjusted now).map Prod.fst) ∧
      ∀ raw adjusted now, name ∉ (repeatPatch raw adjusted now).map Prod.fst := by
  have hnone : ∀ n ∈ topicFields, n ∉ patchFields := by decide
  exact patch_spares (hnone name hname)

theorem Kept.apply {s : Traced} (hs : Kept encode s) {e : TraceEvent} (he : Proper s e) :
    Kept encode (e.apply parseTime encode s) := by
  cases e with
  | put q => exact hs.put parseTime he.1 he.2
  | feedback queryID input raw adjusted now =>
    exact hs.patch (by simp [feedbackPatch]) (fun _ hname => (patch_spares_topicFields hname).1 input raw adjusted now) he
  | repeated prevQueryID raw adjusted now =>
    exact hs.patch (by simp [repeatPatch]) (fun _ hname => (patch_spares_topicFields hname).2 raw adjusted now) he
  | wait ms => exact ⟨fun id r hr => hs.stored id r (Option.filter_eq_some_iff.mp hr).1, hs.nodup⟩

/-- The queries of some ids that have a record. -/
theorem Kept.exists_queries {s : Traced} (hs : Kept encode s) {ids : List String} (hnodup : ids.Nodup) :
    ∃ qs : List ServedQuery, (qs.map (·.queryID)).Nodup ∧
      (∀ q ∈ qs, q.queryID ∈ ids ∧ ∃ r, s.db.records (traceKey q.queryID) = some r ∧ StoredAs encode q r) ∧
      ∀ id ∈ ids, ∀ r, s.db.records (traceKey id) = some r → ∃ q ∈ qs, q.queryID = id ∧ StoredAs encode q r := by
  induction ids with
  | nil => exact ⟨[], List.nodup_nil, fun _ h => absurd h List.not_mem_nil, fun _ h => absurd h List.not_mem_nil⟩
  | cons id ids ih =>
    obtain ⟨hid, hids⟩ := List.nodup_cons.mp hnodup
    obtain ⟨qs, hqs, hstored, hall⟩ := ih hids
    have hlater : ∀ q ∈ qs, q.queryID ∈ id :: ids ∧
        ∃ r, s.db.records (traceKey q.queryID) = some r ∧ StoredAs encode q r := fun q hq =>
      ⟨List.mem_cons_of_mem id (hstored q hq).1, (hstored q hq).2⟩
    cases hr : s.db.records (traceKey id) with
    | none =>
      -- its record has expired
      refine ⟨qs, hqs, hlater, List.forall_mem_cons.mpr ⟨fun r' hr' => ?_, hall⟩⟩
      rw [hr] at hr'
      cases hr'
    | some r =>
      obtain ⟨q, hqid, hq⟩ := hs.stored id r hr
      have hnew : q.queryID ∉ qs.map (·.queryID) := by
        intro hmem
        obtain ⟨q', hq', heq⟩ := List.mem_map.mp hmem
        have hold := (hstored q' hq').1
        rw [heq, hqid] at hold
        exact hid hold
      refine ⟨q :: qs, List.nodup_cons.mpr ⟨hnew, hqs⟩, List.forall_mem_cons.mpr ⟨⟨?_, r, hqid ▸ hr, hq⟩, hlater⟩,
        List.forall_mem_cons.mpr ⟨fun r' hr' => ?_, fun id' hid' r' hr' => ?_⟩⟩
      · rw [hqid]
        exact List.mem_cons_self
      · rw [hr] at hr'
        obtain rfl := Option.some.inj hr'
        exact ⟨q, List.mem_cons_self, hqid, hq⟩
      · obtain ⟨q', hq', h⟩ := hall id' hid' r' hr'
        exact ⟨q', List.mem_cons_of_mem q hq', h⟩

/-- **A run retains queries**: after any run that puts each query under an id of its own and patches traces that are
there, the recent traces are those of some queries. -/
theorem retains_run {s : Traced} (hs : Kept encode s) {events : List TraceEvent}
    (hproper : (traceRuns parseTime encode).Along Proper s events) {t : Traced}
    (hrun : (traceRuns parseTime encode).exec s events = some t) : ∃ qs, Retains encode t.db qs := by
  have hstep : ∀ s e s', Kept encode s → Proper s e → (traceRuns parseTime encode).step s e = some s' →
      Kept encode s' := by
    intro s e s' hs he hs'
    obtain rfl := Option.some.inj hs'
    exact hs.apply parseTime he
  have hkept : Kept encode t := Machine.invariant hstep hs hproper hrun
  have hnodup : (recentTraceIDs t.db traceIndexCap).Nodup :=
    (List.nodup_reverse.mpr hkept.nodup).sublist (List.take_sublist _ _)
  obtain ⟨qs, hqs, hstored, hall⟩ := hkept.exists_queries hnodup
  exact ⟨qs, hqs, hstored, hall⟩

theorem kept_empty (now : ℤ) : Kept encode ⟨.empty now, fun _ => none⟩ := ⟨nofun, List.nodup_nil⟩

end Reached

/-! ### One flow -/

/-- A flow of the repo `r`. -/
def flowNamed (name : String) : FlowMemory where
  repo := "r"
  name
  purpose := ""
  files := ""
  entryPoints := ""
  source := ""
  scope := ""
  queryID := ""
  subgraphJSON := ""

/-- A server that lists one flow. -/
def listOne (m : FlowMemory) (_ : FtList) : Option Raw :=
  some (reply [(flowKey .mem m.repo m.name, rowFields (hsetFields (fun _ => none) (m.fields Env.still []))
    ((m.fields Env.still []).map Prod.fst))])

theorem listsFlows_listOne (m : FlowMemory) : ListsFlows ℕ (listOne m) "" [m] := by
  refine ⟨_, rfl, .cons ⟨⟨rfl, Env.still, fun _ => none, [], _, fun f => ?_, rfl⟩, .inl rfl⟩ .nil⟩
  rw [hsetFields_ne_none_iff]
  exact (or_iff_left fun h => h rfl).symm

/-- A flow whose name is one word is joined exactly. -/
theorem flowTopics_exact_login : JoinExact (fun _ => "[]") (fun _ => "") (fun _ => 0)
    (fun x => x = flowMemoryOf (flowNamed "login")) (listOne (flowNamed "login")) "" := by
  refine (flowTopics_exact_iff (fun _ => "[]") (fun _ => "") (fun _ => 0)
    (fun x => x = flowMemoryOf (flowNamed "login")) (listsFlows_listOne (flowNamed "login"))
    (List.forall_mem_singleton.mpr rfl)).2.mpr (List.forall_mem_singleton.mpr ⟨by decide +kernel, ?_, ?_⟩)
  · refine ⟨by decide, fun c hc => ?_, by decide, by decide, fun c hc => .inl ?_⟩
    · obtain rfl : 'm' = c := Option.some.inj hc
      decide
    · obtain rfl : 'n' = c := Option.some.inj hc
      decide
  · rintro x rfl -
    rfl

/-- **A blank in the name**: the flow is stored under `mem:r:flow:login_flow`, a retained trace under a topic was stored
with this key, and the flow is shown without a topic. -/
theorem blank_flow_without_topic : ∃ s q, Retains (fun _ => "[]") s [q] ∧
    topicOf q.topicLabel q.topicID = some "topic" ∧ flowKey .mem "r" "login flow" ∈ q.memKeys ∧
    (loadFlows (fun _ => "") (fun _ => 0) (listOne (flowNamed "login flow")) s "").map
      (fun n => (n.repo, n.name, n.topics)) = [("r", "login flow", [])] := by
  have hretains : Retains (fun _ => "[]") (probeDb (fun _ => "[]") [flowKey .mem "r" "login flow"])
      [probe [flowKey .mem "r" "login flow"]] := retains_probe _
  refine ⟨_, _, hretains, rfl, List.mem_singleton_self _, ?_⟩
  have hnone : flowTopicIndex (loadRecentQueries (fun _ => "") (fun _ => 0)
      (probeDb (fun _ => "[]") [flowKey .mem "r" "login flow"]) traceIndexCap) (lookupKey "r" "login flow") = [] := by
    rw [List.eq_nil_iff_forall_not_mem]
    intro t ht
    obtain ⟨q, hq, -, k, hk, hmem⟩ := (hretains.mem_index _ _ (contains_lookupKey _ _)).mp ht
    obtain rfl := List.mem_singleton.mp hq
    obtain rfl := List.mem_singleton.mp hk
    -- the name that was looked up has its blank
    have hkept := ((lookupKey_mem_splitCSV_iff (flowNamed "login flow")).mp hmem).1
    exact absurd hkept (by decide +kernel)
  have hshown := (listsFlows_listOne (flowNamed "login flow")).shown (fun _ => "") (fun _ => 0)
    (probeDb (fun _ => "[]") [flowKey .mem "r" "login flow"])
  rw [List.perm_singleton.mp hshown]
  exact congrArg (fun topics => [("r", "login flow", topics)]) hnone

end Devrouter.Dashboard
