import Devrouter.Mcp.Server
import Devrouter.Memory.AutoSave
import Devrouter.Memory.Conflicts

/-!
# The tools that save

Model of `memory_save_file`, `memory_save_func`, `memory_save_flow` and `decision_save`, from their schema and their
arguments in `internal/mcp/server.go` over `SaveFileMemory`, `SaveFuncMemory`, `SaveFlowMemory` and
`SaveDecisionMemory` in `internal/router/router.go` to the hashes that the store writes. What git, the code graph and
the trace store answer is a parameter; the reward of the anchor learner, which follows a save, writes no memory and is
left out.

An argument takes the way schema, struct, parameter, record, field. `saved_iff` says when a call that succeeds has
stored what it was given: `key_symbols` and `decision_scope` are lost on the way, and an empty `query_id` leaves the one
that was there.
-/

open Prog

namespace Devrouter.Mcp

open Json Memory

variable {F S : Type}

inductive SaveTool where
  | file | func | flow | decision
  deriving DecidableEq, Repr

namespace SaveTool

/-- The tool as the server tells them apart. -/
def tool : SaveTool → Mcp.Tool
  | .file => .memorySaveFile
  | .func => .memorySaveFunc
  | .flow => .memorySaveFlow
  | .decision => .decisionSave

/-- The properties of the `inputSchema`. All are strings. -/
def schema : SaveTool → List String
  | .file => ["repo", "path", "purpose", "key_symbols", "scope"]
  | .func => ["repo", "name", "file", "purpose", "callers", "callees", "scope"]
  | .flow => ["repo", "name", "purpose", "files", "entry_points", "query_id", "scope"]
  | .decision => ["repo", "name", "decision_type", "decision", "rationale", "alternatives", "constraint",
      "decision_scope", "files", "scope"]

/-- The fields of the struct that the arguments are decoded into, by their tags. -/
def fields : SaveTool → List String
  | .file => ["repo", "path", "purpose", "scope"]
  | .func => ["repo", "name", "file", "purpose", "callers", "callees", "scope"]
  | .flow => ["repo", "name", "purpose", "files", "entry_points", "query_id", "scope"]
  | .decision => ["repo", "name", "decision_type", "decision", "rationale", "alternatives", "constraint",
      "decision_scope", "files", "scope"]

end SaveTool

/-! ### Decoding -/

/-- What a member does to a struct of strings; none when its value does not fit the field. -/
def setString (fields : List String) (v : String → String) (m : Member) : Option (String → String) :=
  match fields.find? (isField · m.key) with
  | none => some v
  | some f => (intoString (v f) m.value).map (Function.update v f)

/-- `json.Unmarshal` into a struct of strings; none when it fails. -/
def unmarshalStrings (fields : List String) (arguments : Bytes) : Option (String → String) := do
  let value ← wholeValue arguments
  if isNull value then return fun _ => ""
  let members ← membersOf value
  members.foldlM (setString fields) fun _ => ""

/-! ### The methods of the router -/

/-- What is around a save: the store, what other programs answer, and the texts of their errors. -/
structure Surroundings (F S : Type) where
  env : Env F
  keyspace : Keyspace
  repoPath : String → String
  /-- The scopes that git suggests, for a path or a list of paths. -/
  scopeForFile : String → String → String
  scopeForFiles : String → String → String
  scopeForDecision : String → String → String
  /-- The snapshot of a flow: by its repository, entry points and name, and the query whose plan filters it. -/
  snapshot : String → String → String → String → String
  /-- The list of the decisions, by what the server holds. -/
  ftList : Server F → FtList → Option Raw
  parseFloat : String → S
  lower : RuneLower
  isPrint : Char → Bool
  argumentsError : Bytes → String
  storeError : SaveErr → String

/-- The error of a save: a text of the router, or one of the store's. -/
inductive SaveFailure where
  | required (text : String)
  | store (e : SaveErr)
  deriving DecidableEq, Repr

section Router

variable (R : Surroundings F S)

/-- The scope that is stored. -/
def scopeOr (scope suggested : String) : String := if scope = "" then suggested else scope

/-- The run of a save of the store. -/
def runSave (m : Record) (s : Server F) : Option SaveFailure × Server F :=
  let (err, s') := (m.save R.env R.keyspace).run s
  (err.map .store, s')

/-- The memories that are saved. -/
def agentFile (repo path purpose scope : String) : FileMemory where
  repo := repo
  path := path
  purpose := purpose
  keySymbols := ""
  source := "agent"
  scope := scopeOr scope (R.scopeForFile (R.repoPath repo) path)
  repoPath := R.repoPath repo

def agentFunc (repo name file purpose callers callees scope : String) : FuncMemory where
  repo := repo
  name := name
  qualifiedName := ""
  file := file
  purpose := purpose
  callers := callers
  callees := callees
  source := "agent"
  scope := scopeOr scope (R.scopeForFile (R.repoPath repo) file)
  repoPath := R.repoPath repo

def agentFlow (repo name purpose files entryPoints scope queryID : String) : FlowMemory where
  repo := repo
  name := name
  purpose := purpose
  files := files
  entryPoints := entryPoints
  source := "agent"
  scope := scopeOr scope (R.scopeForFiles (R.repoPath repo) files)
  queryID := queryID
  subgraphJSON := R.snapshot repo entryPoints name queryID

def saveFileMemory (repo path purpose scope : String) (s : Server F) : Option SaveFailure × Server F :=
  if repo = "" ∨ path = "" ∨ purpose = "" then (some (.required "repo, path, and purpose are required"), s)
  else runSave R (.file (agentFile R repo path purpose scope)) s

def saveFuncMemory (repo name file purpose callers callees scope : String) (s : Server F) :
    Option SaveFailure × Server F :=
  if repo = "" ∨ name = "" ∨ purpose = "" then (some (.required "repo, name, and purpose are required"), s)
  else runSave R (.func (agentFunc R repo name file purpose callers callees scope)) s

def saveFlowMemory (repo name purpose files entryPoints scope queryID : String) (s : Server F) :
    Option SaveFailure × Server F :=
  if repo = "" ∨ name = "" ∨ purpose = "" then (some (.required "repo, name, and purpose are required"), s)
  else runSave R (.flow (agentFlow R repo name purpose files entryPoints scope queryID)) s

variable [Zero S]

/-- `SaveDecisionMemory`, with the warnings. -/
def saveDecisionTool (a : DecisionArgs) (s : Server F) : (List String × Option SaveFailure) × Server F :=
  if a.Complete then
    let ((warnings, err), s') := saveDecisionWarned R.parseFloat R.ftList R.lower R.isPrint R.env R.keyspace
      (a.memory fun repo files => R.scopeForDecision (R.repoPath repo) files) s
    ((warnings, err.map .store), s')
  else (([], some (.required "repo, name, decision_type, decision, and rationale are required")), s)

/-! ### The cases of the server -/

/-- The text of a saved decision. -/
def decisionText (isPrint : Char → Bool) (name decisionType : String) (warnings : List String) : String :=
  "Saved decision " ++ quote isPrint name ++ " (type=" ++ decisionType ++ ")" ++
    if warnings.isEmpty then "" else "\n\nWARNINGS:\n" ++ "\n".intercalate warnings

/-- The save with the decoded arguments: its error, the text of the result, and the server afterwards. -/
def SaveTool.save (v : String → String) (s : Server F) : SaveTool → Option SaveFailure × String × Server F
  | .file =>
    let (err, s') := saveFileMemory R (v "repo") (v "path") (v "purpose") (v "scope") s
    (err, "Saved file memory for " ++ v "path", s')
  | .func =>
    let (err, s') := saveFuncMemory R (v "repo") (v "name") (v "file") (v "purpose") (v "callers") (v "callees")
      (v "scope") s
    (err, "Saved func memory for " ++ v "name", s')
  | .flow =>
    let (err, s') := saveFlowMemory R (v "repo") (v "name") (v "purpose") (v "files") (v "entry_points") (v "scope")
      (v "query_id") s
    (err, "Saved flow memory for " ++ v "name", s')
  | .decision =>
    let ((warnings, err), s') := saveDecisionTool R {
      repo := v "repo"
      name := v "name"
      decisionType := v "decision_type"
      decision := v "decision"
      rationale := v "rationale"
      alternatives := v "alternatives"
      constraint := v "constraint"
      decisionScope := v "decision_scope"
      files := v "files"
      scope := v "scope" } s
    (err, decisionText R.isPrint (v "name") (v "decision_type") warnings, s')

def SaveFailure.text : SaveFailure → String
  | .required text => text
  | .store e => R.storeError e

/-- The case of the tool in `handleToolCall`. -/
def SaveTool.handle (tool : SaveTool) (req : JsonRPCRequest) (arguments : Bytes) (s : Server F) :
    JsonRPCResponse × Server F :=
  match unmarshalStrings tool.fields arguments with
  | none => (errResp req.id (-32602) ("invalid arguments: " ++ R.argumentsError arguments), s)
  | some v =>
    match tool.save R v s with
    | (some e, _, s') => (errResp req.id (-32000) (e.text R), s')
    | (none, text, s') => (success req.id (.content text), s')

end Router

/-! ### What is supplied -/

/-- A member whose value is a string: its name and its value. -/
def stringMember (m : Member) : Option (String × String) :=
  match m.value with
  | [] => none
  | b :: rest => if b = byte '"' then some (unquote m.key, unquote rest) else none

/-- The arguments of a call, when they are an object of strings. -/
def suppliedArguments (arguments : Bytes) : Option (List (String × String)) := do
  let value ← wholeValue arguments
  let members ← membersOf value
  members.mapM stringMember

/-- **A choice of the advertised arguments**: an object of strings with different names that the schema lists. -/
structure Advertised (tool : SaveTool) (arguments : Bytes) (args : List (String × String)) : Prop where
  supplied : suppliedArguments arguments = some args
  known : ∀ p ∈ args, p.1 ∈ tool.schema
  nodup : (args.map Prod.fst).Nodup

/-- The value of an argument; empty when it is not supplied. -/
def valueOf (args : List (String × String)) (name : String) : String := (args.lookup name).getD ""

theorem valueOf_of_mem {args : List (String × String)} (hnodup : (args.map Prod.fst).Nodup) {p : String × String}
    (hp : p ∈ args) : valueOf args p.1 = p.2 := by
  induction args with
  | nil => exact absurd hp List.not_mem_nil
  | cons q args ih =>
    rw [List.map_cons, List.nodup_cons] at hnodup
    unfold valueOf
    rcases List.mem_cons.mp hp with rfl | hp
    · rw [List.lookup_cons_self, Option.getD_some]
    · have hne : p.1 ≠ q.1 := fun heq => hnodup.1 (heq ▸ List.mem_map_of_mem hp)
      rw [List.lookup_cons, beq_false_of_ne hne]
      exact ih hnodup.2 hp

/-! ### What is decoded -/

/-- No two fields have the same name but for its case, so an argument finds its own field. -/
theorem find?_fields (tool : SaveTool) {n : String} (hn : n ∈ tool.schema) {key : Bytes} (hkey : unquote key = n) :
    tool.fields.find? (isField · key) = if n ∈ tool.fields then some n else none := by
  have hall : ∀ tool : SaveTool, ∀ n ∈ tool.schema, tool.fields.find? (fun f =>
      decide (n.toList.map foldRune = f.toList.map foldRune)) = if n ∈ tool.fields then some n else none := by
    intro tool
    cases tool <;> decide +kernel
  subst hkey
  exact hall tool _ hn

/-- A string argument sets its field, if there is one. -/
theorem setString_of_stringMember (tool : SaveTool) {m : Member} {p : String × String} (hm : stringMember m = some p)
    (hp : p.1 ∈ tool.schema) (v : String → String) :
    setString tool.fields v m = some (if p.1 ∈ tool.fields then Function.update v p.1 p.2 else v) := by
  unfold stringMember at hm
  cases hvalue : m.value with
  | nil =>
    rw [hvalue] at hm
    cases hm
  | cons b rest =>
    rw [hvalue] at hm
    dsimp only at hm
    split_ifs at hm with hb
    obtain rfl := Option.some.inj hm
    -- the member is a string, and is read as one
    have hinto : ∀ old, intoString old m.value = some (unquote rest) := by
      intro old
      rw [hvalue]
      exact if_pos hb
    unfold setString
    rw [find?_fields tool hp rfl]
    -- a member that is no parameter of the handler is dropped
    by_cases hfield : unquote m.key ∈ tool.fields
    · rw [if_pos hfield, if_pos hfield]
      dsimp only
      rw [hinto, Option.map_some]
    · rw [if_neg hfield, if_neg hfield]

/-- The fields after a run over the members: an argument that is there is the value of its field. -/
theorem foldlM_setString (tool : SaveTool) {members : List Member} {args : List (String × String)}
    (hargs : members.mapM stringMember = some args) (hknown : ∀ p ∈ args, p.1 ∈ tool.schema)
    (hnodup : (args.map Prod.fst).Nodup) (v : String → String) :
    ∃ w, members.foldlM (setString tool.fields) v = some w ∧
      ∀ f ∈ tool.fields, w f = (args.lookup f).getD (v f) := by
  induction members generalizing args v with
  | nil =>
    obtain rfl : [] = args := Option.some.inj hargs
    exact ⟨v, rfl, fun f _ => rfl⟩
  | cons m members ih =>
    rw [List.mapM_cons] at hargs
    obtain ⟨p, hm, hargs⟩ := Option.bind_eq_some_iff.mp hargs
    obtain ⟨rest, hrest, heq⟩ := Option.bind_eq_some_iff.mp hargs
    obtain rfl : p :: rest = args := Option.some.inj heq
    rw [List.map_cons, List.nodup_cons] at hnodup
    obtain ⟨w, hw, hfields⟩ := ih hrest (fun q hq => hknown q (List.mem_cons_of_mem p hq)) hnodup.2
      (if p.1 ∈ tool.fields then Function.update v p.1 p.2 else v)
    refine ⟨w, ?_, fun f hf => ?_⟩
    · rw [List.foldlM_cons, setString_of_stringMember tool hm (hknown p List.mem_cons_self)]
      exact hw
    · rw [hfields f hf, List.lookup_cons]
      by_cases hfp : f = p.1
      · subst hfp
        -- the name comes once, so no later member sets the field
        have hnone : rest.lookup p.1 = none := by
          rw [List.lookup_eq_none_iff]
          intro q hq
          refine bne_iff_ne.mpr fun (heq : p.1 = q.1) => hnodup.1 ?_
          rw [heq]
          exact List.mem_map_of_mem hq
        rw [hnone, beq_self_eq_true, Option.getD_none, if_pos hf, Function.update_self]
        rfl
      · rw [beq_false_of_ne hfp]
        split_ifs
        · rw [Function.update_of_ne hfp]
        · rfl

/-- **The struct holds what is supplied**, in all its fields. -/
theorem Advertised.decoded {tool : SaveTool} {arguments : Bytes} {args : List (String × String)}
    (h : Advertised tool arguments args) :
    ∃ v, unmarshalStrings tool.fields arguments = some v ∧ ∀ f ∈ tool.fields, v f = valueOf args f := by
  obtain ⟨value, hvalue, hrest⟩ := Option.bind_eq_some_iff.mp h.supplied
  obtain ⟨members, hmembers, hargs⟩ := Option.bind_eq_some_iff.mp hrest
  obtain ⟨v, hv, hfields⟩ := foldlM_setString tool hargs h.known h.nodup fun _ => ""
  have hnull : ¬ isNull value = true := by
    intro hnull
    obtain rfl := of_decide_eq_true hnull
    have hnone : membersOf (bytes "null") = none := by decide +kernel
    rw [hnone] at hmembers
    cases hmembers
  refine ⟨v, ?_, hfields⟩
  unfold unmarshalStrings
  rw [hvalue]
  show (if isNull value then _ else _) = _
  rw [if_neg hnull, hmembers]
  exact hv

/-! ### What is stored -/

/-- The hash at a key; empty when there is none. -/
def recordAt (s : Server F) (key : String) : Hash F := (s.hashAt key).getD fun _ => none

/-- A write without an error, on the hash that was there. -/
theorem recordAt_embedAndWrite {env : Env F} {key text : String} {fields : List F → List (String × Value F)}
    {s : Server F} (hok : ((embedAndWrite env key text fields).run s).1 = none) :
    ∃ vec, recordAt ((embedAndWrite env key text fields).run s).2 key = hsetFields (recordAt s key) (fields vec) := by
  obtain ⟨h, vec, hat, -, hput⟩ := embedAndWrite_ok hok
  refine ⟨vec, ?_⟩
  unfold recordAt
  rw [hput, hat, Server.hashAt_putHash_self, Option.getD_some, Option.getD_some]

section Stored

variable (R : Surroundings F S) {s : Server F}

theorem recordAt_runSave {m : Record} (hsource : m.source ≠ "auto") (hok : (runSave R m s).1 = none) :
    ∃ vec, recordAt (runSave R m s).2 (m.key R.keyspace)
      = hsetFields (recordAt s (m.key R.keyspace)) (m.fields R.env vec) := by
  unfold runSave at hok ⊢
  rw [m.save_of_not_auto R.env R.keyspace hsource] at hok ⊢
  exact recordAt_embedAndWrite (Option.map_eq_none_iff.mp hok)

/-- A field of the record is what it was set to. -/
theorem text_runSave {m : Record} (hsource : m.source ≠ "auto") (hok : (runSave R m s).1 = none) {name value : String}
    (hmem : ∀ vec, (name, .text value) ∈ m.fields R.env vec) :
    (recordAt (runSave R m s).2 (m.key R.keyspace)).text name = value := by
  obtain ⟨vec, hrecord⟩ := recordAt_runSave R hsource hok
  rw [hrecord]
  exact text_hsetFields (m.names_nodup R.env vec) (hmem vec) _

theorem agent_ne_auto : sourceOr "agent" ≠ "auto" := by decide

/-- What a saved file memory holds; its key symbols are empty. -/
theorem file_stored {repo path purpose scope : String} (hok : (saveFileMemory R repo path purpose scope s).1 = none) :
    ∀ p ∈ [("repo", repo), ("path", path), ("purpose", purpose), ("key_symbols", "")],
      (recordAt (saveFileMemory R repo path purpose scope s).2 (fileKey R.keyspace repo path)).text p.1 = p.2 := by
  unfold saveFileMemory at hok ⊢
  split_ifs at hok ⊢
  intro p hp
  refine text_runSave R (m := .file (agentFile R repo path purpose scope)) agent_ne_auto hok fun vec => ?_
  simp only [List.mem_cons, List.not_mem_nil, or_false] at hp
  rcases hp with rfl | rfl | rfl | rfl <;> simp [Record.fields, FileMemory.fields, agentFile]

/-- What a saved function memory holds. -/
theorem func_stored {repo name file purpose callers callees scope : String}
    (hok : (saveFuncMemory R repo name file purpose callers callees scope s).1 = none) :
    ∀ p ∈ [("repo", repo), ("name", name), ("file", file), ("purpose", purpose), ("callers", callers),
        ("callees", callees)],
      (recordAt (saveFuncMemory R repo name file purpose callers callees scope s).2
        (funcKey R.keyspace repo (qualifiedNameOf "" file name))).text p.1 = p.2 := by
  unfold saveFuncMemory at hok ⊢
  split_ifs at hok ⊢
  intro p hp
  refine text_runSave R (m := .func (agentFunc R repo name file purpose callers callees scope)) agent_ne_auto hok
    fun vec => ?_
  simp only [List.mem_cons, List.not_mem_nil, or_false] at hp
  rcases hp with rfl | rfl | rfl | rfl | rfl | rfl <;> simp [Record.fields, FuncMemory.fields, agentFunc]

/-- What a saved flow memory holds. -/
theorem flow_stored {repo name purpose files entryPoints scope queryID : String}
    (hok : (saveFlowMemory R repo name purpose files entryPoints scope queryID s).1 = none) :
    ∀ p ∈ [("repo", repo), ("name", name), ("purpose", purpose), ("files", files), ("entry_points", entryPoints)],
      (recordAt (saveFlowMemory R repo name purpose files entryPoints scope queryID s).2
        (flowKey R.keyspace repo name)).text p.1 = p.2 := by
  unfold saveFlowMemory at hok ⊢
  split_ifs at hok ⊢
  intro p hp
  refine text_runSave R (m := .flow (agentFlow R repo name purpose files entryPoints scope queryID)) agent_ne_auto hok
    fun vec => ?_
  simp only [List.mem_cons, List.not_mem_nil, or_false] at hp
  rcases hp with rfl | rfl | rfl | rfl | rfl <;> simp [Record.fields, FlowMemory.fields, agentFlow]

/-- Its query is only written when there is one. -/
theorem flow_queryID {repo name purpose files entryPoints scope queryID : String}
    (hok : (saveFlowMemory R repo name purpose files entryPoints scope queryID s).1 = none) :
    (recordAt (saveFlowMemory R repo name purpose files entryPoints scope queryID s).2
        (flowKey R.keyspace repo name)).text "query_id" =
      if queryID = "" then (recordAt s (flowKey R.keyspace repo name)).text "query_id" else queryID := by
  unfold saveFlowMemory at hok ⊢
  by_cases hrequired : repo = "" ∨ name = "" ∨ purpose = ""
  · rw [if_pos hrequired] at hok
    cases hok
  · rw [if_neg hrequired] at hok ⊢
    by_cases hquery : queryID = ""
    · -- without a query id the save leaves the field alone
      obtain ⟨vec, hrecord⟩ :=
        recordAt_runSave R (m := .flow (agentFlow R repo name purpose files entryPoints scope queryID)) agent_ne_auto hok
      have hnot : "query_id" ∉ ((Record.flow (agentFlow R repo name purpose files entryPoints scope queryID)).fields
          R.env vec).map Prod.fst := by
        rw [Record.names_eq]
        subst hquery
        simp only [Record.base, Record.optionals, List.map_append, Record.optional_names, agentFlow]
        split_ifs <;> decide
      rw [if_pos hquery]
      have htext := text_hsetFields_of_notMem hnot
        (recordAt s ((Record.flow (agentFlow R repo name purpose files entryPoints scope queryID)).key R.keyspace))
      exact (congrArg (Hash.text · "query_id") hrecord).trans htext
    · rw [if_neg hquery]
      refine text_runSave R (m := .flow (agentFlow R repo name purpose files entryPoints scope queryID)) agent_ne_auto hok
        fun vec => ?_
      -- with one it is among the fields that are written
      have hoptional : ("query_id", .text queryID) ∈ (Memory.optional "query_id" queryID : List (String × Value F)) := by
        unfold Memory.optional
        rw [if_neg hquery]
        exact List.mem_singleton_self _
      exact List.mem_append_left _ (List.mem_append_right _ hoptional)

variable [Zero S]

/-- What a saved decision holds. Its scope of application is not written. -/
theorem decision_stored {a : DecisionArgs} (hok : (saveDecisionTool R a s).1.2 = none) :
    ∀ p ∈ [("repo", a.repo), ("name", a.name), ("decision_type", a.decisionType), ("decision", a.decision),
        ("rationale", a.rationale), ("alternatives", a.alternatives), ("constraint", a.constraint), ("files", a.files),
        ("decision_scope", (recordAt s (decisionKey R.keyspace a.repo a.name)).text "decision_scope")],
      (recordAt (saveDecisionTool R a s).2 (decisionKey R.keyspace a.repo a.name)).text p.1 = p.2 := by
  unfold saveDecisionTool at hok ⊢
  by_cases hcomplete : a.Complete
  · rw [if_pos hcomplete] at hok ⊢
    -- the decision was saved, whatever is warned of
    obtain ⟨hsaved, heq⟩ := saveDecisionWarned_ok R.parseFloat R.lower R.isPrint (Option.map_eq_none_iff.mp hok)
    rw [heq]
    obtain ⟨vec, hrecord⟩ := recordAt_embedAndWrite hsaved
    intro p hp
    have htext : (recordAt ((saveDecision R.env R.keyspace (a.memory fun repo files =>
        R.scopeForDecision (R.repoPath repo) files)).run s).2 (decisionKey R.keyspace a.repo a.name)).text p.1
        = (hsetFields (recordAt s (decisionKey R.keyspace a.repo a.name)) ((a.memory fun repo files =>
            R.scopeForDecision (R.repoPath repo) files).fields R.env vec)).text p.1 :=
      congrArg (Hash.text · p.1) hrecord
    refine htext.trans ?_
    have hnodup := (a.memory fun repo files => R.scopeForDecision (R.repoPath repo) files).fields_nodup R.env vec
    simp only [List.mem_cons, List.not_mem_nil, or_false] at hp
    rcases hp with rfl | rfl | rfl | rfl | rfl | rfl | rfl | rfl | rfl
    -- the first eight are written by the save, the scope is not
    iterate 8 exact text_hsetFields hnodup (by simp [DecisionMemory.fields, DecisionArgs.memory]) _
    exact text_hsetFields_of_notMem (by simp [DecisionMemory.fields]) _
  · rw [if_neg hcomplete] at hok
    cases hok

/-- The key that a tool saves to. -/
def SaveTool.key (K : Keyspace) (v : String → String) : SaveTool → String
  | .file => fileKey K (v "repo") (v "path")
  | .func => funcKey K (v "repo") (qualifiedNameOf "" (v "file") (v "name"))
  | .flow => flowKey K (v "repo") (v "name")
  | .decision => decisionKey K (v "repo") (v "name")

/-- What the record holds of an argument after the save: its value, but for three of them. -/
def SaveTool.storedValue (old : Hash F) (v : String → String) (n : String) : SaveTool → String
  | .file => if n = "key_symbols" then "" else v n
  | .func => v n
  | .flow => if n = "query_id" ∧ v n = "" then old.text n else v n
  | .decision => if n = "decision_scope" then old.text n else v n

/-- **One save**: every argument but the scope is stored, or lost in one of three ways. -/
theorem SaveTool.stored (tool : SaveTool) (v : String → String) (hok : (tool.save R v s).1 = none) {n : String}
    (hn : n ∈ tool.schema) (hscope : n ≠ "scope") :
    (recordAt (tool.save R v s).2.2 (tool.key R.keyspace v)).text n
      = tool.storedValue (recordAt s (tool.key R.keyspace v)) v n := by
  -- each tool stores the fields of its schema, but for the scope, which it computes
  cases tool with
  | file =>
    have hstored := file_stored R (s := s) hok
    simp only [schema, List.mem_cons, List.not_mem_nil, or_false] at hn
    rcases hn with rfl | rfl | rfl | rfl | rfl
    · exact hstored ("repo", v "repo") (by simp)
    · exact hstored ("path", v "path") (by simp)
    · exact hstored ("purpose", v "purpose") (by simp)
    · exact hstored ("key_symbols", "") (by simp)
    · exact absurd rfl hscope
  | func =>
    have hstored := func_stored R (s := s) hok
    simp only [schema, List.mem_cons, List.not_mem_nil, or_false] at hn
    rcases hn with rfl | rfl | rfl | rfl | rfl | rfl | rfl
    · exact hstored ("repo", v "repo") (by simp)
    · exact hstored ("name", v "name") (by simp)
    · exact hstored ("file", v "file") (by simp)
    · exact hstored ("purpose", v "purpose") (by simp)
    · exact hstored ("callers", v "callers") (by simp)
    · exact hstored ("callees", v "callees") (by simp)
    · exact absurd rfl hscope
  | flow =>
    have hstored := flow_stored R (s := s) hok
    simp only [schema, List.mem_cons, List.not_mem_nil, or_false] at hn
    rcases hn with rfl | rfl | rfl | rfl | rfl | rfl | rfl
    · exact hstored ("repo", v "repo") (by simp)
    · exact hstored ("name", v "name") (by simp)
    · exact hstored ("purpose", v "purpose") (by simp)
    · exact hstored ("files", v "files") (by simp)
    · exact hstored ("entry_points", v "entry_points") (by simp)
    · refine (flow_queryID R (s := s) hok).trans ?_
      simp only [storedValue, true_and]
      rfl
    · exact absurd rfl hscope
  | decision =>
    have hstored := decision_stored R (s := s) hok
    simp only [schema, List.mem_cons, List.not_mem_nil, or_false] at hn
    rcases hn with rfl | rfl | rfl | rfl | rfl | rfl | rfl | rfl | rfl | rfl
    · exact hstored ("repo", v "repo") (by simp)
    · exact hstored ("name", v "name") (by simp)
    · exact hstored ("decision_type", v "decision_type") (by simp)
    · exact hstored ("decision", v "decision") (by simp)
    · exact hstored ("rationale", v "rationale") (by simp)
    · exact hstored ("alternatives", v "alternatives") (by simp)
    · exact hstored ("constraint", v "constraint") (by simp)
    · exact hstored ("decision_scope", _) (by simp; rfl)
    · exact hstored ("files", v "files") (by simp)
    · exact absurd rfl hscope

end Stored

/-! ### What is lost -/

/-- The argument is stored as it is given: key symbols are empty, a query is there or none was, and a scope of
application is what the record held before. -/
def SaveTool.Keeps (old : Hash F) (p : String × String) : SaveTool → Prop
  | .file => p.1 = "key_symbols" → p.2 = ""
  | .func => True
  | .flow => p.1 = "query_id" → p.2 = "" → old.text "query_id" = ""
  | .decision => p.1 = "decision_scope" → p.2 = old.text "decision_scope"

section Lost

variable [Zero S] (R : Surroundings F S) {s : Server F}

/-- A call without an error has saved. -/
theorem SaveTool.handle_ok (tool : SaveTool) {req : JsonRPCRequest} {arguments : Bytes} {v : String → String}
    (hdecoded : unmarshalStrings tool.fields arguments = some v)
    (hok : (tool.handle R req arguments s).1.error = none) :
    (tool.save R v s).1 = none ∧ (tool.handle R req arguments s).2 = (tool.save R v s).2.2 := by
  unfold SaveTool.handle at hok ⊢
  rw [hdecoded] at hok ⊢
  dsimp only at hok ⊢
  generalize tool.save R v s = r at hok ⊢
  obtain ⟨err, text, t⟩ := r
  cases err with
  | none => exact ⟨rfl, rfl⟩
  | some e => cases hok

/-- An argument is stored as given just when its tool keeps it. -/
theorem storedValue_eq_iff (tool : SaveTool) (old : Hash F) {v : String → String} {p : String × String}
    (hv : p.1 ∈ tool.fields → v p.1 = p.2) (hp : p.1 ∈ tool.schema) :
    tool.storedValue old v p.1 = p.2 ↔ tool.Keeps old p := by
  obtain ⟨n, value⟩ := p
  cases tool with
  | file =>
    -- the handler has no parameter for the key symbols
    by_cases hn : n = "key_symbols"
    · subst hn
      simp only [SaveTool.storedValue, SaveTool.Keeps, if_true, true_imp_iff]
      exact eq_comm
    · have hfield : n ∈ SaveTool.file.fields := by
        simp only [SaveTool.schema, SaveTool.fields, List.mem_cons, List.not_mem_nil, or_false] at hp ⊢
        tauto
      simp only [SaveTool.storedValue, SaveTool.Keeps, if_neg hn]
      exact ⟨fun _ h => absurd h hn, fun _ => hv hfield⟩
  | func => exact ⟨fun _ => trivial, fun _ => hv hp⟩
  | flow =>
    have hvalue : v n = value := hv hp
    simp only [SaveTool.storedValue, SaveTool.Keeps, hvalue]
    -- an empty query id does not replace the old one
    by_cases hlost : n = "query_id" ∧ value = ""
    · obtain ⟨rfl, rfl⟩ := hlost
      simp
    · rw [if_neg hlost]
      exact ⟨fun _ hn hempty => absurd ⟨hn, hempty⟩ hlost, fun _ => rfl⟩
  | decision =>
    have hvalue : v n = value := hv hp
    simp only [SaveTool.storedValue, SaveTool.Keeps, hvalue]
    -- nor has the handler one for the decision's scope
    by_cases hn : n = "decision_scope"
    · subst hn
      simp only [if_true, true_imp_iff]
      exact eq_comm
    · rw [if_neg hn]
      exact ⟨fun _ h => absurd h hn, fun _ => rfl⟩

/-- The key depends on the fields only. -/
theorem SaveTool.key_congr (tool : SaveTool) (K : Keyspace) {v w : String → String}
    (h : ∀ f ∈ tool.fields, v f = w f) : tool.key K v = tool.key K w := by
  cases tool with
  | file => simp only [key, h "repo" (by decide), h "path" (by decide)]
  | func => simp only [key, h "repo" (by decide), h "file" (by decide), h "name" (by decide)]
  | flow => simp only [key, h "repo" (by decide), h "name" (by decide)]
  | decision => simp only [key, h "repo" (by decide), h "name" (by decide)]

/-- **What the agent saves is what is stored** just when the call meets the condition of its tool. -/
theorem saved_iff (tool : SaveTool) (req : JsonRPCRequest) {arguments : Bytes} {args : List (String × String)}
    (h : Advertised tool arguments args) (hok : (tool.handle R req arguments s).1.error = none) :
    (∀ p ∈ args, p.1 ≠ "scope" →
        (recordAt (tool.handle R req arguments s).2 (tool.key R.keyspace (valueOf args))).text p.1 = p.2) ↔
      ∀ p ∈ args, tool.Keeps (recordAt s (tool.key R.keyspace (valueOf args))) p := by
  obtain ⟨v, hdecoded, hfields⟩ := h.decoded
  obtain ⟨hsaved, hserver⟩ := tool.handle_ok R hdecoded hok
  rw [hserver, ← tool.key_congr R.keyspace hfields]
  have hvalue : ∀ p ∈ args, p.1 ∈ tool.fields → v p.1 = p.2 := fun p hp hf =>
    (hfields p.1 hf).trans (valueOf_of_mem h.nodup hp)
  have hiff : ∀ p ∈ args, p.1 ≠ "scope" →
      ((recordAt (tool.save R v s).2.2 (tool.key R.keyspace v)).text p.1 = p.2 ↔
        tool.Keeps (recordAt s (tool.key R.keyspace v)) p) := by
    intro p hp hscope
    rw [tool.stored R v hsaved (h.known p hp) hscope]
    exact storedValue_eq_iff tool _ (hvalue p hp) (h.known p hp)
  constructor
  · intro hall p hp
    by_cases hscope : p.1 = "scope"
    · -- the scope is none of the three
      cases tool with
      | file => exact fun hn => absurd (hscope.symm.trans hn) (by decide)
      | func => trivial
      | flow => exact fun hn => absurd (hscope.symm.trans hn) (by decide)
      | decision => exact fun hn => absurd (hscope.symm.trans hn) (by decide)
    · exact (hiff p hp hscope).mp (hall p hp hscope)
  · exact fun hall p hp hscope => (hiff p hp hscope).mpr (hall p hp)

end Lost

/-! ### Calls -/

/-- A store without a repository on the disk, and without other decisions. -/
def bareSurroundings : Surroundings ℕ ℕ where
  env := .still
  keyspace := .mem
  repoPath _ := ""
  scopeForFile _ _ := "global"
  scopeForFiles _ _ := "global"
  scopeForDecision _ _ := "global"
  snapshot _ _ _ _ := ""
  ftList _ _ := some (reply [])
  parseFloat _ := 0
  lower := asciiRunes
  isPrint := asciiPrint
  argumentsError _ := ""
  storeError _ := ""

def callRequest : JsonRPCRequest := ⟨"2.0", bytes "1", "tools/call", []⟩

/-- A call on an empty store. -/
def callOn (tool : SaveTool) (arguments : Bytes) (s : Server ℕ) : JsonRPCResponse × Server ℕ :=
  tool.handle bareSurroundings callRequest arguments s

def funcArguments : Bytes :=
  bytes "\x7b\"repo\": \"r\", \"name\": \"f\", \"purpose\": \"p\", \"file\": \"a.go\", \"callers\": \"main\"\x7d"

/-- A function memory is stored as it is given. -/
theorem func_saved :
    Advertised .func funcArguments
        [("repo", "r"), ("name", "f"), ("purpose", "p"), ("file", "a.go"), ("callers", "main")] ∧
      ∀ p ∈ [("repo", "r"), ("name", "f"), ("purpose", "p"), ("file", "a.go"), ("callers", "main")], p.1 ≠ "scope" →
        (recordAt (callOn .func funcArguments (Server.empty ℕ)).2 (SaveTool.func.key .mem (valueOf
          [("repo", "r"), ("name", "f"), ("purpose", "p"), ("file", "a.go"), ("callers", "main")]))).text p.1 = p.2 := by
  have hadvertised : Advertised .func funcArguments
      [("repo", "r"), ("name", "f"), ("purpose", "p"), ("file", "a.go"), ("callers", "main")] :=
    ⟨by decide +kernel, by decide, by decide⟩
  exact ⟨hadvertised, (saved_iff bareSurroundings .func callRequest hadvertised (by decide +kernel)).mpr
    fun _ _ => trivial⟩

def fileArguments : Bytes :=
  bytes "\x7b\"repo\": \"r\", \"path\": \"a.go\", \"purpose\": \"p\", \"key_symbols\": \"main\"\x7d"

def decisionArguments : Bytes :=
  bytes ("\x7b\"repo\": \"r\", \"name\": \"n\", \"decision_type\": \"architecture\", \"decision\": \"d\", " ++
    "\"rationale\": \"w\", \"decision_scope\": \"service layer\"\x7d")

/-- A flow, with a query or with an empty one. -/
def flowArguments (queryID : String) : Bytes :=
  bytes ("\x7b\"repo\": \"r\", \"name\": \"n\", \"purpose\": \"p\", \"query_id\": \"" ++ queryID ++ "\"\x7d")

/-- **Three ways to lose an argument**: the key symbols of a file, the scope of application of a decision, and an empty
query over another one. -/
theorem arguments_lost :
    (Advertised .file fileArguments [("repo", "r"), ("path", "a.go"), ("purpose", "p"), ("key_symbols", "main")] ∧
      (callOn .file fileArguments (Server.empty ℕ)).1.error = none ∧
      (recordAt (callOn .file fileArguments (Server.empty ℕ)).2 (fileKey .mem "r" "a.go")).text "key_symbols" = "") ∧
    (Advertised .decision decisionArguments [("repo", "r"), ("name", "n"), ("decision_type", "architecture"),
        ("decision", "d"), ("rationale", "w"), ("decision_scope", "service layer")] ∧
      (callOn .decision decisionArguments (Server.empty ℕ)).1.error = none ∧
      (recordAt (callOn .decision decisionArguments (Server.empty ℕ)).2 (decisionKey .mem "r" "n")).text
        "decision_scope" = "") ∧
    (Advertised .flow (flowArguments "") [("repo", "r"), ("name", "n"), ("purpose", "p"), ("query_id", "")] ∧
      (callOn .flow (flowArguments "") (callOn .flow (flowArguments "q1") (Server.empty ℕ)).2).1.error = none ∧
      (recordAt (callOn .flow (flowArguments "") (callOn .flow (flowArguments "q1") (Server.empty ℕ)).2).2
        (flowKey .mem "r" "n")).text "query_id" = "q1") := by
  refine ⟨⟨⟨by decide +kernel, by decide, by decide⟩, by decide +kernel, by decide +kernel⟩,
    ⟨⟨by decide +kernel, by decide, by decide⟩, by decide +kernel, by decide +kernel⟩,
    ⟨⟨by decide +kernel, by decide, by decide⟩, by decide +kernel, by decide +kernel⟩⟩

end Devrouter.Mcp
