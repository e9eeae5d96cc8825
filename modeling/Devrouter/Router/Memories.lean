import Devrouter.Router.Recall

/-!
# The memories of an answer

Model of `buildAllMemories` in `internal/router/router.go`: the hits that are left after the relevance gate are sorted
by their type into what the answer is built from, with `isStale` and `isFlowStale`. Automatic memories only leave
hints.

`buildAllMemories_agent` reads the loop as one filter for each type. The commit that last touched a file is git's to
say, and is a parameter.
-/

namespace Devrouter

/-- A hit of `SearchAllWithEmbed`, with the type of memory that was searched. -/
structure TypedHit (R : Type) extends MemoryHit R where
  type : String

/-! ### The memories, type by type -/

structure FileMemoryHit (R : Type) where
  path : String
  purpose : String
  keySymbols : String
  source : String
  stale : Bool
  sim : R
  key : String

structure FuncMemoryHit (R : Type) where
  name : String
  file : String
  purpose : String
  callers : String
  callees : String
  source : String
  stale : Bool
  sim : R
  key : String

structure FlowMemoryHit (R : Type) where
  name : String
  purpose : String
  files : String
  entryPoints : String
  source : String
  stale : Bool
  sim : R
  key : String

structure DecisionMemoryHit where
  name : String
  decisionType : String
  decision : String
  rationale : String
  alternatives : String
  constraint_ : String
  scope : String
  files : String
  status : String
  supersedes : String
  supersededBy : String
  source : String
  deriving DecidableEq, Repr

structure StructuredMemories (R : Type) where
  files : List (FileMemoryHit R)
  functions : List (FuncMemoryHit R)
  flows : List (FlowMemoryHit R)
  decisions : List DecisionMemoryHit

/-- `memoryResults`. -/
structure MemoryResults (R : Type) where
  allHits : List (TypedHit R)
  agent : Option (StructuredMemories R)
  autoHints : List String

section Build

variable {R : Type} [Scores R] (gitFileHash : String → String → String) (repoPath : String)

/-- Whether the file changed since the memory was saved. -/
def isStale (filePath savedHash : String) : Bool :=
  if repoPath = "" || filePath = "" || savedHash = "" then false
  else
    let currentHash := gitFileHash repoPath filePath
    if currentHash = "" then false else decide (currentHash ≠ savedHash)

/-- The same for the first file of a flow. -/
def isFlowStale (filesCSV savedHash : String) : Bool :=
  if repoPath = "" || filesCSV = "" || savedHash = "" then false
  else
    let firstFile := trimSpace (String.ofList (filesCSV.toList.takeWhile (· ≠ ',')))
    if firstFile = "" then false
    else
      let currentHash := gitFileHash repoPath firstFile
      if currentHash = "" then false else decide (currentHash ≠ savedHash)

def TypedHit.isAuto (h : TypedHit R) : Bool := decide (h.fields "source" = "auto")

def TypedHit.file (h : TypedHit R) : FileMemoryHit R where
  path := h.fields "path"
  purpose := h.fields "purpose"
  keySymbols := h.fields "key_symbols"
  source := h.fields "source"
  stale := isStale gitFileHash repoPath (h.fields "path") (h.fields "git_hash")
  sim := hitSimilarity h.score
  key := h.key

def TypedHit.func (h : TypedHit R) : FuncMemoryHit R where
  name := h.fields "name"
  file := h.fields "file"
  purpose := h.fields "purpose"
  callers := h.fields "callers"
  callees := h.fields "callees"
  source := h.fields "source"
  stale := isStale gitFileHash repoPath (h.fields "file") (h.fields "git_hash")
  sim := hitSimilarity h.score
  key := h.key

def TypedHit.flow (h : TypedHit R) : FlowMemoryHit R where
  name := h.fields "name"
  purpose := h.fields "purpose"
  files := h.fields "files"
  entryPoints := h.fields "entry_points"
  source := h.fields "source"
  stale := isFlowStale gitFileHash repoPath (h.fields "files") (h.fields "git_hash")
  sim := hitSimilarity h.score
  key := h.key

omit [Scores R] in
/-- Decisions are not checked for staleness. -/
def TypedHit.decision (h : TypedHit R) : DecisionMemoryHit where
  name := h.fields "name"
  decisionType := h.fields "decision_type"
  decision := h.fields "decision"
  rationale := h.fields "rationale"
  alternatives := h.fields "alternatives"
  constraint_ := h.fields "constraint"
  scope := h.fields "scope"
  files := h.fields "files"
  status := h.fields "status"
  supersedes := h.fields "supersedes"
  supersededBy := h.fields "superseded_by"
  source := h.fields "source"

namespace StructuredMemories

def empty (R : Type) : StructuredMemories R := ⟨[], [], [], []⟩

/-- One round of the loop of `buildAllMemories`. -/
def add (sm : StructuredMemories R) (h : TypedHit R) : StructuredMemories R :=
  if h.isAuto then sm
  else if h.type = "file" then { sm with files := sm.files ++ [h.file gitFileHash repoPath] }
  else if h.type = "func" then { sm with functions := sm.functions ++ [h.func gitFileHash repoPath] }
  else if h.type = "flow" then { sm with flows := sm.flows ++ [h.flow gitFileHash repoPath] }
  else if h.type = "decision" then { sm with decisions := sm.decisions ++ [h.decision] }
  else sm

end StructuredMemories

def buildAllMemories (hits : List (TypedHit R)) : MemoryResults R :=
  if hits.isEmpty then ⟨hits, none, []⟩
  else
    let sm := hits.foldl (StructuredMemories.add gitFileHash repoPath) (.empty R)
    { allHits := hits
      agent := if sm.files.isEmpty && sm.functions.isEmpty && sm.flows.isEmpty && sm.decisions.isEmpty then none
        else some sm
      autoHints := autoHints (hits.map (·.toMemoryHit)) }

/-! ### Filter by filter -/

/-- The hits that become memories of a type. -/
def typed (type : String) (hits : List (TypedHit R)) : List (TypedHit R) :=
  hits.filter fun h => !h.isAuto && decide (h.type = type)

/-- The memories of the hits. -/
def structuredMemories (hits : List (TypedHit R)) : StructuredMemories R where
  files := (typed "file" hits).map (·.file gitFileHash repoPath)
  functions := (typed "func" hits).map (·.func gitFileHash repoPath)
  flows := (typed "flow" hits).map (·.flow gitFileHash repoPath)
  decisions := (typed "decision" hits).map (·.decision)

/-- **The loop** sorts the hits by type, in their order. -/
theorem foldl_add (hits : List (TypedHit R)) (sm : StructuredMemories R) :
    hits.foldl (StructuredMemories.add gitFileHash repoPath) sm =
      { files := sm.files ++ (structuredMemories gitFileHash repoPath hits).files
        functions := sm.functions ++ (structuredMemories gitFileHash repoPath hits).functions
        flows := sm.flows ++ (structuredMemories gitFileHash repoPath hits).flows
        decisions := sm.decisions ++ (structuredMemories gitFileHash repoPath hits).decisions } := by
  induction hits generalizing sm with
  | nil => simp [structuredMemories, typed]
  | cons h hits ih =>
    rw [List.foldl_cons, ih]
    unfold StructuredMemories.add structuredMemories typed
    cases hauto : h.isAuto with
    | true => simp [hauto]
    | false =>
      -- the types exclude each other
      split_ifs with hfile hfunc hflow hdecision <;> simp_all

/-- **The memories of an answer**; an answer without any has none. -/
theorem buildAllMemories_agent (hits : List (TypedHit R)) :
    (buildAllMemories gitFileHash repoPath hits).agent.getD (.empty R) = structuredMemories gitFileHash repoPath hits := by
  unfold buildAllMemories
  by_cases hhits : hits.isEmpty = true
  · rw [if_pos hhits, List.isEmpty_iff.mp hhits]
    rfl
  · rw [if_neg hhits]
    dsimp only
    rw [foldl_add]
    unfold StructuredMemories.empty
    simp only [List.nil_append]
    -- nothing is returned only when no list has anything
    split_ifs with hnone
    · simp only [Bool.and_eq_true, List.isEmpty_iff] at hnone
      obtain ⟨⟨⟨hfiles, hfunctions⟩, hflows⟩, hdecisions⟩ := hnone
      calc StructuredMemories.mk [] [] [] []
          = ⟨(structuredMemories gitFileHash repoPath hits).files, (structuredMemories gitFileHash repoPath hits).functions,
              (structuredMemories gitFileHash repoPath hits).flows,
              (structuredMemories gitFileHash repoPath hits).decisions⟩ := by
            rw [hfiles, hfunctions, hflows, hdecisions]
        _ = structuredMemories gitFileHash repoPath hits := rfl
    · rfl

namespace MemoryResults

variable (memRes : MemoryResults R)

omit [Scores R] in
/-- `memCount`. -/
def memCount : ℕ :=
  memRes.agent.elim 0 fun a => a.files.length + a.functions.length + a.flows.length + a.decisions.length

omit [Scores R] in
/-- The memories that carry a path: those of files and functions. -/
def filePointingMemCount : ℕ := memRes.agent.elim 0 fun a => a.files.length + a.functions.length

end MemoryResults

theorem buildAllMemories_memCount (hits : List (TypedHit R)) :
    (buildAllMemories gitFileHash repoPath hits).memCount =
      (typed "file" hits).length + (typed "func" hits).length + (typed "flow" hits).length
        + (typed "decision" hits).length := by
  have hagent := buildAllMemories_agent gitFileHash repoPath hits
  unfold MemoryResults.memCount
  calc (buildAllMemories gitFileHash repoPath hits).agent.elim 0
        (fun a => a.files.length + a.functions.length + a.flows.length + a.decisions.length)
      = (fun a : StructuredMemories R => a.files.length + a.functions.length + a.flows.length + a.decisions.length)
          ((buildAllMemories gitFileHash repoPath hits).agent.getD (.empty R)) := by
        cases (buildAllMemories gitFileHash repoPath hits).agent <;> rfl
    _ = _ := by
        rw [hagent]
        simp [structuredMemories]

end Build

end Devrouter
