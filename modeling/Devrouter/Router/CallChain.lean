import Mathlib.Data.List.Sort
import Mathlib.Data.String.Basic
import Devrouter.Lib.MergeOrder
import Devrouter.Heuristics.Topics
import Devrouter.Router.FlowSnapshot

/-!
# The call chain of an answer

Model of the budgeted graph traversal of `HandleQueryWithPlan` in `internal/router/router.go`, with
`parallelDo` of `parallel.go` and `trimResponse`. Two things about a run are not up to the code: in which
order the parallel tasks complete, and in which order a Go map is ranged over (`Schedule`).

Tasks write to slots of their own, which are merged in the order of the tasks, so their completion does not
matter (`parallelDo_eq`). The callers of the second hop are asked for in the order of a map of parents, sorted
only where there are too many of them. `callChain_deterministic_iff` says for which answers of the sidecar
this shows.
-/

namespace Devrouter

open Codegraph

/-! ### Budget and trim caps -/

section Budget

/-- `ApplyMemoryShrink`. -/
def Profile.applyMemoryShrink (p : Profile) (filePointingMemCount : ℕ) : Profile :=
  let p :=
    if 3 ≤ filePointingMemCount then { p with maxTrace := min p.maxTrace 2, callerHops := min p.callerHops 1 }
    else if 2 ≤ filePointingMemCount then { p with maxTrace := min p.maxTrace 3, callerHops := min p.callerHops 1 }
    else p
  -- with memories the sections shrink once, and again below for three or more
  let p :=
    if 1 ≤ filePointingMemCount then
      { p with
        maxSymbols := min p.maxSymbols 5
        maxSnippets := min p.maxSnippets 2
        maxSiblings := min p.maxSiblings 5 }
    else p
  if 3 ≤ filePointingMemCount then
    { p with
      maxSnippets := min p.maxSnippets 1
      maxSiblings := min p.maxSiblings 3
      maxSymbols := min p.maxSymbols 3 }
  else p

structure GraphBudget where
  maxTrace : Int
  callerHops : Int
  fetchCallees : Bool
  fetchExtends : Bool
  fetchMethods : Bool
  fetchImports : Bool
  deriving DecidableEq, Repr

def graphBudgetFromProfile (p : Profile) (filePointingMemCount : ℕ) (intent : String) : GraphBudget :=
  let p := p.applyMemoryShrink filePointingMemCount
  let gb : GraphBudget := ⟨p.maxTrace, p.callerHops, true, true, true, true⟩
  let gb :=
    if 3 ≤ filePointingMemCount then { gb with fetchExtends := false, fetchMethods := false, fetchImports := false }
    else if 2 ≤ filePointingMemCount then { gb with fetchExtends := false, fetchMethods := false }
    else gb
  if intent = "trace" then { gb with fetchImports := true }
  else if intent = "refactor" then { gb with fetchImports := true, fetchMethods := true, fetchExtends := true }
  else gb

structure TrimConfig where
  maxUpstream : Int
  maxDownstream : Int
  maxImporters : Int
  maxMethods : Int
  maxSiblings : Int
  maxSnippets : Int
  maxImpact : Int
  maxSymbols : Int
  maxPrimaryCtx : Int
  maxDecisions : Int
  deriving DecidableEq, Repr

def trimCapsFromProfile (p : Profile) (filePointingMemCount : ℕ) : TrimConfig :=
  let p := p.applyMemoryShrink filePointingMemCount
  { maxUpstream := p.maxUpstream
    maxDownstream := p.maxDownstream
    maxImporters := p.maxImporters
    maxMethods := p.maxMethods
    maxSiblings := p.maxSiblings
    maxSnippets := p.maxSnippets
    maxImpact := p.maxImpact
    maxSymbols := p.maxSymbols
    maxPrimaryCtx := p.maxPrimaryCtx
    maxDecisions := p.maxDecisions }

end Budget

/-! ### Parallel tasks -/

/-- `parallelDo`: the tasks complete in the given order, and each sets its own slot. How many are in flight
at a time only restricts the order. -/
def parallelDo {β : Type} (order : Shuffle ℕ) (n : ℕ) (fn : ℕ → β) (unset : β) : List β :=
  (order.toFun (List.range n)).foldl (fun out i => out.set i (fn i)) (List.replicate n unset)

/-- The tasks for the entries of a list. -/
def parallelFor {α β : Type} (order : Shuffle ℕ) (tasks : List α) (fn : α → β) (unset : β) : List β :=
  parallelDo order tasks.length (fun i => (tasks[i]?.map fn).getD unset) unset

/-! ### The traversal -/

/-- What the sidecar answers; none for a request that fails. -/
structure GraphAnswers where
  edges : Relation → String → Option (List CallEdge)
  importersByPackage : String → Option (List CallEdge)
  relatedFiles : String → Option (List String)

/-- What a run has no control over. -/
structure Schedule where
  traced : Shuffle ℕ
  parents : Shuffle String
  grandparents : Shuffle ℕ
  byKeyword : Shuffle ℕ
  bySymbol : Shuffle ℕ
  related : Shuffle ℕ

/-- What the traversal starts from: the results of the search and of the memory side. -/
structure GraphQuery where
  query : String
  intent : String
  plan : QueryPlan
  profile : Profile
  filePointingMemCount : ℕ
  symbols : List String
  autoHints : List String
  /-- The files of the search results. -/
  resultFiles : List String

structure CallChain where
  upstream : List CallEdge
  downstream : List CallEdge
  deriving DecidableEq, Repr

structure GraphLinks where
  importers : List CallEdge
  extends_ : List CallEdge
  methods : List CallEdge
  siblings : List String
  deriving DecidableEq, Repr

structure Traversal where
  chain : Option CallChain
  graph : Option GraphLinks
  impactNames : List String
  deriving DecidableEq, Repr

inductive TraceKind
  | callers
  | callees
  | extends_
  | methods
  deriving DecidableEq, Repr

def TraceKind.relation : TraceKind → Relation
  | .callers => .callers
  | .callees => .callees
  | .extends_ => .extends
  | .methods => .methods

def TraceKind.tag : TraceKind → String
  | .callers => "up:"
  | .callees => "dn:"
  | .extends_ => "ext:"
  | .methods => "meth:"

/-- The key an edge is deduplicated by. -/
def edgeKey (tag : String) (e : CallEdge) : String := tag ++ e.fromName ++ ">" ++ e.toName

/-- The state of the merge. -/
structure Merge where
  edgeSeen : List String
  upstream : List CallEdge
  downstream : List CallEdge
  extends_ : List CallEdge
  methods : List CallEdge
  impactNames : List String

namespace Merge

def empty : Merge := ⟨[], [], [], [], [], []⟩

/-- Append to the list of the kind. -/
def push (m : Merge) (kind : TraceKind) (e : CallEdge) : Merge :=
  match kind with
  | .callers => { m with upstream := m.upstream ++ [e] }
  | .callees => { m with downstream := m.downstream ++ [e] }
  | .extends_ => { m with extends_ := m.extends_ ++ [e] }
  | .methods => { m with methods := m.methods ++ [e] }

def addEdge (kind : TraceKind) (m : Merge) (e : CallEdge) : Merge :=
  if edgeKey kind.tag e ∈ m.edgeSeen then m
  else { m.push kind e with edgeSeen := edgeKey kind.tag e :: m.edgeSeen }

def addImpact (m : Merge) (e : CallEdge) : Merge :=
  if e.fromName ∈ m.impactNames then m else { m with impactNames := m.impactNames ++ [e.fromName] }

/-- An edge of the first hop. -/
def addTraced (kind : TraceKind) (m : Merge) (e : CallEdge) : Merge :=
  if kind = .callers then (m.addEdge kind e).addImpact e else m.addEdge kind e

end Merge

/-- `dedupAppend`. -/
def dedupAppend (base extra : List String) : List String := base ++ extra.firstBy id base

def buildEffectiveQuery (query : String) (plan : QueryPlan) : String :=
  if plan.mustTerms = [] ∧ plan.shouldTerms = [] then query
  else String.intercalate " " (query :: (plan.mustTerms ++ plan.shouldTerms))

/-- Keywords long enough to ask for. -/
def longKeywords (words : List String) : List String := words.filter fun w => 3 ≤ byteLen w

def maxParents : ℕ := 32

section Traverse

variable (L : RuneLower) (A : GraphAnswers)

/-- `CallersWithPath` and its siblings; what fails gives no edges. -/
def edgesOf (rel : Relation) (sym : String) : List CallEdge := ((A.edges rel sym).map graphEdges).getD []

def importersByPackage (word : String) : List CallEdge :=
  ((A.importersByPackage (L.lower word)).map graphEdges).getD []

def relatedFiles (word : String) : List String := (A.relatedFiles (L.lower word)).getD []

namespace GraphQuery

variable (q : GraphQuery)

def budget : GraphBudget := graphBudgetFromProfile q.profile q.filePointingMemCount q.intent

def hintSymbols : List String := dedupAppend q.symbols q.autoHints

/-- The symbols that are traced. A profile has no negative knobs. -/
def tracedSyms : List String := q.hintSymbols.take q.budget.maxTrace.toNat

def traceTasks : List (TraceKind × String) :=
  q.tracedSyms.flatMap fun sym =>
    [(.callers, sym)] ++ (if q.budget.fetchCallees then [(.callees, sym)] else []) ++
      (if q.budget.fetchExtends then [(.extends_, sym)] else []) ++
        (if q.budget.fetchMethods then [(.methods, sym)] else [])

/-- The tasks of the first hop with what they found. -/
def traceResults (sched : Schedule) : List (TraceKind × List CallEdge) :=
  (q.traceTasks.map (·.1)).zip
    (parallelFor sched.traced q.traceTasks (fun t => edgesOf A t.1.relation t.2) [])

/-- The merge of the first hop. -/
def firstHop (sched : Schedule) : Merge :=
  (q.traceResults A sched).foldl (fun m t => t.2.foldl (Merge.addTraced t.1) m) .empty

/-- The keys of the map of parents. -/
def parentSet (sched : Schedule) : List String :=
  ((((q.traceResults A sched).filter (·.1 = .callers)).flatMap (·.2)).map (·.fromName)).filter (· ≠ "")
    |>.eraseDups

/-- The parents of the second hop: as the map gives them, unless there are too many. -/
def parents (sched : Schedule) : List String :=
  let parents := (sched.parents.toFun (q.parentSet A sched)).filter (· ∉ q.tracedSyms)
  if maxParents < parents.length then (parents.insertionSort fun a b => a ≤ b).take maxParents else parents

/-- The merge of the second hop. -/
def secondHop (sched : Schedule) : Merge :=
  if 2 ≤ q.budget.callerHops ∧ q.tracedSyms ≠ [] then
    (parallelFor sched.grandparents (q.parents A sched) (edgesOf A .callers) []).foldl
      (fun m edges => edges.foldl (Merge.addEdge .callers) m) (q.firstHop A sched)
  else q.firstHop A sched

/-- Where an unstable sort leaves words of one length is up to it; it is the same for the same words. -/
def impKeywords (sortSlice : Shuffle String) : List String :=
  longKeywords ((sortSlice.toFun (splitQueryWords L (buildEffectiveQuery q.query q.plan))).insertionSort
    fun a b => byteLen b ≤ byteLen a)

def importers (sortSlice : Shuffle String) (sched : Schedule) : List CallEdge :=
  if q.budget.fetchImports then
    ((parallelFor sched.byKeyword (q.impKeywords L sortSlice) (importersByPackage L A) []).flatten ++
      (parallelFor sched.bySymbol q.tracedSyms (edgesOf A .importers) []).flatten).firstBy (edgeKey "imp:") []
  else []

def siblings (sched : Schedule) : List String :=
  (parallelFor sched.related (longKeywords (splitQueryWords L (buildEffectiveQuery q.query q.plan)))
    (relatedFiles L A) []).flatten.firstBy id []

end GraphQuery

/-! ### The plan filter of edges -/

/-- `newSeedAnchors`. -/
def newSeedAnchors (resultFiles : List String) : List String :=
  ((resultFiles.take 10).map fun f => L.lower (trimSpace f)).filter (· ≠ "")

def edgeTouchesSeed (anchors : List String) (filePath : String) : Bool :=
  filePath ≠ "" && anchors.contains (L.lower filePath)

def graphEdgeStructuralText (e : CallEdge) : String :=
  L.lower e.fromName ++ " " ++ L.lower e.toName ++ " " ++ L.lower e.filePath

/-- What the loops of the two filters keep. -/
def keepEdge (plan : QueryPlan) (anchors : List String) (applyMust : Bool) (e : CallEdge) : Bool :=
  if applyMust = true ∧ plan.mustTerms ≠ [] ∧ edgeTouchesSeed L anchors e.filePath = false ∧
      containsAnyTerm L (graphEdgeStructuralText L e) plan.mustTerms = false then false
  else !shouldExcludeGraphTarget L e.toName e.filePath plan.excludeTerms

def filterEdges (edges : List CallEdge) (plan : QueryPlan) (anchors : List String) (applyMust : Bool) :
    List CallEdge :=
  if plan.mustTerms = [] ∧ plan.excludeTerms = [] then edges
  else edges.filter (keepEdge L plan anchors applyMust)

def filterCallChainByPlan (edges : List CallEdge) (plan : QueryPlan) (anchors : List String) (applyMust : Bool) :
    List CallEdge := filterEdges L edges plan anchors applyMust

def filterGraphLinksByPlan (edges : List CallEdge) (plan : QueryPlan) (anchors : List String) (applyMust : Bool) :
    List CallEdge := filterEdges L edges plan anchors applyMust

def filterSiblingsByPlan (paths : List String) (plan : QueryPlan) : List String :=
  if plan.excludeTerms = [] then paths
  else paths.filter fun p => !shouldExcludeGraphTarget L "" p plan.excludeTerms

/-- Empty sections are left out. -/
def CallChain.nonEmpty (c : CallChain) : Option CallChain :=
  if c.upstream = [] ∧ c.downstream = [] then none else some c

def GraphLinks.nonEmpty (g : GraphLinks) : Option GraphLinks :=
  if g.importers = [] ∧ g.extends_ = [] ∧ g.methods = [] ∧ g.siblings = [] then none else some g

/-- The graph traversal of `HandleQueryWithPlan`. -/
def GraphQuery.traverse (sortSlice : Shuffle String) (q : GraphQuery) (sched : Schedule) : Traversal :=
  let m := q.secondHop A sched
  let anchors := newSeedAnchors L q.resultFiles
  let chain : CallChain :=
    ⟨filterCallChainByPlan L m.upstream q.plan anchors false, filterCallChainByPlan L m.downstream q.plan anchors false⟩
  let graph : GraphLinks :=
    -- the must terms are asked of the importers, not of the other links
    ⟨filterGraphLinksByPlan L (q.importers L A sortSlice sched) q.plan anchors true,
      filterGraphLinksByPlan L m.extends_ q.plan anchors false,
      filterGraphLinksByPlan L m.methods q.plan anchors false,
      filterSiblingsByPlan L (q.siblings L A sched) q.plan⟩
  -- without traced symbols there is no chain
  { chain := if q.tracedSyms = [] then none else chain.nonEmpty
    graph := graph.nonEmpty
    impactNames := m.impactNames }

end Traverse

/-! ### Trimming -/

/-- The sections of an answer that are trimmed; snippets, entries of the primary context and decisions are
only counted. -/
structure DevPrompt (S P D : Type) where
  callChain : Option CallChain
  graph : Option GraphLinks
  codeSnippets : List S
  impactRadius : List String
  symbols : List String
  primaryContext : List P
  decisions : List D
  deriving DecidableEq, Repr

/-- A section with its cap. -/
def trimSection {α : Type} (cap : Int) (l : List α) : List α := if cap < l.length then l.take cap.toNat else l

def droppedFrom {α : Type} (cap : Int) (l : List α) : Int := if cap < l.length then l.length - cap else 0

section Trim

variable {S P D : Type}

/-- `trimResponse`, with the number of items it drops. -/
def trimResponse (dp : DevPrompt S P D) (profile : Profile) (filePointingMemCount : ℕ) : DevPrompt S P D × Int :=
  let tc := trimCapsFromProfile profile filePointingMemCount
  ({  callChain := dp.callChain.map fun c =>
        ⟨trimSection tc.maxUpstream c.upstream, trimSection tc.maxDownstream c.downstream⟩
      graph := dp.graph.map fun g =>
        { g with
          importers := trimSection tc.maxImporters g.importers
          methods := trimSection tc.maxMethods g.methods
          siblings := trimSection tc.maxSiblings g.siblings }
      codeSnippets := trimSection tc.maxSnippets dp.codeSnippets
      impactRadius := trimSection tc.maxImpact dp.impactRadius
      symbols := trimSection tc.maxSymbols dp.symbols
      primaryContext := trimSection tc.maxPrimaryCtx dp.primaryContext
      decisions := trimSection tc.maxDecisions dp.decisions },
    -- what is dropped is counted section by section
    (dp.callChain.elim 0 fun c => droppedFrom tc.maxUpstream c.upstream + droppedFrom tc.maxDownstream c.downstream) +
      (dp.graph.elim 0 fun g =>
        droppedFrom tc.maxImporters g.importers + droppedFrom tc.maxMethods g.methods +
          droppedFrom tc.maxSiblings g.siblings) +
      droppedFrom tc.maxSnippets dp.codeSnippets + droppedFrom tc.maxImpact dp.impactRadius +
      droppedFrom tc.maxSymbols dp.symbols + droppedFrom tc.maxPrimaryCtx dp.primaryContext +
      droppedFrom tc.maxDecisions dp.decisions)

/-- `Build`, with the sections of the traversal. -/
def Traversal.prompt (t : Traversal) (symbols : List String) (snippets : List S) (primaryCtx : List P)
    (decisions : List D) : DevPrompt S P D :=
  ⟨t.chain, t.graph, snippets, t.impactNames, symbols, primaryCtx, decisions⟩

end Trim

/-! ### Completion orders -/

section Parallel

variable {α β : Type}

/-- Setting slots: each slot once, whatever the order. -/
theorem foldl_set_getElem? (fn : ℕ → β) (is : List ℕ) (out : List β) (j : ℕ) :
    (is.foldl (fun out i => out.set i (fn i)) out)[j]? =
      if j ∈ is then (if j < out.length then some (fn j) else none) else out[j]? := by
  induction is generalizing out with
  | nil => rfl
  | cons i is ih =>
    rw [List.foldl_cons, ih, List.length_set, List.getElem?_set]
    by_cases hj : j ∈ is
    · rw [if_pos hj, if_pos (List.mem_cons_of_mem i hj)]
    · rw [if_neg hj]
      by_cases hi : i = j
      · subst hi
        rw [if_pos rfl, if_pos List.mem_cons_self]
      · rw [if_neg hi, if_neg fun hmem => (List.mem_cons.mp hmem).elim (fun h => hi h.symm) hj]

/-- **Completion does not matter**: the slots hold what the tasks return, in the order of the tasks. -/
theorem parallelDo_eq (order : Shuffle ℕ) (n : ℕ) (fn : ℕ → β) (unset : β) :
    parallelDo order n fn unset = (List.range n).map fn := by
  refine List.ext_getElem? fun j => ?_
  unfold parallelDo
  rw [foldl_set_getElem?, List.length_replicate, List.getElem?_map]
  by_cases hj : j < n
  · rw [if_pos ((order.perm _).mem_iff.mpr (List.mem_range.mpr hj)), if_pos hj, List.getElem?_range hj]
    rfl
  · have hnot : j ∉ order.toFun (List.range n) := fun hmem => hj (List.mem_range.mp ((order.perm _).mem_iff.mp hmem))
    have hlen : (List.range n).length ≤ j := by
      rw [List.length_range]
      exact not_lt.mp hj
    rw [if_neg hnot, List.getElem?_eq_none hlen, List.getElem?_eq_none (by simpa using hj)]
    rfl

theorem parallelFor_eq (order : Shuffle ℕ) (tasks : List α) (fn : α → β) (unset : β) :
    parallelFor order tasks fn unset = tasks.map fn := by
  unfold parallelFor
  rw [parallelDo_eq]
  refine List.ext_getElem? fun j => ?_
  rw [List.getElem?_map, List.getElem?_map]
  by_cases hj : j < tasks.length
  · rw [List.getElem?_range hj, Option.map_some, List.getElem?_eq_getElem hj]
    rfl
  · rw [List.getElem?_eq_none (by simpa using hj), List.getElem?_eq_none (not_lt.mp hj)]
    rfl

end Parallel

/-! ### The merge -/

namespace Merge

variable {kind : TraceKind}

theorem mem_addEdge_edgeSeen {m : Merge} {e : CallEdge} {k : String} :
    k ∈ (m.addEdge kind e).edgeSeen ↔ k ∈ m.edgeSeen ∨ k = edgeKey kind.tag e := by
  unfold addEdge
  split_ifs with hseen
  · exact ⟨.inl, fun h => h.elim id fun hk => hk ▸ hseen⟩
  · exact List.mem_cons.trans or_comm

theorem addImpact_edgeSeen (m : Merge) (e : CallEdge) : (m.addImpact e).edgeSeen = m.edgeSeen := by
  unfold addImpact
  split_ifs
  · rfl
  · rfl

theorem mem_addTraced_edgeSeen {m : Merge} {e : CallEdge} {k : String} :
    k ∈ (addTraced kind m e).edgeSeen ↔ k ∈ m.edgeSeen ∨ k = edgeKey kind.tag e := by
  unfold addTraced
  split_ifs
  · rw [addImpact_edgeSeen]
    exact mem_addEdge_edgeSeen
  · exact mem_addEdge_edgeSeen

theorem mem_foldl_addTraced {edges : List CallEdge} {m : Merge} {k : String} :
    k ∈ (edges.foldl (addTraced kind) m).edgeSeen ↔ k ∈ m.edgeSeen ∨ k ∈ edges.map (edgeKey kind.tag) := by
  induction edges generalizing m with
  | nil => simp
  | cons e edges ih =>
    rw [List.foldl_cons, ih, mem_addTraced_edgeSeen, List.map_cons, List.mem_cons, or_assoc]

/-- The keys that have been seen are those of the edges of all tasks. -/
theorem mem_foldl_edgeSeen {tasks : List (TraceKind × List CallEdge)} {m : Merge} {k : String} :
    k ∈ (tasks.foldl (fun m t => t.2.foldl (addTraced t.1) m) m).edgeSeen ↔
      k ∈ m.edgeSeen ∨ ∃ t ∈ tasks, k ∈ t.2.map (edgeKey t.1.tag) := by
  induction tasks generalizing m with
  | nil => simp
  | cons t tasks ih => rw [List.foldl_cons, ih, mem_foldl_addTraced, List.exists_mem_cons_iff, or_assoc]

/-- The second hop appends to the upstream chain, and to nothing else. -/
theorem foldl_addEdge_callers (edges : List CallEdge) (m : Merge) :
    (edges.foldl (addEdge .callers) m).upstream = m.upstream ++ edges.firstBy (edgeKey "up:") m.edgeSeen ∧
      (edges.foldl (addEdge .callers) m).downstream = m.downstream ∧
        (edges.foldl (addEdge .callers) m).extends_ = m.extends_ ∧
          (edges.foldl (addEdge .callers) m).methods = m.methods ∧
            (edges.foldl (addEdge .callers) m).impactNames = m.impactNames := by
  induction edges generalizing m with
  | nil => exact ⟨(List.append_nil _).symm, rfl, rfl, rfl, rfl⟩
  | cons e edges ih =>
    obtain ⟨hup, hdown, hext, hmeth, himpact⟩ := ih (m.addEdge .callers e)
    rw [List.foldl_cons, hup, hdown, hext, hmeth, himpact, List.firstBy_cons]
    by_cases hseen : edgeKey "up:" e ∈ m.edgeSeen
    · have hsame : m.addEdge .callers e = m := if_pos hseen
      rw [hsame, if_pos hseen]
      exact ⟨rfl, rfl, rfl, rfl, rfl⟩
    · have hadd : m.addEdge .callers e =
          { m with upstream := m.upstream ++ [e], edgeSeen := edgeKey "up:" e :: m.edgeSeen } := if_neg hseen
      rw [hadd, if_neg hseen]
      exact ⟨List.append_assoc _ _ _, rfl, rfl, rfl, rfl⟩

end Merge

/-- Kinds have tags of their own. -/
theorem kind_of_edgeKey {kind : TraceKind} {e e' : CallEdge} (h : edgeKey kind.tag e = edgeKey "up:" e') :
    kind = .callers := by
  have hhead := congrArg (fun s : String => s.toList.head?) h
  cases kind with
  | callers => rfl
  | callees => exact absurd hhead (by simp [edgeKey, TraceKind.tag])
  | extends_ => exact absurd hhead (by simp [edgeKey, TraceKind.tag])
  | methods => exact absurd hhead (by simp [edgeKey, TraceKind.tag])

/-! ### What a run does not decide -/

namespace GraphQuery

variable {L : RuneLower} {A : GraphAnswers} {sortSlice : Shuffle String} {q : GraphQuery}

section Traced

variable (A q)

/-- The tasks of the first hop with what the sidecar answers. -/
def tracedEdges : List (TraceKind × List CallEdge) :=
  q.traceTasks.map fun t => (t.1, edgesOf A t.1.relation t.2)

/-- The callers of the traced symbols. -/
def tracedCallers : List CallEdge := q.tracedSyms.flatMap (edgesOf A .callers)

/-- The merge of the first hop. -/
def firstMerge : Merge := (q.tracedEdges A).foldl (fun m t => t.2.foldl (Merge.addTraced t.1) m) .empty

/-- The parents whose callers the second hop asks for. -/
def secondParents : List String :=
  if 2 ≤ q.budget.callerHops ∧ q.tracedSyms ≠ [] then
    ((((q.tracedCallers A).map (·.fromName)).filter (· ≠ "")).eraseDups).filter (· ∉ q.tracedSyms)
  else []

/-- The parents a run asks for, in its order. -/
def askedParents (sched : Schedule) : List String :=
  if 2 ≤ q.budget.callerHops ∧ q.tracedSyms ≠ [] then q.parents A sched else []

end Traced

theorem traceResults_eq (sched : Schedule) : q.traceResults A sched = q.tracedEdges A := by
  unfold traceResults tracedEdges
  rw [parallelFor_eq, List.zip_map']

theorem firstHop_eq (sched : Schedule) : q.firstHop A sched = q.firstMerge A := by
  unfold firstHop firstMerge
  rw [traceResults_eq]

theorem tracedCallers_eq : ((q.tracedEdges A).filter (·.1 = .callers)).flatMap (·.2) = q.tracedCallers A := by
  unfold tracedEdges tracedCallers traceTasks
  induction q.tracedSyms with
  | nil => rfl
  | cons sym syms ih =>
    rw [List.flatMap_cons, List.map_append, List.filter_append, List.flatMap_append, ih, List.flatMap_cons]
    refine congrArg (· ++ _) ?_
    -- of the tasks of one symbol the first asks for its callers
    cases q.budget.fetchCallees <;> cases q.budget.fetchExtends <;> cases q.budget.fetchMethods <;>
      simp [TraceKind.relation]

theorem parentSet_eq (sched : Schedule) :
    q.parentSet A sched = (((q.tracedCallers A).map (·.fromName)).filter (· ≠ "")).eraseDups := by
  unfold parentSet
  rw [traceResults_eq, tracedCallers_eq]

/-- The keys of the upstream chain that the first hop has seen. -/
theorem mem_firstMerge_edgeSeen {e : CallEdge} :
    edgeKey "up:" e ∈ (q.firstMerge A).edgeSeen ↔ edgeKey "up:" e ∈ (q.tracedCallers A).map (edgeKey "up:") := by
  unfold firstMerge
  rw [Merge.mem_foldl_edgeSeen, ← tracedCallers_eq, List.mem_map]
  constructor
  · rintro (h | ⟨t, ht, hkey⟩)
    · exact absurd h List.not_mem_nil
    · obtain ⟨e', he', hsame⟩ := List.mem_map.mp hkey
      have hkind := kind_of_edgeKey hsame
      refine ⟨e', List.mem_flatMap.mpr ⟨t, List.mem_filter.mpr ⟨ht, decide_eq_true hkind⟩, he'⟩, ?_⟩
      rw [hkind] at hsame
      exact hsame
  · rintro ⟨e', he', hsame⟩
    obtain ⟨t, ht, hmem⟩ := List.mem_flatMap.mp he'
    obtain ⟨ht, hkind⟩ := List.mem_filter.mp ht
    refine .inr ⟨t, ht, List.mem_map.mpr ⟨e', hmem, ?_⟩⟩
    rw [of_decide_eq_true hkind]
    exact hsame

theorem secondHop_eq (sched : Schedule) :
    q.secondHop A sched =
      ((q.askedParents A sched).flatMap (edgesOf A .callers)).foldl (Merge.addEdge .callers) (q.firstMerge A) := by
  unfold secondHop askedParents
  rw [firstHop_eq]
  split_ifs
  · rw [parallelFor_eq, List.foldl_map, List.foldl_flatMap]
  · rfl

/-! ### The order of the parents -/

/-- The parents of a run, up to their order. -/
theorem filtered_parents_perm (A : GraphAnswers) (sched : Schedule) (h : 2 ≤ q.budget.callerHops ∧ q.tracedSyms ≠ []) :
    ((sched.parents.toFun (q.parentSet A sched)).filter (· ∉ q.tracedSyms)).Perm (q.secondParents A) := by
  unfold secondParents
  rw [if_pos h, parentSet_eq]
  exact (sched.parents.perm _).filter _

/-- Up to 32 parents are asked for in the order of the map. -/
theorem askedParents_perm (sched : Schedule) (hfew : (q.secondParents A).length ≤ maxParents) :
    (q.askedParents A sched).Perm (q.secondParents A) := by
  by_cases h : 2 ≤ q.budget.callerHops ∧ q.tracedSyms ≠ []
  · have hperm := filtered_parents_perm A sched h
    unfold askedParents parents
    rw [if_pos h, if_neg (by rw [hperm.length_eq]; exact not_lt.mpr hfew)]
    exact hperm
  · unfold askedParents secondParents
    rw [if_neg h, if_neg h]

/-- More than 32 are sorted first. -/
theorem askedParents_of_many (sched : Schedule) (hmany : maxParents < (q.secondParents A).length) :
    q.askedParents A sched = ((q.secondParents A).insertionSort fun a b => a ≤ b).take maxParents := by
  by_cases h : 2 ≤ q.budget.callerHops ∧ q.tracedSyms ≠ []
  · have hperm := filtered_parents_perm A sched h
    have hsort : ((sched.parents.toFun (q.parentSet A sched)).filter (· ∉ q.tracedSyms)).insertionSort
        (fun a b => a ≤ b) = (q.secondParents A).insertionSort fun a b => a ≤ b := by
      refine List.Perm.eq_of_pairwise (fun a b _ _ hab hba => le_antisymm hab hba)
        (List.pairwise_insertionSort _ _) (List.pairwise_insertionSort _ _) ?_
      exact (List.perm_insertionSort _ _).trans (hperm.trans (List.perm_insertionSort _ _).symm)
    unfold askedParents parents
    rw [if_pos h, if_pos (by rw [hperm.length_eq]; exact hmany), hsort]
  · unfold secondParents at hmany
    rw [if_neg h] at hmany
    exact absurd hmany (Nat.not_lt_zero _)

/-- Every order of the parents is that of some run. -/
theorem exists_askedParents {ps : List String} (hperm : ps.Perm (q.secondParents A))
    (hfew : (q.secondParents A).length ≤ maxParents) : ∃ sched : Schedule, q.askedParents A sched = ps := by
  by_cases h : 2 ≤ q.budget.callerHops ∧ q.tracedSyms ≠ []
  · let keys := (((q.tracedCallers A).map (·.fromName)).filter (· ≠ "")).eraseDups
    have hps : ps.Perm (keys.filter (· ∉ q.tracedSyms)) := by
      unfold secondParents at hperm
      rwa [if_pos h] at hperm
    -- the traced symbols among the keys come last
    let order : Shuffle String :=
      { toFun := fun l => if l = keys then ps ++ keys.filter (· ∈ q.tracedSyms) else l
        perm := fun l => by
          split_ifs with hl
          · rw [hl]
            have hsplit := List.filter_append_perm (fun p => decide (p ∉ q.tracedSyms)) keys
            simp only [decide_not, Bool.not_not] at hsplit hps ⊢
            exact (hps.append_right _).trans hsplit
          · exact List.Perm.refl l }
    let sched : Schedule := ⟨.id ℕ, order, .id ℕ, .id ℕ, .id ℕ, .id ℕ⟩
    have horder : (order.toFun keys).filter (· ∉ q.tracedSyms) = ps := by
      have hall : ∀ p ∈ ps, decide (p ∉ q.tracedSyms) = true := fun p hp => (List.mem_filter.mp (hps.mem_iff.mp hp)).2
      have hnone : (keys.filter (· ∈ q.tracedSyms)).filter (· ∉ q.tracedSyms) = [] := by
        refine List.filter_eq_nil_iff.mpr fun p hp => ?_
        simpa using (List.mem_filter.mp hp).2
      have hmap : order.toFun keys = ps ++ keys.filter (· ∈ q.tracedSyms) := if_pos rfl
      rw [hmap, List.filter_append, List.filter_eq_self.mpr hall, hnone, List.append_nil]
    refine ⟨sched, ?_⟩
    have hset : q.parentSet A sched = keys := parentSet_eq sched
    unfold askedParents parents
    rw [if_pos h, hset]
    dsimp only
    rw [horder, if_neg (by rw [hperm.length_eq]; exact not_lt.mpr hfew)]
  · refine ⟨⟨.id ℕ, .id String, .id ℕ, .id ℕ, .id ℕ, .id ℕ⟩, ?_⟩
    unfold askedParents
    unfold secondParents at hperm
    rw [if_neg h] at hperm ⊢
    exact hperm.eq_nil.symm

/-! ### What varies -/

theorem filterEdges_eq (L : RuneLower) (edges : List CallEdge) (plan : QueryPlan) (anchors : List String)
    (applyMust : Bool) :
    filterEdges L edges plan anchors applyMust = edges.filter (keepEdge L plan anchors applyMust) := by
  unfold filterEdges
  split_ifs with hplan
  · refine (List.filter_eq_self.mpr fun e _ => ?_).symm
    simp [keepEdge, hplan.1, hplan.2, shouldExcludeGraphTarget]
  · rfl

section Shown

variable (L A q)

/-- What the second hop shows when it asks for the parents in the given order: the edges from and to symbols
that the first hop has not shown joined, without those the plan excludes. -/
def grandparentEdges (ps : List String) : List CallEdge :=
  List.merged (edgeKey "up:") (keepEdge L q.plan (newSeedAnchors L q.resultFiles) false) (edgesOf A .callers)
    ((q.tracedCallers A).map (edgeKey "up:")) ps

/-- The callers of the first parent that are shown are the first of those of the second, and the others of
these join symbols that no caller of the first parent joins. -/
def Leads (p p' : String) : Prop :=
  List.Leads (edgeKey "up:") (keepEdge L q.plan (newSeedAnchors L q.resultFiles) false) (edgesOf A .callers)
    ((q.tracedCallers A).map (edgeKey "up:")) p p'

/-- **The condition**: there are enough parents for the sort, or of any two of them one leads the other. -/
def ParentsInLine : Prop :=
  maxParents < (q.secondParents A).length ∨
    ∀ p ∈ q.secondParents A, ∀ p' ∈ q.secondParents A, q.Leads L A p p' ∨ q.Leads L A p' p

end Shown

theorem upstream_eq (sched : Schedule) :
    filterCallChainByPlan L (q.secondHop A sched).upstream q.plan (newSeedAnchors L q.resultFiles) false =
      (q.firstMerge A).upstream.filter (keepEdge L q.plan (newSeedAnchors L q.resultFiles) false) ++
        q.grandparentEdges L A (q.askedParents A sched) := by
  have hup := (Merge.foldl_addEdge_callers ((q.askedParents A sched).flatMap (edgesOf A .callers))
    (q.firstMerge A)).1
  have hseen : ((q.askedParents A sched).flatMap (edgesOf A .callers)).firstBy (edgeKey "up:")
      (q.firstMerge A).edgeSeen = ((q.askedParents A sched).flatMap (edgesOf A .callers)).firstBy (edgeKey "up:")
        ((q.tracedCallers A).map (edgeKey "up:")) := List.firstBy_congr fun e _ => mem_firstMerge_edgeSeen
  unfold filterCallChainByPlan grandparentEdges List.merged
  rw [filterEdges_eq, secondHop_eq, hup, hseen, List.filter_append]

/-- A chain is known by its sections. -/
theorem nonEmpty_inj {c c' : CallChain} (h : c.nonEmpty = c'.nonEmpty) : c = c' := by
  obtain ⟨up, down⟩ := c
  obtain ⟨up', down'⟩ := c'
  unfold CallChain.nonEmpty at h
  dsimp only at h
  split_ifs at h with hc hc'
  · rw [hc.1, hc.2, hc'.1, hc'.2]
  · exact Option.some.inj h

/-- **What varies** from run to run is the second hop of the upstream chain. -/
theorem traverse_eq_iff (sched sched' : Schedule) :
    q.traverse L A sortSlice sched = q.traverse L A sortSlice sched' ↔
      q.grandparentEdges L A (q.askedParents A sched) = q.grandparentEdges L A (q.askedParents A sched') := by
  obtain ⟨-, hdown, hext, hmeth, himpact⟩ := Merge.foldl_addEdge_callers
    ((q.askedParents A sched).flatMap (edgesOf A .callers)) (q.firstMerge A)
  obtain ⟨-, hdown', hext', hmeth', himpact'⟩ := Merge.foldl_addEdge_callers
    ((q.askedParents A sched').flatMap (edgesOf A .callers)) (q.firstMerge A)
  rw [← secondHop_eq] at hdown hext hmeth himpact hdown' hext' hmeth' himpact'
  have himporters : q.importers L A sortSlice sched = q.importers L A sortSlice sched' := by
    unfold importers
    rw [parallelFor_eq, parallelFor_eq, parallelFor_eq, parallelFor_eq]
  have hsiblings : q.siblings L A sched = q.siblings L A sched' := by
    unfold siblings
    rw [parallelFor_eq, parallelFor_eq]
  unfold traverse
  dsimp only
  rw [upstream_eq, upstream_eq, hdown, hext, hmeth, himpact, hdown', hext', hmeth', himpact', himporters, hsiblings,
    Traversal.mk.injEq]
  constructor
  · rintro ⟨hchain, -, -⟩
    by_cases htraced : q.tracedSyms = []
    · -- nothing is traced, and there is no second hop
      have hnone : ∀ s : Schedule, q.askedParents A s = [] := fun s => if_neg fun h => h.2 htraced
      rw [hnone, hnone]
    · rw [if_neg htraced, if_neg htraced] at hchain
      exact List.append_cancel_left (congrArg CallChain.upstream (nonEmpty_inj hchain))
  · intro h
    rw [h]
    exact ⟨rfl, rfl, rfl⟩

end GraphQuery

/-- **The call chain is a function of the graph** exactly when the parents are in line: then, and only then,
all runs build the same traversal, and the same answer after trimming. -/
theorem callChain_deterministic_iff {S P D : Type} (L : RuneLower) (A : GraphAnswers) (sortSlice : Shuffle String)
    (q : GraphQuery) (snippets : List S) (primaryCtx : List P) (decisions : List D) :
    (∀ sched sched' : Schedule,
        q.traverse L A sortSlice sched = q.traverse L A sortSlice sched' ∧
          trimResponse ((q.traverse L A sortSlice sched).prompt q.symbols snippets primaryCtx decisions) q.profile
              q.filePointingMemCount =
            trimResponse ((q.traverse L A sortSlice sched').prompt q.symbols snippets primaryCtx decisions) q.profile
              q.filePointingMemCount) ↔
      q.ParentsInLine L A := by
  constructor
  · intro h
    by_cases hmany : maxParents < (q.secondParents A).length
    · exact .inl hmany
    · refine .inr ((List.merged_perm_iff _).mp fun ps hperm => ?_)
      -- few second parents are all asked, in an order that some schedule gives
      have hfew := not_lt.mp hmany
      obtain ⟨sched, hsched⟩ := GraphQuery.exists_askedParents hperm hfew
      obtain ⟨sched', hsched'⟩ := GraphQuery.exists_askedParents (List.Perm.refl (q.secondParents A)) hfew
      have hsame := GraphQuery.traverse_eq_iff sched sched' |>.mp (h sched sched').1
      rwa [hsched, hsched'] at hsame
  · intro h sched sched'
    have hsame : q.traverse L A sortSlice sched = q.traverse L A sortSlice sched' := by
      refine (GraphQuery.traverse_eq_iff sched sched').mpr ?_
      by_cases hmany : maxParents < (q.secondParents A).length
      · -- many second parents are cut in the order of their names, whatever the schedule
        rw [GraphQuery.askedParents_of_many sched hmany, GraphQuery.askedParents_of_many sched' hmany]
      · have hfew := not_lt.mp hmany
        have horder := (List.merged_perm_iff _).mpr (h.resolve_left hmany)
        exact (horder _ (GraphQuery.askedParents_perm sched hfew)).trans
          (horder _ (GraphQuery.askedParents_perm sched' hfew)).symm
    exact ⟨hsame, by rw [hsame]⟩

/-- A symbol with two callers, each of them with two callers of its own. -/
def forkedCallers : GraphAnswers where
  edges rel name :=
    if rel = .callers ∧ name = "save" then
      some [⟨"create", "save", "create.go"⟩, ⟨"update", "save", "update.go"⟩]
    else if rel = .callers ∧ name = "create" then
      some [⟨"post", "create", "post.go"⟩, ⟨"postBulk", "create", "post.go"⟩]
    else if rel = .callers ∧ name = "update" then
      some [⟨"put", "update", "put.go"⟩, ⟨"patch", "update", "patch.go"⟩]
    else some []
  importersByPackage _ := some []
  relatedFiles _ := some []

def saveQuery : GraphQuery :=
  ⟨"save", "explore", .zero, .default "explore", 0, ["save"], [], []⟩

/-- A run with the given order of the map of parents. -/
def runWith (order : Shuffle String) : Schedule := ⟨.id ℕ, order, .id ℕ, .id ℕ, .id ℕ, .id ℕ⟩

/-- What is left of the upstream chain after trimming. -/
def trimmedUpstream (order : Shuffle String) : Option (List (String × String)) :=
  ((trimResponse (((saveQuery.traverse asciiRunes forkedCallers (.id String) (runWith order)).prompt
    saveQuery.symbols [] [] [] : DevPrompt ℕ ℕ ℕ)) saveQuery.profile 0).1.callChain).map fun c =>
      c.upstream.map fun e => (e.fromName, e.toName)

/-- **Two runs, two answers**: the cut keeps the callers of the parent that the map gives first. -/
theorem forkedCallers_vary :
    (¬ ∀ sched sched' : Schedule,
        saveQuery.traverse asciiRunes forkedCallers (.id String) sched =
            saveQuery.traverse asciiRunes forkedCallers (.id String) sched' ∧
          (trimResponse ((saveQuery.traverse asciiRunes forkedCallers (.id String) sched).prompt saveQuery.symbols
              [] [] [] : DevPrompt ℕ ℕ ℕ) saveQuery.profile 0) =
            trimResponse ((saveQuery.traverse asciiRunes forkedCallers (.id String) sched').prompt saveQuery.symbols
              [] [] []) saveQuery.profile 0) ∧
      trimmedUpstream (.id String) =
          some [("create", "save"), ("update", "save"), ("post", "create"), ("postBulk", "create"), ("put", "update")] ∧
        trimmedUpstream ⟨List.reverse, List.reverse_perm⟩ =
          some [("create", "save"), ("update", "save"), ("put", "update"), ("patch", "update"), ("post", "create")] := by
  have hforth : trimmedUpstream (.id String) =
      some [("create", "save"), ("update", "save"), ("post", "create"), ("postBulk", "create"), ("put", "update")] := by
    decide +kernel
  have hback : trimmedUpstream ⟨List.reverse, List.reverse_perm⟩ =
      some [("create", "save"), ("update", "save"), ("put", "update"), ("patch", "update"), ("post", "create")] := by
    decide +kernel
  refine ⟨fun hsame => ?_, hforth, hback⟩
  -- the two schedules differ in the order of the second parents
  have heq : trimmedUpstream (.id String) = trimmedUpstream ⟨List.reverse, List.reverse_perm⟩ := by
    unfold trimmedUpstream
    rw [(hsame (runWith (.id String)) (runWith ⟨List.reverse, List.reverse_perm⟩)).1]
  rw [hforth, hback] at heq
  exact absurd heq (by decide)

end Devrouter
