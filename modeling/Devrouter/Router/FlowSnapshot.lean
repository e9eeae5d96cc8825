import Devrouter.Codegraph.Steps
import Devrouter.Router.MemoryKeys
import Devrouter.Router.Recall

/-!
# Flow snapshots

Model of `snapshotFlowSubgraph` in `internal/router/router.go`: the subgraph of a flow's entry points
(`Client.Subgraph`), filtered by the plan of the query (`filterSubgraphByPlan`) and collapsed to files
(`collapseSubgraphToFileLevel`).

The three passes treat an entry point each in its own way. The walk puts it on the map without a file, unless
an edge has put it there before; the filter protects it; the collapse drops what has no file.
`snapshot_keeps_entries_iff` is about the composition.
-/

namespace Devrouter

open Codegraph
open Memory (contains)

/-! ### The plan filter -/

def planIsEmpty (p : QueryPlan) : Bool :=
  p.mustTerms.isEmpty && p.shouldTerms.isEmpty && p.excludeTerms.isEmpty && p.phrases.isEmpty &&
    p.contextHints.isEmpty

def shouldExcludeGraphTarget (L : RuneLower) (name filePath : String) (excludes : List String) : Bool :=
  let n := L.lower name
  let p := L.lower filePath
  excludes.any fun e =>
    let e := L.lower (trimSpace e)
    if e = "test" then hasTestMarker p || hasPrefix n "test"
    else if e = "mock" then contains p "/mock" || hasPrefix n "mock"
    else if e = "fixture" then contains p "/fixture" || contains p "/testdata"
    else false

/-- The node of a name in the map of nodes; the last one wins. -/
def nodeNamed (nodes : List SubgraphNode) (name : String) : Option SubgraphNode :=
  nodes.reverse.find? (·.name = name)

/-- The text of a node; that of the zero value for a name that has none. -/
def nodeText (L : RuneLower) (nodes : List SubgraphNode) (name : String) : String :=
  let (n, p) := ((nodeNamed nodes name).map fun n => (n.name, n.filePath)).getD ("", "")
  L.lower (n ++ " " ++ p)

/-- The agent's entry points. -/
def protectedNames (agentSeeds : List String) : List String := (agentSeeds.map trimSpace).filter (· ≠ "")

section Filter

variable (L : RuneLower) (sg : Subgraph) (plan : QueryPlan) (agentSeeds : List String)

def relevantSeed (s : String) : Bool :=
  sg.seeds.contains s &&
    (decide (plan.mustTerms = []) || containsAnyTerm L (nodeText L sg.nodes s) plan.mustTerms)

def adjacentToRelevant (name : String) : Bool :=
  sg.edges.any fun e =>
    (relevantSeed L sg plan e.fromName && decide (e.toName = name)) ||
      (relevantSeed L sg plan e.toName && decide (e.fromName = name))

/-- Whether a node is kept: entry points always. -/
def keepNode (n : SubgraphNode) : Bool :=
  if n.name ∈ protectedNames agentSeeds then true
  else if shouldExcludeGraphTarget L n.name n.filePath plan.excludeTerms then false
  else if plan.mustTerms = [] ∨ containsAnyTerm L (nodeText L sg.nodes n.name) plan.mustTerms then true
  else decide (n.depth.natAbs = 1) && adjacentToRelevant L sg plan n.name

/-- The map `keepNode` of the source, by names. -/
def keptName (name : String) : Bool :=
  sg.nodes.any fun n => decide (n.name = name) && keepNode L sg plan agentSeeds n

def keptEdges : List SubgraphEdge :=
  sg.edges.filter fun e => keptName L sg plan agentSeeds e.fromName && keptName L sg plan agentSeeds e.toName

/-- Entry points, and the ends of kept edges. -/
def referenced (name : String) : Bool :=
  decide (name ∈ protectedNames agentSeeds) ||
    (keptEdges L sg plan agentSeeds).any fun e => decide (e.fromName = name) || decide (e.toName = name)

def keptNodes : List SubgraphNode :=
  sg.nodes.filter fun n => keptName L sg plan agentSeeds n.name && referenced L sg plan agentSeeds n.name

def filterSubgraphByPlan : Subgraph :=
  if plan.mustTerms = [] ∧ plan.excludeTerms = [] then sg
  else
    { sg with
      seeds := sg.seeds.filter fun s => (keptNodes L sg plan agentSeeds).any (·.name = s)
      nodes := keptNodes L sg plan agentSeeds
      edges := keptEdges L sg plan agentSeeds }

end Filter

/-! ### The collapse to files -/

def fileRoleRank : Role → ℕ
  | .seed => 0
  | .caller => 1
  | .callee => 2
  | .method => 3
  | .extends => 4
  | .importer => 5

structure FileAgg where
  path : String
  role : Role
  depth : ℤ
  deriving DecidableEq, Repr

/-- A further node of the file: the better role, and the smaller depth in it. -/
def FileAgg.merge (a : FileAgg) (n : SubgraphNode) : FileAgg :=
  if fileRoleRank n.role < fileRoleRank a.role then { a with role := n.role, depth := n.depth }
  else if fileRoleRank n.role = fileRoleRank a.role ∧ n.depth.natAbs < a.depth.natAbs then
    { a with depth := n.depth }
  else a

def aggregateNode (files : List FileAgg) (n : SubgraphNode) : List FileAgg :=
  if n.filePath = "" then files
  else if files.any (·.path = n.filePath) then files.map fun a => if a.path = n.filePath then a.merge n else a
  else files ++ [⟨n.filePath, n.role, n.depth⟩]

/-- `fnToFile`: the file of a name, empty when it has none; the last one wins. -/
def fnToFile (nodes : List SubgraphNode) (name : String) : String :=
  (((nodes.filter (·.filePath ≠ "")).reverse.find? (·.name = name)).map (·.filePath)).getD ""

/-- The promotion of the file of an entry point. -/
def promoteFile (nodes : List SubgraphNode) (files : List FileAgg) (s : String) : List FileAgg :=
  let s := trimSpace s
  if s = "" then files
  else if fnToFile nodes s = "" then files
  else files.map fun a => if a.path = fnToFile nodes s then { a with role := .seed, depth := 0 } else a

def fileNodeBefore (a b : SubgraphNode) : Bool :=
  if fileRoleRank a.role ≠ fileRoleRank b.role then fileRoleRank a.role < fileRoleRank b.role else a.name ≤ b.name

section Collapse

variable (sg : Subgraph) (agentSeeds : List String)

def collapsedFiles : List FileAgg :=
  agentSeeds.foldl (promoteFile sg.nodes) (sg.nodes.foldl aggregateNode [])

def collapsedNodes : List SubgraphNode :=
  ((collapsedFiles sg agentSeeds).map fun a => ⟨a.path, a.path, a.role, a.depth⟩).insertionSort
    fun a b => fileNodeBefore a b

/-- The edge between the files of an edge's ends. -/
def resolveEdge (e : SubgraphEdge) : Option SubgraphEdge :=
  let source := fnToFile sg.nodes e.fromName
  let target := fnToFile sg.nodes e.toName
  if source = "" ∨ target = "" ∨ source = target then none
  else if !(collapsedFiles sg agentSeeds).any (·.path = source) ||
      !(collapsedFiles sg agentSeeds).any (·.path = target) then none
  else some ⟨source, target, e.etype⟩

/-- The files of the entry points, then the other seed files. -/
def collapsedSeeds : List String :=
  ((agentSeeds.map fun s => fnToFile sg.nodes (trimSpace s)).filter (fun fp =>
      decide (fp ≠ "") && (collapsedFiles sg agentSeeds).any (·.path = fp)) ++
    ((collapsedNodes sg agentSeeds).filter (·.role = .seed)).map (·.name)).eraseDups

def collapseSubgraphToFileLevel : Subgraph :=
  { sg with
    seeds := collapsedSeeds sg agentSeeds
    nodes := collapsedNodes sg agentSeeds
    edges := ((sg.edges.filterMap (resolveEdge sg agentSeeds)).eraseDups).insertionSort fun a b => edgeBefore a b }

end Collapse

/-! ### The snapshot -/

section Snapshot

variable (S : Sidecar) (L : RuneLower)

/-- The subgraph after the plan filter. -/
def filteredSubgraph (plan : QueryPlan) (seeds : List String) (sg : Subgraph) : Subgraph :=
  if planIsEmpty plan then sg else filterSubgraphByPlan L sg plan seeds

/-- `snapshotFlowSubgraph`, before it is printed; none when there is nothing to save. -/
def snapshotFlowSubgraph (entryPoints : String) (plan : QueryPlan) : Option Subgraph :=
  let seeds := splitCSV entryPoints
  if seeds = [] then none
  else
    match subgraph S L seeds with
    | none => none
    | some sg =>
      if sg.nodes = [] ∧ sg.edges = [] then none
      else some (collapseSubgraphToFileLevel (filteredSubgraph L plan seeds sg) seeds)

end Snapshot

/-! ### What the filter keeps -/

section FilterLemmas

variable {L : RuneLower} {sg : Subgraph} {plan : QueryPlan} {agentSeeds : List String}

/-- Entry points are kept. -/
theorem mem_keptNodes_of_protected {n : SubgraphNode} (hn : n ∈ sg.nodes)
    (hprotected : n.name ∈ protectedNames agentSeeds) : n ∈ keptNodes L sg plan agentSeeds := by
  have hkeep : keepNode L sg plan agentSeeds n = true := if_pos hprotected
  have hname : keptName L sg plan agentSeeds n.name = true :=
    List.any_eq_true.mpr ⟨n, hn, by rw [hkeep, decide_eq_true rfl]; rfl⟩
  have href : referenced L sg plan agentSeeds n.name = true := by
    unfold referenced
    rw [decide_eq_true hprotected]
    rfl
  exact List.mem_filter.mpr ⟨hn, by rw [hname, href]; rfl⟩

theorem filteredSubgraph_nodes_sublist :
    (filteredSubgraph L plan agentSeeds sg).nodes.Sublist sg.nodes := by
  unfold filteredSubgraph filterSubgraphByPlan
  split_ifs
  · exact List.Sublist.refl _
  · exact List.Sublist.refl _
  · exact List.filter_sublist

theorem mem_filteredSubgraph_of_protected {n : SubgraphNode} (hn : n ∈ sg.nodes)
    (hprotected : n.name ∈ protectedNames agentSeeds) : n ∈ (filteredSubgraph L plan agentSeeds sg).nodes := by
  unfold filteredSubgraph filterSubgraphByPlan
  split_ifs
  · exact hn
  · exact hn
  · exact mem_keptNodes_of_protected hn hprotected

end FilterLemmas

/-! ### What the collapse keeps -/

section CollapseLemmas

variable {nodes : List SubgraphNode}

/-- Where names are told apart, the file of a name is that of its node. -/
theorem fnToFile_eq_iff (hnodup : (nodes.map (·.name)).Nodup) {name f : String} (hf : f ≠ "") :
    fnToFile nodes name = f ↔ ∃ n ∈ nodes, n.name = name ∧ n.filePath = f := by
  unfold fnToFile
  constructor
  · intro h
    -- the last node of the name gives the file
    cases hfind : (nodes.filter (·.filePath ≠ "")).reverse.find? (·.name = name) with
    | none =>
      rw [hfind] at h
      exact absurd h.symm hf
    | some n =>
      rw [hfind] at h
      have hmem := List.mem_filter.mp (List.mem_reverse.mp (List.mem_of_find?_eq_some hfind))
      exact ⟨n, hmem.1, by simpa using List.find?_some hfind, h⟩
  · rintro ⟨n, hn, rfl, rfl⟩
    have hmem : n ∈ (nodes.filter (·.filePath ≠ "")).reverse :=
      List.mem_reverse.mpr (List.mem_filter.mpr ⟨hn, by simpa using hf⟩)
    cases hfind : (nodes.filter (·.filePath ≠ "")).reverse.find? (·.name = n.name) with
    | none => exact absurd (List.find?_eq_none.mp hfind n hmem) (by simp)
    | some m =>
      have hm := List.mem_filter.mp (List.mem_reverse.mp (List.mem_of_find?_eq_some hfind))
      have hname : m.name = n.name := by simpa using List.find?_some hfind
      -- names are unique, so the node that is found is the one that was given
      rw [List.inj_on_of_nodup_map hnodup hm.1 hn hname]
      rfl

/-- A file of a name is the file of some node. -/
theorem exists_of_fnToFile {name : String} (h : fnToFile nodes name ≠ "") :
    ∃ n ∈ nodes, n.filePath = fnToFile nodes name := by
  unfold fnToFile at h ⊢
  cases hfind : (nodes.filter (·.filePath ≠ "")).reverse.find? (·.name = name) with
  | none =>
    rw [hfind] at h
    exact absurd rfl h
  | some n =>
    exact ⟨n, (List.mem_filter.mp (List.mem_reverse.mp (List.mem_of_find?_eq_some hfind))).1, rfl⟩

theorem FileAgg.merge_path (a : FileAgg) (n : SubgraphNode) : (a.merge n).path = a.path := by
  unfold merge
  split_ifs
  · rfl
  · rfl
  · rfl

theorem fileRoleRank_injective : Function.Injective fileRoleRank := by
  intro a b h
  cases a <;> cases b <;> first | rfl | exact absurd h (by decide)

/-- The role and the depth are as good as those of the symbol. -/
def Leads (role : Role) (depth : ℤ) (n : SubgraphNode) : Prop :=
  fileRoleRank role ≤ fileRoleRank n.role ∧ (n.role = role → depth.natAbs ≤ n.depth.natAbs)

theorem leads_self (n : SubgraphNode) : Leads n.role n.depth n := ⟨le_rfl, fun _ => le_rfl⟩

/-- Merging a symbol takes one of the two, and leads both. -/
theorem FileAgg.merge_spec (a : FileAgg) (n : SubgraphNode) :
    ((a.merge n).role = a.role ∧ (a.merge n).depth = a.depth ∨
        (a.merge n).role = n.role ∧ (a.merge n).depth = n.depth) ∧
      Leads (a.merge n).role (a.merge n).depth n ∧
        ∀ m, Leads a.role a.depth m → Leads (a.merge n).role (a.merge n).depth m := by
  unfold merge
  split_ifs with hbetter hnearer
  · -- the role of the symbol is better than all so far
    refine ⟨.inr ⟨rfl, rfl⟩, leads_self n, fun m hm => ⟨hbetter.le.trans hm.1, fun hsame => ?_⟩⟩
    have hsymbol : m.role = n.role := hsame
    exact absurd hm.1 (not_le.mpr (hsymbol ▸ hbetter))
  · have hrole : n.role = a.role := fileRoleRank_injective hnearer.1
    refine ⟨.inr ⟨hrole.symm, rfl⟩, ⟨hnearer.1.ge, fun _ => le_rfl⟩, fun m hm => ⟨hm.1, fun hsame => ?_⟩⟩
    exact hnearer.2.le.trans (hm.2 hsame)
  · refine ⟨.inl ⟨rfl, rfl⟩, ⟨not_lt.mp hbetter, fun hsame => ?_⟩, fun m hm => hm⟩
    exact not_lt.mp fun hlt => hnearer ⟨congrArg fileRoleRank hsame, hlt⟩

/-- What aggregating nodes comes to: an entry for every file, with the best of its symbols. -/
structure Sums (nodes : List SubgraphNode) (files : List FileAgg) : Prop where
  paths_nodup : (files.map (·.path)).Nodup
  named : ∀ a ∈ files, a.path ≠ ""
  covers : ∀ n ∈ nodes, n.filePath ≠ "" → ∃ a ∈ files, a.path = n.filePath
  attained : ∀ a ∈ files, ∃ n ∈ nodes, n.filePath = a.path ∧ n.role = a.role ∧ n.depth = a.depth
  leads : ∀ a ∈ files, ∀ n ∈ nodes, n.filePath = a.path → Leads a.role a.depth n

theorem sums_nil : Sums [] [] where
  paths_nodup := List.nodup_nil
  named := fun _ h => absurd h List.not_mem_nil
  covers := fun _ h => absurd h List.not_mem_nil
  attained := fun _ h => absurd h List.not_mem_nil
  leads := fun _ h => absurd h List.not_mem_nil

section Step

variable {nodes : List SubgraphNode} {files : List FileAgg} {n : SubgraphNode}

/-- A symbol without a file. -/
theorem Sums.skip (h : Sums nodes files) (hblank : n.filePath = "") : Sums (nodes ++ [n]) files where
  paths_nodup := h.paths_nodup
  named := h.named
  covers := fun m hm hne => by
    rcases List.mem_append.mp hm with hm | hm
    · exact h.covers m hm hne
    · rw [List.mem_singleton.mp hm] at hne
      exact absurd hblank hne
  attained := fun a ha => by
    obtain ⟨m, hm, hma⟩ := h.attained a ha
    exact ⟨m, List.mem_append_left _ hm, hma⟩
  leads := fun a ha m hm hfile => by
    rcases List.mem_append.mp hm with hm | hm
    · exact h.leads a ha m hm hfile
    · rw [List.mem_singleton.mp hm, hblank] at hfile
      exact absurd hfile.symm (h.named a ha)

/-- A symbol of a file that has an entry. -/
theorem Sums.merge (h : Sums nodes files) (hentry : ∃ a ∈ files, a.path = n.filePath) :
    Sums (nodes ++ [n]) (files.map fun a => if a.path = n.filePath then a.merge n else a) := by
  -- a merge does not change the path
  have hpath : ∀ a : FileAgg, (if a.path = n.filePath then a.merge n else a).path = a.path := by
    intro a
    split_ifs
    · exact a.merge_path n
    · rfl
  have hpaths : (files.map fun a => if a.path = n.filePath then a.merge n else a).map (·.path) =
      files.map (·.path) := by
    rw [List.map_map]
    exact List.map_congr_left fun a _ => hpath a
  refine ⟨hpaths ▸ h.paths_nodup, fun b hb => ?_, fun m hm hne => ?_, fun b hb => ?_, fun b hb m hm hfile => ?_⟩
  · -- each file stands for some node's path
    obtain ⟨a, ha, rfl⟩ := List.mem_map.mp hb
    rw [hpath]
    exact h.named a ha
  · -- a node's file is there, for the old nodes and for the new one
    have hold : ∃ a ∈ files, a.path = m.filePath := by
      rcases List.mem_append.mp hm with hm | hm
      · exact h.covers m hm hne
      · rw [List.mem_singleton.mp hm]
        exact hentry
    obtain ⟨a, ha, hpa⟩ := hold
    exact ⟨_, List.mem_map_of_mem ha, (hpath a).trans hpa⟩
  · -- role and depth are those of some node of the file
    obtain ⟨a, ha, rfl⟩ := List.mem_map.mp hb
    obtain ⟨m, hm, hma⟩ := h.attained a ha
    by_cases hpn : a.path = n.filePath
    · rw [if_pos hpn, a.merge_path]
      obtain ⟨hrole, hdepth⟩ | ⟨hrole, hdepth⟩ := (a.merge_spec n).1
      · rw [hrole, hdepth]
        exact ⟨m, List.mem_append_left _ hm, hma⟩
      · rw [hrole, hdepth]
        exact ⟨n, List.mem_append_right _ List.mem_cons_self, hpn.symm, rfl, rfl⟩
    · rw [if_neg hpn]
      exact ⟨m, List.mem_append_left _ hm, hma⟩
  · -- no node of the file leads what is kept
    obtain ⟨a, ha, rfl⟩ := List.mem_map.mp hb
    rw [hpath] at hfile
    by_cases hpn : a.path = n.filePath
    · rw [if_pos hpn]
      rcases List.mem_append.mp hm with hm | hm
      · exact (a.merge_spec n).2.2 m (h.leads a ha m hm hfile)
      · rw [List.mem_singleton.mp hm]
        exact (a.merge_spec n).2.1
    · rw [if_neg hpn]
      rcases List.mem_append.mp hm with hm | hm
      · exact h.leads a ha m hm hfile
      · rw [List.mem_singleton.mp hm] at hfile
        exact absurd hfile.symm hpn

/-- The first symbol of a file. -/
theorem Sums.open (h : Sums nodes files) (hne : n.filePath ≠ "") (hnew : ∀ a ∈ files, a.path ≠ n.filePath) :
    Sums (nodes ++ [n]) (files ++ [⟨n.filePath, n.role, n.depth⟩]) := by
  refine ⟨?_, ?_, fun m hm hmne => ?_, fun b hb => ?_, fun b hb m hm hfile => ?_⟩
  · rw [List.map_append, List.nodup_append]
    refine ⟨h.paths_nodup, List.nodup_singleton _, fun p hp q hq => ?_⟩
    rintro rfl
    obtain ⟨a, ha, hpa⟩ := List.mem_map.mp hp
    exact hnew a ha (hpa.trans (List.mem_singleton.mp hq))
  · exact List.forall_mem_append.mpr ⟨h.named, List.forall_mem_singleton.mpr hne⟩
  · rcases List.mem_append.mp hm with hm | hm
    · obtain ⟨a, ha, hpa⟩ := h.covers m hm hmne
      exact ⟨a, List.mem_append_left _ ha, hpa⟩
    · rw [List.mem_singleton.mp hm]
      exact ⟨_, List.mem_append_right _ List.mem_cons_self, rfl⟩
  · rcases List.mem_append.mp hb with hb | hb
    · obtain ⟨m, hm, hmb⟩ := h.attained b hb
      exact ⟨m, List.mem_append_left _ hm, hmb⟩
    · rw [List.mem_singleton.mp hb]
      exact ⟨n, List.mem_append_right _ List.mem_cons_self, rfl, rfl, rfl⟩
  · rcases List.mem_append.mp hb with hb | hb
    · rcases List.mem_append.mp hm with hm | hm
      · exact h.leads b hb m hm hfile
      · rw [List.mem_singleton.mp hm] at hfile
        exact absurd hfile.symm (hnew b hb)
    · rw [List.mem_singleton.mp hb] at hfile ⊢
      rcases List.mem_append.mp hm with hm | hm
      · -- no symbol of the file has come before
        obtain ⟨a, ha, hpa⟩ := h.covers m hm (hfile ▸ hne)
        exact absurd (hpa.trans hfile) (hnew a ha)
      · rw [List.mem_singleton.mp hm]
        exact leads_self n

/-- **One more symbol.** -/
theorem Sums.aggregateNode (h : Sums nodes files) (n : SubgraphNode) :
    Sums (nodes ++ [n]) (aggregateNode files n) := by
  unfold Devrouter.aggregateNode
  split_ifs with hblank hany
  · exact h.skip hblank
  · obtain ⟨a, ha, hpa⟩ := List.any_eq_true.mp hany
    exact h.merge ⟨a, ha, of_decide_eq_true hpa⟩
  · refine h.open hblank fun a ha hpa => hany ?_
    exact List.any_eq_true.mpr ⟨a, ha, decide_eq_true hpa⟩

end Step

/-- **All symbols.** -/
theorem sums_foldl (nodes : List SubgraphNode) : Sums nodes (nodes.foldl aggregateNode []) := by
  induction nodes using List.reverseRecOn with
  | nil => exact sums_nil
  | append_singleton nodes n ih =>
    rw [List.foldl_append]
    exact ih.aggregateNode n

/-- What aggregating nodes gives: an entry for each file, with the role of one of its nodes. -/
structure Aggregates (nodes : List SubgraphNode) (files : List FileAgg) : Prop where
  covers : ∀ n ∈ nodes, n.filePath ≠ "" → ∃ a ∈ files, a.path = n.filePath
  role_mem : ∀ a ∈ files, ∃ n ∈ nodes, n.filePath = a.path ∧ n.role = a.role

theorem aggregates_foldl (nodes : List SubgraphNode) : Aggregates nodes (nodes.foldl aggregateNode []) where
  covers := (sums_foldl nodes).covers
  role_mem := fun a ha => by
    obtain ⟨n, hn, hpath, hrole, -⟩ := (sums_foldl nodes).attained a ha
    exact ⟨n, hn, hpath, hrole⟩

/-- The files of the entry points. -/
def entryFiles (nodes : List SubgraphNode) (agentSeeds : List String) : List String :=
  ((protectedNames agentSeeds).map (fnToFile nodes)).filter (· ≠ "")

theorem promoteFile_eq (files : List FileAgg) (s : String) :
    promoteFile nodes files s =
      files.map fun a => if a.path ∈ entryFiles nodes [s] then { a with role := .seed, depth := 0 } else a := by
  have hid : ∀ {p : FileAgg → Prop} [DecidablePred p], (∀ a, ¬ p a) →
      files = files.map fun a => if p a then { a with role := .seed, depth := 0 } else a := by
    intro p _ hp
    refine (List.map_id files).symm.trans (List.map_congr_left fun a _ => ?_)
    rw [if_neg (hp a)]
    rfl
  unfold promoteFile
  dsimp only
  split_ifs with hs hf
  · exact hid fun a => by simp [entryFiles, protectedNames, hs]
  · exact hid fun a => by simp [entryFiles, protectedNames, hs, hf]
  · refine List.map_congr_left fun a _ => ?_
    have hmem : a.path = fnToFile nodes (trimSpace s) ↔ a.path ∈ entryFiles nodes [s] := by
      simp [entryFiles, protectedNames, hs, hf]
    exact if_congr hmem rfl rfl

/-- Promoting the entry points: their files become seed files. -/
theorem foldl_promoteFile (files : List FileAgg) (agentSeeds : List String) :
    agentSeeds.foldl (promoteFile nodes) files =
      files.map fun a => if a.path ∈ entryFiles nodes agentSeeds then { a with role := .seed, depth := 0 } else a := by
  induction agentSeeds generalizing files with
  | nil =>
    refine (List.map_id files).symm.trans (List.map_congr_left fun a _ => ?_)
    exact (if_neg (by simp [entryFiles, protectedNames])).symm
  | cons s agentSeeds ih =>
    -- the files of a first entry point are promoted first, and promotion is not taken back
    have hsplit : ∀ p, p ∈ entryFiles nodes (s :: agentSeeds) ↔
        p ∈ entryFiles nodes [s] ∨ p ∈ entryFiles nodes agentSeeds := by
      intro p
      have hcons : entryFiles nodes (s :: agentSeeds) = entryFiles nodes [s] ++ entryFiles nodes agentSeeds := by
        unfold entryFiles protectedNames
        rw [← List.filter_append, ← List.map_append, ← List.filter_append, ← List.map_append]
        rfl
      rw [hcons, List.mem_append]
    rw [List.foldl_cons, ih, promoteFile_eq, List.map_map]
    refine List.map_congr_left fun a _ => ?_
    by_cases h₁ : a.path ∈ entryFiles nodes [s]
    · simp [hsplit, h₁]
    · simp [hsplit, h₁]

theorem fnToFile_mem_entryFiles {agentSeeds : List String} {s : String} (hs : s ∈ protectedNames agentSeeds)
    (hf : fnToFile nodes s ≠ "") : fnToFile nodes s ∈ entryFiles nodes agentSeeds :=
  List.mem_filter.mpr ⟨List.mem_map_of_mem hs, by simpa using hf⟩

variable {sg : Subgraph} {agentSeeds : List String}

/-- A file of a name has an entry. -/
theorem exists_collapsedFile {name : String} (h : fnToFile sg.nodes name ≠ "") :
    ∃ a ∈ collapsedFiles sg agentSeeds, a.path = fnToFile sg.nodes name := by
  obtain ⟨n, hn, hpath⟩ := exists_of_fnToFile h
  obtain ⟨a, ha, hpa⟩ := (aggregates_foldl sg.nodes).covers n hn (hpath ▸ h)
  unfold collapsedFiles
  rw [foldl_promoteFile]
  refine ⟨_, List.mem_map_of_mem ha, ?_⟩
  split_ifs
  · exact hpa.trans hpath
  · exact hpa.trans hpath

/-- **Entry files** become seed files and are listed. -/
theorem collapse_of_mem_entryFiles {f : String} (h : f ∈ entryFiles sg.nodes agentSeeds) :
    ⟨f, f, .seed, 0⟩ ∈ (collapseSubgraphToFileLevel sg agentSeeds).nodes ∧
      f ∈ (collapseSubgraphToFileLevel sg agentSeeds).seeds := by
  obtain ⟨hmem, hne⟩ := List.mem_filter.mp h
  obtain ⟨s, -, rfl⟩ := List.mem_map.mp hmem
  have hnode : (⟨fnToFile sg.nodes s, fnToFile sg.nodes s, .seed, 0⟩ : SubgraphNode) ∈
      collapsedNodes sg agentSeeds := by
    obtain ⟨n, hn, hpath⟩ := exists_of_fnToFile (by simpa using hne)
    obtain ⟨a, ha, hpa⟩ := (aggregates_foldl sg.nodes).covers n hn (by rw [hpath]; simpa using hne)
    unfold collapsedNodes collapsedFiles
    rw [List.mem_insertionSort, foldl_promoteFile, List.map_map]
    refine List.mem_map.mpr ⟨a, ha, ?_⟩
    rw [Function.comp_apply, if_pos (by rw [hpa, hpath]; exact h), hpa, hpath]
  refine ⟨hnode, ?_⟩
  have hseed : (⟨fnToFile sg.nodes s, fnToFile sg.nodes s, .seed, 0⟩ : SubgraphNode) ∈
      (collapsedNodes sg agentSeeds).filter (·.role = .seed) := List.mem_filter.mpr ⟨hnode, by simp⟩
  exact List.mem_eraseDups.mpr (List.mem_append_right _ (List.mem_map_of_mem hseed))

/-- A seed file is an entry file, or has a seed in it. -/
theorem mem_entryFiles_of_collapse {n : SubgraphNode}
    (hn : n ∈ (collapseSubgraphToFileLevel sg agentSeeds).nodes) (hrole : n.role = .seed) :
    n.name ∈ entryFiles sg.nodes agentSeeds ∨ ∃ m ∈ sg.nodes, m.filePath = n.name ∧ m.role = .seed := by
  have hmem : n ∈ collapsedNodes sg agentSeeds := hn
  unfold collapsedNodes collapsedFiles at hmem
  rw [List.mem_insertionSort, foldl_promoteFile, List.map_map] at hmem
  obtain ⟨a, ha, rfl⟩ := List.mem_map.mp hmem
  rw [Function.comp_apply] at hrole ⊢
  by_cases hentry : a.path ∈ entryFiles sg.nodes agentSeeds
  · rw [if_pos hentry]
    exact .inl hentry
  · rw [if_neg hentry] at hrole ⊢
    obtain ⟨m, hm, hpath, hmrole⟩ := (aggregates_foldl sg.nodes).role_mem a ha
    exact .inr ⟨m, hm, hpath, hmrole.trans hrole⟩

/-- **Edges between files** come from edges between their symbols. -/
theorem mem_collapse_edges_iff {f g t : String} (hf : f ≠ "") (hg : g ≠ "") (hfg : f ≠ g) :
    ⟨f, g, t⟩ ∈ (collapseSubgraphToFileLevel sg agentSeeds).edges ↔
      ∃ e ∈ sg.edges, e.etype = t ∧ fnToFile sg.nodes e.fromName = f ∧ fnToFile sg.nodes e.toName = g := by
  have hany : ∀ {name}, fnToFile sg.nodes name ≠ "" →
      (collapsedFiles sg agentSeeds).any (·.path = fnToFile sg.nodes name) = true := by
    intro name h
    obtain ⟨a, ha, hpa⟩ := exists_collapsedFile h
    exact List.any_eq_true.mpr ⟨a, ha, decide_eq_true hpa⟩
  have hresolve : ∀ e : SubgraphEdge, resolveEdge sg agentSeeds e = some ⟨f, g, t⟩ ↔
      e.etype = t ∧ fnToFile sg.nodes e.fromName = f ∧ fnToFile sg.nodes e.toName = g := by
    intro e
    unfold resolveEdge
    dsimp only
    split_ifs with hnone hfiles
    · refine iff_of_false (by simp) ?_
      rintro ⟨-, rfl, rfl⟩
      rcases hnone with h | h | h
      · exact hf h
      · exact hg h
      · exact hfg h
    · -- the files of symbols have entries
      rw [not_or, not_or] at hnone
      rw [hany hnone.1, hany hnone.2.1] at hfiles
      exact absurd hfiles (by decide)
    · rw [Option.some_inj, SubgraphEdge.mk.injEq]
      tauto
  change _ ∈ ((sg.edges.filterMap (resolveEdge sg agentSeeds)).eraseDups).insertionSort _ ↔ _
  rw [List.mem_insertionSort, List.mem_eraseDups, List.mem_filterMap]
  exact exists_congr fun e => and_congr_right fun _ => hresolve e

end CollapseLemmas

/-! ### Entry points -/

/-- The edge is in an answer the walk got. -/
def Returned (S : Sidecar) (w : Walk) (rel : Relation) (e : CallEdge) : Prop :=
  ∃ (i : ℕ) (name : String) (es : List CallEdge),
    w.log[i]? = some (.edges rel name) ∧ S.answer i rel name = some es ∧ e ∈ graphEdges es

section Entries

variable (S : Sidecar) (L : RuneLower) (plan : QueryPlan) (seeds : List String)

/-- Some returned edge names the entry point together with its file. -/
def NamedIn (e f : String) : Prop :=
  f ≠ "" ∧ ∃ rel edge, Returned S (walkSeeds S L seeds) rel edge ∧ rel.filed edge = e ∧ edge.filePath = f

/-- The walk when the turn of the entry point comes; at the end, when it never does. -/
def atTurn (e : String) : Walk := ((cleanedSeeds seeds).takeWhile (· ≠ e)).foldl (walkSeed S L) .empty

/-- An edge has put the entry point on the map with its file before its turn. -/
def Recorded (e f : String) : Prop := ∃ n ∈ (atTurn S L seeds e).nodes, n.name = e ∧ n.filePath = f

/-- The subgraph that is collapsed. -/
def flowSubgraph : Subgraph :=
  filteredSubgraph L plan seeds ((walkSeeds S L seeds).toSubgraph (cleanedSeeds seeds))

/-- A surviving call edge joins the two files. -/
def FilesJoined (f g : String) : Prop :=
  ∃ c ∈ (flowSubgraph S L plan seeds).edges, c.etype = "CALLS" ∧
    (∃ n ∈ (flowSubgraph S L plan seeds).nodes, n.name = c.fromName ∧ n.filePath = f) ∧
      ∃ n ∈ (flowSubgraph S L plan seeds).nodes, n.name = c.toName ∧ n.filePath = g

/-- What a snapshot keeps of the entry points that are walked from. -/
structure KeepsEntries (snap : Subgraph) : Prop where
  seeds_kept : ∀ e ∈ cleanedSeeds seeds, ∀ f, NamedIn S L seeds e f →
    ⟨f, f, .seed, 0⟩ ∈ snap.nodes ∧ f ∈ snap.seeds
  edges_kept : ∀ e ∈ cleanedSeeds seeds, ∀ f, NamedIn S L seeds e f →
    ∀ c ∈ (flowSubgraph S L plan seeds).edges, c.etype = "CALLS" →
      ∀ x ∈ (flowSubgraph S L plan seeds).nodes, x.filePath ≠ "" → x.filePath ≠ f →
        (c.fromName = e → c.toName = x.name → ⟨f, x.filePath, "CALLS"⟩ ∈ snap.edges) ∧
          (c.toName = e → c.fromName = x.name → ⟨x.filePath, f, "CALLS"⟩ ∈ snap.edges)

/-- **The condition**: for every entry point that is named with its file, an entry point in that file has been
recorded before its turn, and where a call edge of the entry point survives, so has the entry point itself,
unless another call edge joins the same files. -/
structure EntriesRecorded : Prop where
  recorded : ∀ e ∈ cleanedSeeds seeds, ∀ f, NamedIn S L seeds e f → ∃ e' ∈ seeds, Recorded S L seeds e' f
  joined : ∀ e ∈ cleanedSeeds seeds, ∀ f, NamedIn S L seeds e f →
    ∀ c ∈ (flowSubgraph S L plan seeds).edges, c.etype = "CALLS" →
      ∀ x ∈ (flowSubgraph S L plan seeds).nodes, x.filePath ≠ "" → x.filePath ≠ f →
        (c.fromName = e → c.toName = x.name →
            Recorded S L seeds e f ∨ FilesJoined S L plan seeds f x.filePath) ∧
          (c.toName = e → c.fromName = x.name →
            Recorded S L seeds e f ∨ FilesJoined S L plan seeds x.filePath f)

variable {S L plan seeds}

theorem walkSeeds_wellFormed (S : Sidecar) (L : RuneLower) (seeds : List String) :
    (walkSeeds S L seeds).WellFormed :=
  steps_wellFormed Walk.wellFormed_empty (foldl_walkSeed_steps _ _)

/-- **First write.** The file an entry point has in the end is the one it has been recorded with. -/
theorem recorded_iff {e f : String} (hf : f ≠ "") :
    Recorded S L seeds e f ↔ ∃ n ∈ (walkSeeds S L seeds).nodes, n.name = e ∧ n.filePath = f := by
  have hsplit : (cleanedSeeds seeds).takeWhile (· ≠ e) ++ (cleanedSeeds seeds).dropWhile (· ≠ e) =
      cleanedSeeds seeds := List.takeWhile_append_dropWhile
  have hwalk : walkSeeds S L seeds =
      ((cleanedSeeds seeds).dropWhile (· ≠ e)).foldl (walkSeed S L) (atTurn S L seeds e) := by
    unfold walkSeeds atTurn
    rw [← List.foldl_append, hsplit]
  constructor
  · rintro ⟨n, hn, hname⟩
    rw [hwalk]
    exact ⟨n, (steps_nodes_grow (foldl_walkSeed_steps _ _)).subset hn, hname⟩
  · rintro ⟨n, hn, hname, hfile⟩
    cases hrest : (cleanedSeeds seeds).dropWhile (· ≠ e) with
    | nil =>
      rw [hwalk, hrest] at hn
      exact ⟨n, hn, hname, hfile⟩
    | cons s rest =>
      -- the turn of `e`: it is put on the map without a file, unless it is there or the map is full
      have hs : s = e := by
        have hhead := List.head?_dropWhile_not (· ≠ e) (cleanedSeeds seeds)
        rw [hrest] at hhead
        simpa using hhead
      subst hs
      have hlater : Relation.ReflTransGen (Step S) ((atTurn S L seeds s).upsertNode s "" .seed 0).1
          (walkSeeds S L seeds) := by
        rw [hwalk, hrest, List.foldl_cons]
        exact (walkSeed_steps_of_seed _ s).trans (foldl_walkSeed_steps _ _)
      have hfinal := walkSeeds_wellFormed S L seeds
      obtain ⟨h, hold⟩ | ⟨h, -, -, hfull⟩ | ⟨h, -⟩ := (atTurn S L seeds s).upsertNode_cases s "" .seed 0
      · rw [h] at hlater
        rcases hold with rfl | ⟨m, hm, hmname⟩
        · exact absurd hname (hfinal.named n hn)
        · have hmfinal := (steps_nodes_grow hlater).subset hm
          rw [hfinal.eq_of_name hn hmfinal (hname.trans hmname.symm)] at hfile
          exact ⟨m, hm, hmname, hfile⟩
      · rw [h] at hlater
        rw [steps_nodes_of_full hlater hfull] at hn
        exact ⟨n, hn, hname, hfile⟩
      · rw [h] at hlater
        have hmfinal := (steps_nodes_grow hlater).subset (List.mem_append_right _ List.mem_cons_self)
        rw [hfinal.eq_of_name hn hmfinal hname] at hfile
        exact absurd hfile.symm hf

/-- The nodes of a flow's subgraph are nodes of the walk. -/
theorem mem_walk_of_mem_flow {n : SubgraphNode} (hn : n ∈ (flowSubgraph S L plan seeds).nodes) :
    n ∈ (walkSeeds S L seeds).nodes :=
  (List.mem_insertionSort _).mp (filteredSubgraph_nodes_sublist.subset hn)

theorem flow_nodup : ((flowSubgraph S L plan seeds).nodes.map (·.name)).Nodup := by
  have hsub : (flowSubgraph S L plan seeds).nodes.Sublist
      ((walkSeeds S L seeds).toSubgraph (cleanedSeeds seeds)).nodes := filteredSubgraph_nodes_sublist
  refine (hsub.map _).nodup ?_
  exact ((List.perm_insertionSort _ _).map _).nodup_iff.mpr (walkSeeds_wellFormed S L seeds).nodup

/-- A recorded entry point survives with its file. -/
theorem mem_flow_of_recorded (plan : QueryPlan) {e f : String} (he : e ∈ protectedNames seeds) (hf : f ≠ "")
    (h : Recorded S L seeds e f) :
    ∃ n ∈ (flowSubgraph S L plan seeds).nodes, n.name = e ∧ n.filePath = f := by
  obtain ⟨n, hn, hname, hfile⟩ := (recorded_iff hf).mp h
  have hmem : n ∈ ((walkSeeds S L seeds).toSubgraph (cleanedSeeds seeds)).nodes := (List.mem_insertionSort _).mpr hn
  exact ⟨n, mem_filteredSubgraph_of_protected hmem (hname ▸ he), hname, hfile⟩

theorem fnToFile_flow_iff (plan : QueryPlan) {e f : String} (he : e ∈ protectedNames seeds) (hf : f ≠ "") :
    fnToFile (flowSubgraph S L plan seeds).nodes e = f ↔ Recorded S L seeds e f := by
  rw [fnToFile_eq_iff flow_nodup hf]
  constructor
  · rintro ⟨n, hn, hname⟩
    exact (recorded_iff hf).mpr ⟨n, mem_walk_of_mem_flow hn, hname⟩
  · exact mem_flow_of_recorded plan he hf

/-- **Seed files** are the files of recorded entry points. -/
theorem seedFile_iff {f : String} (hf : f ≠ "") :
    (⟨f, f, .seed, 0⟩ ∈ (collapseSubgraphToFileLevel (flowSubgraph S L plan seeds) seeds).nodes ∧
        f ∈ (collapseSubgraphToFileLevel (flowSubgraph S L plan seeds) seeds).seeds) ↔
      ∃ e ∈ protectedNames seeds, Recorded S L seeds e f := by
  constructor
  · rintro ⟨hnode, -⟩
    rcases mem_entryFiles_of_collapse hnode rfl with hentry | ⟨m, hm, hfile, hrole⟩
    · obtain ⟨e, he, hfile⟩ := List.mem_map.mp (List.mem_filter.mp hentry).1
      exact ⟨e, he, (fnToFile_flow_iff plan he hf).mp hfile⟩
    · -- seeds have no file
      have hblank := (walkSeeds_wellFormed S L seeds).seed_blank m (mem_walk_of_mem_flow hm) hrole
      exact absurd (hfile.symm.trans hblank) hf
  · rintro ⟨e, he, hrec⟩
    have hfile := (fnToFile_flow_iff plan he hf).mpr hrec
    have hentry := fnToFile_mem_entryFiles he (hfile ▸ hf)
    rw [hfile] at hentry
    exact collapse_of_mem_entryFiles hentry

/-- **File edges** are the joins of surviving call edges. -/
theorem fileEdge_iff {f g : String} (hf : f ≠ "") (hg : g ≠ "") (hfg : f ≠ g) :
    ⟨f, g, "CALLS"⟩ ∈ (collapseSubgraphToFileLevel (flowSubgraph S L plan seeds) seeds).edges ↔
      FilesJoined S L plan seeds f g := by
  rw [mem_collapse_edges_iff hf hg hfg]
  unfold FilesJoined
  refine exists_congr fun c => and_congr_right fun _ => and_congr_right fun _ => ?_
  rw [fnToFile_eq_iff flow_nodup hf, fnToFile_eq_iff flow_nodup hg]

/-- An entry point and a symbol of another file, by either end of a surviving call edge. -/
theorem joined_of_recorded (plan : QueryPlan) {e f : String} (he : e ∈ protectedNames seeds) (hf : f ≠ "")
    {c : SubgraphEdge} (hc : c ∈ (flowSubgraph S L plan seeds).edges) (hcalls : c.etype = "CALLS")
    {x : SubgraphNode} (hx : x ∈ (flowSubgraph S L plan seeds).nodes) (hrec : Recorded S L seeds e f) :
    (c.fromName = e → c.toName = x.name → FilesJoined S L plan seeds f x.filePath) ∧
      (c.toName = e → c.fromName = x.name → FilesJoined S L plan seeds x.filePath f) := by
  obtain ⟨n, hn, hname, hfile⟩ := mem_flow_of_recorded plan he hf hrec
  constructor
  · intro hfrom hto
    exact ⟨c, hc, hcalls, ⟨n, hn, hname.trans hfrom.symm, hfile⟩, x, hx, hto.symm, rfl⟩
  · intro hto hfrom
    exact ⟨c, hc, hcalls, ⟨x, hx, hfrom.symm, rfl⟩, n, hn, hname.trans hto.symm, hfile⟩

/-- The entries of a list come trimmed and not empty. -/
theorem protectedNames_splitCSV (s : String) : protectedNames (splitCSV s) = splitCSV s := by
  have htrim : (splitCSV s).map trimSpace = splitCSV s := by
    refine (List.map_congr_left fun x hx => ?_).trans (List.map_id _)
    exact trimSpace_eq_self_iff.mpr (plain_of_mem_splitCSV hx).tight
  unfold protectedNames
  rw [htrim, List.filter_eq_self]
  exact fun x hx => decide_eq_true (plain_of_mem_splitCSV hx).ne_empty

theorem mem_protectedNames_of_cleaned {e : String} (he : e ∈ cleanedSeeds seeds) : e ∈ protectedNames seeds :=
  List.mem_eraseDups.mp (List.mem_of_mem_take he)

/-- The first seed is put on the map. -/
theorem walkSeeds_ne_nil (h : cleanedSeeds seeds ≠ []) : (walkSeeds S L seeds).nodes ≠ [] := by
  cases hseeds : cleanedSeeds seeds with
  | nil => exact absurd hseeds h
  | cons s rest =>
    have hs : s ∈ protectedNames seeds := mem_protectedNames_of_cleaned (hseeds ▸ List.mem_cons_self)
    have hne : s ≠ "" := by simpa using (List.mem_filter.mp hs).2
    have hadd : (Walk.empty.upsertNode s "" .seed 0).1.nodes = [⟨s, "", .seed, 0⟩] := by
      simp [Walk.upsertNode, hne, Walk.empty, Walk.Has, subgraphMaxNodes]
    have hsteps : Relation.ReflTransGen (Step S) (Walk.empty.upsertNode s "" .seed 0).1 (walkSeeds S L seeds) := by
      unfold walkSeeds
      rw [hseeds, List.foldl_cons]
      exact (walkSeed_steps_of_seed _ s).trans (foldl_walkSeed_steps _ _)
    have hprefix := steps_nodes_grow hsteps
    rw [hadd] at hprefix
    intro hnil
    rw [hnil] at hprefix
    exact absurd (List.prefix_nil.mp hprefix) (by simp)

/-- The snapshot, when there are entry points to walk from. -/
theorem snapshotFlowSubgraph_eq {entryPoints : String} (h : cleanedSeeds (splitCSV entryPoints) ≠ []) :
    snapshotFlowSubgraph S L entryPoints plan =
      some (collapseSubgraphToFileLevel (flowSubgraph S L plan (splitCSV entryPoints)) (splitCSV entryPoints)) := by
  have hseeds : splitCSV entryPoints ≠ [] := by
    intro hnil
    rw [hnil] at h
    exact h rfl
  -- a walk from seeds that are not empty visits them, so the sorted list is not empty
  have hnodes : ((walkSeeds S L (splitCSV entryPoints)).toSubgraph (cleanedSeeds (splitCSV entryPoints))).nodes ≠
      [] := by
    intro hnil
    have hsorted : (walkSeeds S L (splitCSV entryPoints)).nodes.insertionSort (fun a b => nodeBefore a b) = [] := hnil
    have hperm := List.perm_insertionSort (fun a b => nodeBefore a b) (walkSeeds S L (splitCSV entryPoints)).nodes
    rw [hsorted] at hperm
    exact walkSeeds_ne_nil h (List.nil_perm.mp hperm)
  unfold snapshotFlowSubgraph subgraph
  dsimp only
  rw [if_neg hseeds, if_neg h]
  dsimp only
  rw [if_neg fun hempty => hnodes hempty.1]
  rfl

/-- **A snapshot keeps its entry points** exactly when they have been recorded, each in its file, by an edge
before their turn. -/
theorem snapshot_keeps_entries_iff (S : Sidecar) (L : RuneLower) (entryPoints : String) (plan : QueryPlan) :
    (∀ snap ∈ snapshotFlowSubgraph S L entryPoints plan, KeepsEntries S L plan (splitCSV entryPoints) snap) ↔
      EntriesRecorded S L plan (splitCSV entryPoints) := by
  by_cases hcleaned : cleanedSeeds (splitCSV entryPoints) = []
  · -- nothing is walked from
    have hnone : ∀ {e}, e ∉ cleanedSeeds (splitCSV entryPoints) := by
      intro e
      rw [hcleaned]
      exact List.not_mem_nil
    exact iff_of_true (fun snap _ => ⟨fun e he => absurd he hnone, fun e he => absurd he hnone⟩)
      ⟨fun e he => absurd he hnone, fun e he => absurd he hnone⟩
  rw [snapshotFlowSubgraph_eq hcleaned]
  simp only [Option.mem_some_iff, forall_eq']
  have hprotected : ∀ {e}, e ∈ cleanedSeeds (splitCSV entryPoints) → e ∈ protectedNames (splitCSV entryPoints) :=
    fun he => mem_protectedNames_of_cleaned he
  constructor
  · rintro ⟨hseeds, hedges⟩
    refine ⟨fun e he f hnamed => ?_, fun e he f hnamed c hc hcalls x hx hxf hxne => ?_⟩
    · obtain ⟨e', he', hrec⟩ := (seedFile_iff hnamed.1).mp (hseeds e he f hnamed)
      rw [protectedNames_splitCSV] at he'
      exact ⟨e', he', hrec⟩
    · obtain ⟨hout, hin⟩ := hedges e he f hnamed c hc hcalls x hx hxf hxne
      constructor
      · intro hfrom hto
        exact .inr ((fileEdge_iff hnamed.1 hxf hxne.symm).mp (hout hfrom hto))
      · intro hto hfrom
        exact .inr ((fileEdge_iff hxf hnamed.1 hxne).mp (hin hto hfrom))
  · rintro ⟨hrecorded, hjoined⟩
    refine ⟨fun e he f hnamed => ?_, fun e he f hnamed c hc hcalls x hx hxf hxne => ?_⟩
    · obtain ⟨e', he', hrec⟩ := hrecorded e he f hnamed
      refine (seedFile_iff hnamed.1).mpr ⟨e', ?_, hrec⟩
      rwa [protectedNames_splitCSV]
    · obtain ⟨hout, hin⟩ := hjoined e he f hnamed c hc hcalls x hx hxf hxne
      have hself := joined_of_recorded plan (hprotected he) hnamed.1 hc hcalls hx
      constructor
      · intro hfrom hto
        refine (fileEdge_iff hnamed.1 hxf hxne.symm).mpr ?_
        rcases hout hfrom hto with hrec | hjoin
        · exact (hself hrec).1 hfrom hto
        · exact hjoin
      · intro hto hfrom
        refine (fileEdge_iff hxf hnamed.1 hxne).mpr ?_
        rcases hin hto hfrom with hrec | hjoin
        · exact (hself hrec).2 hto hfrom
        · exact hjoin

end Entries

/-- A graph of two functions in two files; the first calls the second. -/
def twoFunctions : Sidecar where
  answer _ rel name :=
    if rel = .callees ∧ name = "placeOrder" then some [⟨"placeOrder", "chargeCard", "src/payment.go"⟩]
    else if rel = .callers ∧ name = "chargeCard" then some [⟨"placeOrder", "chargeCard", "src/order.go"⟩]
    else some []
  nameHits _ _ := some 1

/-- **An entry point without a file**: the callers of the second function name the first with its file, but
the file has no node in the snapshot, and the call between the files no edge. -/
theorem twoFunctions_drops_entry :
    (¬ ∀ snap ∈ snapshotFlowSubgraph twoFunctions asciiRunes "placeOrder, chargeCard" .zero,
        KeepsEntries twoFunctions asciiRunes .zero (splitCSV "placeOrder, chargeCard") snap) ∧
      NamedIn twoFunctions asciiRunes ["placeOrder", "chargeCard"] "placeOrder" "src/order.go" ∧
        snapshotFlowSubgraph twoFunctions asciiRunes "placeOrder, chargeCard" .zero =
          some ⟨["src/payment.go"], [⟨"src/payment.go", "src/payment.go", .seed, 0⟩], [], false⟩ := by
  have hsplit : splitCSV "placeOrder, chargeCard" = ["placeOrder", "chargeCard"] := by decide +kernel
  have hnamed : NamedIn twoFunctions asciiRunes ["placeOrder", "chargeCard"] "placeOrder" "src/order.go" := by
    refine ⟨by decide, .callers, ⟨"placeOrder", "chargeCard", "src/order.go"⟩, ⟨11, "chargeCard", _, ?_, rfl, ?_⟩,
      rfl, rfl⟩
    · decide +kernel
    · decide +kernel
  have hsnap : snapshotFlowSubgraph twoFunctions asciiRunes "placeOrder, chargeCard" .zero =
      some ⟨["src/payment.go"], [⟨"src/payment.go", "src/payment.go", .seed, 0⟩], [], false⟩ := by
    decide +kernel
  refine ⟨fun hkeeps => ?_, hnamed, hsnap⟩
  -- `placeOrder` lies in its file, but only the callee's file is kept
  have hentry := hkeeps _ hsnap
  rw [hsplit] at hentry
  have hlisted := (hentry.seeds_kept "placeOrder" (by decide +kernel) "src/order.go" hnamed).2
  exact absurd hlisted (by decide)

end Devrouter
