import Mathlib.Data.Prod.Lex
import Mathlib.Data.String.Basic
import Devrouter.Codegraph.Complete
import Devrouter.Lib.StableSort
import Devrouter.Router.FlowSnapshot

/-!
# The collapse to files as a quotient

`collapseSubgraphToFileLevel` goes through the nodes once and keeps for every file the best role that it has met,
with the depth that is nearest to a seed in it (`sums_foldl`).

The outcome has a description that knows no order (`IsFileNode`, `IsFileEdge`). Where the depths of a role have one
sign it determines the nodes, and the nodes determine the sorts. So a collapse is a quotient
(`collapseSubgraphToFileLevel_quotient`), whatever the order of what comes in.
-/

namespace Devrouter

open Codegraph

/-! ### The two sorts -/

/-- What file nodes are sorted by. -/
def fileNodeKey (x : SubgraphNode) : ℕ ×ₗ String := toLex (fileRoleRank x.role, x.name)

/-- What edges are sorted by. -/
def edgeSortKey (e : SubgraphEdge) : String ×ₗ String ×ₗ String := toLex (e.etype, toLex (e.fromName, e.toName))

theorem fileNodeBefore_iff {a b : SubgraphNode} : fileNodeBefore a b = true ↔ fileNodeKey a ≤ fileNodeKey b := by
  unfold fileNodeBefore fileNodeKey
  rw [Prod.Lex.toLex_le_toLex]
  split_ifs with hrank
  · rw [decide_eq_true_iff]
    exact ⟨.inl, fun h => h.resolve_right fun hsame => hrank hsame.1⟩
  · rw [decide_eq_true_iff]
    rw [not_not] at hrank
    exact ⟨fun h => .inr ⟨hrank, h⟩, fun h => (h.resolve_left fun hlt => hlt.ne hrank).2⟩

theorem edgeBefore_iff {a b : SubgraphEdge} : edgeBefore a b = true ↔ edgeSortKey a ≤ edgeSortKey b := by
  unfold edgeBefore edgeSortKey
  rw [Prod.Lex.toLex_le_toLex, Prod.Lex.toLex_le_toLex]
  split_ifs with htype hfrom
  · rw [decide_eq_true_iff]
    exact ⟨.inl, fun h => h.resolve_right fun hsame => htype hsame.1⟩
  · rw [not_not] at htype
    rw [decide_eq_true_iff]
    refine ⟨fun h => .inr ⟨htype, .inl h⟩, fun h => ?_⟩
    exact (h.resolve_left fun hlt => hlt.ne htype).2.resolve_right fun hsame => hfrom hsame.1
  · rw [not_not] at htype hfrom
    rw [decide_eq_true_iff]
    refine ⟨fun h => .inr ⟨htype, .inr ⟨hfrom, h⟩⟩, fun h => ?_⟩
    exact ((h.resolve_left fun hlt => hlt.ne htype).2.resolve_left fun hlt => hlt.ne hfrom).2

instance : Std.Total fun a b : SubgraphNode => fileNodeBefore a b = true where
  total a b := by
    rw [fileNodeBefore_iff, fileNodeBefore_iff]
    exact le_total _ _

instance : IsTrans SubgraphNode fun a b => fileNodeBefore a b = true where
  trans a b c := by
    rw [fileNodeBefore_iff, fileNodeBefore_iff, fileNodeBefore_iff]
    exact le_trans

instance : Std.Total fun a b : SubgraphEdge => edgeBefore a b = true where
  total a b := by
    rw [edgeBefore_iff, edgeBefore_iff]
    exact le_total _ _

instance : IsTrans SubgraphEdge fun a b => edgeBefore a b = true where
  trans a b c := by
    rw [edgeBefore_iff, edgeBefore_iff, edgeBefore_iff]
    exact le_trans

/-- Nodes of different names do not tie. -/
theorem noTies_fileNodes {l : List SubgraphNode} (h : (l.map (·.name)).Nodup) :
    l.NoTies fun a b => fileNodeBefore a b = true := by
  intro a ha b hb hab hba
  have hkey := le_antisymm (fileNodeBefore_iff.mp hab) (fileNodeBefore_iff.mp hba)
  exact List.inj_on_of_nodup_map h ha hb (congrArg (fun k => (ofLex k).2) hkey)

/-- No two edges tie. -/
theorem noTies_edges (l : List SubgraphEdge) : l.NoTies fun a b => edgeBefore a b = true := by
  intro a _ b _ hab hba
  have hkey := le_antisymm (edgeBefore_iff.mp hab) (edgeBefore_iff.mp hba)
  have htype : a.etype = b.etype := congrArg (fun k => (ofLex k).1) hkey
  have hfrom : a.fromName = b.fromName := congrArg (fun k => (ofLex (ofLex k).2).1) hkey
  have hto : a.toName = b.toName := congrArg (fun k => (ofLex (ofLex k).2).2) hkey
  cases a
  cases b
  rw [SubgraphEdge.mk.injEq]
  exact ⟨hfrom, hto, htype⟩

/-! ### The quotient -/

section Quotient

variable (sg : Subgraph) (agentSeeds : List String)

/-- All symbols of one role are on the same side of the seeds. -/
def OneSided : Prop :=
  ∀ n ∈ sg.nodes, ∀ m ∈ sg.nodes, n.role = m.role → (0 ≤ n.depth ∧ 0 ≤ m.depth) ∨ (n.depth ≤ 0 ∧ m.depth ≤ 0)

/-- The file has an entry point of the agent in it. -/
def HoldsEntry (f : String) : Prop := ∃ n ∈ sg.nodes, n.filePath = f ∧ n.name ∈ protectedNames agentSeeds

/-- A file as a node: the best role of its symbols, and the depth nearest to a seed among those; a file with an
entry point is a seed. -/
structure IsFileNode (x : SubgraphNode) : Prop where
  path : x.filePath = x.name
  named : x.name ≠ ""
  inhabited : ∃ n ∈ sg.nodes, n.filePath = x.name
  entry : HoldsEntry sg agentSeeds x.name → x.role = .seed ∧ x.depth = 0
  attained : ¬ HoldsEntry sg agentSeeds x.name →
    ∃ n ∈ sg.nodes, n.filePath = x.name ∧ n.role = x.role ∧ n.depth = x.depth
  leads : ¬ HoldsEntry sg agentSeeds x.name → ∀ n ∈ sg.nodes, n.filePath = x.name → Leads x.role x.depth n

/-- The image of an edge between symbols of two files. -/
structure IsFileEdge (c : SubgraphEdge) : Prop where
  source_named : c.fromName ≠ ""
  target_named : c.toName ≠ ""
  no_loop : c.fromName ≠ c.toName
  image : ∃ e ∈ sg.edges, e.etype = c.etype ∧ (∃ n ∈ sg.nodes, n.name = e.fromName ∧ n.filePath = c.fromName) ∧
    ∃ n ∈ sg.nodes, n.name = e.toName ∧ n.filePath = c.toName

variable {sg agentSeeds}

theorem mem_entryFiles_iff (hnodup : (sg.nodes.map (·.name)).Nodup) {f : String} (hf : f ≠ "") :
    f ∈ entryFiles sg.nodes agentSeeds ↔ HoldsEntry sg agentSeeds f := by
  unfold entryFiles HoldsEntry
  rw [List.mem_filter, List.mem_map]
  constructor
  · rintro ⟨⟨s, hs, hfile⟩, -⟩
    obtain ⟨n, hn, hname, hpath⟩ := (fnToFile_eq_iff hnodup hf).mp hfile
    exact ⟨n, hn, hpath, hname.symm ▸ hs⟩
  · rintro ⟨n, hn, hpath, hentry⟩
    exact ⟨⟨n.name, hentry, (fnToFile_eq_iff hnodup hf).mpr ⟨n, hn, rfl, hpath⟩⟩, decide_eq_true hf⟩

/-- The nodes before they are sorted. -/
theorem collapsedNodes_perm :
    (collapsedNodes sg agentSeeds).Perm ((sg.nodes.foldl aggregateNode []).map fun a =>
      if a.path ∈ entryFiles sg.nodes agentSeeds then ⟨a.path, a.path, .seed, 0⟩ else ⟨a.path, a.path, a.role, a.depth⟩) := by
  unfold collapsedNodes collapsedFiles
  rw [foldl_promoteFile, List.map_map]
  refine (List.perm_insertionSort _ _).trans (List.Perm.of_eq (List.map_congr_left fun a _ => ?_))
  rw [Function.comp_apply]
  split_ifs
  · rfl
  · rfl

theorem collapsedNodes_names_nodup : ((collapsedNodes sg agentSeeds).map (·.name)).Nodup := by
  have hnames : ((sg.nodes.foldl aggregateNode []).map fun a =>
      if a.path ∈ entryFiles sg.nodes agentSeeds then (⟨a.path, a.path, .seed, 0⟩ : SubgraphNode)
      else ⟨a.path, a.path, a.role, a.depth⟩).map (·.name) = (sg.nodes.foldl aggregateNode []).map (·.path) := by
    rw [List.map_map]
    refine List.map_congr_left fun a _ => ?_
    rw [Function.comp_apply]
    split_ifs
    · rfl
    · rfl
  rw [(collapsedNodes_perm.map _).nodup_iff, hnames]
  exact (sums_foldl sg.nodes).paths_nodup

theorem isFileNode_of_mem (hnodup : (sg.nodes.map (·.name)).Nodup) {x : SubgraphNode}
    (hx : x ∈ collapsedNodes sg agentSeeds) : IsFileNode sg agentSeeds x := by
  have hsums := sums_foldl sg.nodes
  obtain ⟨a, ha, rfl⟩ := List.mem_map.mp (collapsedNodes_perm.subset hx)
  have hne := hsums.named a ha
  have hentry : a.path ∈ entryFiles sg.nodes agentSeeds ↔ HoldsEntry sg agentSeeds a.path :=
    mem_entryFiles_iff hnodup hne
  obtain ⟨m, hm, hfile, hrole, hdepth⟩ := hsums.attained a ha
  by_cases hpromoted : a.path ∈ entryFiles sg.nodes agentSeeds
  · rw [if_pos hpromoted]
    have hholds := hentry.mp hpromoted
    exact ⟨rfl, hne, ⟨m, hm, hfile⟩, fun _ => ⟨rfl, rfl⟩, fun h => absurd hholds h, fun h => absurd hholds h⟩
  · rw [if_neg hpromoted]
    have hfree : ¬ HoldsEntry sg agentSeeds a.path := fun h => hpromoted (hentry.mpr h)
    exact ⟨rfl, hne, ⟨m, hm, hfile⟩, fun h => absurd h hfree, fun _ => ⟨m, hm, hfile, hrole, hdepth⟩,
      fun _ => hsums.leads a ha⟩

/-- Every file has a node. -/
theorem exists_collapsedNode {n : SubgraphNode} (hn : n ∈ sg.nodes) (hne : n.filePath ≠ "") :
    ∃ x ∈ collapsedNodes sg agentSeeds, x.name = n.filePath := by
  obtain ⟨a, ha, hpa⟩ := (sums_foldl sg.nodes).covers n hn hne
  refine ⟨_, collapsedNodes_perm.symm.subset (List.mem_map_of_mem ha), ?_⟩
  split_ifs
  · exact hpa
  · exact hpa

/-- **One node for a file.** -/
theorem IsFileNode.unique (hsided : OneSided sg) {x y : SubgraphNode} (hx : IsFileNode sg agentSeeds x)
    (hy : IsFileNode sg agentSeeds y) (hname : x.name = y.name) : x = y := by
  have hsame : x.role = y.role ∧ x.depth = y.depth := by
    by_cases hentry : HoldsEntry sg agentSeeds x.name
    · obtain ⟨hxrole, hxdepth⟩ := hx.entry hentry
      obtain ⟨hyrole, hydepth⟩ := hy.entry (hname ▸ hentry)
      exact ⟨hxrole.trans hyrole.symm, hxdepth.trans hydepth.symm⟩
    · -- each is attained by a symbol that the other leads
      have hentry' : ¬ HoldsEntry sg agentSeeds y.name := hname ▸ hentry
      obtain ⟨n, hn, hnfile, hnrole, hndepth⟩ := hx.attained hentry
      obtain ⟨m, hm, hmfile, hmrole, hmdepth⟩ := hy.attained hentry'
      have hxm := hx.leads hentry m hm (hmfile.trans hname.symm)
      have hyn := hy.leads hentry' n hn (hnfile.trans hname)
      have hrole : x.role = y.role := by
        refine fileRoleRank_injective (le_antisymm ?_ ?_)
        · exact hmrole ▸ hxm.1
        · exact hnrole ▸ hyn.1
      have hle := hxm.2 (hmrole.trans hrole.symm)
      have hge := hyn.2 (hnrole.trans hrole)
      have hside := hsided n hn m hm (hnrole.trans (hrole.trans hmrole.symm))
      rw [hmdepth] at hle hside
      rw [hndepth] at hge hside
      exact ⟨hrole, by omega⟩
  cases x
  cases y
  obtain ⟨hrole, hdepth⟩ := hsame
  rw [SubgraphNode.mk.injEq]
  exact ⟨hname, hx.path.trans (hname.trans hy.path.symm), hrole, hdepth⟩

/-- **The nodes** of a collapse. -/
theorem mem_collapsedNodes_iff (hnodup : (sg.nodes.map (·.name)).Nodup) (hsided : OneSided sg) {x : SubgraphNode} :
    x ∈ collapsedNodes sg agentSeeds ↔ IsFileNode sg agentSeeds x := by
  refine ⟨isFileNode_of_mem hnodup, fun hx => ?_⟩
  obtain ⟨n, hn, hfile⟩ := hx.inhabited
  obtain ⟨y, hy, hyname⟩ := exists_collapsedNode hn (hfile ▸ hx.named)
  have hsame : x = y := hx.unique hsided (isFileNode_of_mem hnodup hy) (hfile.symm.trans hyname.symm)
  exact hsame ▸ hy

theorem ends_of_resolveEdge {e c : SubgraphEdge} (h : resolveEdge sg agentSeeds e = some c) :
    c.fromName ≠ "" ∧ c.toName ≠ "" ∧ c.fromName ≠ c.toName := by
  unfold resolveEdge at h
  dsimp only at h
  split_ifs at h with hnone
  rw [not_or, not_or] at hnone
  rw [← Option.some.inj h]
  exact hnone

/-- **The edges** of a collapse. -/
theorem mem_collapsedEdges_iff (hnodup : (sg.nodes.map (·.name)).Nodup) {c : SubgraphEdge} :
    c ∈ (collapseSubgraphToFileLevel sg agentSeeds).edges ↔ IsFileEdge sg c := by
  have hends : ∀ (hf : c.fromName ≠ "") (hg : c.toName ≠ "") (hfg : c.fromName ≠ c.toName),
      c ∈ (collapseSubgraphToFileLevel sg agentSeeds).edges ↔
        ∃ e ∈ sg.edges, e.etype = c.etype ∧
          (∃ n ∈ sg.nodes, n.name = e.fromName ∧ n.filePath = c.fromName) ∧
            ∃ n ∈ sg.nodes, n.name = e.toName ∧ n.filePath = c.toName := by
    intro hf hg hfg
    refine (mem_collapse_edges_iff hf hg hfg).trans ?_
    refine exists_congr fun e => and_congr_right fun _ => and_congr_right fun _ => ?_
    rw [fnToFile_eq_iff hnodup hf, fnToFile_eq_iff hnodup hg]
  constructor
  · -- an edge between files is the image of a symbols' edge whose ends lie in them
    intro hc
    have hmem : c ∈ ((sg.edges.filterMap (resolveEdge sg agentSeeds)).eraseDups).insertionSort _ := hc
    rw [List.mem_insertionSort, List.mem_eraseDups, List.mem_filterMap] at hmem
    obtain ⟨e, -, hresolve⟩ := hmem
    obtain ⟨hf, hg, hfg⟩ := ends_of_resolveEdge hresolve
    exact ⟨hf, hg, hfg, (hends hf hg hfg).mp hc⟩
  · intro hc
    exact (hends hc.source_named hc.target_named hc.no_loop).mpr hc.image

theorem collapsedEdges_nodup : (collapseSubgraphToFileLevel sg agentSeeds).edges.Nodup :=
  (List.perm_insertionSort _ _).nodup_iff.mpr (List.nodup_eraseDups _)

/-! ### The order of what comes in -/

variable {sg' : Subgraph}

theorem fnToFile_perm (hnodup : (sg.nodes.map (·.name)).Nodup) (hnodes : sg'.nodes.Perm sg.nodes) (name : String) :
    fnToFile sg'.nodes name = fnToFile sg.nodes name := by
  have hnodup' : (sg'.nodes.map (·.name)).Nodup := (hnodes.map _).nodup_iff.mpr hnodup
  have hsame : ∀ f, f ≠ "" → (fnToFile sg'.nodes name = f ↔ fnToFile sg.nodes name = f) := by
    intro f hf
    rw [fnToFile_eq_iff hnodup' hf, fnToFile_eq_iff hnodup hf]
    exact exists_congr fun n => and_congr_left fun _ => hnodes.mem_iff
  by_cases hblank : fnToFile sg.nodes name = ""
  · rw [hblank]
    by_contra hne
    exact hne ((hsame _ hne).mp rfl ▸ hblank)
  · exact (hsame _ hblank).mpr rfl

theorem holdsEntry_perm (hnodes : sg'.nodes.Perm sg.nodes) (f : String) :
    HoldsEntry sg' agentSeeds f ↔ HoldsEntry sg agentSeeds f :=
  exists_congr fun _ => and_congr_left fun _ => hnodes.mem_iff

theorem IsFileNode.perm (hnodes : sg'.nodes.Perm sg.nodes) {x : SubgraphNode} (h : IsFileNode sg agentSeeds x) :
    IsFileNode sg' agentSeeds x := by
  have hentry : HoldsEntry sg' agentSeeds x.name ↔ HoldsEntry sg agentSeeds x.name := holdsEntry_perm hnodes x.name
  obtain ⟨n, hn, hfile⟩ := h.inhabited
  refine ⟨h.path, h.named, ⟨n, hnodes.mem_iff.mpr hn, hfile⟩, fun he => h.entry (hentry.mp he), fun he => ?_,
    fun he m hm => h.leads (fun hholds => he (hentry.mpr hholds)) m (hnodes.mem_iff.mp hm)⟩
  obtain ⟨m, hm, hattains⟩ := h.attained fun hholds => he (hentry.mpr hholds)
  exact ⟨m, hnodes.mem_iff.mpr hm, hattains⟩

theorem OneSided.perm (hsided : OneSided sg) (hnodes : sg'.nodes.Perm sg.nodes) : OneSided sg' :=
  fun n hn m hm => hsided n (hnodes.mem_iff.mp hn) m (hnodes.mem_iff.mp hm)

theorem IsFileEdge.perm (hnodes : sg'.nodes.Perm sg.nodes) (hedges : sg'.edges.Perm sg.edges) {c : SubgraphEdge}
    (h : IsFileEdge sg c) : IsFileEdge sg' c := by
  obtain ⟨e, he, htype, ⟨n, hn, hsource⟩, m, hm, htarget⟩ := h.image
  exact ⟨h.source_named, h.target_named, h.no_loop, e, hedges.mem_iff.mpr he, htype,
    ⟨n, hnodes.mem_iff.mpr hn, hsource⟩, m, hnodes.mem_iff.mpr hm, htarget⟩

/-- Every sorted arrangement of the nodes is the one that is returned. -/
theorem collapsedNodes_unique {l : List SubgraphNode} (hperm : l.Perm (collapsedNodes sg agentSeeds))
    (hsorted : l.Pairwise fun a b => fileNodeBefore a b = true) : l = collapsedNodes sg agentSeeds := by
  have hinput := (List.perm_insertionSort (fun a b => fileNodeBefore a b)
    ((collapsedFiles sg agentSeeds).map fun a => ⟨a.path, a.path, a.role, a.depth⟩)).symm
  have hnodup := (hinput.map (·.name)).nodup_iff.mpr collapsedNodes_names_nodup
  exact (noTies_fileNodes hnodup).eq_insertionSort (hperm.trans hinput.symm) hsorted

theorem collapsedNodes_sorted : (collapsedNodes sg agentSeeds).Pairwise fun a b => fileNodeBefore a b = true :=
  List.pairwise_insertionSort _ _

theorem collapsedNodes_perm_input (agentSeeds : List String) (hnodup : (sg.nodes.map (·.name)).Nodup) (hsided : OneSided sg)
    (hnodes : sg'.nodes.Perm sg.nodes) : collapsedNodes sg' agentSeeds = collapsedNodes sg agentSeeds := by
  have hnodup' : (sg'.nodes.map (·.name)).Nodup := (hnodes.map _).nodup_iff.mpr hnodup
  refine collapsedNodes_unique ?_ collapsedNodes_sorted
  refine (List.perm_ext_iff_of_nodup collapsedNodes_names_nodup.of_map
    collapsedNodes_names_nodup.of_map).mpr fun x => ?_
  rw [mem_collapsedNodes_iff hnodup' (hsided.perm hnodes), mem_collapsedNodes_iff hnodup hsided]
  exact ⟨fun h => h.perm hnodes.symm, fun h => h.perm hnodes⟩

/-- Every sorted arrangement of the edges is the one that is returned. -/
theorem collapsedEdges_unique {l : List SubgraphEdge}
    (hperm : l.Perm (collapseSubgraphToFileLevel sg agentSeeds).edges)
    (hsorted : l.Pairwise fun a b => edgeBefore a b = true) : l = (collapseSubgraphToFileLevel sg agentSeeds).edges :=
  (noTies_edges _).eq_insertionSort (hperm.trans (List.perm_insertionSort _ _)) hsorted

theorem collapsedEdges_perm_input (hnodup : (sg.nodes.map (·.name)).Nodup) (hnodes : sg'.nodes.Perm sg.nodes)
    (hedges : sg'.edges.Perm sg.edges) :
    (collapseSubgraphToFileLevel sg' agentSeeds).edges = (collapseSubgraphToFileLevel sg agentSeeds).edges := by
  have hnodup' : (sg'.nodes.map (·.name)).Nodup := (hnodes.map _).nodup_iff.mpr hnodup
  refine collapsedEdges_unique ?_ (List.pairwise_insertionSort _ _)
  refine (List.perm_ext_iff_of_nodup collapsedEdges_nodup collapsedEdges_nodup).mpr fun c => ?_
  rw [mem_collapsedEdges_iff hnodup', mem_collapsedEdges_iff hnodup]
  exact ⟨fun h => h.perm hnodes.symm hedges.symm, fun h => h.perm hnodes hedges⟩

/-- The paths of the entries are the names of the nodes. -/
theorem collapsedFiles_any (f : String) :
    (collapsedFiles sg agentSeeds).any (·.path = f) = (collapsedNodes sg agentSeeds).any (·.name = f) := by
  have hperm := List.perm_insertionSort (fun a b => fileNodeBefore a b)
    ((collapsedFiles sg agentSeeds).map fun a => (⟨a.path, a.path, a.role, a.depth⟩ : SubgraphNode))
  unfold collapsedNodes
  rw [hperm.any_eq, List.any_map]
  rfl

theorem collapsedSeeds_perm_input (agentSeeds : List String) (hnodup : (sg.nodes.map (·.name)).Nodup) (hsided : OneSided sg)
    (hnodes : sg'.nodes.Perm sg.nodes) : collapsedSeeds sg' agentSeeds = collapsedSeeds sg agentSeeds := by
  unfold collapsedSeeds
  simp only [collapsedFiles_any, collapsedNodes_perm_input agentSeeds hnodup hsided hnodes, fnToFile_perm hnodup hnodes]

end Quotient

/-- What the collapse of a subgraph is. -/
structure FileQuotient (sg : Subgraph) (agentSeeds : List String) (out : Subgraph) : Prop where
  names_nodup : (out.nodes.map (·.name)).Nodup
  names_iff : ∀ f, (∃ x ∈ out.nodes, x.name = f) ↔ f ≠ "" ∧ ∃ n ∈ sg.nodes, n.filePath = f
  nodes_best : ∀ x ∈ out.nodes, IsFileNode sg agentSeeds x
  edges_nodup : out.edges.Nodup
  edges_iff : ∀ c, c ∈ out.edges ↔ IsFileEdge sg c
  /-- A sort that is not stable, over files in any order, gives the same. -/
  nodes_unique : ∀ l, l.Perm out.nodes → (l.Pairwise fun a b => fileNodeBefore a b = true) → l = out.nodes
  edges_unique : ∀ l, l.Perm out.edges → (l.Pairwise fun a b => edgeBefore a b = true) → l = out.edges
  unordered : ∀ sg' : Subgraph, sg'.nodes.Perm sg.nodes → sg'.edges.Perm sg.edges → sg'.truncated = sg.truncated →
    collapseSubgraphToFileLevel sg' agentSeeds = out

/-- **The collapse** is the quotient by files. -/
theorem collapseSubgraphToFileLevel_quotient (sg : Subgraph) (agentSeeds : List String)
    (hnodup : (sg.nodes.map (·.name)).Nodup) (hsided : OneSided sg) :
    FileQuotient sg agentSeeds (collapseSubgraphToFileLevel sg agentSeeds) where
  names_nodup := collapsedNodes_names_nodup
  names_iff := fun f => by
    constructor
    · rintro ⟨x, hx, rfl⟩
      have hnode := isFileNode_of_mem hnodup hx
      exact ⟨hnode.named, hnode.inhabited⟩
    · rintro ⟨hne, n, hn, rfl⟩
      exact exists_collapsedNode hn hne
  nodes_best := fun _ hx => isFileNode_of_mem hnodup hx
  edges_nodup := collapsedEdges_nodup
  edges_iff := fun _ => mem_collapsedEdges_iff hnodup
  nodes_unique := fun _ => collapsedNodes_unique
  edges_unique := fun _ => collapsedEdges_unique
  unordered := fun sg' hnodes hedges htruncated => by
    -- names of symbols are unique, so the file of a symbol does not depend on the order
    have hseeds := collapsedSeeds_perm_input agentSeeds hnodup hsided hnodes
    have hfiles := collapsedNodes_perm_input agentSeeds hnodup hsided hnodes
    unfold collapseSubgraphToFileLevel
    rw [Subgraph.mk.injEq]
    exact ⟨hseeds, hfiles, collapsedEdges_perm_input hnodup hnodes hedges, htruncated⟩

/-- Two symbols in one file, one of them an entry point. -/
def checkout : Subgraph where
  seeds := ["placeOrder"]
  nodes := [⟨"placeOrder", "src/order.go", .caller, -2⟩, ⟨"total", "src/order.go", .callee, 1⟩,
    ⟨"chargeCard", "src/payment.go", .callee, 1⟩]
  edges := [⟨"placeOrder", "total", "CALLS"⟩, ⟨"placeOrder", "chargeCard", "CALLS"⟩]
  truncated := false

theorem checkout_quotient :
    FileQuotient checkout ["placeOrder"] (collapseSubgraphToFileLevel checkout ["placeOrder"]) :=
  collapseSubgraphToFileLevel_quotient checkout ["placeOrder"] (by decide) (by unfold OneSided; decide)

/-- **The depth of a seed file** is that of no symbol when its entry point has another role. -/
theorem checkout_promoted :
    (checkout.nodes.map (·.name)).Nodup ∧ OneSided checkout ∧
      ¬ ∀ x ∈ (collapseSubgraphToFileLevel checkout ["placeOrder"]).nodes,
        ∃ n ∈ checkout.nodes, n.filePath = x.name ∧ n.role = x.role ∧ n.depth = x.depth := by
  refine ⟨by decide, by unfold OneSided; decide, fun h => ?_⟩
  have hfile : (⟨"src/order.go", "src/order.go", .seed, 0⟩ : SubgraphNode) ∈
      (collapseSubgraphToFileLevel checkout ["placeOrder"]).nodes := by decide +kernel
  have hnone : ∀ n ∈ checkout.nodes, n.role ≠ .seed := by decide
  obtain ⟨n, hn, -, hrole, -⟩ := h _ hfile
  exact hnone n hn hrole

end Devrouter
