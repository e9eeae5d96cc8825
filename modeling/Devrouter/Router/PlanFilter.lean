import Devrouter.Codegraph.Complete
import Devrouter.Router.FlowSnapshot

/-!
# The plan filter of a snapshot

`filterSubgraphByPlan` decides for each node whether it is kept, then drops the edges without kept ends, then the
nodes that are left alone. Entry points of the agent are exempt from the first and the last.

The result is well formed for every plan that has must terms or exclude terms (`filterSubgraphByPlan_wellFormed`);
another plan lets the subgraph through as it is.

A node that does not match the plan is kept next to a relevant seed. What counts is the subgraph that comes in,
so the seed itself can be dropped by an exclude term (`filterSubgraphByPlan_passes`). Filtering once more then finds
the node without its seed.
-/

namespace Devrouter

open Codegraph

/-- A plan that the filter acts on. -/
def QueryPlan.Gates (plan : QueryPlan) : Prop := plan.mustTerms ≠ [] ∨ plan.excludeTerms ≠ []

/-- The node matches a must term. -/
def CarriesMust (L : RuneLower) (plan : QueryPlan) (n : SubgraphNode) : Prop :=
  containsAnyTerm L (L.lower (n.name ++ " " ++ n.filePath)) plan.mustTerms = true

/-- An edge joins the two names, one way or the other. -/
def Adjacent (sg : Subgraph) (s x : String) : Prop :=
  ∃ e ∈ sg.edges, (e.fromName = s ∧ e.toName = x) ∨ (e.toName = s ∧ e.fromName = x)

section Kept

variable {L : RuneLower} {sg : Subgraph} {plan : QueryPlan} {agentSeeds : List String} {n : SubgraphNode}

theorem adjacentToRelevant_iff {x : String} :
    adjacentToRelevant L sg plan x = true ↔ ∃ s, relevantSeed L sg plan s = true ∧ Adjacent sg s x := by
  unfold adjacentToRelevant Adjacent
  rw [List.any_eq_true]
  constructor
  · rintro ⟨e, he, h⟩
    rcases (Bool.or_eq_true _ _).mp h with h | h
    · obtain ⟨hs, hx⟩ := (Bool.and_eq_true _ _).mp h
      exact ⟨e.fromName, hs, e, he, .inl ⟨rfl, of_decide_eq_true hx⟩⟩
    · obtain ⟨hs, hx⟩ := (Bool.and_eq_true _ _).mp h
      exact ⟨e.toName, hs, e, he, .inr ⟨rfl, of_decide_eq_true hx⟩⟩
  · rintro ⟨s, hs, e, he, ⟨rfl, rfl⟩ | ⟨rfl, rfl⟩⟩
    · exact ⟨e, he, by simp [hs]⟩
    · exact ⟨e, he, by simp [hs]⟩

/-- Where names are told apart, the text of a name is that of its node. -/
theorem nodeText_eq (hnodup : (sg.nodes.map (·.name)).Nodup) (hn : n ∈ sg.nodes) :
    nodeText L sg.nodes n.name = L.lower (n.name ++ " " ++ n.filePath) := by
  have hnamed : nodeNamed sg.nodes n.name = some n := by
    unfold nodeNamed
    cases hfind : sg.nodes.reverse.find? (·.name = n.name) with
    | none => exact absurd (List.find?_eq_none.mp hfind n (List.mem_reverse.mpr hn)) (by simp)
    | some m =>
      have hm := List.mem_reverse.mp (List.mem_of_find?_eq_some hfind)
      have hname : m.name = n.name := by simpa using List.find?_some hfind
      rw [List.inj_on_of_nodup_map hnodup hm hn hname]
  unfold nodeText
  rw [hnamed]
  rfl

theorem keptName_iff_exists {x : String} :
    keptName L sg plan agentSeeds x = true ↔ ∃ n ∈ sg.nodes, n.name = x ∧ keepNode L sg plan agentSeeds n = true := by
  unfold keptName
  rw [List.any_eq_true]
  refine exists_congr fun n => and_congr_right fun _ => ?_
  rw [Bool.and_eq_true, decide_eq_true_iff]

theorem keptName_iff (hnodup : (sg.nodes.map (·.name)).Nodup) (hn : n ∈ sg.nodes) :
    keptName L sg plan agentSeeds n.name = true ↔ keepNode L sg plan agentSeeds n = true := by
  rw [keptName_iff_exists]
  constructor
  · rintro ⟨m, hm, hname, hkeep⟩
    rwa [List.inj_on_of_nodup_map hnodup hm hn hname] at hkeep
  · exact fun hkeep => ⟨n, hn, rfl, hkeep⟩

theorem mem_keptEdges {e : SubgraphEdge} :
    e ∈ keptEdges L sg plan agentSeeds ↔
      e ∈ sg.edges ∧ keptName L sg plan agentSeeds e.fromName = true ∧
        keptName L sg plan agentSeeds e.toName = true := by
  unfold keptEdges
  rw [List.mem_filter, Bool.and_eq_true]

theorem referenced_iff {x : String} :
    referenced L sg plan agentSeeds x = true ↔
      x ∈ protectedNames agentSeeds ∨ ∃ e ∈ keptEdges L sg plan agentSeeds, e.fromName = x ∨ e.toName = x := by
  unfold referenced
  rw [Bool.or_eq_true, decide_eq_true_iff, List.any_eq_true]
  refine or_congr_right (exists_congr fun e => and_congr_right fun _ => ?_)
  rw [Bool.or_eq_true, decide_eq_true_iff, decide_eq_true_iff]

theorem mem_keptNodes :
    n ∈ keptNodes L sg plan agentSeeds ↔
      n ∈ sg.nodes ∧ keptName L sg plan agentSeeds n.name = true ∧ referenced L sg plan agentSeeds n.name = true := by
  unfold keptNodes
  rw [List.mem_filter, Bool.and_eq_true]

/-- Both ends of a kept edge are kept nodes. -/
theorem ends_of_mem_keptEdges {e : SubgraphEdge} (he : e ∈ keptEdges L sg plan agentSeeds) :
    (∃ n ∈ keptNodes L sg plan agentSeeds, n.name = e.fromName) ∧
      ∃ n ∈ keptNodes L sg plan agentSeeds, n.name = e.toName := by
  obtain ⟨-, hfrom, hto⟩ := mem_keptEdges.mp he
  obtain ⟨n, hn, hname, -⟩ := keptName_iff_exists.mp hfrom
  obtain ⟨m, hm, hmname, -⟩ := keptName_iff_exists.mp hto
  constructor
  · refine ⟨n, mem_keptNodes.mpr ⟨hn, hname ▸ hfrom, referenced_iff.mpr (.inr ⟨e, he, .inl hname.symm⟩)⟩, hname⟩
  · refine ⟨m, mem_keptNodes.mpr ⟨hm, hmname ▸ hto, referenced_iff.mpr (.inr ⟨e, he, .inr hmname.symm⟩)⟩, hmname⟩

/-- **Kept edges** are the edges between kept nodes. -/
theorem keptEdges_eq :
    keptEdges L sg plan agentSeeds =
      sg.edges.filter fun e => decide (∃ n ∈ keptNodes L sg plan agentSeeds, n.name = e.fromName) &&
        decide (∃ n ∈ keptNodes L sg plan agentSeeds, n.name = e.toName) := by
  unfold keptEdges
  refine List.filter_congr fun e he => ?_
  rw [Bool.eq_iff_iff, Bool.and_eq_true, Bool.and_eq_true, decide_eq_true_iff, decide_eq_true_iff]
  constructor
  · exact fun h => ends_of_mem_keptEdges (mem_keptEdges.mpr ⟨he, h⟩)
  · rintro ⟨⟨n, hn, hfrom⟩, m, hm, hto⟩
    exact ⟨hfrom ▸ (mem_keptNodes.mp hn).2.1, hto ▸ (mem_keptNodes.mp hm).2.1⟩

theorem filterSubgraphByPlan_eq (h : plan.Gates) :
    filterSubgraphByPlan L sg plan agentSeeds =
      { sg with
        seeds := sg.seeds.filter fun s => (keptNodes L sg plan agentSeeds).any (·.name = s)
        nodes := keptNodes L sg plan agentSeeds
        edges := keptEdges L sg plan agentSeeds } := by
  refine if_neg ?_
  rintro ⟨hmust, hexclude⟩
  exact h.elim (fun hne => hne hmust) fun hne => hne hexclude

theorem filterSubgraphByPlan_of_not_gates (h : ¬ plan.Gates) : filterSubgraphByPlan L sg plan agentSeeds = sg := by
  unfold QueryPlan.Gates at h
  rw [not_or, not_not, not_not] at h
  exact if_pos h

end Kept

/-! ### A well-formed result -/

/-- What the filter makes of a subgraph. -/
structure WellFiltered (L : RuneLower) (sg : Subgraph) (plan : QueryPlan) (agentSeeds : List String)
    (out : Subgraph) : Prop where
  nodes_sublist : out.nodes.Sublist sg.nodes
  edges_eq : out.edges =
    sg.edges.filter fun e => decide (∃ n ∈ out.nodes, n.name = e.fromName) && decide (∃ n ∈ out.nodes, n.name = e.toName)
  entries_kept : ∀ n ∈ sg.nodes, n.name ∈ protectedNames agentSeeds → n ∈ out.nodes
  none_excluded : ∀ n ∈ out.nodes, n.name ∉ protectedNames agentSeeds →
    shouldExcludeGraphTarget L n.name n.filePath plan.excludeTerms = false
  seeds_eq : plan.Gates → out.seeds = sg.seeds.filter fun s => decide (∃ n ∈ out.nodes, n.name = s)
  none_alone : plan.Gates → ∀ n ∈ out.nodes, n.name ∉ protectedNames agentSeeds →
    ∃ e ∈ out.edges, e.fromName = n.name ∨ e.toName = n.name
  let_through : ¬ plan.Gates → out = sg

/-- **The filter** keeps subgraphs well formed. -/
theorem filterSubgraphByPlan_wellFormed (L : RuneLower) (sg : Subgraph) (plan : QueryPlan) (agentSeeds : List String)
    (hnodup : (sg.nodes.map (·.name)).Nodup) (hjoins : ∀ e ∈ sg.edges, sg.Has e.fromName ∧ sg.Has e.toName) :
    WellFiltered L sg plan agentSeeds (filterSubgraphByPlan L sg plan agentSeeds) := by
  by_cases hgates : plan.Gates
  · rw [filterSubgraphByPlan_eq hgates]
    refine ⟨List.filter_sublist, keptEdges_eq, fun n hn => mem_keptNodes_of_protected hn, fun n hn hfree => ?_,
      fun _ => ?_, fun _ n hn hfree => ?_, fun h => absurd hgates h⟩
    · obtain ⟨hmem, hkept, -⟩ := mem_keptNodes.mp hn
      have hkeep := (keptName_iff hnodup hmem).mp hkept
      unfold keepNode at hkeep
      rw [if_neg hfree] at hkeep
      cases hexclude : shouldExcludeGraphTarget L n.name n.filePath plan.excludeTerms with
      | false => rfl
      | true =>
        rw [hexclude, if_pos rfl] at hkeep
        exact absurd hkeep (by decide)
    · refine List.filter_congr fun s _ => ?_
      rw [Bool.eq_iff_iff, List.any_eq_true, decide_eq_true_iff]
      exact exists_congr fun n => and_congr_right fun _ => decide_eq_true_iff
    · exact (referenced_iff.mp (mem_keptNodes.mp hn).2.2).resolve_left hfree
  · -- the subgraph is let through, and without exclude terms nothing is excluded
    rw [filterSubgraphByPlan_of_not_gates hgates]
    refine ⟨List.Sublist.refl _, ?_, fun n hn _ => hn, fun n _ _ => ?_, fun h => absurd h hgates,
      fun h => absurd h hgates, fun _ => rfl⟩
    · refine (List.filter_eq_self.mpr fun e he => ?_).symm
      obtain ⟨hfrom, hto⟩ := hjoins e he
      exact (Bool.and_eq_true _ _).mpr ⟨decide_eq_true hfrom, decide_eq_true hto⟩
    · unfold QueryPlan.Gates at hgates
      rw [not_or, not_not, not_not] at hgates
      rw [hgates.2]
      rfl

/-- A call that `placeOrder` makes, a helper that nothing refers to, and the plan filter off. -/
def orders : Subgraph where
  seeds := ["placeOrder"]
  nodes := [⟨"placeOrder", "src/order.go", .seed, 0⟩, ⟨"chargeCard", "src/payment.go", .callee, 1⟩,
    ⟨"formatDate", "src/date.go", .callee, 1⟩]
  edges := [⟨"placeOrder", "chargeCard", "CALLS"⟩]
  truncated := false

def paymentPlan : QueryPlan := { QueryPlan.zero with mustTerms := ["payment"], excludeTerms := ["test"] }

theorem orders_wellFiltered :
    WellFiltered asciiRunes orders paymentPlan ["placeOrder"]
      (filterSubgraphByPlan asciiRunes orders paymentPlan ["placeOrder"]) :=
  filterSubgraphByPlan_wellFormed asciiRunes orders paymentPlan ["placeOrder"] (by decide) (by unfold Subgraph.Has; decide)

/-- **Left alone**: without a plan the filter keeps a node that no edge refers to. -/
theorem orders_unfiltered_alone :
    (orders.nodes.map (·.name)).Nodup ∧ (∀ e ∈ orders.edges, orders.Has e.fromName ∧ orders.Has e.toName) ∧
      ¬ ∀ n ∈ (filterSubgraphByPlan asciiRunes orders .zero ["placeOrder"]).nodes,
        n.name ∉ protectedNames ["placeOrder"] →
          ∃ e ∈ (filterSubgraphByPlan asciiRunes orders .zero ["placeOrder"]).edges,
            e.fromName = n.name ∨ e.toName = n.name := by
  refine ⟨by decide, by unfold Subgraph.Has; decide, fun h => ?_⟩
  have halone := h ⟨"formatDate", "src/date.go", .callee, 1⟩ (by decide) (by decide +kernel)
  exact absurd halone (by decide)

/-! ### Free passes -/

/-- Every node without a must term, entry points apart, is next to a relevant seed. -/
def Justified (L : RuneLower) (sg : Subgraph) (plan : QueryPlan) (agentSeeds : List String) : Prop :=
  ∀ n ∈ sg.nodes, n.name ∉ protectedNames agentSeeds →
    CarriesMust L plan n ∨ ∃ s, relevantSeed L sg plan s = true ∧ Adjacent sg s n.name

/-- The seed is a node that the filter does not exclude. -/
def Stays (L : RuneLower) (sg : Subgraph) (plan : QueryPlan) (agentSeeds : List String) (s : String) : Prop :=
  ∃ m ∈ sg.nodes, m.name = s ∧
    (s ∈ protectedNames agentSeeds ∨ shouldExcludeGraphTarget L m.name m.filePath plan.excludeTerms = false)

section Passes

variable {L : RuneLower} {sg : Subgraph} {plan : QueryPlan} {agentSeeds : List String} {n : SubgraphNode}

/-- Why a node is kept that is not an entry point. -/
theorem keepNode_iff (hmust : plan.mustTerms ≠ []) (hnodup : (sg.nodes.map (·.name)).Nodup) (hn : n ∈ sg.nodes)
    (hfree : n.name ∉ protectedNames agentSeeds) :
    keepNode L sg plan agentSeeds n = true ↔
      shouldExcludeGraphTarget L n.name n.filePath plan.excludeTerms = false ∧
        (CarriesMust L plan n ∨
          n.depth.natAbs = 1 ∧ ∃ s, relevantSeed L sg plan s = true ∧ Adjacent sg s n.name) := by
  -- names are unique, so the text of the name is that of the node
  have hor : (plan.mustTerms = [] ∨ containsAnyTerm L (nodeText L sg.nodes n.name) plan.mustTerms = true) ↔
      CarriesMust L plan n := by
    rw [nodeText_eq hnodup hn]
    exact or_iff_right hmust
  unfold keepNode
  rw [if_neg hfree]
  split_ifs with hexclude hcarries
  · -- an excluded node is dropped, one that carries a term kept, another one kept by a neighbour
    exact iff_of_false (by decide) fun h => absurd (hexclude.symm.trans h.1) (by decide)
  · exact iff_of_true rfl ⟨eq_false_of_ne_true hexclude, .inl (hor.mp hcarries)⟩
  · rw [Bool.and_eq_true, decide_eq_true_iff, adjacentToRelevant_iff]
    constructor
    · exact fun h => ⟨eq_false_of_ne_true hexclude, .inr h⟩
    · rintro ⟨-, hmustCarried | h⟩
      · exact absurd (hor.mpr hmustCarried) hcarries
      · exact h

theorem nodup_filtered (L : RuneLower) (plan : QueryPlan) (agentSeeds : List String)
    (hnodup : (sg.nodes.map (·.name)).Nodup) :
    ((filterSubgraphByPlan L sg plan agentSeeds).nodes.map (·.name)).Nodup := by
  have hsub : (filterSubgraphByPlan L sg plan agentSeeds).nodes.Sublist sg.nodes := by
    unfold filterSubgraphByPlan
    split_ifs
    · exact List.Sublist.refl _
    · exact List.filter_sublist
  exact (hsub.map _).nodup hnodup

theorem relevantSeed_iff (hmust : plan.mustTerms ≠ []) (hnodup : (sg.nodes.map (·.name)).Nodup) (hn : n ∈ sg.nodes) :
    relevantSeed L sg plan n.name = true ↔ n.name ∈ sg.seeds ∧ CarriesMust L plan n := by
  unfold relevantSeed CarriesMust
  rw [Bool.and_eq_true, Bool.or_eq_true, decide_eq_true_iff, or_iff_right hmust, nodeText_eq hnodup hn,
    List.contains_iff_mem]

/-- A relevant seed that stays is kept. -/
theorem keepNode_of_stays (hmust : plan.mustTerms ≠ []) (hnodup : (sg.nodes.map (·.name)).Nodup) {m : SubgraphNode}
    (hm : m ∈ sg.nodes) (hrelevant : relevantSeed L sg plan m.name = true)
    (hstays : m.name ∈ protectedNames agentSeeds ∨
      shouldExcludeGraphTarget L m.name m.filePath plan.excludeTerms = false) :
    keepNode L sg plan agentSeeds m = true := by
  by_cases hprotected : m.name ∈ protectedNames agentSeeds
  · exact if_pos hprotected
  · have hcarries := ((relevantSeed_iff hmust hnodup hm).mp hrelevant).2
    exact (keepNode_iff hmust hnodup hm hprotected).mpr ⟨hstays.resolve_left hprotected, .inl hcarries⟩

/-- **A seed that stays** is relevant in the result, and next to the same kept nodes. -/
theorem adjacent_of_stays (hmust : plan.mustTerms ≠ []) (hnodup : (sg.nodes.map (·.name)).Nodup) {s : String}
    (hn : n ∈ (filterSubgraphByPlan L sg plan agentSeeds).nodes) (hrelevant : relevantSeed L sg plan s = true)
    (hadjacent : Adjacent sg s n.name) (hstays : Stays L sg plan agentSeeds s) :
    relevantSeed L (filterSubgraphByPlan L sg plan agentSeeds) plan s = true ∧
      Adjacent (filterSubgraphByPlan L sg plan agentSeeds) s n.name := by
  obtain ⟨m, hm, rfl, hkept⟩ := hstays
  have hnodupOut := nodup_filtered L plan agentSeeds hnodup
  have hcarries := (relevantSeed_iff hmust hnodup hm).mp hrelevant
  have hmname := (keptName_iff hnodup hm).mpr (keepNode_of_stays hmust hnodup hm hrelevant hkept)
  rw [filterSubgraphByPlan_eq (.inl hmust)] at hn hnodupOut ⊢
  have hnname := (mem_keptNodes.mp hn).2.1
  obtain ⟨e, he, hends⟩ := hadjacent
  -- the edge between the seed and the node is kept, as both its ends are
  have hedge : e ∈ keptEdges L sg plan agentSeeds := by
    refine mem_keptEdges.mpr ⟨he, ?_⟩
    rcases hends with ⟨hfrom, hto⟩ | ⟨hto, hfrom⟩
    · rw [hfrom, hto]
      exact ⟨hmname, hnname⟩
    · rw [hfrom, hto]
      exact ⟨hnname, hmname⟩
  -- so the seed is kept too, being referenced by that edge
  have hmkept : m ∈ keptNodes L sg plan agentSeeds := by
    refine mem_keptNodes.mpr ⟨hm, hmname, referenced_iff.mpr (.inr ⟨e, hedge, ?_⟩)⟩
    rcases hends with h | h
    · exact .inl h.1
    · exact .inr h.1
  refine ⟨(relevantSeed_iff hmust hnodupOut hmkept).mpr ⟨?_, hcarries.2⟩, e, hedge, hends⟩
  exact List.mem_filter.mpr ⟨hcarries.1, List.any_eq_true.mpr ⟨m, hmkept, decide_eq_true rfl⟩⟩

/-- What is kept of a result that is filtered once more. -/
theorem keepNode_filtered (hmust : plan.mustTerms ≠ []) (hnodup : (sg.nodes.map (·.name)).Nodup)
    (hjustified : Justified L (filterSubgraphByPlan L sg plan agentSeeds) plan agentSeeds)
    (hn : n ∈ (filterSubgraphByPlan L sg plan agentSeeds).nodes) :
    keepNode L (filterSubgraphByPlan L sg plan agentSeeds) plan agentSeeds n = true := by
  by_cases hprotected : n.name ∈ protectedNames agentSeeds
  · exact if_pos hprotected
  · have hnodupOut := nodup_filtered L plan agentSeeds hnodup
    have hmem := hn
    rw [filterSubgraphByPlan_eq (.inl hmust)] at hmem
    obtain ⟨hin, hname, -⟩ := mem_keptNodes.mp hmem
    obtain ⟨hexclude, hwhy⟩ :=
      (keepNode_iff hmust hnodup hin hprotected).mp ((keptName_iff hnodup hin).mp hname)
    refine (keepNode_iff hmust hnodupOut hn hprotected).mpr ⟨hexclude, ?_⟩
    rcases hjustified n hn hprotected with hcarries | hseed
    · exact .inl hcarries
    · exact hwhy.imp id fun hpass => ⟨hpass.1, hseed⟩

/-- **Filtering once more** changes nothing exactly when every free pass is still justified. -/
theorem filter_again_iff (hmust : plan.mustTerms ≠ []) (hnodup : (sg.nodes.map (·.name)).Nodup) :
    filterSubgraphByPlan L (filterSubgraphByPlan L sg plan agentSeeds) plan agentSeeds =
        filterSubgraphByPlan L sg plan agentSeeds ↔
      Justified L (filterSubgraphByPlan L sg plan agentSeeds) plan agentSeeds := by
  have hnodupOut := nodup_filtered L plan agentSeeds hnodup
  -- a justified node passes the filter of the filtered subgraph
  have hkeep : Justified L (filterSubgraphByPlan L sg plan agentSeeds) plan agentSeeds →
      ∀ n ∈ (filterSubgraphByPlan L sg plan agentSeeds).nodes,
        keepNode L (filterSubgraphByPlan L sg plan agentSeeds) plan agentSeeds n = true :=
    fun hjustified n hn => keepNode_filtered hmust hnodup hjustified hn
  have hgates : plan.Gates := .inl hmust
  have hshape : filterSubgraphByPlan L sg plan agentSeeds = _ := filterSubgraphByPlan_eq hgates
  generalize filterSubgraphByPlan L sg plan agentSeeds = out at hnodupOut hkeep hshape ⊢
  rw [filterSubgraphByPlan_eq (.inl hmust)]
  constructor
  · -- a node that passes again has its reason in the filtered subgraph
    intro hsame n hn hfree
    have hnodes : keptNodes L out plan agentSeeds = out.nodes := congrArg Subgraph.nodes hsame
    have hkept : n ∈ keptNodes L out plan agentSeeds := hnodes.symm ▸ hn
    have hnode := (keptName_iff hnodupOut hn).mp (mem_keptNodes.mp hkept).2.1
    exact ((keepNode_iff hmust hnodupOut hn hfree).mp hnode).2.imp id fun hpass => hpass.2
  · intro hjustified
    -- every name is kept, and with it every edge, node and seed
    have hname : ∀ n ∈ out.nodes, keptName L out plan agentSeeds n.name = true := fun n hn =>
      keptName_iff_exists.mpr ⟨n, hn, rfl, hkeep hjustified n hn⟩
    have hedges : keptEdges L out plan agentSeeds = out.edges := by
      refine List.filter_eq_self.mpr fun e he => ?_
      have he' : e ∈ keptEdges L sg plan agentSeeds := by
        rw [hshape] at he
        exact he
      obtain ⟨⟨n, hn, hfrom⟩, m, hm, hto⟩ := ends_of_mem_keptEdges he'
      have hn' : n ∈ out.nodes := by
        rw [hshape]
        exact hn
      have hm' : m ∈ out.nodes := by
        rw [hshape]
        exact hm
      exact (Bool.and_eq_true _ _).mpr ⟨hfrom ▸ hname n hn', hto ▸ hname m hm'⟩
    have hnodes : keptNodes L out plan agentSeeds = out.nodes := by
      refine List.filter_eq_self.mpr fun n hn => (Bool.and_eq_true _ _).mpr ⟨hname n hn, ?_⟩
      have hn' : n ∈ keptNodes L sg plan agentSeeds := by
        rw [hshape] at hn
        exact hn
      rw [referenced_iff, hedges, hshape]
      exact referenced_iff.mp (mem_keptNodes.mp hn').2.2
    have hseeds : (out.seeds.filter fun s => (keptNodes L out plan agentSeeds).any (·.name = s)) = out.seeds := by
      rw [hnodes, hshape]
      exact List.filter_eq_self.mpr fun s hs => (List.mem_filter.mp hs).2
    rw [hseeds, hnodes, hedges]

end Passes

/-- What the free passes of a result come from. -/
structure PassesFrom (L : RuneLower) (sg : Subgraph) (plan : QueryPlan) (agentSeeds : List String)
    (out : Subgraph) : Prop where
  passes : ∀ n ∈ out.nodes, n.name ∉ protectedNames agentSeeds →
    CarriesMust L plan n ∨ n.depth.natAbs = 1 ∧ ∃ s, relevantSeed L sg plan s = true ∧ Adjacent sg s n.name
  seed_stays : ∀ n ∈ out.nodes, ∀ s, relevantSeed L sg plan s = true → Adjacent sg s n.name →
    Stays L sg plan agentSeeds s → relevantSeed L out plan s = true ∧ Adjacent out s n.name
  justified : (∀ s, relevantSeed L sg plan s = true → Stays L sg plan agentSeeds s) → Justified L out plan agentSeeds
  again_iff : filterSubgraphByPlan L out plan agentSeeds = out ↔ Justified L out plan agentSeeds

/-- **Free passes** come from relevant seeds of the subgraph that is filtered. -/
theorem filterSubgraphByPlan_passes (L : RuneLower) (sg : Subgraph) (plan : QueryPlan) (agentSeeds : List String)
    (hnodup : (sg.nodes.map (·.name)).Nodup) (hmust : plan.mustTerms ≠ []) :
    PassesFrom L sg plan agentSeeds (filterSubgraphByPlan L sg plan agentSeeds) := by
  have hpasses : ∀ n ∈ (filterSubgraphByPlan L sg plan agentSeeds).nodes, n.name ∉ protectedNames agentSeeds →
      CarriesMust L plan n ∨ n.depth.natAbs = 1 ∧ ∃ s, relevantSeed L sg plan s = true ∧ Adjacent sg s n.name := by
    intro n hn hfree
    rw [filterSubgraphByPlan_eq (.inl hmust)] at hn
    obtain ⟨hmem, hname, -⟩ := mem_keptNodes.mp hn
    exact ((keepNode_iff hmust hnodup hmem hfree).mp ((keptName_iff hnodup hmem).mp hname)).2
  refine ⟨hpasses, fun n hn s => adjacent_of_stays hmust hnodup hn, fun hstays n hn hfree => ?_,
    filter_again_iff hmust hnodup⟩
  rcases hpasses n hn hfree with hcarries | ⟨-, s, hrelevant, hadjacent⟩
  · exact .inl hcarries
  · exact .inr ⟨s, adjacent_of_stays hmust hnodup hn hrelevant hadjacent (hstays s hrelevant)⟩

theorem orders_passes :
    PassesFrom asciiRunes orders paymentPlan ["placeOrder"]
      (filterSubgraphByPlan asciiRunes orders paymentPlan ["placeOrder"]) :=
  filterSubgraphByPlan_passes asciiRunes orders paymentPlan ["placeOrder"] (by decide) (by decide)

/-- A test of the payments calls a clock, which the payments call too. -/
def clock : Subgraph where
  seeds := ["testPayment"]
  nodes := [⟨"testPayment", "src/check.go", .seed, 0⟩, ⟨"now", "src/clock.go", .callee, 1⟩,
    ⟨"payment", "src/charge.go", .caller, 2⟩]
  edges := [⟨"testPayment", "now", "CALLS"⟩, ⟨"payment", "now", "CALLS"⟩]
  truncated := false

/-- **A free pass without a seed**: the test is relevant, but it is excluded. The clock stays, next to no seed, and
the second time it goes and takes the payments with it. -/
theorem clock_unjustified :
    (clock.nodes.map (·.name)).Nodup ∧
      (¬ Justified asciiRunes (filterSubgraphByPlan asciiRunes clock paymentPlan []) paymentPlan []) ∧
      filterSubgraphByPlan asciiRunes (filterSubgraphByPlan asciiRunes clock paymentPlan []) paymentPlan [] ≠
        filterSubgraphByPlan asciiRunes clock paymentPlan [] := by
  have hclock : (⟨"now", "src/clock.go", .callee, 1⟩ : SubgraphNode) ∈
      (filterSubgraphByPlan asciiRunes clock paymentPlan []).nodes := by decide +kernel
  have hseeds : (filterSubgraphByPlan asciiRunes clock paymentPlan []).seeds = [] := by decide +kernel
  refine ⟨by decide, fun h => ?_, by decide +kernel⟩
  rcases h _ hclock (by decide) with hcarries | ⟨s, hs, -⟩
  · unfold CarriesMust at hcarries
    revert hcarries
    decide +kernel
  · unfold relevantSeed at hs
    rw [hseeds, List.contains_nil, Bool.false_and] at hs
    exact absurd hs (by decide)

end Devrouter
