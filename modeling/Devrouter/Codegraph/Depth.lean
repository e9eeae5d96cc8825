import Devrouter.Codegraph.Rounds

/-!
# Depths in a subgraph

The sidecar of a call graph answers the same question always the same way (`steady`). A depth is then the number
of hops of a shortest way around the symbols that have been met before; `depths_right_iff` says when this is the
distance from the nearest seed, for every seed, in both directions.
-/

open Search

namespace Devrouter.Codegraph

/-- The sidecar of a graph: it never fails, and its answers do not change. -/
def steady (g : Relation → String → List CallEdge) (hits : String → Option ℤ) : Sidecar where
  answer _ rel name := some (g rel name)
  nameHits _ term := hits term

section Depths

variable (g : Relation → String → List CallEdge) (hits : String → Option ℤ) (L : RuneLower) (seeds : List String)

/-- The rounds of a subgraph. -/
def subgraphRounds : List (Walk × String) := rounds (steady g hits) L .empty (cleanedSeeds seeds)

/-- What is walked from: the seeds, and the bare names of those that are not in the graph. -/
def starts : Set String := {t | ∃ w, (w, t) ∈ subgraphRounds g hits L seeds}

/-- What the depths of a subgraph say. -/
structure DepthsRight (sg : Subgraph) : Prop where
  seeds_zero : ∀ s ∈ seeds, trimSpace s ≠ "" → ∃ n ∈ sg.nodes, n.name = trimSpace s ∧ n.role = .seed ∧ n.depth = 0
  callees : ∀ n ∈ sg.nodes, n.role = .callee →
    ∃ k : ℕ, n.depth = k ∧ Nearest (Hop g downstream) (starts g hits L seeds) k n.name
  callers : ∀ n ∈ sg.nodes, n.role = .caller →
    ∃ k : ℕ, n.depth = -k ∧ Nearest (Hop g upstream) (starts g hits L seeds) k n.name

/-- **The condition**: the walks from the other starts have not met a seed before its turn, and a symbol that a
round reaches around what it has met has no shorter way from any start, through what has been met or later. -/
structure Undisturbed : Prop where
  seeds_unmet : ∀ r ∈ subgraphRounds g hits L seeds, r.2 ∈ cleanedSeeds seeds →
    ∀ n ∈ r.1.nodes, n.name = r.2 → n.role = .seed
  callees : ∀ r ∈ subgraphRounds g hits L seeds, ∀ k x, 1 ≤ k → k ≤ subgraphMaxDepth →
    Layer (Hop g downstream) (metBefore r.1 r.2) r.2 k x →
      ∀ t ∈ starts g hits L seeds, ∀ j < k, ¬ Hops (Hop g downstream) ∅ t j x
  callers : ∀ r ∈ subgraphRounds g hits L seeds, ∀ k x, 1 ≤ k → k ≤ subgraphMaxDepth →
    Layer (Hop g upstream) (metDownstream (steady g hits) r.1 r.2) r.2 k x →
      ∀ t ∈ starts g hits L seeds, ∀ j < k, ¬ Hops (Hop g upstream) ∅ t j x

end Depths

/-! ### The nodes of a round -/

section Nodes

variable {S : Sidecar} {g : Relation → String → List CallEdge} {w w' : Walk} {start : String}

theorem Records.node_cases {dir : CallDirection} {V : Set String} {lo hi : ℕ} (h : Records g dir V start lo hi w w')
    {n : SubgraphNode} (hn : n ∈ w'.nodes) (hnew : n ∉ w.nodes) :
    n.role = dir.role ∧ ∃ k, lo ≤ k ∧ k < hi ∧ Layer (Hop g dir) V start k n.name ∧ n.depth = dir.sign * k := by
  obtain ⟨added, hnodes, hsound, -⟩ := h
  rw [hnodes] at hn
  exact hsound n ((List.mem_append.mp hn).resolve_left hnew)

/-- A symbol on a layer has a node that says so. -/
theorem Records.exists_node {dir : CallDirection} {V : Set String} {lo hi : ℕ} (h : Records g dir V start lo hi w w')
    (hroom : w'.nodes.length < subgraphMaxNodes) {k : ℕ} {x : String} (hlo : lo ≤ k) (hhi : k < hi)
    (hx : Layer (Hop g dir) V start k x) :
    ∃ n ∈ w'.nodes, n.name = x ∧ n.role = dir.role ∧ n.depth = dir.sign * k := by
  obtain ⟨added, hnodes, hsound, hcomplete⟩ := h
  obtain ⟨n, hn, rfl⟩ := hcomplete hroom k x hlo hhi hx
  obtain ⟨hrole, k', -, -, hlayer, hdepth⟩ := hsound n hn
  rw [hlayer.unique hx] at hdepth
  exact ⟨n, hnodes ▸ List.mem_append_right _ hn, rfl, hrole, hdepth⟩

/-- The nodes that a round adds. -/
theorem round_new_node (hstart : start ≠ "") (hcalm : (round S w start).Calm S g) {n : SubgraphNode}
    (hn : n ∈ (round S w start).nodes) (hnew : n ∉ w.nodes) :
    (n.role = .seed ∧ n.depth = 0) ∨
    (n.role = .callee ∧ ∃ k, 1 ≤ k ∧ k < 6 ∧ Layer (Hop g downstream) (metBefore w start) start k n.name ∧
      n.depth = 1 * (k : ℤ)) ∨
    (n.role = .caller ∧ ∃ k, 1 ≤ k ∧ k < 6 ∧ Layer (Hop g upstream) (metDownstream S w start) start k n.name ∧
      n.depth = -1 * (k : ℤ)) ∨
    n.role ∈ [.importer, .extends, .method] := by
  obtain ⟨-, hdown, hup, added, hnodes, hroles⟩ := round_records hstart hcalm.quiet
  rw [hnodes] at hn
  rcases List.mem_append.mp hn with hn | hn
  · by_cases hcallees : n ∈ (afterCallees S w start).nodes
    · by_cases hseeded : n ∈ (w.upsertNode start "" .seed 0).1.nodes
      · -- the start is new, or it was there and has not been added
        obtain ⟨h, -⟩ | ⟨h, -⟩ | ⟨h, -⟩ := w.upsertNode_cases start "" .seed 0
        · rw [h] at hseeded
          exact absurd hseeded hnew
        · rw [h] at hseeded
          exact absurd hseeded hnew
        · rw [h] at hseeded
          rw [List.mem_singleton.mp ((List.mem_append.mp hseeded).resolve_left hnew)]
          exact .inl ⟨rfl, rfl⟩
      · -- what was not there before was met on the way down, on the way up, or beside
        exact .inr (.inl (hdown.node_cases hcallees hseeded))
    · exact .inr (.inr (.inl (hup.node_cases hn hcallees)))
  · exact .inr (.inr (.inr (hroles n hn)))

/-- The layers of a round have their nodes at its end. -/
theorem round_layer_node (hstart : start ≠ "") (hcalm : (round S w start).Calm S g) {k : ℕ} {x : String} (hk : 1 ≤ k)
    (hmax : k ≤ subgraphMaxDepth) :
    (Layer (Hop g downstream) (metBefore w start) start k x →
      ∃ n ∈ (round S w start).nodes, n.name = x ∧ n.role = .callee ∧ n.depth = 1 * (k : ℤ)) ∧
    (Layer (Hop g upstream) (metDownstream S w start) start k x →
      ∃ n ∈ (round S w start).nodes, n.name = x ∧ n.role = .caller ∧ n.depth = -1 * (k : ℤ)) := by
  obtain ⟨-, hdown, hup, -⟩ := round_records hstart hcalm.quiet
  have hlt : k < 6 := Nat.lt_succ_of_le hmax
  have haux := addAux_steps (S := S) start (afterCallers S w start)
  have hcallers := expandCallersBFS_steps (S := S) start (afterCallees S w start)
  constructor
  · intro hx
    have hroom := (hcalm.of_steps (hcallers.trans haux)).room
    obtain ⟨n, hn, hrest⟩ := hdown.exists_node hroom hk hlt hx
    exact ⟨n, (steps_nodes_grow (hcallers.trans haux)).subset hn, hrest⟩
  · intro hx
    obtain ⟨n, hn, hrest⟩ := hup.exists_node (hcalm.of_steps haux).room hk hlt hx
    exact ⟨n, (steps_nodes_grow haux).subset hn, hrest⟩

end Nodes

/-! ### All rounds -/

section Subgraph

variable {g : Relation → String → List CallEdge} {hits : String → Option ℤ} {L : RuneLower} {seeds : List String}

/-- With few enough seeds all are used. -/
theorem mem_cleanedSeeds (hfew : (((seeds.map trimSpace).filter (· ≠ "")).eraseDups).length ≤ subgraphMaxSeeds)
    {s : String} : s ∈ cleanedSeeds seeds ↔ ∃ s' ∈ seeds, trimSpace s' ≠ "" ∧ trimSpace s' = s := by
  unfold cleanedSeeds
  rw [List.take_of_length_le hfew, List.mem_eraseDups, List.mem_filter, List.mem_map]
  constructor
  · rintro ⟨⟨s', hs', rfl⟩, hne⟩
    exact ⟨s', hs', of_decide_eq_true hne, rfl⟩
  · rintro ⟨s', hs', hne, rfl⟩
    exact ⟨⟨s', hs', rfl⟩, decide_eq_true hne⟩

/-- A subgraph that no cap has cut comes from a calm walk. -/
theorem calm_of_whole {sg : Subgraph} (hsub : subgraph (steady g hits) L seeds = some sg)
    (hwhole : sg.truncated = false) (hroom : sg.nodes.length < subgraphMaxNodes) :
    (walkSeeds (steady g hits) L seeds).Calm (steady g hits) g ∧
      ∀ n, n ∈ sg.nodes ↔ n ∈ (walkSeeds (steady g hits) L seeds).nodes := by
  unfold subgraph at hsub
  split_ifs at hsub
  rw [← Option.some.inj hsub] at hwhole hroom ⊢
  refine ⟨⟨hwhole, ?_, fun _ _ _ _ => rfl⟩, fun n => List.mem_insertionSort _⟩
  rw [← (List.perm_insertionSort (fun a b => nodeBefore a b) _).length_eq]
  exact hroom

/-- What a round has put on the map is there at the end. -/
theorem mem_walk_of_round {r : Walk × String} (hr : r ∈ subgraphRounds g hits L seeds) {n : SubgraphNode}
    (hn : n ∈ (round (steady g hits) r.1 r.2).nodes) : n ∈ (walkSeeds (steady g hits) L seeds).nodes :=
  (steps_nodes_grow ((run_rounds .empty (cleanedSeeds seeds)).round_steps_end hr)).subset hn

section Calm

variable (hcalm : (walkSeeds (steady g hits) L seeds).Calm (steady g hits) g)

include hcalm

theorem round_calm {r : Walk × String} (hr : r ∈ subgraphRounds g hits L seeds) :
    (round (steady g hits) r.1 r.2).Calm (steady g hits) g :=
  hcalm.of_steps ((run_rounds .empty (cleanedSeeds seeds)).round_steps_end hr)

/-- What a node of the walk says. -/
theorem walk_node_cases {n : SubgraphNode} (hn : n ∈ (walkSeeds (steady g hits) L seeds).nodes) :
    ∃ r ∈ subgraphRounds g hits L seeds,
      (n.role = .seed ∧ n.depth = 0) ∨
      (n.role = .callee ∧ ∃ k, 1 ≤ k ∧ k < 6 ∧ Layer (Hop g downstream) (metBefore r.1 r.2) r.2 k n.name ∧
        n.depth = 1 * (k : ℤ)) ∨
      (n.role = .caller ∧ ∃ k, 1 ≤ k ∧ k < 6 ∧
        Layer (Hop g upstream) (metDownstream (steady g hits) r.1 r.2) r.2 k n.name ∧ n.depth = -1 * (k : ℤ)) ∨
      n.role ∈ [.importer, .extends, .method] := by
  obtain ⟨r, hr, hround, hnew⟩ := (run_rounds .empty (cleanedSeeds seeds)).exists_round hn List.not_mem_nil
  exact ⟨r, hr, round_new_node (start_ne_empty ne_empty_of_cleaned hr) (round_calm hcalm hr) hround hnew⟩

/-- A start is on the map at the end: with the node it has had before its round, or as a seed. -/
theorem exists_start_node {r : Walk × String} (hr : r ∈ subgraphRounds g hits L seeds) :
    ∃ n ∈ (walkSeeds (steady g hits) L seeds).nodes, n.name = r.2 ∧ (n ∈ r.1.nodes ∨ n.role = .seed) := by
  have hne : r.2 ≠ "" := start_ne_empty ne_empty_of_cleaned hr
  have hsteps := snapshotSeed_steps (S := steady g hits) r.2 (r.1.upsertNode r.2 "" .seed 0).1
  have hseeded := (round_calm hcalm hr).of_steps hsteps
  obtain ⟨n, hn, hname⟩ := List.mem_map.mp ((mem_seeded_names hne hseeded.quiet r.2).mpr (.inr rfl))
  refine ⟨n, mem_walk_of_round hr ((steps_nodes_grow hsteps).subset hn), hname, ?_⟩
  obtain ⟨h, -⟩ | ⟨h, -⟩ | ⟨h, -⟩ := r.1.upsertNode_cases r.2 "" .seed 0
  · rw [h] at hn
    exact .inl hn
  · rw [h] at hn
    exact .inl hn
  · rw [h] at hn
    rcases List.mem_append.mp hn with hold | hnew
    · exact .inl hold
    · rw [List.mem_singleton.mp hnew]
      exact .inr rfl

end Calm

/-- **Depths are distances** exactly when the walks do not disturb each other. -/
theorem depths_right_iff (g : Relation → String → List CallEdge) (hits : String → Option ℤ) (L : RuneLower)
    (seeds : List String) (sg : Subgraph) (hsub : subgraph (steady g hits) L seeds = some sg)
    (hwhole : sg.truncated = false) (hroom : sg.nodes.length < subgraphMaxNodes)
    (hfew : (((seeds.map trimSpace).filter (· ≠ "")).eraseDups).length ≤ subgraphMaxSeeds) :
    DepthsRight g hits L seeds sg ↔ Undisturbed g hits L seeds := by
  obtain ⟨hcalm, hnodes⟩ := calm_of_whole hsub hwhole hroom
  have hformed : (walkSeeds (steady g hits) L seeds).WellFormed :=
    steps_wellFormed Walk.wellFormed_empty (run_rounds .empty (cleanedSeeds seeds)).steps
  have hname : ∀ {r}, r ∈ subgraphRounds g hits L seeds → r.2 ≠ "" := fun hr => start_ne_empty ne_empty_of_cleaned hr
  constructor
  · rintro ⟨hseeds, hcallees, hcallers⟩
    -- a seed's node stays a seed, as its name is filed once
    refine ⟨fun r hr hseed n hn hsame => ?_, fun r hr k x hk hmax hx => ?_, fun r hr k x hk hmax hx => ?_⟩
    · obtain ⟨s, hs, hne, heq⟩ := (mem_cleanedSeeds hfew).mp hseed
      obtain ⟨m, hm, hmname, hmrole, -⟩ := hseeds s hs hne
      have hnfinal := mem_walk_of_round hr ((steps_nodes_grow (round_steps r.1 r.2)).subset hn)
      rw [hformed.eq_of_name hnfinal ((hnodes m).mp hm) (by rw [hsame, hmname, heq])]
      exact hmrole
    · -- a callee of the layer is in the subgraph, and its depth there is the least one
      obtain ⟨n, hn, rfl, hrole, hdepth⟩ := (round_layer_node (hname hr) (round_calm hcalm hr) hk hmax).1 hx
      obtain ⟨k', hdepth', -, hmin⟩ := hcallees n ((hnodes n).mpr (mem_walk_of_round hr hn)) hrole
      have hkk : k' = k := by omega
      exact hkk ▸ hmin
    · obtain ⟨n, hn, rfl, hrole, hdepth⟩ := (round_layer_node (hname hr) (round_calm hcalm hr) hk hmax).2 hx
      obtain ⟨k', hdepth', -, hmin⟩ := hcallers n ((hnodes n).mpr (mem_walk_of_round hr hn)) hrole
      have hkk : k' = k := by omega
      exact hkk ▸ hmin
  · rintro ⟨hseeds, hcallees, hcallers⟩
    refine ⟨fun s hs hne => ?_, fun n hn hrole => ?_, fun n hn hrole => ?_⟩
    · -- the seed has a round of its own, and its node is not one of an earlier round
      have hclean := (mem_cleanedSeeds hfew).mpr ⟨s, hs, hne, rfl⟩
      obtain ⟨u, hu⟩ : ∃ u, (u, trimSpace s) ∈ subgraphRounds g hits L seeds := exists_round_of_seed hclean .empty
      obtain ⟨n, hn, hnname, hold⟩ := exists_start_node hcalm hu
      have hrole : n.role = .seed := hold.elim (fun h => hseeds _ hu hclean n h hnname) id
      obtain ⟨r, -, h | h | h | h⟩ := walk_node_cases hcalm hn
      · exact ⟨n, (hnodes n).mpr hn, hnname, h⟩
      · exact absurd (h.1.symm.trans hrole) (by decide)
      · exact absurd (h.1.symm.trans hrole) (by decide)
      · rw [hrole] at h
        exact absurd h (by decide)
    · obtain ⟨r, hr, h | ⟨-, k, hk, hlt, hx, hdepth⟩ | h | h⟩ := walk_node_cases hcalm ((hnodes n).mp hn)
      · exact absurd (h.1.symm.trans hrole) (by decide)
      · -- the layer in its round is no worse than in any other, by `Undisturbed`
        refine ⟨k, by omega, ⟨r.2, ⟨r.1, hr⟩, hx.1.mono (Set.empty_subset _)⟩, ?_⟩
        exact hcallees r hr k n.name hk (Nat.le_of_lt_succ hlt) hx
      · exact absurd (h.1.symm.trans hrole) (by decide)
      · rw [hrole] at h
        exact absurd h (by decide)
    · obtain ⟨r, hr, h | h | ⟨-, k, hk, hlt, hx, hdepth⟩ | h⟩ := walk_node_cases hcalm ((hnodes n).mp hn)
      · exact absurd (h.1.symm.trans hrole) (by decide)
      · exact absurd (h.1.symm.trans hrole) (by decide)
      · refine ⟨k, by omega, ⟨r.2, ⟨r.1, hr⟩, hx.1.mono (Set.empty_subset _)⟩, ?_⟩
        exact hcallers r hr k n.name hk (Nat.le_of_lt_succ hlt) hx
      · rw [hrole] at h
        exact absurd h (by decide)

end Subgraph

/-- `handle` calls `load`, `load` calls `parse`, and `main` calls `parse` at once. -/
def parseGraph (rel : Relation) (name : String) : List CallEdge :=
  let calls : List CallEdge :=
    [⟨"handle", "load", "load.go"⟩, ⟨"load", "parse", "parse.go"⟩, ⟨"main", "parse", "parse.go"⟩]
  match rel with
  | .callees => calls.filter (·.fromName = name)
  | .callers => calls.filter (·.toName = name)
  | _ => []

def parseHits (_ : String) : Option ℤ := some 1

/-- The subgraph of the graph. -/
def parseSubgraph (seeds : List String) : Subgraph :=
  (walkSeeds (steady parseGraph parseHits) asciiRunes seeds).toSubgraph (cleanedSeeds seeds)

/-- One seed. -/
theorem load_depths_right_iff :
    DepthsRight parseGraph parseHits asciiRunes ["load"] (parseSubgraph ["load"]) ↔
      Undisturbed parseGraph parseHits asciiRunes ["load"] :=
  depths_right_iff parseGraph parseHits asciiRunes ["load"] (parseSubgraph ["load"]) (by decide +kernel)
    (by decide +kernel) (by decide +kernel) (by decide +kernel)

/-- **The first way is not the nearest**: `parse` is one hop from the second seed, but has depth 2. And a seed
that an earlier seed calls is a callee. -/
theorem parse_depth_wrong :
    (¬ DepthsRight parseGraph parseHits asciiRunes ["handle", "main"] (parseSubgraph ["handle", "main"])) ∧
      ¬ DepthsRight parseGraph parseHits asciiRunes ["handle", "load"] (parseSubgraph ["handle", "load"]) := by
  constructor
  · intro h
    have hnode : (⟨"parse", "parse.go", .callee, 2⟩ : SubgraphNode) ∈ (parseSubgraph ["handle", "main"]).nodes := by
      decide +kernel
    -- `parse` is two hops from one seed and one hop from the other
    obtain ⟨k, hk, -, hmin⟩ := h.callees _ hnode rfl
    have hk : k = 2 := by
      have hcast : (2 : ℤ) = k := hk
      omega
    have hround : "main" ∈ cleanedSeeds ["handle", "main"] := by decide +kernel
    obtain ⟨u, hu⟩ := exists_round_of_seed (S := steady parseGraph parseHits) (L := asciiRunes) hround .empty
    have hhop : Hop parseGraph downstream "main" "parse" :=
      .inl ⟨⟨"main", "parse", "parse.go"⟩, by decide +kernel, rfl⟩
    exact hmin "main" ⟨u, hu⟩ 1 (by omega) (.next .start hhop (Set.notMem_empty _))
  · intro h
    -- `load` was met as a callee before its own round
    obtain ⟨n, hn, hname, hrole, -⟩ := h.seeds_zero "load" (by decide) (by decide +kernel)
    have hnone : ∀ n ∈ (parseSubgraph ["handle", "load"]).nodes, n.name = "load" → n.role = .callee := by
      decide +kernel
    have htrim : trimSpace "load" = "load" := by decide +kernel
    rw [hnone n hn (hname.trans htrim)] at hrole
    exact absurd hrole (by decide)

end Devrouter.Codegraph
