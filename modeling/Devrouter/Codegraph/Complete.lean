import Mathlib.Data.Set.Card
import Devrouter.Codegraph.Answers
import Devrouter.Codegraph.Files

/-!
# Complete subgraphs

A subgraph that is not marked as truncated is meant to be complete (`Complete`): no query has failed, all within
five hops of a start in the graph is there, and so are its structural neighbours and every edge of an answer. The
graph here is that of the database, before any limit (`Database.uncut`).

What is there is known: the sweep of the answers from the starts (`walk_names_of_quiet`), as long as it fits on
the map. `subgraph_complete_iff` compares the two.
-/

open Search

namespace Devrouter.Codegraph

/-! ### The graph -/

namespace Database

variable (db : Database)

/-- The join in `crossWire`, before its limit. -/
def wires : List WireRow :=
  (db.nodes.filter (·.kind = "route")).flatMap fun r =>
    (db.outgoingEdges r.id ["references", "calls"]).flatMap fun e =>
      (db.nodes.filter fun h => h.id = e.target ∧ h.kind ∈ ["function", "method", "class"]).map fun h =>
        ⟨r.name, r.filePath, h.name, h.filePath⟩

/-- What the handlers collect, without the limit of the join. -/
def collected (rel : Relation) (name : String) : List CallEdge :=
  match rel with
  | .callers => callerEdges db name
  | .callees => calleeEdges db name
  | .importers => importerEdges db name
  | .extends => extendsEdges db name
  | .methods => methodEdges db name
  | .crossWireCallees =>
    (db.wires.filter fun r => r.route = name ∨ r.handler = name).map fun r => ⟨name, r.handler, r.handlerFile⟩
  | .crossWireCallers =>
    (db.wires.filter fun r => r.handler = name).map fun r => ⟨r.route, r.handler, r.handlerFile⟩

/-- The graph: what the handlers would answer without limits. -/
def uncut (rel : Relation) (name : String) : List CallEdge := (db.collected rel name).filter (·.proper)

end Database

/-- The type that the client gives to the edges of a relation. -/
def Relation.etype (rel : Relation) : String :=
  match rel with
  | .callers | .callees => "CALLS"
  | .crossWireCallers | .crossWireCallees => "INVOKES"
  | .importers => "IMPORTS"
  | .extends => "EXTENDS"
  | .methods => "HAS_METHOD"

/-- The endpoint of an edge that its file is not stored under. -/
def Relation.near (rel : Relation) (e : CallEdge) : String :=
  match rel with
  | .callers | .importers | .extends | .crossWireCallers => e.toName
  | .callees | .methods | .crossWireCallees => e.fromName

/-- An edge as it is answered. -/
def Relation.answered (rel : Relation) (e : CallEdge) : SubgraphEdge := ⟨e.fromName, e.toName, rel.etype⟩

section Graph

variable {db : Database} {rel : Relation} {name : String} {e : CallEdge}

theorem wireRows_eq (db : Database) : wireRows db = db.wires.take wireRowLimit := rfl

/-- **An answer is part of the graph.** -/
theorem mem_uncut_of_mem_handle (h : e ∈ db.handle rel name) : e ∈ db.uncut rel name := by
  have hlimit : 0 < relationLimit := by decide
  have hrows : ∀ {p : WireRow → Prop} [DecidablePred p] {f : WireRow → CallEdge},
      e ∈ ((wireRows db).filter fun r => p r).map f → e ∈ (db.wires.filter fun r => p r).map f := by
    intro p _ f hmem
    rw [wireRows_eq] at hmem
    exact ((List.take_sublist _ _).filter _ |>.map f).subset hmem
  refine List.mem_filter.mpr ?_
  cases rel with
  | callers => exact mem_of_mem_dedupEdges hlimit h
  | callees => exact mem_of_mem_dedupEdges hlimit h
  | importers => exact mem_of_mem_dedupEdges hlimit h
  | «extends» => exact mem_of_mem_dedupEdges hlimit h
  | methods => exact mem_of_mem_dedupEdges hlimit h
  | crossWireCallees => exact (mem_of_mem_dedupEdges hlimit h).imp hrows id
  | crossWireCallers => exact (mem_of_mem_dedupEdges hlimit h).imp hrows id

/-- Nothing of an answer of the sidecar is left out by the client. -/
theorem graphEdges_handle (db : Database) (rel : Relation) (name : String) :
    graphEdges (db.handle rel name) = db.handle rel name := by
  refine List.filter_eq_self.mpr fun e he => ?_
  have hproper := (List.mem_filter.mp (mem_uncut_of_mem_handle he)).2
  unfold CallEdge.proper at hproper
  simp only [Bool.and_eq_true, decide_eq_true_eq] at hproper
  exact decide_eq_true hproper.1

/-- A hop that is answered is one of the graph. -/
theorem hop_uncut_of_hop_handle {dir : CallDirection} (x y : String) (h : Hop db.handle dir x y) :
    Hop db.uncut dir x y := by
  have hedges : ∀ rel, ∀ e ∈ graphEdges (db.handle rel x), e ∈ graphEdges (db.uncut rel x) := fun rel e he =>
    List.mem_filter.mpr ((List.mem_filter.mp he).imp mem_uncut_of_mem_handle id)
  rcases h with ⟨e, he, hfiled⟩ | ⟨e, he, hfiled⟩
  · exact .inl ⟨e, hedges _ e he, hfiled⟩
  · exact .inr ⟨e, hedges _ e he, hfiled⟩

/-- The near end of an edge is what has been asked about, unless it leads to a parent. -/
theorem near_of_mem_handle (h : e ∈ db.handle rel name) :
    rel.near e = name ∨ rel = .extends ∧ e.fromName = name := by
  have hmem := (List.mem_filter.mp (mem_uncut_of_mem_handle h)).1
  -- each relation's rows are joined to the named node on its own side
  cases rel with
  | callers =>
    obtain ⟨target, -, hmem⟩ := List.mem_flatMap.mp hmem
    obtain ⟨r, -, hmem⟩ := List.mem_filterMap.mp hmem
    obtain ⟨src, -, rfl⟩ := Option.map_eq_some_iff.mp hmem
    exact .inl rfl
  | callees =>
    obtain ⟨source, -, hmem⟩ := List.mem_flatMap.mp hmem
    obtain ⟨r, -, hmem⟩ := List.mem_filterMap.mp hmem
    obtain ⟨dst, -, rfl⟩ := Option.map_eq_some_iff.mp hmem
    exact .inl rfl
  | importers =>
    obtain ⟨target, -, hmem⟩ := List.mem_flatMap.mp hmem
    obtain ⟨r, -, hmem⟩ := List.mem_filterMap.mp hmem
    obtain ⟨src, -, rfl⟩ := Option.map_eq_some_iff.mp hmem
    exact .inl rfl
  | «extends» =>
    obtain ⟨node, -, hmem⟩ := List.mem_flatMap.mp hmem
    -- an inheritance is looked up from both ends
    rcases List.mem_append.mp hmem with hmem | hmem
    · obtain ⟨r, -, hmem⟩ := List.mem_filterMap.mp hmem
      obtain ⟨parent, -, rfl⟩ := Option.map_eq_some_iff.mp hmem
      exact .inr ⟨rfl, rfl⟩
    · obtain ⟨r, -, hmem⟩ := List.mem_filterMap.mp hmem
      obtain ⟨child, -, rfl⟩ := Option.map_eq_some_iff.mp hmem
      exact .inl rfl
  | methods =>
    obtain ⟨owner, -, hmem⟩ := List.mem_flatMap.mp hmem
    obtain ⟨r, -, hmem⟩ := List.mem_filterMap.mp hmem
    obtain ⟨m, -, rfl⟩ := Option.map_eq_some_iff.mp hmem
    exact .inl rfl
  | crossWireCallees =>
    obtain ⟨r, -, rfl⟩ := List.mem_map.mp hmem
    exact .inl rfl
  | crossWireCallers =>
    obtain ⟨r, hr, rfl⟩ := List.mem_map.mp hmem
    exact .inl (of_decide_eq_true (List.mem_filter.mp hr).2)

/-- What is recorded is what is answered, when the near end has been asked about. -/
theorem recorded_eq_answered (h : rel.near e = name) : rel.recorded name e = rel.answered e := by
  subst h
  cases rel with
  | callers => rfl
  | callees => rfl
  | importers => rfl
  | «extends» => rfl
  | methods => rfl
  | crossWireCallees => rfl
  | crossWireCallers => rfl

/-- An edge to a parent is not recorded. -/
theorem not_proper_recorded (h : e.fromName = name) : ¬ (Relation.recorded .extends name e).Proper :=
  fun hproper => hproper.2.2 h

theorem proper_answered (h : e ∈ db.handle rel name) : (rel.answered e).Proper := by
  have hproper := (List.mem_filter.mp (mem_uncut_of_mem_handle h)).2
  unfold CallEdge.proper at hproper
  simp only [Bool.and_eq_true, decide_eq_true_eq] at hproper
  exact ⟨hproper.1.1, hproper.1.2, hproper.2⟩

/-- The two ends of an edge. -/
theorem Relation.ends_eq (rel : Relation) (e : CallEdge) :
    e.fromName = rel.filed e ∧ e.toName = rel.near e ∨ e.fromName = rel.near e ∧ e.toName = rel.filed e := by
  cases rel with
  | callers => exact .inl ⟨rfl, rfl⟩
  | callees => exact .inr ⟨rfl, rfl⟩
  | importers => exact .inl ⟨rfl, rfl⟩
  | «extends» => exact .inl ⟨rfl, rfl⟩
  | methods => exact .inr ⟨rfl, rfl⟩
  | crossWireCallees => exact .inr ⟨rfl, rfl⟩
  | crossWireCallers => exact .inl ⟨rfl, rfl⟩

theorem eq_extends_of_etype (h : rel.etype = "EXTENDS") : rel = .extends := by
  cases rel with
  | «extends» => rfl
  | callers => exact absurd h (by decide)
  | callees => exact absurd h (by decide)
  | importers => exact absurd h (by decide)
  | methods => exact absurd h (by decide)
  | crossWireCallees => exact absurd h (by decide)
  | crossWireCallers => exact absurd h (by decide)

end Graph

/-! ### Completeness -/

/-- A symbol is in the result. -/
def Subgraph.Has (sg : Subgraph) (name : String) : Prop := ∃ n ∈ sg.nodes, n.name = name

section Complete

variable (db : Database) (S : Sidecar) (L : RuneLower) (seeds : List String)

/-- The subgraph is complete unless it is marked. -/
structure Complete (sg : Subgraph) : Prop where
  flagged : (∃ i q, (walkSeeds S L seeds).log[i]? = some q ∧ S.Fails i q) → sg.truncated = true
  reached : sg.truncated = false → ∀ dir : CallDirection, dir.Along → ∀ s ∈ startNames S L seeds,
    ∀ k ≤ subgraphMaxDepth, ∀ x, Hops (Hop db.uncut dir) ∅ s k x → sg.Has x
  neighbours : sg.truncated = false → ∀ s ∈ startNames S L seeds, ∀ rel ∈ auxRelations, ∀ e ∈ db.handle rel s,
    sg.Has e.fromName ∧ sg.Has e.toName
  edges : sg.truncated = false → ∀ rel name e, Reported S (walkSeeds S L seeds).log rel name e →
    rel.answered e ∈ sg.edges

/-- **The condition.** No query fails; what a sweep of the answers covers fits on the map and has all that the
graph has within five hops of a start; the parents of a start are starts, with the start among the children
answered for them; and edges with one key are the same. -/
structure NothingLost : Prop where
  answered : ∀ i q, (walkSeeds S L seeds).log[i]? = some q → ¬ S.Fails i q
  fits : (graphSweep db.handle ∅ (startNames S L seeds)).encard ≤ subgraphMaxNodes
  reached : ∀ dir : CallDirection, dir.Along → ∀ s ∈ startNames S L seeds, ∀ k ≤ subgraphMaxDepth, ∀ x,
    Hops (Hop db.uncut dir) ∅ s k x → x ∈ graphSweep db.handle ∅ (startNames S L seeds)
  parents : ∀ s ∈ startNames S L seeds, ∀ e ∈ db.handle .extends s, e.fromName = s →
    e.toName ∈ startNames S L seeds ∧ ∃ c ∈ db.handle .extends e.toName, c.fromName = s
  keys : ∀ rel name e rel' name' e', Reported S (walkSeeds S L seeds).log rel name e →
    Reported S (walkSeeds S L seeds).log rel' name' e' → (rel.answered e).key = (rel'.answered e').key →
      rel.answered e = rel'.answered e'

end Complete

section Walk

variable {db : Database} {fails : ℕ → Bool} {hits : ℕ → String → Option ℤ} {L : RuneLower} {seeds : List String}
  {w : Walk}

theorem encard_mem_eq_length {l : List String} (h : l.Nodup) : {x | x ∈ l}.encard = l.length := by
  rw [← List.coe_toFinset, Set.encard_coe_eq_coe_finsetCard, List.toFinset_card_of_nodup h]

theorem mem_handle_of_reported {log : List Query} {rel : Relation} {name : String} {e : CallEdge}
    (h : Reported (db.sidecar fails hits) log rel name e) : e ∈ db.handle rel name := by
  obtain ⟨i, es, -, hanswer, he⟩ := h
  simp only [Database.sidecar] at hanswer
  split_ifs at hanswer
  obtain rfl := Option.some.inj hanswer
  rwa [graphEdges_handle] at he

/-- Where no query fails, what a query of the log is answered is reported. -/
theorem reported_of_asked {log : List Query} {rel : Relation} {name : String} {e : CallEdge}
    (hans : ∀ i q, log[i]? = some q → ¬ (db.sidecar fails hits).Fails i q) (hasked : .edges rel name ∈ log)
    (he : e ∈ db.handle rel name) : Reported (db.sidecar fails hits) log rel name e := by
  obtain ⟨i, hi⟩ := List.mem_iff_getElem?.mp hasked
  refine ⟨i, db.handle rel name, hi, ?_, by rwa [graphEdges_handle]⟩
  have hanswer : (db.sidecar fails hits).answer i rel name ≠ none := hans i _ hi
  simp only [Database.sidecar] at hanswer ⊢
  split_ifs at hanswer ⊢
  · exact absurd rfl hanswer
  · rfl

theorem quiet_of_answered (hwhole : w.truncated = false)
    (hans : ∀ i q, w.log[i]? = some q → ¬ (db.sidecar fails hits).Fails i q) :
    w.Quiet (db.sidecar fails hits) db.handle := by
  refine ⟨hwhole, fun i rel name hi => ?_⟩
  have hanswer : (db.sidecar fails hits).answer i rel name ≠ none := hans i _ hi
  simp only [Database.sidecar] at hanswer ⊢
  split_ifs at hanswer ⊢
  · exact absurd rfl hanswer
  · rfl

/-- **What is on the map**: symbols of the sweep only, and all of them if they fit. -/
theorem walk_names_of_quiet
    (hquiet : (walkSeeds (db.sidecar fails hits) L seeds).Quiet (db.sidecar fails hits) db.handle) :
    (∀ x ∈ (walkSeeds (db.sidecar fails hits) L seeds).names,
      x ∈ graphSweep db.handle ∅ (startNames (db.sidecar fails hits) L seeds)) ∧
    ((graphSweep db.handle ∅ (startNames (db.sidecar fails hits) L seeds)).encard ≤ subgraphMaxNodes →
      ∀ x ∈ graphSweep db.handle ∅ (startNames (db.sidecar fails hits) L seeds),
        x ∈ (walkSeeds (db.sidecar fails hits) L seeds).names) := by
  have hrun := run_rounds (S := db.sidecar fails hits) (L := L) .empty (cleanedSeeds seeds)
  have hempty : Maps ∅ .empty :=
    ⟨fun y hy => absurd hy List.not_mem_nil, fun _ y hy => absurd hy (Set.notMem_empty y)⟩
  have hmaps := hrun.sweeps hempty (fun r hr => start_ne_empty ne_empty_of_cleaned hr) hquiet
  refine ⟨hmaps.1, fun hfits => ?_⟩
  by_cases hroom : (walkSeeds (db.sidecar fails hits) L seeds).nodes.length < subgraphMaxNodes
  · exact hmaps.2 hroom
  · -- a full map has no room for more than the sweep
    have hformed : (walkSeeds (db.sidecar fails hits) L seeds).WellFormed :=
      steps_wellFormed Walk.wellFormed_empty hrun.steps
    have hlength : (walkSeeds (db.sidecar fails hits) L seeds).names.length =
        (walkSeeds (db.sidecar fails hits) L seeds).nodes.length := List.length_map _
    have hcard : (graphSweep db.handle ∅ (startNames (db.sidecar fails hits) L seeds)).encard ≤
        {x | x ∈ (walkSeeds (db.sidecar fails hits) L seeds).names}.encard := by
      rw [encard_mem_eq_length hformed.nodup, hlength]
      exact hfits.trans (by exact_mod_cast not_lt.mp hroom)
    have hfinite : {x | x ∈ (walkSeeds (db.sidecar fails hits) L seeds).names}.Finite := List.finite_toSet _
    have heq := hfinite.eq_of_subset_of_encard_le hmaps.1 hcard
    exact fun x hx => heq.symm.subset hx

/-- The answers that the walk has kept. -/
theorem kept_walkSeeds (S : Sidecar) (L : RuneLower) (seeds : List String) :
    Kept S {s | s ∈ startNames S L seeds} (walkSeeds S L seeds) :=
  (kept_empty _ _).moves (foldl_walkSeed_moves fun _ hr => List.mem_map_of_mem hr)

/-- Starts are asked about for each structural relation. -/
theorem asked_of_start {S : Sidecar} {s : String} (hs : s ∈ startNames S L seeds) {rel : Relation}
    (hrel : rel ∈ auxRelations) : .edges rel s ∈ (walkSeeds S L seeds).log := by
  obtain ⟨r, hr, rfl⟩ := List.mem_map.mp hs
  exact (run_rounds .empty (cleanedSeeds seeds)).asks hr hrel

theorem toSubgraph_has {used : List String} {x : String} : (w.toSubgraph used).Has x ↔ x ∈ w.names := by
  unfold Subgraph.Has Walk.toSubgraph Walk.names
  simp only [List.mem_insertionSort, List.mem_map]

theorem mem_toSubgraph_edges {used : List String} {c : SubgraphEdge} :
    c ∈ (w.toSubgraph used).edges ↔ c ∈ w.edges := List.mem_insertionSort _

end Walk

section Main

variable {db : Database} {fails : ℕ → Bool} {hits : ℕ → String → Option ℤ} {L : RuneLower} {seeds used : List String}

/-- Completeness makes the sweep fit, since it is within the bounds. -/
theorem sweep_subset_of_complete {sg : Subgraph} (h : Complete db (db.sidecar fails hits) L seeds sg)
    (hwhole : sg.truncated = false) {x : String}
    (hx : x ∈ graphSweep db.handle ∅ (startNames (db.sidecar fails hits) L seeds)) : sg.Has x := by
  rcases mem_sweep_cases hx with hx | ⟨s, hs, ⟨k, hk, hpath⟩ | ⟨k, hk, hpath⟩ | ⟨rel, hrel, e, he, rfl⟩⟩
  · exact absurd hx (Set.notMem_empty x)
  · exact h.reached hwhole downstream (.inl rfl) s hs k hk x (hpath.mono_hop hop_uncut_of_hop_handle)
  · exact h.reached hwhole upstream (.inr rfl) s hs k hk x (hpath.mono_hop hop_uncut_of_hop_handle)
  · rw [graphEdges_handle] at he
    obtain ⟨hfrom, hto⟩ := h.neighbours hwhole s hs rel hrel e he
    rcases rel.ends_eq e with ⟨hfiled, -⟩ | ⟨-, hfiled⟩
    · rwa [hfiled] at hfrom
    · rwa [hfiled] at hto

theorem nothingLost_of_complete
    (h : Complete db (db.sidecar fails hits) L seeds ((walkSeeds (db.sidecar fails hits) L seeds).toSubgraph used))
    (hwhole : (walkSeeds (db.sidecar fails hits) L seeds).truncated = false) :
    NothingLost db (db.sidecar fails hits) L seeds := by
  have hkept := kept_walkSeeds (db.sidecar fails hits) L seeds
  have hrun := run_rounds (S := db.sidecar fails hits) (L := L) .empty (cleanedSeeds seeds)
  have hans : ∀ i q, (walkSeeds (db.sidecar fails hits) L seeds).log[i]? = some q →
      ¬ (db.sidecar fails hits).Fails i q := by
    intro i q hi hfail
    have hflag : (walkSeeds (db.sidecar fails hits) L seeds).truncated = true := h.flagged ⟨i, q, hi, hfail⟩
    rw [hwhole] at hflag
    exact absurd hflag (by decide)
  obtain ⟨hsound, -⟩ := walk_names_of_quiet (quiet_of_answered hwhole hans)
  refine ⟨hans, ?_, fun dir hdir s hs k hk x hpath => ?_, fun s hs e he hparent => ?_,
    fun rel name e rel' name' e' hrep hrep' hkey => ?_⟩
  · have hsub : graphSweep db.handle ∅ (startNames (db.sidecar fails hits) L seeds) ⊆
        {x | x ∈ (walkSeeds (db.sidecar fails hits) L seeds).names} := fun x hx =>
      toSubgraph_has.mp (sweep_subset_of_complete h hwhole hx)
    have hformed : (walkSeeds (db.sidecar fails hits) L seeds).WellFormed :=
      steps_wellFormed Walk.wellFormed_empty hrun.steps
    have hlength : (walkSeeds (db.sidecar fails hits) L seeds).names.length ≤ subgraphMaxNodes :=
      (List.length_map _).trans_le (steps_nodes_length_le hrun.steps (Nat.zero_le _))
    calc (graphSweep db.handle ∅ (startNames (db.sidecar fails hits) L seeds)).encard
        ≤ {x | x ∈ (walkSeeds (db.sidecar fails hits) L seeds).names}.encard := Set.encard_le_encard hsub
      _ = (walkSeeds (db.sidecar fails hits) L seeds).names.length := encard_mem_eq_length hformed.nodup
      _ ≤ subgraphMaxNodes := by exact_mod_cast hlength
  · exact hsound x (toSubgraph_has.mp (h.reached hwhole dir hdir s hs k hk x hpath))
  · -- the edge to the parent can only come from the answer for the parent
    have hrep := reported_of_asked hans (asked_of_start hs (by decide : Relation.extends ∈ auxRelations)) he
    obtain ⟨hproper, rel, name, c, hc, hrec⟩ :=
      hkept.edges_from _ (mem_toSubgraph_edges.mp (h.edges hwhole .extends s e hrep))
    have hmem := mem_handle_of_reported hc
    rcases near_of_mem_handle hmem with hnear | ⟨rfl, hfrom⟩
    · have heq : rel.answered c = Relation.answered .extends e := (recorded_eq_answered hnear).symm.trans hrec
      have hrel : rel = .extends := eq_extends_of_etype (congrArg SubgraphEdge.etype heq)
      subst hrel
      have hto : name = e.toName := hnear.symm.trans (congrArg SubgraphEdge.toName heq)
      subst hto
      obtain ⟨i, es, hi, -, -⟩ := hc
      refine ⟨hkept.asked_starts .extends _ (List.mem_of_getElem? hi) (by decide), c, hmem, ?_⟩
      exact (congrArg SubgraphEdge.fromName heq).trans hparent
    · rw [← hrec] at hproper
      exact absurd hproper (not_proper_recorded hfrom)
  · exact hkept.keyed _ (mem_toSubgraph_edges.mp (h.edges hwhole rel name e hrep)) _
      (mem_toSubgraph_edges.mp (h.edges hwhole rel' name' e' hrep')) hkey

/-- An edge whose near end has been asked about is recorded under its key, which is its own. -/
theorem recorded_of_near (h : NothingLost db (db.sidecar fails hits) L seeds)
    (hwhole : (walkSeeds (db.sidecar fails hits) L seeds).truncated = false) {rel : Relation} {name : String}
    {e : CallEdge} (hrep : Reported (db.sidecar fails hits) (walkSeeds (db.sidecar fails hits) L seeds).log rel name e)
    (hnear : rel.near e = name) : rel.answered e ∈ (walkSeeds (db.sidecar fails hits) L seeds).edges := by
  have hkept := kept_walkSeeds (db.sidecar fails hits) L seeds
  have hproper := proper_answered (mem_handle_of_reported hrep)
  rw [← recorded_eq_answered hnear] at hproper
  obtain ⟨c, hc, hkey⟩ := hkept.edges_kept hwhole rel name e hrep hproper
  obtain ⟨hcproper, rel', name', e', hrep', hrec⟩ := hkept.edges_from c hc
  rcases near_of_mem_handle (mem_handle_of_reported hrep') with hnear' | ⟨rfl, hfrom⟩
  · rw [← hrec, recorded_eq_answered hnear', recorded_eq_answered hnear] at hkey
    rw [← h.keys rel' name' e' rel name e hrep' hrep hkey, ← recorded_eq_answered hnear', hrec]
    exact hc
  · rw [← hrec] at hcproper
    exact absurd hcproper (not_proper_recorded hfrom)

/-- An edge that a seed is answered from its parent's side: the parent is asked too, and answers the same
edge. -/
theorem recorded_of_parent (h : NothingLost db (db.sidecar fails hits) L seeds)
    (hwhole : (walkSeeds (db.sidecar fails hits) L seeds).truncated = false) {name : String} {e : CallEdge}
    (hrep : Reported (db.sidecar fails hits) (walkSeeds (db.sidecar fails hits) L seeds).log .extends name e)
    (hfrom : e.fromName = name) :
    Relation.answered .extends e ∈ (walkSeeds (db.sidecar fails hits) L seeds).edges := by
  have hkept := kept_walkSeeds (db.sidecar fails hits) L seeds
  have hmem := mem_handle_of_reported hrep
  obtain ⟨i, es, hi, -, -⟩ := hrep
  have hs := hkept.asked_starts .extends name (List.mem_of_getElem? hi) (by decide)
  -- the parent was asked too, and its answer has the child
  obtain ⟨hparent, c, hc, hchild⟩ := h.parents name hs e hmem hfrom
  have hasked := asked_of_start hparent (by decide : Relation.extends ∈ auxRelations)
  have hcrep := reported_of_asked h.answered hasked hc
  rcases near_of_mem_handle hc with hnear | ⟨-, hself⟩
  · -- the two answers record the same edge
    have heq : Relation.answered .extends c = Relation.answered .extends e := by
      have hto : c.toName = e.toName := hnear
      unfold Relation.answered
      rw [hchild, hto, hfrom]
    rw [← heq]
    exact recorded_of_near h hwhole hcrep hnear
  · -- the child would be its own parent
    have hproper := proper_answered hmem
    exact absurd ((hfrom.trans hchild.symm).trans hself) hproper.2.2

theorem complete_of_nothingLost (h : NothingLost db (db.sidecar fails hits) L seeds)
    (hwhole : (walkSeeds (db.sidecar fails hits) L seeds).truncated = false) :
    Complete db (db.sidecar fails hits) L seeds
      ((walkSeeds (db.sidecar fails hits) L seeds).toSubgraph used) := by
  have hkept := kept_walkSeeds (db.sidecar fails hits) L seeds
  -- nothing was cut off, so the walk has met every node of its sweep
  obtain ⟨-, hcomplete⟩ := walk_names_of_quiet (quiet_of_answered hwhole h.answered)
  have hstart : ∀ s ∈ startNames (db.sidecar fails hits) L seeds,
      s ∈ (walkSeeds (db.sidecar fails hits) L seeds).names := fun s hs =>
    hcomplete h.fits s (mem_sweep_of_start hs)
  refine ⟨?_, fun _ dir hdir s hs k hk x hpath => ?_, fun _ s hs rel hrel e he => ?_, fun _ rel name e hrep => ?_⟩
  · rintro ⟨i, q, hi, hfail⟩
    exact absurd hfail (h.answered i q hi)
  · exact toSubgraph_has.mpr (hcomplete h.fits x (h.reached dir hdir s hs k hk x hpath))
  · -- a neighbour was asked for, and both its ends were filed
    have hrep := reported_of_asked h.answered (asked_of_start hs hrel) he
    have hfiled := hkept.names_kept hwhole rel s e hrep
    rw [toSubgraph_has, toSubgraph_has]
    rcases near_of_mem_handle he with hnear | ⟨rfl, hfrom⟩
    · have hnearmem := hstart s hs
      rw [← hnear] at hnearmem
      rcases rel.ends_eq e with ⟨hfrom, hto⟩ | ⟨hfrom, hto⟩
      · rw [hfrom, hto]
        exact ⟨hfiled, hnearmem⟩
      · rw [hfrom, hto]
        exact ⟨hnearmem, hfiled⟩
    · exact ⟨hfiled, hstart _ (h.parents s hs e he hfrom).1⟩
  · rw [mem_toSubgraph_edges]
    -- an edge that is near its name was recorded, one that is looked up from the child by its parent
    rcases near_of_mem_handle (mem_handle_of_reported hrep) with hnear | ⟨rfl, hfrom⟩
    · exact recorded_of_near h hwhole hrep hnear
    · exact recorded_of_parent h hwhole hrep hfrom

/-- **Complete unless truncated**, exactly when nothing is lost. -/
theorem subgraph_complete_iff (db : Database) (fails : ℕ → Bool) (hits : ℕ → String → Option ℤ) (L : RuneLower)
    (seeds : List String) (sg : Subgraph) (hsub : subgraph (db.sidecar fails hits) L seeds = some sg) :
    Complete db (db.sidecar fails hits) L seeds sg ↔
      (sg.truncated = false → NothingLost db (db.sidecar fails hits) L seeds) := by
  unfold subgraph at hsub
  split_ifs at hsub
  obtain rfl := Option.some.inj hsub
  constructor
  · exact nothingLost_of_complete
  · intro h
    cases hflag : (walkSeeds (db.sidecar fails hits) L seeds).truncated with
    | false => exact complete_of_nothingLost (h hflag) hflag
    | true =>
      have hmarked : ((walkSeeds (db.sidecar fails hits) L seeds).toSubgraph (cleanedSeeds seeds)).truncated ≠ false :=
        fun hwhole => absurd (hflag.symm.trans hwhole) (by decide)
      exact ⟨fun _ => hflag, fun hwhole => absurd hwhole hmarked, fun hwhole => absurd hwhole hmarked,
        fun hwhole => absurd hwhole hmarked⟩

end Main

/-- A chain of five calls from `login` to `audit`, which `cron` calls at once and which calls `store`. And a class
with a parent. -/
def accounts : Database where
  nodes := [⟨"n1", "function", "login", "login.ts"⟩, ⟨"n2", "function", "check", "check.ts"⟩,
    ⟨"n3", "function", "lookup", "lookup.ts"⟩, ⟨"n4", "function", "query", "query.ts"⟩,
    ⟨"n5", "function", "send", "send.ts"⟩, ⟨"n6", "function", "audit", "audit.ts"⟩,
    ⟨"n7", "function", "cron", "cron.ts"⟩, ⟨"n8", "function", "store", "store.ts"⟩,
    ⟨"n9", "class", "User", "user.ts"⟩, ⟨"n10", "class", "Admin", "admin.ts"⟩]
  edges := [⟨"n1", "n2", "calls"⟩, ⟨"n2", "n3", "calls"⟩, ⟨"n3", "n4", "calls"⟩, ⟨"n4", "n5", "calls"⟩,
    ⟨"n5", "n6", "calls"⟩, ⟨"n7", "n6", "calls"⟩, ⟨"n6", "n8", "calls"⟩, ⟨"n10", "n9", "extends"⟩]

/-- Its sidecar, up or down. -/
def accountsSidecar (down : Bool) : Sidecar := accounts.sidecar (fun _ => down) fun _ _ => some 1

def accountsSubgraph (down : Bool) (seeds : List String) : Subgraph :=
  (walkSeeds (accountsSidecar down) asciiRunes seeds).toSubgraph (cleanedSeeds seeds)

/-- The parent as a seed. -/
theorem user_complete_iff :
    Complete accounts (accountsSidecar false) asciiRunes ["User"] (accountsSubgraph false ["User"]) ↔
      ((accountsSubgraph false ["User"]).truncated = false →
        NothingLost accounts (accountsSidecar false) asciiRunes ["User"]) :=
  subgraph_complete_iff accounts (fun _ => false) (fun _ _ => some 1) asciiRunes ["User"] (accountsSubgraph false ["User"])
    (by decide +kernel)

/-- **Incomplete, and not marked**: when every query fails; for a class, without its parent; and for `cron`, two
hops from `store`, when `login` has met `audit` at the end of its search. -/
theorem accounts_incomplete :
    (¬ Complete accounts (accountsSidecar true) asciiRunes ["login"] (accountsSubgraph true ["login"])) ∧
    (¬ Complete accounts (accountsSidecar false) asciiRunes ["Admin"] (accountsSubgraph false ["Admin"])) ∧
    ¬ Complete accounts (accountsSidecar false) asciiRunes ["login", "cron"]
      (accountsSubgraph false ["login", "cron"]) := by
  refine ⟨fun h => ?_, fun h => ?_, fun h => ?_⟩
  · -- the first query failed, and nothing says so
    have hfirst : (walkSeeds (accountsSidecar true) asciiRunes ["login"]).log[0]? = some (.edges .callees "login") := by
      decide +kernel
    have hflag := h.flagged ⟨0, .edges .callees "login", hfirst, rfl⟩
    have hdown : (accountsSubgraph true ["login"]).truncated = false := by decide +kernel
    exact absurd (hdown.symm.trans hflag) (by decide)
  · -- the parent of a start is not met
    have hstart : "Admin" ∈ startNames (accountsSidecar false) asciiRunes ["Admin"] := by decide +kernel
    have hparent : ⟨"Admin", "User", "admin.ts"⟩ ∈ accounts.handle .extends "Admin" := by decide +kernel
    obtain ⟨n, hn, hname⟩ := (h.neighbours (by decide +kernel) "Admin" hstart .extends (by decide) _ hparent).2
    have hnone : ∀ n ∈ (accountsSubgraph false ["Admin"]).nodes, n.name ≠ "User" := by decide +kernel
    exact hnone n hn hname
  · have hstart : "cron" ∈ startNames (accountsSidecar false) asciiRunes ["login", "cron"] := by decide +kernel
    have hcron : Hop accounts.uncut downstream "cron" "audit" :=
      .inl ⟨⟨"cron", "audit", "audit.ts"⟩, by decide +kernel, rfl⟩
    have haudit : Hop accounts.uncut downstream "audit" "store" :=
      .inl ⟨⟨"audit", "store", "store.ts"⟩, by decide +kernel, rfl⟩
    -- the second hop is missed, as the first round has met the node before
    have hpath : Hops (Hop accounts.uncut downstream) ∅ "cron" 2 "store" :=
      .next (.next .start hcron (Set.notMem_empty _)) haudit (Set.notMem_empty _)
    obtain ⟨n, hn, hname⟩ :=
      h.reached (by decide +kernel) downstream (.inl rfl) "cron" hstart 2 (by decide) "store" hpath
    have hnone : ∀ n ∈ (accountsSubgraph false ["login", "cron"]).nodes, n.name ≠ "store" := by decide +kernel
    exact hnone n hn hname

end Devrouter.Codegraph
