import Devrouter.Lib.Ceiling
import Devrouter.Codegraph.Complete

/-!
# Dangling edges

`Client.Subgraph` puts the far end of every answered edge on the map and then adds the edge. Both can be refused,
each at its own ceiling, and the near end of the edge is not looked at. So an edge can be left without an end.

`offers` is what comes in during a walk, in order: the start of each round, and the edges that are answered to its
queries. The map holds the names that come in before it is full, and the edges likewise (`mem_names_walkSeeds`,
`mem_edges_walkSeeds`). The result is sound just when these two agree (`subgraph_sound_iff`).
-/

open Relation (ReflTransGen)
open Ceiling

namespace Devrouter.Codegraph

/-! ### What comes in -/

/-- The start of a round, or an edge that is answered to a query. -/
inductive Offer
  | start (name : String)
  | edge (rel : Relation) (asked : String) (e : CallEdge)
  deriving DecidableEq, Repr

/-- The name that is to go on the map. -/
def Offer.name : Offer → String
  | .start name => name
  | .edge rel _ e => rel.filed e

/-- The edge that is to be added. -/
def Offer.drawn : Offer → Option SubgraphEdge
  | .start _ => none
  | .edge rel asked e => some (rel.recorded asked e)

instance (e : SubgraphEdge) : Decidable e.Proper :=
  inferInstanceAs (Decidable (e.fromName ≠ "" ∧ e.toName ≠ "" ∧ e.fromName ≠ e.toName))

/-- The names that come in. -/
def incoming (os : List Offer) : List String := (os.map (·.name)).filter (· ≠ "")

/-- The edges that come in. -/
def drawnEdges (os : List Offer) : List SubgraphEdge := (os.filterMap (·.drawn)).filter (·.Proper)

theorem incoming_append (os os' : List Offer) : incoming (os ++ os') = incoming os ++ incoming os' := by
  unfold incoming
  rw [List.map_append, List.filter_append]

theorem drawnEdges_append (os os' : List Offer) : drawnEdges (os ++ os') = drawnEdges os ++ drawnEdges os' := by
  unfold drawnEdges
  rw [List.filterMap_append, List.filter_append]

/-- The edges of the answers to queries that are numbered from `i` on. -/
def Sidecar.offersAt (S : Sidecar) : ℕ → List Query → List Offer
  | _, [] => []
  | i, .edges rel name :: qs =>
    (((S.answer i rel name).map graphEdges).getD []).map (.edge rel name) ++ S.offersAt (i + 1) qs
  | i, .nameHits _ :: qs => S.offersAt (i + 1) qs

theorem Sidecar.offersAt_append (S : Sidecar) (i : ℕ) (qs qs' : List Query) :
    S.offersAt i (qs ++ qs') = S.offersAt i qs ++ S.offersAt (i + qs.length) qs' := by
  induction qs generalizing i with
  | nil => rfl
  | cons q qs ih =>
    have hnext : i + 1 + qs.length = i + (q :: qs).length := by
      rw [List.length_cons]
      omega
    cases q with
    | edges rel name =>
      rw [List.cons_append, Sidecar.offersAt, ih, hnext, Sidecar.offersAt, List.append_assoc]
    | nameHits term => rw [List.cons_append, Sidecar.offersAt, ih, hnext, Sidecar.offersAt]

/-- What comes in during a round: its start, then the answers to its queries. -/
def roundOffers (S : Sidecar) (r : Walk × String) : List Offer :=
  .start r.2 :: S.offersAt r.1.log.length ((round S r.1 r.2).log.drop r.1.log.length)

/-- What comes in during a walk over the seeds. -/
def offers (S : Sidecar) (L : RuneLower) (seeds : List String) : List Offer :=
  (rounds S L .empty (cleanedSeeds seeds)).flatMap (roundOffers S)

/-! ### What is taken of it -/

/-- From one walk to the next exactly these offers come in. -/
structure Brings (w w' : Walk) (os : List Offer) : Prop where
  names : w'.names = enterAll id subgraphMaxNodes w.names (incoming os)
  edges : w'.edges = enterAll SubgraphEdge.key subgraphMaxEdges w.edges (drawnEdges os)

section Brings

variable {S : Sidecar} {T : Set String} {L : RuneLower} {w u w' : Walk} {os os' : List Offer}

theorem Brings.refl (w : Walk) : Brings w w [] := ⟨rfl, rfl⟩

theorem Brings.trans (h : Brings w u os) (h' : Brings u w' os') : Brings w w' (os ++ os') where
  names := by rw [h'.names, h.names, incoming_append, enterAll_append]
  edges := by rw [h'.edges, h.edges, drawnEdges_append, enterAll_append]

/-- A node: the name comes in, unless it is empty. -/
theorem Walk.upsertNode_names (w : Walk) (name file : String) (role : Role) (depth : ℤ) :
    (w.upsertNode name file role depth).1.names =
      enterAll id subgraphMaxNodes w.names ([name].filter (· ≠ "")) := by
  by_cases hname : name = ""
  · subst hname
    rfl
  · have hfilter : [name].filter (· ≠ "") = [name] := List.filter_eq_self.mpr (by simpa using hname)
    have hlength : w.names.length = w.nodes.length := List.length_map _
    rw [hfilter]
    change _ = enter id subgraphMaxNodes w.names name
    unfold enter
    rw [List.map_id, hlength]
    obtain ⟨h, hold⟩ | ⟨h, -, hnew, hfull⟩ | ⟨h, -, hnew, hroom⟩ := w.upsertNode_cases name file role depth
    · rw [h, if_pos (Walk.has_iff.mp (hold.resolve_left hname) : id name ∈ w.names)]
    · rw [h, if_neg (fun hmem : id name ∈ w.names => hnew (Walk.has_iff.mpr hmem)), if_pos hfull]
      rfl
    · rw [h, if_neg (fun hmem : id name ∈ w.names => hnew (Walk.has_iff.mpr hmem)), if_neg (not_le.mpr hroom)]
      exact List.map_append

theorem Walk.upsertNode_edges (w : Walk) (name file : String) (role : Role) (depth : ℤ) :
    (w.upsertNode name file role depth).1.edges = w.edges := by
  obtain ⟨h, -⟩ | ⟨h, -⟩ | ⟨h, -⟩ := w.upsertNode_cases name file role depth
  · rw [h]
  · rw [h]
  · rw [h]

/-- An edge comes in unless it is a loop or lacks an end. -/
theorem Walk.addEdge_edges (w : Walk) (e : SubgraphEdge) :
    (w.addEdge e).edges = enterAll SubgraphEdge.key subgraphMaxEdges w.edges ([e].filter (·.Proper)) := by
  by_cases hproper : e.Proper
  · -- a proper edge is entered under its key, unless that is there or the list is full
    have hfilter : [e].filter (·.Proper) = [e] := List.filter_eq_self.mpr (by simpa using hproper)
    have hends : ¬ (e.fromName = "" ∨ e.toName = "" ∨ e.fromName = e.toName) := by
      rintro (h | h | h)
      · exact hproper.1 h
      · exact hproper.2.1 h
      · exact hproper.2.2 h
    have hkey : w.edges.any (·.key = e.key) = true ↔ e.key ∈ w.edges.map SubgraphEdge.key := by
      rw [List.any_eq_true, List.mem_map]
      exact exists_congr fun c => and_congr_right fun _ => decide_eq_true_iff
    rw [hfilter]
    change _ = enter SubgraphEdge.key subgraphMaxEdges w.edges e
    unfold addEdge enter
    rw [if_neg hends, if_congr hkey rfl rfl]
    split_ifs
    · rfl
    · rfl
    · rfl
  · -- an edge that is not proper is not added
    have hfilter : [e].filter (·.Proper) = [] := List.filter_eq_nil_iff.mpr (by simpa using hproper)
    have hends : e.fromName = "" ∨ e.toName = "" ∨ e.fromName = e.toName := by
      by_contra hnone
      push Not at hnone
      exact hproper hnone
    rw [hfilter]
    unfold addEdge
    rw [if_pos hends]
    rfl

theorem brings_start (w : Walk) (name : String) : Brings w (w.upsertNode name "" .seed 0).1 [.start name] :=
  ⟨w.upsertNode_names name "" .seed 0, w.upsertNode_edges name "" .seed 0⟩

theorem brings_edge (rel : Relation) (name : String) (e : CallEdge) (role : Role) (depth : ℤ) (w : Walk) :
    Brings w ((w.upsertNode (rel.filed e) e.filePath role depth).1.addEdge (rel.recorded name e))
      [.edge rel name e] := by
  refine ⟨?_, ?_⟩
  · unfold Walk.names
    rw [Walk.addEdge_nodes]
    exact w.upsertNode_names (rel.filed e) e.filePath role depth
  · rw [Walk.addEdge_edges, Walk.upsertNode_edges]
    rfl

theorem brings_recordEdges (rel : Relation) (name : String) (role : Role) (depth : ℤ) (es : List CallEdge) (w : Walk) :
    Brings w (recordEdges rel name role depth es w) (es.map (.edge rel name)) := by
  induction es generalizing w with
  | nil => exact .refl w
  | cons e es ih =>
    rw [recordEdges_cons, List.map_cons, ← List.singleton_append]
    exact (brings_edge rel name e role depth w).trans (ih _)

/-- Some queries are asked, and what is answered to them comes in. -/
def Hears (S : Sidecar) (w w' : Walk) : Prop :=
  ∃ qs, w'.log = w.log ++ qs ∧ Brings w w' (S.offersAt w.log.length qs)

theorem Hears.refl (w : Walk) : Hears S w w := ⟨[], (List.append_nil _).symm, .refl w⟩

theorem Hears.trans (h : Hears S w u) (h' : Hears S u w') : Hears S w w' := by
  obtain ⟨qs, hlog, hbrings⟩ := h
  obtain ⟨qs', hlog', hbrings'⟩ := h'
  rw [hlog, List.length_append] at hbrings'
  refine ⟨qs ++ qs', by rw [hlog', hlog, List.append_assoc], ?_⟩
  rw [Sidecar.offersAt_append]
  exact hbrings.trans hbrings'

theorem Reply.hears (h : Reply S T w w') : Hears S w w' := by
  cases h with
  | flag => exact ⟨[], (List.append_nil _).symm, ⟨rfl, rfl⟩⟩
  | hits term => exact ⟨[.nameHits term], rfl, ⟨rfl, rfl⟩⟩
  | @fail rel name _ hanswer =>
    refine ⟨[.edges rel name], rfl, ?_⟩
    rw [Sidecar.offersAt, hanswer]
    exact ⟨rfl, rfl⟩
  | @record rel name es role depth _ hanswer =>
    have hrecord := brings_recordEdges rel name role depth (graphEdges es)
      { w with log := w.log ++ [.edges rel name] }
    have hlog : (recordEdges rel name role depth (graphEdges es)
        { w with log := w.log ++ [.edges rel name] }).log = w.log ++ [.edges rel name] :=
      (takesIn_recordEdges (fun _ he => ne_empty_of_mem_graphEdges he) name role depth _).log
    refine ⟨[.edges rel name], hlog, ?_⟩
    rw [Sidecar.offersAt, hanswer, Sidecar.offersAt, List.append_nil]
    exact ⟨hrecord.names, hrecord.edges⟩

theorem hears_of_replies (h : ReflTransGen (Reply S T) w w') : Hears S w w' := by
  induction h with
  | refl => exact .refl w
  | tail _ hlast ih => exact ih.trans hlast.hears

/-- **A round** brings in its start and its answers. -/
theorem brings_round (w : Walk) (start : String) : Brings w (round S w start) (roundOffers S (w, start)) := by
  obtain ⟨qs, hlog, hbrings⟩ := hears_of_replies (round_replies (S := S) (Set.mem_univ start) w)
  rw [Walk.upsertNode_log] at hlog hbrings
  have hdrop : (round S w start).log.drop w.log.length = qs := by
    rw [hlog]
    exact List.drop_left
  unfold roundOffers
  rw [hdrop, ← List.singleton_append]
  exact (brings_start w start).trans hbrings

/-- Looking for a name to fall back to brings in nothing. -/
theorem brings_fallbackTail (seed : String) (w : Walk) : Brings w (fallbackTail S L seed w).2 [] := by
  unfold fallbackTail Walk.queryHits
  dsimp only
  split_ifs
  · exact .refl w
  · exact .refl w
  · cases S.nameHits w.log.length (bareTail seed) with
    | none => exact ⟨rfl, rfl⟩
    | some n => exact ⟨rfl, rfl⟩

theorem brings_walkSeed (w : Walk) (seed : String) :
    Brings w (walkSeed S L w seed) ((seedRounds S L w seed).flatMap (roundOffers S)) := by
  have hround : round S w seed = (snapshotSeed S seed (w.upsertNode seed "" .seed 0).1).1 := rfl
  have hfirst := brings_round (S := S) w seed
  unfold seedRounds walkSeed
  dsimp only
  rw [← hround, List.flatMap_cons]
  split_ifs
  · rw [List.flatMap_nil, List.append_nil]
    exact hfirst
  · have htail := hfirst.trans (brings_fallbackTail (S := S) (L := L) seed (round S w seed))
    rw [List.append_nil] at htail
    cases (fallbackTail S L seed (round S w seed)).1 with
    | none =>
      rw [List.flatMap_nil, List.append_nil]
      exact htail
    | some tail =>
      rw [List.flatMap_cons, List.flatMap_nil, List.append_nil]
      exact htail.trans (brings_round _ tail)

/-- **The main loop.** -/
theorem brings_foldl_walkSeed (seeds : List String) (w : Walk) :
    Brings w (seeds.foldl (walkSeed S L) w) ((rounds S L w seeds).flatMap (roundOffers S)) := by
  induction seeds generalizing w with
  | nil => exact .refl w
  | cons seed seeds ih =>
    rw [List.foldl_cons, rounds, List.flatMap_append]
    exact (brings_walkSeed w seed).trans (ih _)

theorem brings_walkSeeds (S : Sidecar) (L : RuneLower) (seeds : List String) :
    Brings .empty (walkSeeds S L seeds) (offers S L seeds) := brings_foldl_walkSeed (cleanedSeeds seeds) .empty

end Brings

/-! ### Soundness -/

/-- What a subgraph should be: no name twice, both ceilings kept, no loops and no edge twice, and every end of an
edge and every seed on the map. -/
structure Subgraph.Sound (sg : Subgraph) : Prop where
  names_nodup : (sg.nodes.map (·.name)).Nodup
  nodes_le : sg.nodes.length ≤ subgraphMaxNodes
  edges_le : sg.edges.length ≤ subgraphMaxEdges
  no_loop : ∀ c ∈ sg.edges, c.fromName ≠ c.toName
  edges_nodup : sg.edges.Nodup
  closed : ∀ c ∈ sg.edges, sg.Has c.fromName ∧ sg.Has c.toName
  seeds_has : ∀ s ∈ sg.seeds, sg.Has s

section Sound

variable (S : Sidecar) (L : RuneLower) (seeds : List String)

/-- The name comes in, and fewer other names before it than the map can hold. -/
def InTime (x : String) : Prop := Arrives id subgraphMaxNodes (incoming (offers S L seeds)) x

/-- The edge comes in, as the first with its key, and fewer other keys before it than there is room for. -/
def Drawn (c : SubgraphEdge) : Prop := Arrives SubgraphEdge.key subgraphMaxEdges (drawnEdges (offers S L seeds)) c

/-- Every seed, and both ends of every edge that is drawn, come in in time. -/
structure Tidy : Prop where
  seeds_inTime : ∀ s ∈ cleanedSeeds seeds, InTime S L seeds s
  ends_inTime : ∀ c, Drawn S L seeds c → InTime S L seeds c.fromName ∧ InTime S L seeds c.toName

variable {S L seeds}

theorem filled_names : Filled id subgraphMaxNodes (incoming (offers S L seeds)) (walkSeeds S L seeds).names := by
  rw [(brings_walkSeeds S L seeds).names]
  exact filled_enterAll _

theorem filled_edges :
    Filled SubgraphEdge.key subgraphMaxEdges (drawnEdges (offers S L seeds)) (walkSeeds S L seeds).edges := by
  rw [(brings_walkSeeds S L seeds).edges]
  exact filled_enterAll _

/-- **On the map** is what comes in in time. -/
theorem mem_names_walkSeeds {x : String} : x ∈ (walkSeeds S L seeds).names ↔ InTime S L seeds x :=
  filled_names.mem_iff x

/-- **The edges** are those that are drawn. -/
theorem mem_edges_walkSeeds {c : SubgraphEdge} : c ∈ (walkSeeds S L seeds).edges ↔ Drawn S L seeds c :=
  filled_edges.mem_iff c

theorem Drawn.proper {c : SubgraphEdge} (h : Drawn S L seeds c) : c.Proper :=
  of_decide_eq_true (List.mem_filter.mp (Arrives.mem h)).2

/-- What holds of every result. -/
theorem toSubgraph_sound {used : List String}
    (hclosed : ∀ c ∈ (walkSeeds S L seeds).edges,
      c.fromName ∈ (walkSeeds S L seeds).names ∧ c.toName ∈ (walkSeeds S L seeds).names)
    (hseeds : ∀ s ∈ used, s ∈ (walkSeeds S L seeds).names) : ((walkSeeds S L seeds).toSubgraph used).Sound where
  names_nodup := by
    have hnames : ((walkSeeds S L seeds).names.map id).Nodup := filled_names.nodup
    -- sorting the nodes and the edges keeps what is there
    rw [List.map_id] at hnames
    exact ((List.perm_insertionSort _ _).map _).nodup_iff.mpr hnames
  nodes_le := by
    have hlength : (walkSeeds S L seeds).names.length ≤ subgraphMaxNodes := filled_names.length_le
    unfold Walk.names at hlength
    rw [List.length_map] at hlength
    exact (List.length_insertionSort _ _).trans_le hlength
  edges_le := (List.length_insertionSort _ _).trans_le filled_edges.length_le
  no_loop := fun _ hc => (mem_edges_walkSeeds.mp (mem_toSubgraph_edges.mp hc)).proper.2.2
  edges_nodup := (List.perm_insertionSort _ _).nodup_iff.mpr filled_edges.nodup.of_map
  closed := fun c hc => by
    obtain ⟨hfrom, hto⟩ := hclosed c (mem_toSubgraph_edges.mp hc)
    exact ⟨toSubgraph_has.mpr hfrom, toSubgraph_has.mpr hto⟩
  seeds_has := fun s hs => toSubgraph_has.mpr (hseeds s hs)

/-- **Sound results**: just when every seed and both ends of every edge that is drawn come in in time. -/
theorem subgraph_sound_iff (S : Sidecar) (L : RuneLower) (seeds : List String) :
    (∀ sg, subgraph S L seeds = some sg → sg.Sound) ↔ Tidy S L seeds := by
  by_cases hused : cleanedSeeds seeds = []
  · -- no seed is usable: there is no result, and nothing comes in
    have hnone : offers S L seeds = [] := by
      unfold offers
      rw [hused]
      rfl
    refine iff_of_true (fun sg hsg => ?_) ⟨fun s hs => ?_, fun c hc => ?_⟩
    · unfold subgraph at hsg
      rw [if_pos hused] at hsg
      exact absurd hsg (by simp)
    · rw [hused] at hs
      exact absurd hs List.not_mem_nil
    · unfold Drawn at hc
      rw [hnone] at hc
      exact absurd hc not_arrives_nil
  · have hresult : subgraph S L seeds = some ((walkSeeds S L seeds).toSubgraph (cleanedSeeds seeds)) := if_neg hused
    constructor
    · intro h
      have hsound := h _ hresult
      refine ⟨fun s hs => ?_, fun c hc => ?_⟩
      · exact mem_names_walkSeeds.mp (toSubgraph_has.mp (hsound.seeds_has s hs))
      · obtain ⟨hfrom, hto⟩ := hsound.closed c (mem_toSubgraph_edges.mpr (mem_edges_walkSeeds.mpr hc))
        exact ⟨mem_names_walkSeeds.mp (toSubgraph_has.mp hfrom), mem_names_walkSeeds.mp (toSubgraph_has.mp hto)⟩
    · intro h sg hsg
      rw [hresult] at hsg
      rw [← Option.some.inj hsg]
      refine toSubgraph_sound (fun c hc => ?_) fun s hs => mem_names_walkSeeds.mpr (h.seeds_inTime s hs)
      obtain ⟨hfrom, hto⟩ := h.ends_inTime c (mem_edges_walkSeeds.mp hc)
      exact ⟨mem_names_walkSeeds.mpr hfrom, mem_names_walkSeeds.mpr hto⟩

end Sound

/-! ### A flood -/

section Flood

variable {S : Sidecar} {dir : CallDirection} {w : Walk} {name : String}

theorem expandNode_log (hrole : dir.role ≠ .seed) (d : ℕ) (next : List String) :
    w.log ++ [.edges dir.calls name] <+: (expandNode S dir d name w next).1.log := by
  have hcalls : w.log ++ [.edges dir.calls name] <+:
      (takeAnswer S dir.calls true dir.role (dir.sign * d) "CALLS" name w next).1.log :=
    takeAnswer_log (dir.sign * d) "CALLS" name hrole w next
  unfold expandNode
  dsimp only
  split_ifs
  · exact hcalls
  · exact hcalls.trans (steps_log_grow (takeAnswer_steps _ _ _ _ _ hrole _ _))

theorem expandBFS_log (hrole : dir.role ≠ .seed) (levels d : ℕ) :
    w.log ++ [.edges dir.calls name] <+: (expandBFS S dir (levels + 1) d [name] w).log := by
  have hnode : w.log ++ [.edges dir.calls name] <+: (expandNode S dir d name w []).1.log := expandNode_log hrole d []
  have hlevel : w.log ++ [.edges dir.calls name] <+: (expandLevel S dir d [name] w []).1.log := by
    unfold expandLevel
    dsimp only
    split_ifs
    · exact hnode
    · exact hnode.trans (steps_log_grow (expandLevel_steps hrole d [] _ _))
  unfold expandBFS
  rw [if_neg (List.cons_ne_nil name [])]
  dsimp only
  split_ifs
  · exact hlevel
  · have htrim := hlevel.trans (steps_log_grow (trimFrontier_steps (S := S) _ (expandLevel S dir d [name] w []).2.1))
    exact htrim.trans (steps_log_grow (expandBFS_steps hrole levels (d + 1) _ _))

/-- The first query of a round is for what its start calls. -/
theorem round_log (w : Walk) (start : String) : w.log ++ [.edges .callees start] <+: (round S w start).log := by
  have hcallees : (w.upsertNode start "" .seed 0).1.log ++ [.edges .callees start] <+: (afterCallees S w start).log :=
    expandBFS_log (by decide : downstream.role ≠ .seed) 4 1
  rw [Walk.upsertNode_log] at hcallees
  have hcallers := hcallees.trans (steps_log_grow (expandCallersBFS_steps (S := S) start _))
  exact hcallers.trans (steps_log_grow (addAux_steps (S := S) start _))

/-- A sidecar that is down brings in nothing. -/
theorem Sidecar.offersAt_of_down {i : ℕ} (hdown : ∀ j ≥ i, ∀ rel name, S.answer j rel name = none) (qs : List Query) :
    S.offersAt i qs = [] := by
  induction qs generalizing i with
  | nil => rfl
  | cons q qs ih =>
    have hrest := ih (i := i + 1) fun j hj => hdown j (Nat.le_of_succ_le hj)
    cases q with
    | edges rel name =>
      rw [Sidecar.offersAt, hdown i le_rfl, hrest]
      rfl
    | nameHits term => rw [Sidecar.offersAt, hrest]

/-- One seed without a tail, and one answer. -/
theorem offers_of_single {L : RuneLower} {seeds : List String} {s : String} (hused : cleanedSeeds seeds = [s])
    (htail : bareTail s = "") (hdown : ∀ j ≥ 1, ∀ rel name, S.answer j rel name = none) :
    offers S L seeds =
      .start s :: (((S.answer 0 .callees s).map graphEdges).getD []).map (Offer.edge .callees s) := by
  -- a bare name has no fallback, so one round is walked
  have hrounds : rounds S L .empty [s] = [(.empty, s)] := by
    have hnone : ∀ w, (fallbackTail S L s w).1 = none := by
      intro w
      unfold fallbackTail
      rw [if_pos (.inl htail)]
    unfold rounds seedRounds
    dsimp only
    rw [hnone]
    split_ifs
    · rfl
    · rfl
  obtain ⟨rest, hlog⟩ := round_log (S := S) .empty s
  have hround : roundOffers S (.empty, s) =
      .start s :: S.offersAt 0 (.edges .callees s :: rest) := by
    unfold roundOffers
    rw [← hlog]
    rfl
  unfold offers
  -- later answers fail, so only the first one offers anything
  rw [hused, hrounds, List.flatMap_cons, List.flatMap_nil, List.append_nil, hround, Sidecar.offersAt,
    Sidecar.offersAt_of_down hdown, List.append_nil]

end Flood

/-- Names that are told apart by their lengths. -/
def helperName (k : ℕ) : String := String.ofList (List.replicate (k + 1) 'f')

def helperCall (k : ℕ) : CallEdge := ⟨"s", helperName k, ""⟩

def helperEdge (k : ℕ) : SubgraphEdge := ⟨"s", helperName k, "CALLS"⟩

/-- The first query is answered with `n` callees of `s`, and then the sidecar is down. -/
def flood (n : ℕ) : Sidecar where
  answer i _ _ := if i = 0 then some ((List.range n).map helperCall) else none
  nameHits _ _ := none

/-- The first query is answered with a call between two other symbols. -/
def gossip : Sidecar where
  answer i _ _ := if i = 0 then some [⟨"x", "y", ""⟩] else none
  nameHits _ _ := none

theorem helperName_injective : Function.Injective helperName := by
  intro a b h
  have hlength := congrArg List.length (String.ofList_injective h)
  simpa using hlength

theorem helperName_ne (k : ℕ) : helperName k ≠ "" ∧ "s" ≠ helperName k := by
  refine ⟨fun h => ?_, fun h => ?_⟩
  · exact absurd (congrArg String.toList h) (by simp [helperName])
  · exact absurd (congrArg String.toList h) (by simp [helperName, List.replicate_succ])

theorem helperEdge_key_injective : Function.Injective fun k => (helperEdge k).key := by
  intro a b h
  refine helperName_injective ((String.append_right_inj ("CALLS" ++ "|" ++ "s" ++ "|")).mp ?_)
  exact h

theorem helperName_notMem {n k : ℕ} (hk : n ≤ k) : helperName k ∉ "s" :: (List.range n).map helperName := by
  intro hmem
  rcases List.mem_cons.mp hmem with h | hmem
  · exact (helperName_ne k).2 h.symm
  · obtain ⟨j, hj, hsame⟩ := List.mem_map.mp hmem
    rw [helperName_injective hsame] at hj
    exact absurd (List.mem_range.mp hj) (not_lt.mpr hk)

/-- What comes in under a flood. -/
theorem offers_flood (n : ℕ) (L : RuneLower) :
    offers (flood n) L ["s"] = .start "s" :: (List.range n).map fun k => .edge .callees "s" (helperCall k) := by
  have hkept : graphEdges ((List.range n).map helperCall) = (List.range n).map helperCall := by
    refine List.filter_eq_self.mpr fun e he => ?_
    obtain ⟨k, -, rfl⟩ := List.mem_map.mp he
    exact decide_eq_true ⟨(by decide : "s" ≠ ""), (helperName_ne k).1⟩
  have hused : cleanedSeeds ["s"] = ["s"] := by decide +kernel
  have hfirst : (flood n).answer 0 .callees "s" = some ((List.range n).map helperCall) := rfl
  rw [offers_of_single hused (by decide +kernel) fun j hj _ _ => if_neg (by omega), hfirst, Option.map_some,
    Option.getD_some, hkept, List.map_map]
  rfl

theorem incoming_flood (n : ℕ) (L : RuneLower) :
    incoming (offers (flood n) L ["s"]) = "s" :: (List.range n).map helperName := by
  rw [offers_flood]
  unfold incoming
  rw [List.map_cons, List.map_map, List.filter_eq_self.mpr]
  · rfl
  · intro x hx
    rcases List.mem_cons.mp hx with rfl | hx
    · exact decide_eq_true (by decide : "s" ≠ "")
    · obtain ⟨k, -, rfl⟩ := List.mem_map.mp hx
      exact decide_eq_true (helperName_ne k).1

theorem drawnEdges_flood (n : ℕ) (L : RuneLower) :
    drawnEdges (offers (flood n) L ["s"]) = (List.range n).map helperEdge := by
  have hdrawn : (offers (flood n) L ["s"]).filterMap (·.drawn) = (List.range n).map helperEdge := by
    rw [offers_flood, List.filterMap_cons_none rfl, List.filterMap_map, ← List.filterMap_eq_map]
    rfl
  unfold drawnEdges
  rw [hdrawn]
  refine List.filter_eq_self.mpr fun c hc => ?_
  obtain ⟨k, -, rfl⟩ := List.mem_map.mp hc
  exact decide_eq_true ⟨(by decide : "s" ≠ ""), helperName_ne k⟩

/-- **The last of a flood** is drawn while there is room for edges, and in time while there is room for names. -/
theorem drawn_flood {n : ℕ} (L : RuneLower) (hn : n < subgraphMaxEdges) :
    Drawn (flood (n + 1)) L ["s"] (helperEdge n) := by
  unfold Drawn
  rw [drawnEdges_flood, List.range_succ, List.map_append]
  refine ⟨(List.range n).map helperEdge, [], rfl, fun hmem => ?_, ?_⟩
  · rw [List.map_map] at hmem
    obtain ⟨j, hj, hsame⟩ := List.mem_map.mp hmem
    rw [helperEdge_key_injective hsame] at hj
    exact absurd (List.mem_range.mp hj) (lt_irrefl n)
  · calc (keys SubgraphEdge.key ((List.range n).map helperEdge)).card
        ≤ ((List.range n).map helperEdge).length := card_keys_le
      _ = n := by rw [List.length_map, List.length_range]
      _ < subgraphMaxEdges := hn

theorem inTime_flood_iff {n : ℕ} (L : RuneLower) :
    InTime (flood (n + 1)) L ["s"] (helperName n) ↔ n + 1 < subgraphMaxNodes := by
  have hnew := helperName_notMem (le_refl n)
  have hsplit : "s" :: (List.range (n + 1)).map helperName =
      ("s" :: (List.range n).map helperName) ++ helperName n :: [] := by
    rw [List.range_succ, List.map_append]
    rfl
  have hnodup : ("s" :: (List.range n).map helperName).Nodup := by
    refine List.nodup_cons.mpr ⟨fun hmem => ?_, List.nodup_range.map helperName_injective⟩
    obtain ⟨k, -, hsame⟩ := List.mem_map.mp hmem
    exact (helperName_ne k).2 hsame.symm
  unfold InTime
  rw [incoming_flood, arrives_iff_of_first hsplit (by rwa [List.map_id])]
  unfold keys
  rw [List.map_id, List.toFinset_card_of_nodup hnodup, List.length_cons, List.length_map, List.length_range]

/-- **Unsound results**: the five hundredth callee is refused, but not its edge; and a symbol that is no one's far
end is not on the map. -/
theorem subgraph_unsound :
    (∃ sg, subgraph (flood 500) asciiRunes ["s"] = some sg ∧ helperEdge 499 ∈ sg.edges ∧ ¬ sg.Has (helperName 499) ∧
      ¬ sg.Sound) ∧
    ¬ ∀ sg, subgraph gossip asciiRunes ["s"] = some sg → sg.Sound := by
  have hused : cleanedSeeds ["s"] = ["s"] := by decide +kernel
  have hresult : ∀ S, subgraph S asciiRunes ["s"] = some ((walkSeeds S asciiRunes ["s"]).toSubgraph ["s"]) := by
    intro S
    unfold subgraph
    rw [hused, if_neg (List.cons_ne_nil _ _)]
  constructor
  · -- the flood draws the last edge, while its node comes too late
    have hdrawn := drawn_flood (n := 499) asciiRunes (by decide)
    have hedge : helperEdge 499 ∈ ((walkSeeds (flood 500) asciiRunes ["s"]).toSubgraph ["s"]).edges :=
      mem_toSubgraph_edges.mpr (mem_edges_walkSeeds.mpr hdrawn)
    have hnone : ¬ ((walkSeeds (flood 500) asciiRunes ["s"]).toSubgraph ["s"]).Has (helperName 499) := by
      rw [toSubgraph_has, mem_names_walkSeeds, inTime_flood_iff]
      decide
    exact ⟨_, hresult _, hedge, hnone, fun h => hnone (h.closed _ hedge).2⟩
  · -- the gossip's edge has ends that nobody has met
    intro h
    have hedge : ⟨"x", "y", "CALLS"⟩ ∈ ((walkSeeds gossip asciiRunes ["s"]).toSubgraph ["s"]).edges := by
      decide +kernel
    obtain ⟨n, hn, hname⟩ := ((h _ (hresult _)).closed _ hedge).1
    have hnone : ∀ n ∈ ((walkSeeds gossip asciiRunes ["s"]).toSubgraph ["s"]).nodes, n.name ≠ "x" := by
      decide +kernel
    exact hnone n hn hname

end Devrouter.Codegraph
