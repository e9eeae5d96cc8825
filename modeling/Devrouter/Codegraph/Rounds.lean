import Devrouter.Codegraph.Records

/-!
# The rounds of a subgraph walk

The main loop of `Client.Subgraph` goes through rounds: one for every seed, and one more for the bare name of a
seed that has added nothing. A round puts its start on the map and walks from it (`round`). `rounds` lists them,
each with the walk in front of it, and `run_rounds` says that nothing else adds nodes.

What a quiet round puts on the map is known (`round_records`): its start, the layers of two searches that do not
enter what is on the map already, and the structural neighbours of the start. All rounds together are a sweep
(`Run.sweeps`).
-/

open Relation (ReflTransGen)
open Search

namespace Devrouter.Codegraph

section Rounds

variable (S : Sidecar) (L : RuneLower)

/-- One round: the start is put on the map, then walked from. -/
def round (w : Walk) (start : String) : Walk := (snapshotSeed S start (w.upsertNode start "" .seed 0).1).1

/-- The walk after the downstream part of a round. -/
def afterCallees (w : Walk) (start : String) : Walk :=
  expandCalleesBFS S start (w.upsertNode start "" .seed 0).1

/-- The walk after the upstream part. -/
def afterCallers (w : Walk) (start : String) : Walk := expandCallersBFS S start (afterCallees S w start)

/-- The rounds of a seed, each with the walk in front of it. -/
def seedRounds (w : Walk) (seed : String) : List (Walk × String) :=
  (w, seed) ::
    if (snapshotSeed S seed (w.upsertNode seed "" .seed 0).1).2 > 0 then []
    else
      let (tail, w) := fallbackTail S L seed (round S w seed)
      match tail with
      | none => []
      | some tail => [(w, tail)]

/-- All rounds. -/
def rounds : Walk → List String → List (Walk × String)
  | _, [] => []
  | w, seed :: seeds => seedRounds S L w seed ++ rounds (walkSeed S L w seed) seeds

/-- The symbols that `Subgraph` walks from: the seeds, and the bare names of those that have added nothing. -/
def startNames (seeds : List String) : List String := (rounds S L .empty (cleanedSeeds seeds)).map (·.2)

end Rounds

/-- A walk through rounds, with steps in between that add no nodes. -/
inductive Run (S : Sidecar) : Walk → List (Walk × String) → Walk → Prop
  | done {w w' : Walk} (hsteps : ReflTransGen (Step S) w w') (hnodes : w'.nodes = w.nodes) : Run S w [] w'
  | round {w u w' : Walk} {start : String} {rest : List (Walk × String)} (hsteps : ReflTransGen (Step S) w u)
      (hnodes : u.nodes = w.nodes) (hrest : Run S (round S u start) rest w') : Run S w ((u, start) :: rest) w'

section Runs

variable {S : Sidecar} {L : RuneLower} {w u w' : Walk} {rs rs' : List (Walk × String)}

theorem Run.append (h : Run S w rs u) (h' : Run S u rs' w') : Run S w (rs ++ rs') w' := by
  induction h with
  | done hsteps hnodes =>
    cases h' with
    | done hsteps' hnodes' => exact .done (hsteps.trans hsteps') (hnodes'.trans hnodes)
    | round hsteps' hnodes' hrest => exact .round (hsteps.trans hsteps') (hnodes'.trans hnodes) hrest
  | round hsteps hnodes _ ih => exact .round hsteps hnodes (ih h')

theorem round_steps (w : Walk) (start : String) : ReflTransGen (Step S) w (round S w start) :=
  .head (.seed w start) (snapshotSeed_steps start _)

theorem Run.steps (h : Run S w rs w') : ReflTransGen (Step S) w w' := by
  induction h with
  | done hsteps => exact hsteps
  | round hsteps _ _ ih => exact (hsteps.trans (round_steps _ _)).trans ih

/-- From the end of a round it is steps to the end. -/
theorem Run.round_steps_end (h : Run S w rs w') {r : Walk × String} (hr : r ∈ rs) :
    ReflTransGen (Step S) (Codegraph.round S r.1 r.2) w' := by
  induction h with
  | done => exact absurd hr List.not_mem_nil
  | round _ _ hrest ih =>
    rcases List.mem_cons.mp hr with rfl | hr
    · exact hrest.steps
    · exact ih hr

/-- The start of a round is asked about for each structural relation. -/
theorem Run.asks (h : Run S w rs w') {r : Walk × String} (hr : r ∈ rs) {rel : Relation} (hrel : rel ∈ auxRelations) :
    .edges rel r.2 ∈ w'.log :=
  (steps_log_grow (h.round_steps_end hr)).subset (addAux_asks r.2 _ hrel)

/-- **Rounds alone add nodes.** -/
theorem Run.exists_round (h : Run S w rs w') {n : SubgraphNode} (hn : n ∈ w'.nodes) (hnew : n ∉ w.nodes) :
    ∃ r ∈ rs, n ∈ (Codegraph.round S r.1 r.2).nodes ∧ n ∉ r.1.nodes := by
  induction h with
  | done _ hnodes => exact absurd (hnodes ▸ hn) hnew
  | @round w u _ start _ _ hnodes _ ih =>
    by_cases hround : n ∈ (Codegraph.round S u start).nodes
    · exact ⟨(u, start), List.mem_cons_self, hround, hnodes ▸ hnew⟩
    · obtain ⟨r, hr, hmem⟩ := ih hn hround
      exact ⟨r, List.mem_cons_of_mem _ hr, hmem⟩

theorem fallbackTail_nodes (seed : String) (w : Walk) : (fallbackTail S L seed w).2.nodes = w.nodes := by
  unfold fallbackTail Walk.queryHits
  dsimp only
  split_ifs
  · rfl
  · rfl
  · cases S.nameHits w.log.length (bareTail seed) with
    | none => rfl
    | some n => rfl

/-- A name a seed falls back to is not empty. -/
theorem ne_empty_of_fallbackTail {seed tail : String} (h : (fallbackTail S L seed w).1 = some tail) : tail ≠ "" := by
  unfold fallbackTail Walk.queryHits at h
  dsimp only at h
  split_ifs at h with hblank
  have htail : bareTail seed ≠ "" := fun hempty => hblank (.inl hempty)
  cases hhits : S.nameHits w.log.length (bareTail seed) with
  | none =>
    rw [hhits] at h
    rwa [← Option.some.inj h]
  | some n =>
    rw [hhits] at h
    dsimp only at h
    split_ifs at h
    rwa [← Option.some.inj h]

theorem run_seedRounds (w : Walk) (seed : String) : Run S w (seedRounds S L w seed) (walkSeed S L w seed) := by
  have hround : round S w seed = (snapshotSeed S seed (w.upsertNode seed "" .seed 0).1).1 := rfl
  unfold seedRounds walkSeed
  dsimp only
  rw [← hround]
  split_ifs
  · exact .round .refl rfl (.done .refl rfl)
  · have hnodes := fallbackTail_nodes (S := S) (L := L) seed (round S w seed)
    have hsteps := fallbackTail_steps (S := S) (L := L) seed (round S w seed)
    cases (fallbackTail S L seed (round S w seed)).1 with
    | none => exact .round .refl rfl (.done hsteps hnodes)
    | some tail => exact .round .refl rfl (.round hsteps hnodes (.done .refl rfl))

/-- **The main loop** is a walk through the rounds. -/
theorem run_rounds (w : Walk) (seeds : List String) :
    Run S w (rounds S L w seeds) (seeds.foldl (walkSeed S L) w) := by
  induction seeds generalizing w with
  | nil => exact .done .refl rfl
  | cons seed seeds ih => exact (run_seedRounds w seed).append (ih _)

/-- Every seed has a round. -/
theorem exists_round_of_seed {seeds : List String} {s : String} (hs : s ∈ seeds) (w : Walk) :
    ∃ u, (u, s) ∈ rounds S L w seeds := by
  induction seeds generalizing w with
  | nil => exact absurd hs List.not_mem_nil
  | cons seed seeds ih =>
    rcases List.mem_cons.mp hs with rfl | hs
    · exact ⟨w, List.mem_append_left _ List.mem_cons_self⟩
    · obtain ⟨u, hu⟩ := ih hs (walkSeed S L w seed)
      exact ⟨u, List.mem_append_right _ hu⟩

/-- Starts have a name. -/
theorem start_ne_empty {seeds : List String} (hseeds : ∀ s ∈ seeds, s ≠ "") {r : Walk × String}
    (hr : r ∈ rounds S L w seeds) : r.2 ≠ "" := by
  induction seeds generalizing w with
  | nil => exact absurd hr List.not_mem_nil
  | cons seed seeds ih =>
    obtain ⟨hseed, hrest⟩ := List.forall_mem_cons.mp hseeds
    rcases List.mem_append.mp hr with hr | hr
    · -- the round of the seed, its fallback's, or one of a later seed
      unfold seedRounds at hr
      rcases List.mem_cons.mp hr with rfl | hr
      · exact hseed
      · split_ifs at hr
        · exact absurd hr List.not_mem_nil
        · dsimp only at hr
          cases htail : (fallbackTail S L seed (round S w seed)).1 with
          | none =>
            rw [htail] at hr
            exact absurd hr List.not_mem_nil
          | some tail =>
            rw [htail] at hr
            rw [List.mem_singleton.mp hr]
            exact ne_empty_of_fallbackTail htail
    · exact ih hrest hr

theorem ne_empty_of_cleaned {seeds : List String} : ∀ s ∈ cleanedSeeds seeds, s ≠ "" := by
  intro s hs
  have hmem := List.mem_eraseDups.mp (List.mem_of_mem_take hs)
  simpa using (List.mem_filter.mp hmem).2

end Runs

/-! ### One round -/

section Round

variable {S : Sidecar} {g : Relation → String → List CallEdge} {w : Walk} {start : String}

/-- The symbols on the map when the downstream part of a round begins. -/
def metBefore (w : Walk) (start : String) : Set String := {y | y ∈ w.names ∨ y = start}

/-- Those on the map when the upstream part begins. -/
def metDownstream (S : Sidecar) (w : Walk) (start : String) : Set String := {y | y ∈ (afterCallees S w start).names}

/-- The start is put on the map. -/
theorem mem_seeded_names (hstart : start ≠ "") (hquiet : (w.upsertNode start "" .seed 0).1.Quiet S g) (y : String) :
    y ∈ (w.upsertNode start "" .seed 0).1.names ↔ y ∈ metBefore w start := by
  have hupsert := upsertNode_grows hstart hquiet
  by_cases hmem : start ∈ w.names
  · rw [if_pos hmem] at hupsert
    have hsame : (w.upsertNode start "" .seed 0).1.names = w.names := by
      unfold Walk.names
      rw [hupsert.2]
    rw [hsame]
    exact ⟨.inl, fun h => h.elim id fun heq => heq ▸ hmem⟩
  · rw [if_neg hmem] at hupsert
    rw [hupsert.2.names, List.mem_append, List.mem_singleton]
    exact Iff.rfl

/-- A search starts with the start alone, where the start has been met. -/
theorem records_of_start {dir : CallDirection} (hrole : dir.role ≠ .seed) {V : Set String} {v : Walk} (hV : start ∈ V)
    (hv : ∀ y, y ∈ v.names ↔ y ∈ V) (hquiet : (expandBFS S dir subgraphMaxDepth 1 [start] v).Quiet S g) :
    Records g dir V start 1 6 v (expandBFS S dir subgraphMaxDepth 1 [start] v) := by
  refine expandBFS_records hrole subgraphMaxDepth 0 (fun y => ?_) (fun y => ?_) hquiet
  · rw [layer_zero, List.mem_singleton]
  · rw [hv]
    refine ⟨.inl, fun h => h.elim id ?_⟩
    rintro ⟨j, hj, hlayer⟩
    rw [Nat.le_zero.mp hj, layer_zero] at hlayer
    exact hlayer ▸ hV

/-- **A round**: its start, the two searches, and structural neighbours. -/
theorem round_records (hstart : start ≠ "") (hquiet : (round S w start).Quiet S g) :
    (w.upsertNode start "" .seed 0).1.Quiet S g ∧
    Records g downstream (metBefore w start) start 1 6 (w.upsertNode start "" .seed 0).1 (afterCallees S w start) ∧
    Records g upstream (metDownstream S w start) start 1 6 (afterCallees S w start) (afterCallers S w start) ∧
    ∃ added : List SubgraphNode, (round S w start).nodes = (afterCallers S w start).nodes ++ added ∧
      ∀ n ∈ added, n.role ∈ [.importer, .extends, .method] := by
  have hcallers := hquiet.of_steps (addAux_steps (S := S) start (afterCallers S w start))
  have hcallees := hcallers.of_steps (expandCallersBFS_steps (S := S) start (afterCallees S w start))
  have hsteps := expandCalleesBFS_steps (S := S) start (w.upsertNode start "" .seed 0).1
  have hseeded := hcallees.of_steps hsteps
  have hnames := mem_seeded_names hstart hseeded
  refine ⟨hseeded, ?_, ?_, ?_⟩
  · exact records_of_start (by decide) (.inr rfl) hnames hcallees
  · have hkept : start ∈ (afterCallees S w start).names :=
      ((steps_nodes_grow hsteps).map (·.name)).subset ((hnames start).mpr (.inr rfl))
    exact records_of_start (by decide) hkept (fun _ => Iff.rfl) hcallers
  · obtain ⟨⟨added, hnodes, hroles⟩, -⟩ := addAux_records start hquiet
    exact ⟨added, hnodes, fun n hn => (hroles n hn).1⟩

end Round

/-! ### All rounds -/

section Sweep

variable {S : Sidecar} {g : Relation → String → List CallEdge} {V : Set String} {w w' : Walk} {start : String}

/-- The map is made of symbols in `V`: of all of them, unless it is full. -/
def Maps (V : Set String) (w : Walk) : Prop :=
  (∀ y ∈ w.names, y ∈ V) ∧ (w.nodes.length < subgraphMaxNodes → ∀ y ∈ V, y ∈ w.names)

/-- The structural neighbours that are answered for a symbol. -/
def besides (g : Relation → String → List CallEdge) (x : String) : Set String :=
  {y | ∃ rel ∈ auxRelations, ∃ e ∈ graphEdges (g rel x), rel.filed e = y}

/-- The sweep of a graph from the given starts. -/
def graphSweep (g : Relation → String → List CallEdge) (V : Set String) (starts : List String) : Set String :=
  sweep (Hop g downstream) (Hop g upstream) (besides g) subgraphMaxDepth V starts

/-- A full map stays as it is. -/
theorem Maps.of_full {W : Set String} (h : Maps V w) (hVW : V ⊆ W) (hsteps : ReflTransGen (Step S) w w')
    (hfull : ¬ w.nodes.length < subgraphMaxNodes) : Maps W w' := by
  have hnodes := steps_nodes_of_full hsteps (not_lt.mp hfull)
  refine ⟨fun y hy => hVW (h.1 y ?_), fun hroom => ?_⟩
  · unfold Walk.names at hy ⊢
    rwa [← hnodes]
  · rw [hnodes] at hroom
    exact absurd hroom hfull

/-- With room left the names are those in `V`. -/
theorem Maps.names_eq (h : Maps V w) (hroom : w.nodes.length < subgraphMaxNodes) : {y | y ∈ w.names} = V :=
  Set.ext fun y => ⟨h.1 y, h.2 hroom y⟩

theorem Maps.seeded (h : Maps V w) (hstart : start ≠ "") (hquiet : (w.upsertNode start "" .seed 0).1.Quiet S g) :
    Maps (insert start V) (w.upsertNode start "" .seed 0).1 := by
  have hstep : ReflTransGen (Step S) w (w.upsertNode start "" .seed 0).1 := .single (.seed w start)
  have hnames := mem_seeded_names hstart hquiet
  refine ⟨fun y hy => ?_, fun hroom y hy => ?_⟩
  · rcases (hnames y).mp hy with hold | rfl
    · exact Set.mem_insert_of_mem start (h.1 y hold)
    · exact Set.mem_insert y V
  · have hbefore := (steps_nodes_grow hstep).length_le.trans_lt hroom
    refine (hnames y).mpr ?_
    rcases hy with rfl | hy
    · exact .inr rfl
    · exact .inl (h.2 hbefore y hy)

/-- A search that is recorded covers its part. -/
theorem Maps.searched {dir : CallDirection} (h : Maps V w) (hsteps : ReflTransGen (Step S) w w')
    (hstart : start ∈ w.names) (hrec : Records g dir {y | y ∈ w.names} start 1 6 w w') :
    Maps (covered (Hop g dir) subgraphMaxDepth V start) w' := by
  by_cases hroom : w.nodes.length < subgraphMaxNodes
  · -- below the limit the names are all that was met, so the search starts from the covered set
    obtain rfl := h.names_eq hroom
    obtain ⟨added, hnodes, hsound, hcomplete⟩ := hrec
    have hnames : w'.names = w.names ++ added.map (·.name) := by
      unfold Walk.names
      rw [hnodes, List.map_append]
    refine ⟨fun y hy => ?_, fun hroom' y hy => ?_⟩
    · rw [hnames] at hy
      rcases List.mem_append.mp hy with hy | hy
      · exact .inl hy
      · obtain ⟨n, hn, rfl⟩ := List.mem_map.mp hy
        obtain ⟨-, k, -, hk, hlayer, -⟩ := hsound n hn
        exact .inr ⟨k, Nat.le_of_lt_succ hk, hlayer.1⟩
    · rw [hnames]
      rcases hy with hy | ⟨k, hk, hpath⟩
      · exact List.mem_append_left _ hy
      · -- a path within the depth ends in a layer, and the layer was recorded
        obtain ⟨j, hj, hlayer⟩ := hpath.exists_layer
        rcases Nat.eq_zero_or_pos j with rfl | hpos
        · exact List.mem_append_left _ (layer_zero.mp hlayer ▸ hstart)
        · obtain ⟨n, hn, rfl⟩ := hcomplete hroom' j y hpos (Nat.lt_succ_of_le (hj.trans hk)) hlayer
          exact List.mem_append_right _ (List.mem_map_of_mem hn)
  · -- a full walk meets nothing more, and nothing more is claimed of it
    exact h.of_full subset_covered hsteps hroom

theorem Maps.besides (h : Maps V w) (hquiet : (addAux S start w).Quiet S g) :
    Maps (V ∪ Codegraph.besides g start) (addAux S start w) := by
  have hsteps := addAux_steps (S := S) start w
  obtain ⟨⟨added, hnodes, hsound⟩, hcomplete⟩ := addAux_records start hquiet
  refine ⟨fun y hy => ?_, fun hroom y hy => ?_⟩
  · unfold Walk.names at hy
    rw [hnodes, List.map_append] at hy
    rcases List.mem_append.mp hy with hy | hy
    · exact .inl (h.1 y hy)
    · obtain ⟨n, hn, rfl⟩ := List.mem_map.mp hy
      exact .inr (hsound n hn).2
  · rcases hy with hy | ⟨rel, hrel, e, he, rfl⟩
    · have hbefore := (steps_nodes_grow hsteps).length_le.trans_lt hroom
      exact ((steps_nodes_grow hsteps).map (·.name)).subset (h.2 hbefore y hy)
    · exact hcomplete rel hrel e he

/-- **A round** is one of the sweep. -/
theorem Maps.round (h : Maps V w) (hstart : start ≠ "") (hquiet : (round S w start).Quiet S g) :
    Maps (graphSweep g V [start]) (Codegraph.round S w start) := by
  obtain ⟨hseeded, hdown, hup, -⟩ := round_records hstart hquiet
  have haux := addAux_steps (S := S) start (afterCallers S w start)
  have hupsteps := expandCallersBFS_steps (S := S) start (afterCallees S w start)
  have hdownsteps := expandCalleesBFS_steps (S := S) start (w.upsertNode start "" .seed 0).1
  have hnames := mem_seeded_names hstart hseeded
  have hmem : start ∈ (w.upsertNode start "" .seed 0).1.names := (hnames start).mpr (.inr rfl)
  have hsame : {y | y ∈ (w.upsertNode start "" .seed 0).1.names} = metBefore w start := Set.ext hnames
  have hcallees := (h.seeded hstart hseeded).searched hdownsteps hmem (hsame ▸ hdown)
  have hcallers := hcallees.searched hupsteps (((steps_nodes_grow hdownsteps).map (·.name)).subset hmem) hup
  exact hcallers.besides hquiet

/-- **The main loop is a sweep** from its starts. -/
theorem Run.sweeps {rs : List (Walk × String)} (hrun : Run S w rs w') (h : Maps V w) (hrs : ∀ r ∈ rs, r.2 ≠ "")
    (hquiet : w'.Quiet S g) : Maps (graphSweep g V (rs.map (·.2))) w' := by
  induction hrun generalizing V with
  | done hsteps hnodes =>
    refine ⟨fun y hy => h.1 y ?_, fun hroom y hy => ?_⟩
    · unfold Walk.names at hy ⊢
      rwa [← hnodes]
    · rw [hnodes] at hroom
      unfold Walk.names
      rw [hnodes]
      exact h.2 hroom y hy
  | @round w u w' start rest hsteps hnodes hrest ih =>
    obtain ⟨hstart, hrs⟩ := List.forall_mem_cons.mp hrs
    have hu : Maps V u := by
      unfold Maps Walk.names at h ⊢
      rwa [hnodes]
    exact ih (hu.round hstart (hquiet.of_steps hrest.steps)) hrs hquiet

end Sweep

end Devrouter.Codegraph
