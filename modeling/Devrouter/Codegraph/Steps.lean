import Mathlib.Logic.Relation
import Devrouter.Codegraph.Subgraph

/-!
# The steps of a subgraph walk

Whatever `Client.Subgraph` does to its variables is one of five steps (`Step`): it asks, it raises the flag, it
puts the far end of an answered edge or a seed on the map, or it adds an edge. `walkSeed_steps` says so of the
round of a seed, and `walkSeeds_induction` is the rule this gives: what every step keeps holds at the end.
-/

open Relation (ReflTransGen)

namespace Devrouter.Codegraph

/-- What a walk can do. -/
inductive Step (S : Sidecar) : Walk → Walk → Prop
  | ask (w : Walk) (q : Query) : Step S w { w with log := w.log ++ [q] }
  | flag (w : Walk) : Step S w { w with truncated := true }
  /-- The far end of an edge that is answered to some query. -/
  | node (w : Walk) {n : ℕ} {rel : Relation} {name : String} {es : List CallEdge} {e : CallEdge} (role : Role)
      (depth : ℤ) (hanswer : S.answer n rel name = some es) (he : e ∈ graphEdges es) (hrole : role ≠ .seed) :
      Step S w (w.upsertNode (rel.filed e) e.filePath role depth).1
  | seed (w : Walk) (name : String) : Step S w (w.upsertNode name "" .seed 0).1
  | edge (w : Walk) (e : SubgraphEdge) : Step S w (w.addEdge e)

section Steps

variable {S : Sidecar} {L : RuneLower}

theorem takeEdges_steps {n : ℕ} {rel : Relation} {name : String} {answer es : List CallEdge} {role : Role}
    (depth : ℤ) (etype : String) (hanswer : S.answer n rel name = some answer) (hrole : role ≠ .seed)
    (hes : ∀ e ∈ es, e ∈ graphEdges answer) (w : Walk) (next : List String) :
    ReflTransGen (Step S) w (takeEdges rel role depth etype es (w, next)).1 := by
  induction es generalizing w next with
  | nil => exact .refl
  | cons e es ih =>
    obtain ⟨he, hes⟩ := List.forall_mem_cons.mp hes
    exact .head (.node w role depth hanswer he hrole) (.head (.edge _ _) (ih hes _ _))

theorem takeAnswer_steps (rel : Relation) (flagged : Bool) {role : Role} (depth : ℤ) (etype name : String)
    (hrole : role ≠ .seed) (w : Walk) (next : List String) :
    ReflTransGen (Step S) w (takeAnswer S rel flagged role depth etype name w next).1 := by
  unfold takeAnswer Walk.query
  dsimp only
  cases hanswer : S.answer w.log.length rel name with
  | none => exact .single (.ask w (.edges rel name))
  | some es =>
    refine .head (.ask w (.edges rel name)) ?_
    dsimp only [Option.map_some]
    split_ifs
    · exact .head (.flag _) (takeEdges_steps depth etype hanswer hrole (fun _ h => h) _ _)
    · exact takeEdges_steps depth etype hanswer hrole (fun _ h => h) _ _

theorem expandNode_steps {dir : CallDirection} (hrole : dir.role ≠ .seed) (d : ℕ) (name : String) (w : Walk)
    (next : List String) : ReflTransGen (Step S) w (expandNode S dir d name w next).1 := by
  have hcalls := takeAnswer_steps (S := S) dir.calls true (dir.sign * d) "CALLS" name hrole w next
  unfold expandNode
  dsimp only
  split_ifs
  · exact hcalls
  · exact hcalls.trans (takeAnswer_steps _ _ _ _ _ hrole _ _)

theorem expandLevel_steps {dir : CallDirection} (hrole : dir.role ≠ .seed) (d : ℕ) (names : List String) (w : Walk)
    (next : List String) : ReflTransGen (Step S) w (expandLevel S dir d names w next).1 := by
  induction names generalizing w next with
  | nil => exact .refl
  | cons name names ih =>
    have hnode := expandNode_steps (S := S) hrole d name w next
    unfold expandLevel
    dsimp only
    split_ifs
    · exact hnode
    · exact hnode.trans (ih _ _)

theorem trimFrontier_steps (w : Walk) (next : List String) :
    ReflTransGen (Step S) w (trimFrontier w next).1 := by
  unfold trimFrontier
  split_ifs
  · exact .single (.flag w)
  · exact .refl

theorem expandBFS_steps {dir : CallDirection} (hrole : dir.role ≠ .seed) (levels d : ℕ) (frontier : List String)
    (w : Walk) : ReflTransGen (Step S) w (expandBFS S dir levels d frontier w) := by
  induction levels generalizing d frontier w with
  | zero => exact .refl
  | succ levels ih =>
    have hlevel := expandLevel_steps (S := S) hrole d frontier w []
    unfold expandBFS
    dsimp only
    split_ifs
    · exact .refl
    · exact hlevel
    · exact (hlevel.trans (trimFrontier_steps _ _)).trans (ih _ _ _)

theorem expandCalleesBFS_steps (seedName : String) (w : Walk) :
    ReflTransGen (Step S) w (expandCalleesBFS S seedName w) :=
  expandBFS_steps (by decide) _ _ _ _

theorem expandCallersBFS_steps (seedName : String) (w : Walk) :
    ReflTransGen (Step S) w (expandCallersBFS S seedName w) :=
  expandBFS_steps (by decide) _ _ _ _

theorem takeAux_steps {n : ℕ} {rel : Relation} {name : String} {answer es : List CallEdge} {role : Role}
    (edge : CallEdge → SubgraphEdge) (hanswer : S.answer n rel name = some answer) (hrole : role ≠ .seed)
    (hes : ∀ e ∈ es, e ∈ graphEdges answer) (w : Walk) :
    ReflTransGen (Step S) w (takeAux rel role edge es w) := by
  induction es generalizing w with
  | nil => exact .refl
  | cons e es ih =>
    obtain ⟨he, hes⟩ := List.forall_mem_cons.mp hes
    exact .head (.node w role 1 hanswer he hrole) (.head (.edge _ _) (ih hes _))

theorem auxRelation_steps (rel : Relation) (role : Role) (edge : CallEdge → SubgraphEdge) (seedName : String)
    (hrole : role ≠ .seed) (w : Walk) :
    ReflTransGen (Step S) w (auxRelation S rel role edge seedName w) := by
  unfold auxRelation Walk.query
  dsimp only
  cases hanswer : S.answer w.log.length rel seedName with
  | none => exact .single (.ask w (.edges rel seedName))
  | some es => exact .head (.ask w (.edges rel seedName)) (takeAux_steps edge hanswer hrole (fun _ h => h) _)

theorem addAux_steps (seedName : String) (w : Walk) : ReflTransGen (Step S) w (addAux S seedName w) := by
  have himporters := auxRelation_steps (S := S) .importers .importer (fun e => ⟨e.fromName, seedName, "IMPORTS"⟩)
    seedName (by decide) w
  have hextends := himporters.trans (auxRelation_steps .extends .extends
    (fun e => ⟨e.fromName, seedName, "EXTENDS"⟩) seedName (by decide) _)
  exact hextends.trans (auxRelation_steps .methods .method (fun e => ⟨e.fromName, e.toName, "HAS_METHOD"⟩) seedName
    (by decide) _)

theorem snapshotSeed_steps (seedName : String) (w : Walk) :
    ReflTransGen (Step S) w (snapshotSeed S seedName w).1 := by
  have hcallees := expandCalleesBFS_steps (S := S) seedName w
  have hcallers := hcallees.trans (expandCallersBFS_steps seedName _)
  exact hcallers.trans (addAux_steps seedName _)

theorem fallbackTail_steps (seed : String) (w : Walk) :
    ReflTransGen (Step S) w (fallbackTail S L seed w).2 := by
  unfold fallbackTail Walk.queryHits
  dsimp only
  split_ifs
  · exact .refl
  · exact .refl
  · cases S.nameHits w.log.length (bareTail seed) with
    | none => exact .single (.ask w _)
    | some n => exact .single (.ask w _)

/-- What follows once the seed of a round has been put on the map. -/
theorem walkSeed_steps_of_seed (w : Walk) (seed : String) :
    ReflTransGen (Step S) (w.upsertNode seed "" .seed 0).1 (walkSeed S L w seed) := by
  have hseed := snapshotSeed_steps (S := S) seed (w.upsertNode seed "" .seed 0).1
  unfold walkSeed
  dsimp only
  split_ifs
  · exact hseed
  · have htail := hseed.trans (fallbackTail_steps (L := L) seed _)
    split
    · exact htail
    · exact (htail.tail (.seed _ _)).trans (snapshotSeed_steps _ _)

/-- **The round of a seed** is a sequence of steps. -/
theorem walkSeed_steps (w : Walk) (seed : String) : ReflTransGen (Step S) w (walkSeed S L w seed) :=
  (ReflTransGen.single (.seed w seed)).trans (walkSeed_steps_of_seed w seed)

theorem foldl_walkSeed_steps (seeds : List String) (w : Walk) :
    ReflTransGen (Step S) w (seeds.foldl (walkSeed S L) w) := by
  induction seeds generalizing w with
  | nil => exact .refl
  | cons s seeds ih => exact (walkSeed_steps w s).trans (ih _)

/-- **Invariants.** What holds of the empty walk and is kept by every step holds at the end. -/
theorem walkSeeds_induction {I : Walk → Prop} (hempty : I .empty) (hstep : ∀ w w', I w → Step S w w' → I w')
    (seeds : List String) : I (walkSeeds S L seeds) := by
  have hall : ∀ w, ReflTransGen (Step S) Walk.empty w → I w := by
    intro w hw
    induction hw with
    | refl => exact hempty
    | tail _ hlast ih => exact hstep _ _ ih hlast
  exact hall _ (foldl_walkSeed_steps _ _)

end Steps

/-! ### What steps keep -/

section Monotone

variable {S : Sidecar} {w w' : Walk}

theorem Walk.upsertNode_cases (w : Walk) (name file : String) (role : Role) (depth : ℤ) :
    ((w.upsertNode name file role depth).1 = w ∧ (name = "" ∨ w.Has name)) ∨
    ((w.upsertNode name file role depth).1 = { w with truncated := true } ∧ name ≠ "" ∧ ¬ w.Has name ∧
      subgraphMaxNodes ≤ w.nodes.length) ∨
    ((w.upsertNode name file role depth).1 = { w with nodes := w.nodes ++ [⟨name, file, role, depth⟩] } ∧
      name ≠ "" ∧ ¬ w.Has name ∧ w.nodes.length < subgraphMaxNodes) := by
  unfold upsertNode
  split_ifs with hname hhas hfull
  · exact .inl ⟨rfl, .inl hname⟩
  · exact .inl ⟨rfl, .inr hhas⟩
  · exact .inr (.inl ⟨rfl, hname, hhas, hfull⟩)
  · exact .inr (.inr ⟨rfl, hname, hhas, not_le.mp hfull⟩)

theorem Walk.addEdge_nodes (w : Walk) (e : SubgraphEdge) : (w.addEdge e).nodes = w.nodes := by
  unfold addEdge
  split_ifs
  · rfl
  · rfl
  · rfl
  · rfl

/-- **What a step adds**: nothing, or one node under a new name while there is room, which has no file if it is a
seed. -/
theorem Step.nodes_cases (h : Step S w w') : w'.nodes = w.nodes ∨
    ∃ n : SubgraphNode, w'.nodes = w.nodes ++ [n] ∧ n.name ≠ "" ∧ ¬ w.Has n.name ∧
      w.nodes.length < subgraphMaxNodes ∧ (n.role = .seed → n.filePath = "") := by
  have hupsert : ∀ name file role depth, (role = .seed → file = "") →
      (w.upsertNode name file role depth).1.nodes = w.nodes ∨
      ∃ n : SubgraphNode, (w.upsertNode name file role depth).1.nodes = w.nodes ++ [n] ∧ n.name ≠ "" ∧
        ¬ w.Has n.name ∧ w.nodes.length < subgraphMaxNodes ∧ (n.role = .seed → n.filePath = "") := by
    intro name file role depth hblank
    obtain ⟨h, -⟩ | ⟨h, -⟩ | ⟨h, hname, hhas, hroom⟩ := w.upsertNode_cases name file role depth
    · exact .inl (by rw [h])
    · exact .inl (by rw [h])
    · exact .inr ⟨⟨name, file, role, depth⟩, by rw [h], hname, hhas, hroom, hblank⟩
  cases h with
  | ask => exact .inl rfl
  | flag => exact .inl rfl
  | node role depth _ _ hrole => exact hupsert _ _ role depth fun h => absurd h hrole
  | seed name => exact hupsert _ _ _ _ fun _ => rfl
  | edge e => exact .inl (w.addEdge_nodes e)

/-- Steps add nodes at the end. -/
theorem Step.nodes_grow (h : Step S w w') : w.nodes <+: w'.nodes := by
  rcases h.nodes_cases with hsame | ⟨n, hadd, -⟩
  · exact hsame ▸ List.prefix_rfl
  · rw [hadd]
    exact List.prefix_append _ _

theorem steps_nodes_grow (h : ReflTransGen (Step S) w w') : w.nodes <+: w'.nodes := by
  induction h with
  | refl => exact List.prefix_rfl
  | tail _ hlast ih => exact ih.trans hlast.nodes_grow

/-- The map does not overflow. -/
theorem steps_nodes_length_le (h : ReflTransGen (Step S) w w') (hw : w.nodes.length ≤ subgraphMaxNodes) :
    w'.nodes.length ≤ subgraphMaxNodes := by
  induction h with
  | refl => exact hw
  | tail _ hlast ih =>
    rcases hlast.nodes_cases with hsame | ⟨n, hadd, -, -, hroom, -⟩
    · rw [hsame]
      exact ih
    · rw [hadd, List.length_append]
      exact hroom

/-- A full map stays as it is. -/
theorem steps_nodes_of_full (h : ReflTransGen (Step S) w w') (hfull : subgraphMaxNodes ≤ w.nodes.length) :
    w'.nodes = w.nodes := by
  induction h with
  | refl => rfl
  | @tail u v _ hlast ih =>
    rcases hlast.nodes_cases with hsame | ⟨n, -, -, -, hroom, -⟩
    · rw [hsame, ih]
    · rw [ih] at hroom
      omega

/-- The names on the map. -/
def Walk.names (w : Walk) : List String := w.nodes.map (·.name)

theorem Walk.has_iff {name : String} : w.Has name ↔ name ∈ w.names := by
  unfold Has names
  rw [List.mem_map]

/-- The nodes of a walk: one for each name, none without a name, and seeds without a file. -/
structure Walk.WellFormed (w : Walk) : Prop where
  nodup : w.names.Nodup
  named : ∀ n ∈ w.nodes, n.name ≠ ""
  seed_blank : ∀ n ∈ w.nodes, n.role = .seed → n.filePath = ""

theorem Step.wellFormed (hw : w.WellFormed) (h : Step S w w') : w'.WellFormed := by
  rcases h.nodes_cases with hsame | ⟨n, hadd, hname, hnew, -, hblank⟩
  · -- the nodes are as they were
    refine ⟨?_, ?_, ?_⟩
    · unfold Walk.names
      rw [hsame]
      exact hw.nodup
    · rw [hsame]
      exact hw.named
    · rw [hsame]
      exact hw.seed_blank
  · -- one node is added, under a new name
    refine ⟨?_, ?_, ?_⟩
    · unfold Walk.names
      rw [hadd, List.map_append, List.nodup_append]
      refine ⟨hw.nodup, List.nodup_singleton _, fun a ha b hb => ?_⟩
      rintro rfl
      rw [List.mem_singleton.mp hb] at ha
      exact hnew (Walk.has_iff.mpr ha)
    · rw [hadd]
      exact List.forall_mem_append.mpr ⟨hw.named, List.forall_mem_singleton.mpr hname⟩
    · rw [hadd]
      exact List.forall_mem_append.mpr ⟨hw.seed_blank, List.forall_mem_singleton.mpr hblank⟩

theorem steps_wellFormed (hw : w.WellFormed) (h : ReflTransGen (Step S) w w') : w'.WellFormed := by
  induction h with
  | refl => exact hw
  | tail _ hlast ih => exact hlast.wellFormed ih

theorem Walk.wellFormed_empty : Walk.empty.WellFormed :=
  ⟨List.nodup_nil, fun _ h => absurd h List.not_mem_nil, fun _ h => absurd h List.not_mem_nil⟩

/-- Two nodes of one name are the same. -/
theorem Walk.WellFormed.eq_of_name (hw : w.WellFormed) {n m : SubgraphNode} (hn : n ∈ w.nodes) (hm : m ∈ w.nodes)
    (h : n.name = m.name) : n = m := List.inj_on_of_nodup_map hw.nodup hn hm h

end Monotone

end Devrouter.Codegraph
