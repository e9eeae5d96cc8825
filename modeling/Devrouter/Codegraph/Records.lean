import Devrouter.Codegraph.Steps
import Devrouter.Lib.Layers

/-!
# What a walk records

As long as no query fails and the flag is down (`Walk.Quiet`), a walk along the calls is a breadth-first search
that does not enter the symbols on the map: `expandBFS_records` says that it adds the next layers, each symbol
with its number of hops, and nothing else. A full map stops it silently; it has then added part of them.
-/

open Relation (ReflTransGen)
open Search

namespace Devrouter.Codegraph

/-- One hop of a walk: by a call or by a wire that is answered. -/
def Hop (g : Relation → String → List CallEdge) (dir : CallDirection) (x y : String) : Prop :=
  (∃ e ∈ graphEdges (g dir.calls x), dir.calls.filed e = y) ∨ ∃ e ∈ graphEdges (g dir.wires x), dir.wires.filed e = y

/-- So far all queries have been answered as `g` says, and the flag is down. -/
structure Walk.Quiet (S : Sidecar) (g : Relation → String → List CallEdge) (w : Walk) : Prop where
  whole : w.truncated = false
  answered : ∀ i rel name, w.log[i]? = some (.edges rel name) → S.answer i rel name = some (g rel name)

/-- So far all queries have been answered as `g` says, and no cap has been reached. -/
structure Walk.Calm (S : Sidecar) (g : Relation → String → List CallEdge) (w : Walk) : Prop where
  whole : w.truncated = false
  room : w.nodes.length < subgraphMaxNodes
  answered : ∀ i rel name, w.log[i]? = some (.edges rel name) → S.answer i rel name = some (g rel name)

theorem Walk.Calm.quiet {S : Sidecar} {g : Relation → String → List CallEdge} {w : Walk} (h : w.Calm S g) :
    w.Quiet S g := ⟨h.whole, h.answered⟩

section Calm

variable {S : Sidecar} {g : Relation → String → List CallEdge} {w w' : Walk}

theorem Walk.addEdge_log (w : Walk) (e : SubgraphEdge) : (w.addEdge e).log = w.log := by
  unfold addEdge
  split_ifs
  · rfl
  · rfl
  · rfl
  · rfl

theorem Walk.upsertNode_log (w : Walk) (name file : String) (role : Role) (depth : ℤ) :
    (w.upsertNode name file role depth).1.log = w.log := by
  obtain ⟨h, -⟩ | ⟨h, -⟩ | ⟨h, -⟩ := w.upsertNode_cases name file role depth
  · rw [h]
  · rw [h]
  · rw [h]

/-- The flag stays up. -/
theorem Step.truncated_mono (h : Step S w w') (hw : w.truncated = true) : w'.truncated = true := by
  -- a node that does not fit raises the flag, and nothing takes it down
  have hupsert : ∀ name file role depth, (w.upsertNode name file role depth).1.truncated = true := by
    intro name file role depth
    obtain ⟨h, -⟩ | ⟨h, -⟩ | ⟨h, -⟩ := w.upsertNode_cases name file role depth
    · rw [h]
      exact hw
    · rw [h]
    · rw [h]
      exact hw
  cases h with
  | ask => exact hw
  | flag => rfl
  | node role depth => exact hupsert _ _ role depth
  | seed name => exact hupsert _ _ _ _
  | edge e =>
    unfold Walk.addEdge
    split_ifs
    · exact hw
    · exact hw
    · rfl
    · exact hw

theorem Step.log_grow (h : Step S w w') : w.log <+: w'.log := by
  cases h with
  | ask => exact List.prefix_append _ _
  | flag => exact List.prefix_rfl
  | node role depth => exact (Walk.upsertNode_log _ _ _ _ _).symm ▸ List.prefix_rfl
  | seed name => exact (Walk.upsertNode_log _ _ _ _ _).symm ▸ List.prefix_rfl
  | edge e => exact (Walk.addEdge_log _ e).symm ▸ List.prefix_rfl

theorem steps_truncated_mono (h : ReflTransGen (Step S) w w') (hw : w.truncated = true) : w'.truncated = true := by
  induction h with
  | refl => exact hw
  | tail _ hlast ih => exact hlast.truncated_mono ih

theorem steps_log_grow (h : ReflTransGen (Step S) w w') : w.log <+: w'.log := by
  induction h with
  | refl => exact List.prefix_rfl
  | tail _ hlast ih => exact ih.trans hlast.log_grow

/-- **Nothing is taken back**: what is quiet at the end has been quiet before. -/
theorem Walk.Quiet.of_steps (hquiet : w'.Quiet S g) (h : ReflTransGen (Step S) w w') : w.Quiet S g := by
  refine ⟨?_, fun i rel name hi => ?_⟩
  · cases htrunc : w.truncated with
    | false => rfl
    | true => exact absurd (steps_truncated_mono h htrunc) (by rw [hquiet.whole]; decide)
  · obtain ⟨rest, hlog⟩ := steps_log_grow h
    have hlt : i < w.log.length := by
      by_contra hge
      rw [List.getElem?_eq_none (not_lt.mp hge)] at hi
      exact absurd hi (by simp)
    refine hquiet.answered i rel name ?_
    rw [← hlog, List.getElem?_append_left hlt]
    exact hi

theorem Walk.Calm.of_steps (hcalm : w'.Calm S g) (h : ReflTransGen (Step S) w w') : w.Calm S g :=
  have hquiet := hcalm.quiet.of_steps h
  ⟨hquiet.whole, (steps_nodes_grow h).length_le.trans_lt hcalm.room, hquiet.answered⟩

end Calm

/-! ### New nodes -/

/-- The second walk has new nodes under the given names, all of one role and depth. -/
def Grows (role : Role) (depth : ℤ) (w w' : Walk) (new : List String) : Prop :=
  ∃ added : List SubgraphNode, w'.nodes = w.nodes ++ added ∧ added.map (·.name) = new ∧
    ∀ n ∈ added, n.role = role ∧ n.depth = depth

section Grows

variable {role : Role} {depth : ℤ} {w w' w'' : Walk} {new new' : List String}

theorem Grows.names (h : Grows role depth w w' new) : w'.names = w.names ++ new := by
  obtain ⟨added, hnodes, rfl, -⟩ := h
  unfold Walk.names
  rw [hnodes, List.map_append]

theorem Grows.trans (h : Grows role depth w w' new) (h' : Grows role depth w' w'' new') :
    Grows role depth w w'' (new ++ new') := by
  obtain ⟨added, hnodes, rfl, hadded⟩ := h
  obtain ⟨added', hnodes', rfl, hadded'⟩ := h'
  refine ⟨added ++ added', ?_, List.map_append, List.forall_mem_append.mpr ⟨hadded, hadded'⟩⟩
  rw [hnodes', hnodes, List.append_assoc]

theorem grows_nil (h : w'.nodes = w.nodes) : Grows role depth w w' [] :=
  ⟨[], by rw [h, List.append_nil], rfl, fun _ hn => absurd hn List.not_mem_nil⟩

/-- A node is put on a map with room for it, if it is new. -/
theorem upsertNode_grows {S : Sidecar} {g : Relation → String → List CallEdge} {name file : String} (hname : name ≠ "")
    (hquiet : (w.upsertNode name file role depth).1.Quiet S g) :
    if name ∈ w.names then (w.upsertNode name file role depth).2 = false ∧
        (w.upsertNode name file role depth).1.nodes = w.nodes
    else (w.upsertNode name file role depth).2 = true ∧
      Grows role depth w (w.upsertNode name file role depth).1 [name] := by
  unfold Walk.upsertNode at hquiet ⊢
  rw [if_neg hname] at hquiet ⊢
  by_cases hhas : w.Has name
  · rw [if_pos hhas, if_pos (Walk.has_iff.mp hhas)]
    exact ⟨rfl, rfl⟩
  · rw [if_neg hhas] at hquiet ⊢
    rw [if_neg fun h => hhas (Walk.has_iff.mpr h)]
    split_ifs at hquiet ⊢
    · exact absurd hquiet.whole (by simp)
    · exact ⟨rfl, _, rfl, rfl, List.forall_mem_singleton.mpr ⟨rfl, rfl⟩⟩

end Grows

/-! ### The levels of a walk -/

section Levels

variable {S : Sidecar} {g : Relation → String → List CallEdge}

theorem ne_empty_of_mem_graphEdges {rel : Relation} {es : List CallEdge} {e : CallEdge} (h : e ∈ graphEdges es) :
    rel.filed e ≠ "" := by
  obtain ⟨hfrom, hto⟩ := of_decide_eq_true (List.mem_filter.mp h).2
  cases rel with
  | callers => exact hfrom
  | callees => exact hto
  | importers => exact hfrom
  | «extends» => exact hfrom
  | methods => exact hto
  | crossWireCallees => exact hto
  | crossWireCallers => exact hfrom

/-- The far end of an edge is put on the map in front of the others. -/
theorem grows_cons {role : Role} {depth : ℤ} {name file : String} (hname : name ≠ "") (edge : SubgraphEdge)
    {w w' : Walk} {new : List String} {Q : String → Prop}
    (hquiet : ((w.upsertNode name file role depth).1.addEdge edge).Quiet S g)
    (hgrows : Grows role depth ((w.upsertNode name file role depth).1.addEdge edge) w' new)
    (hnew : ∀ y, y ∈ new ↔ y ∉ ((w.upsertNode name file role depth).1.addEdge edge).names ∧ Q y) :
    Grows role depth w w' ((if (w.upsertNode name file role depth).2 = true then [name] else []) ++ new) ∧
      ∀ y, y ∈ (if (w.upsertNode name file role depth).2 = true then [name] else []) ++ new ↔
        y ∉ w.names ∧ (name = y ∨ Q y) := by
  have hupsert := upsertNode_grows hname (hquiet.of_steps (S := S) (.single (.edge _ edge)))
  have hedge : Grows role depth (w.upsertNode name file role depth).1
      ((w.upsertNode name file role depth).1.addEdge edge) [] := grows_nil (Walk.addEdge_nodes _ _)
  -- the name is there already, so nothing grows
  by_cases hmem : name ∈ w.names
  · rw [if_pos hmem] at hupsert
    have hsame : Grows role depth w (w.upsertNode name file role depth).1 [] := grows_nil hupsert.2
    rw [hupsert.1, if_neg (by decide), List.nil_append]
    refine ⟨(hsame.trans hedge).trans hgrows, fun y => ?_⟩
    rw [hnew, hedge.names, hsame.names, List.append_nil, List.append_nil]
    exact and_congr_right fun hy => ⟨.inr, fun h => h.resolve_left fun heq => hy (heq ▸ hmem)⟩
  · rw [if_neg hmem] at hupsert
    rw [hupsert.1, if_pos rfl]
    refine ⟨(hupsert.2.trans hedge).trans hgrows, fun y => ?_⟩
    rw [List.singleton_append, List.mem_cons, hnew, hedge.names, hupsert.2.names, List.append_nil, List.mem_append,
      List.mem_singleton]
    -- the name is new and comes first
    by_cases hy : y = name
    · subst hy
      simp [hmem]
    · simp [hy, Ne.symm hy]

theorem takeEdges_cons (rel : Relation) (role : Role) (depth : ℤ) (etype : String) (e : CallEdge) (es : List CallEdge)
    (w : Walk) (next : List String) :
    takeEdges rel role depth etype (e :: es) (w, next) =
      takeEdges rel role depth etype es
        ((w.upsertNode (rel.filed e) e.filePath role depth).1.addEdge ⟨e.fromName, e.toName, etype⟩,
          if (w.upsertNode (rel.filed e) e.filePath role depth).2 = true then next ++ [rel.filed e] else next) := rfl

/-- The loop over an answer puts the new far ends on the map and into the next frontier. -/
theorem takeEdges_grows {rel : Relation} {role : Role} {depth : ℤ} {etype : String} {answer es : List CallEdge}
    {n : ℕ} {name : String} (hanswer : S.answer n rel name = some answer) (hrole : role ≠ .seed)
    (hes : ∀ e ∈ es, e ∈ graphEdges answer) {w : Walk} {next : List String}
    (hquiet : (takeEdges rel role depth etype es (w, next)).1.Quiet S g) :
    ∃ new, Grows role depth w (takeEdges rel role depth etype es (w, next)).1 new ∧
      (takeEdges rel role depth etype es (w, next)).2 = next ++ new ∧
        ∀ y, y ∈ new ↔ y ∉ w.names ∧ ∃ e ∈ es, rel.filed e = y := by
  induction es generalizing w next with
  | nil => exact ⟨[], grows_nil rfl, (List.append_nil _).symm, fun y => by simp⟩
  | cons e es ih =>
    -- the first edge is taken, and the rest from where it leaves the walk
    obtain ⟨he, hes⟩ := List.forall_mem_cons.mp hes
    rw [takeEdges_cons] at hquiet ⊢
    obtain ⟨new, hgrows, hnext, hnew⟩ := ih hes hquiet
    have hsteps := takeEdges_steps (S := S) depth etype hanswer hrole hes
      ((w.upsertNode (rel.filed e) e.filePath role depth).1.addEdge ⟨e.fromName, e.toName, etype⟩)
      (if (w.upsertNode (rel.filed e) e.filePath role depth).2 = true then next ++ [rel.filed e] else next)
    obtain ⟨hall, hmem⟩ := grows_cons (ne_empty_of_mem_graphEdges he) _ (hquiet.of_steps hsteps) hgrows hnew
    refine ⟨_, hall, ?_, fun y => ?_⟩
    · rw [hnext]
      split_ifs
      · rw [List.append_assoc]
      · rw [List.nil_append]
    · rw [hmem, List.exists_mem_cons_iff]

/-- A part of a level puts on the map, and into the next frontier, new names that `Q` holds of: all of them,
unless it has been stopped by a full map. -/
def Expands (role : Role) (depth : ℤ) (w : Walk) (next : List String) (Q : String → Prop) (r : Expansion) : Prop :=
  (r.2.2 = true → subgraphMaxNodes ≤ r.1.nodes.length) ∧
    ∃ new, Grows role depth w r.1 new ∧ r.2.1 = next ++ new ∧ (∀ y ∈ new, y ∉ w.names ∧ Q y) ∧
      (r.2.2 = false → ∀ y, y ∉ w.names → Q y → y ∈ new)

section Expands

variable {role : Role} {depth : ℤ} {w : Walk} {next : List String} {Q Q' : String → Prop} {r r' : Expansion}

/-- What stops is all there is. -/
theorem Expands.or_left (h : Expands role depth w next Q r) (hstop : r.2.2 = true) :
    Expands role depth w next (fun y => Q y ∨ Q' y) (r.1, r.2.1, true) := by
  obtain ⟨hfull, new, hgrows, hnext, hsound, -⟩ := h
  exact ⟨fun _ => hfull hstop, new, hgrows, hnext, fun y hy => ⟨(hsound y hy).1, .inl (hsound y hy).2⟩,
    fun hgo => absurd hgo (by simp)⟩

theorem Expands.trans (h : Expands role depth w next Q r) (hgo : r.2.2 = false)
    (h' : Expands role depth r.1 r.2.1 Q' r') : Expands role depth w next (fun y => Q y ∨ Q' y) r' := by
  obtain ⟨-, new, hgrows, hnext, hsound, hcomplete⟩ := h
  obtain ⟨hfull, new', hgrows', hnext', hsound', hcomplete'⟩ := h'
  refine ⟨hfull, new ++ new', hgrows.trans hgrows', ?_, fun y hy => ?_, fun hgo' y hy hQ => ?_⟩
  · rw [hnext', hnext, List.append_assoc]
  · rcases List.mem_append.mp hy with hy | hy
    · exact ⟨(hsound y hy).1, .inl (hsound y hy).2⟩
    · obtain ⟨hnew, hQ'⟩ := hsound' y hy
      rw [hgrows.names] at hnew
      exact ⟨fun hold => hnew (List.mem_append_left _ hold), .inr hQ'⟩
  · by_cases hnew : y ∈ new
    · exact List.mem_append_left _ hnew
    · have hQ' := hQ.resolve_left fun hQ => hnew (hcomplete hgo y hy hQ)
      refine List.mem_append_right _ (hcomplete' hgo' y ?_ hQ')
      rw [hgrows.names]
      exact List.not_mem_append hy hnew

end Expands

/-- A query that is in the log of a quiet walk has been answered. -/
theorem Walk.Quiet.answer_of_log {w w' : Walk} {rel : Relation} {name : String} (hquiet : w'.Quiet S g)
    (hlog : w.log ++ [.edges rel name] <+: w'.log) : S.answer w.log.length rel name = some (g rel name) := by
  obtain ⟨rest, hrest⟩ := hlog
  refine hquiet.answered w.log.length rel name ?_
  rw [← hrest, List.append_assoc, List.getElem?_append_right le_rfl, Nat.sub_self]
  rfl

theorem takeAnswer_log {rel : Relation} {flagged : Bool} {role : Role} (depth : ℤ) (etype name : String)
    (hrole : role ≠ .seed) (w : Walk) (next : List String) :
    w.log ++ [.edges rel name] <+: (takeAnswer S rel flagged role depth etype name w next).1.log := by
  unfold takeAnswer Walk.query
  dsimp only
  cases hanswer : S.answer w.log.length rel name with
  | none => exact List.prefix_rfl
  | some es =>
    have htake := fun (v : Walk) =>
      steps_log_grow (takeEdges_steps (S := S) depth etype hanswer hrole (fun _ h => h) v next)
    dsimp only [Option.map_some]
    split_ifs
    · exact htake { w with truncated := true, log := w.log ++ [.edges rel name] }
    · exact htake { w with log := w.log ++ [.edges rel name] }

/-- A query of the walk, with its answer. -/
theorem takeAnswer_expands {rel : Relation} {flagged : Bool} {role : Role} (depth : ℤ) (etype name : String)
    (hrole : role ≠ .seed) {w : Walk} {next : List String}
    (hquiet : (takeAnswer S rel flagged role depth etype name w next).1.Quiet S g) :
    Expands role depth w next (fun y => ∃ e ∈ graphEdges (g rel name), rel.filed e = y)
      (takeAnswer S rel flagged role depth etype name w next) := by
  have hanswer := hquiet.answer_of_log (takeAnswer_log depth etype name hrole w next)
  unfold takeAnswer Walk.query at hquiet ⊢
  rw [hanswer] at hquiet ⊢
  dsimp only [Option.map_some] at hquiet ⊢
  refine ⟨of_decide_eq_true, ?_⟩
  -- a raised flag would not be quiet
  have hflag : (flagged && decide ((graphEdges (g rel name)).length ≥ relationLimit)) = false := by
    cases hflagged : flagged && decide ((graphEdges (g rel name)).length ≥ relationLimit) with
    | false => rfl
    | true =>
      rw [hflagged, if_pos rfl] at hquiet
      have hstart := hquiet.of_steps (takeEdges_steps (S := S) depth etype hanswer hrole (fun _ h => h) _ next)
      exact absurd hstart.whole (by simp)
  rw [hflag, if_neg (by decide)] at hquiet ⊢
  obtain ⟨new, hgrows, hnext, hnew⟩ := takeEdges_grows hanswer hrole (fun _ h => h) hquiet
  exact ⟨new, hgrows, hnext, fun y hy => (hnew y).mp hy, fun _ y hy hQ => (hnew y).mpr ⟨hy, hQ⟩⟩

theorem expandNode_expands {dir : CallDirection} (hrole : dir.role ≠ .seed) (d : ℕ) (name : String) {w : Walk}
    {next : List String} (hquiet : (expandNode S dir d name w next).1.Quiet S g) :
    Expands dir.role (dir.sign * d) w next (Hop g dir name) (expandNode S dir d name w next) := by
  have hsteps := takeAnswer_steps (S := S) dir.wires false (dir.sign * d) "INVOKES" name hrole
    (takeAnswer S dir.calls true dir.role (dir.sign * d) "CALLS" name w next).1
    (takeAnswer S dir.calls true dir.role (dir.sign * d) "CALLS" name w next).2.1
  -- the walk was quiet after the calls, as it still is after the wires
  have hcalls : (takeAnswer S dir.calls true dir.role (dir.sign * d) "CALLS" name w next).1.Quiet S g := by
    unfold expandNode at hquiet
    dsimp only at hquiet
    split_ifs at hquiet
    · exact hquiet
    · exact hquiet.of_steps hsteps
  have hfirst := takeAnswer_expands (dir.sign * d) "CALLS" name hrole hcalls
  unfold expandNode at hquiet ⊢
  dsimp only at hquiet ⊢
  -- the calls may end the node, or the wires follow
  cases hstop : (takeAnswer S dir.calls true dir.role (dir.sign * d) "CALLS" name w next).2.2 with
  | true =>
    rw [if_pos rfl]
    exact hfirst.or_left hstop
  | false =>
    rw [hstop, if_neg (by decide)] at hquiet
    rw [if_neg (by decide)]
    exact hfirst.trans hstop (takeAnswer_expands (dir.sign * d) "INVOKES" name hrole hquiet)

theorem expandLevel_expands {dir : CallDirection} (hrole : dir.role ≠ .seed) (d : ℕ) (names : List String) {w : Walk}
    {next : List String} (hquiet : (expandLevel S dir d names w next).1.Quiet S g) :
    Expands dir.role (dir.sign * d) w next (fun y => ∃ x ∈ names, Hop g dir x y)
      (expandLevel S dir d names w next) := by
  induction names generalizing w next with
  | nil =>
    refine ⟨fun h => absurd h Bool.false_ne_true, [], grows_nil rfl, (List.append_nil _).symm,
      fun y hy => absurd hy List.not_mem_nil, fun _ y _ hQ => ?_⟩
    obtain ⟨x, hx, -⟩ := hQ
    exact absurd hx List.not_mem_nil
  | cons name names ih =>
    -- the level was quiet after its first node, as it still is after the others
    have hsteps := expandLevel_steps (S := S) hrole d names (expandNode S dir d name w next).1
      (expandNode S dir d name w next).2.1
    have hnode : (expandNode S dir d name w next).1.Quiet S g := by
      unfold expandLevel at hquiet
      dsimp only at hquiet
      split_ifs at hquiet
      · exact hquiet
      · exact hquiet.of_steps hsteps
    have hfirst := expandNode_expands hrole d name hnode
    unfold expandLevel at hquiet ⊢
    dsimp only at hquiet ⊢
    simp only [List.exists_mem_cons_iff]
    cases hstop : (expandNode S dir d name w next).2.2 with
    | true =>
      rw [if_pos rfl]
      exact hfirst.or_left hstop
    | false =>
      rw [hstop, if_neg (by decide)] at hquiet
      rw [if_neg (by decide)]
      exact hfirst.trans hstop (ih hquiet)

/-! ### Layers -/

/-- The second walk has the layers from `lo` up to, but without, `hi` of the search from `a` that does not
enter `V` as new nodes, each with its number of hops; a part of them, if its map is full. -/
def Records (g : Relation → String → List CallEdge) (dir : CallDirection) (V : Set String) (a : String) (lo hi : ℕ)
    (w w' : Walk) : Prop :=
  ∃ added : List SubgraphNode, w'.nodes = w.nodes ++ added ∧
    (∀ n ∈ added, n.role = dir.role ∧
      ∃ k, lo ≤ k ∧ k < hi ∧ Layer (Hop g dir) V a k n.name ∧ n.depth = dir.sign * k) ∧
    (w'.nodes.length < subgraphMaxNodes →
      ∀ k x, lo ≤ k → k < hi → Layer (Hop g dir) V a k x → ∃ n ∈ added, n.name = x)

/-- A frontier that is not marked is not cut. -/
theorem trimFrontier_of_whole {w : Walk} {next : List String} (h : (trimFrontier w next).1.truncated = false) :
    trimFrontier w next = (w, next) := by
  unfold trimFrontier at h ⊢
  by_cases hwide : next.length > subgraphMaxFrontier
  · rw [if_pos hwide] at h
    exact absurd h (by simp)
  · rw [if_neg hwide]

/-- A level that starts from a layer, with that layer and the ones before on the map, records the next one. -/
theorem expandLevel_layer {dir : CallDirection} (hrole : dir.role ≠ .seed) {V : Set String} {a : String} {d : ℕ}
    {frontier : List String} {w : Walk} (hfrontier : ∀ y, y ∈ frontier ↔ Layer (Hop g dir) V a d y)
    (hnames : ∀ y, y ∈ w.names ↔ y ∈ V ∨ ∃ j ≤ d, Layer (Hop g dir) V a j y)
    (hquiet : (expandLevel S dir (d + 1) frontier w []).1.Quiet S g) :
    ∃ added : List SubgraphNode, (expandLevel S dir (d + 1) frontier w []).1.nodes = w.nodes ++ added ∧
      (expandLevel S dir (d + 1) frontier w []).2.1 = added.map (·.name) ∧
      (∀ n ∈ added, n.role = dir.role ∧ Layer (Hop g dir) V a (d + 1) n.name ∧ n.depth = dir.sign * (d + 1 : ℕ)) ∧
      ((expandLevel S dir (d + 1) frontier w []).2.2 = false →
        ∀ y, Layer (Hop g dir) V a (d + 1) y → y ∈ added.map (·.name)) := by
  obtain ⟨-, new, hgrows, hnext, hsound, hcomplete⟩ := expandLevel_expands hrole (d + 1) frontier hquiet
  -- the next layer is what one hop reaches and no walk has met
  have hlayer : ∀ y, Layer (Hop g dir) V a (d + 1) y ↔ y ∉ w.names ∧ ∃ x ∈ frontier, Hop g dir x y := by
    intro y
    rw [hnames, layer_succ_iff, and_comm]
    simp only [hfrontier]
    refine and_congr_left fun _ => ?_
    push Not
    exact Iff.rfl
  obtain ⟨added, hadded, rfl, hroles⟩ := hgrows
  refine ⟨added, hadded, hnext, fun n hn => ?_, fun hgo y hy => ?_⟩
  · obtain ⟨hr, hdepth⟩ := hroles n hn
    exact ⟨hr, (hlayer n.name).mpr (hsound n.name (List.mem_map_of_mem hn)), hdepth⟩
  · obtain ⟨hnew, hhop⟩ := (hlayer y).mp hy
    exact hcomplete hgo y hnew hhop

/-- With a layer more on the map, the map has one layer more. -/
theorem names_of_layer {dir : CallDirection} {V : Set String} {a : String} {d : ℕ} {w w' : Walk}
    {added : List SubgraphNode} (hadded : w'.nodes = w.nodes ++ added)
    (hnames : ∀ y, y ∈ w.names ↔ y ∈ V ∨ ∃ j ≤ d, Layer (Hop g dir) V a j y)
    (hall : ∀ y, y ∈ added.map (·.name) ↔ Layer (Hop g dir) V a (d + 1) y) (y : String) :
    y ∈ w'.names ↔ y ∈ V ∨ ∃ j ≤ d + 1, Layer (Hop g dir) V a j y := by
  have hsplit : w'.names = w.names ++ added.map (·.name) := by
    unfold Walk.names
    rw [hadded, List.map_append]
  rw [hsplit, List.mem_append, hnames, hall, or_assoc]
  refine or_congr_right ⟨?_, ?_⟩
  · rintro (⟨j, hj, h⟩ | h)
    · exact ⟨j, hj.trans (Nat.le_succ d), h⟩
    · exact ⟨d + 1, le_rfl, h⟩
  · rintro ⟨j, hj, h⟩
    rcases Nat.le_succ_iff.mp hj with hj | rfl
    · exact .inl ⟨j, hj, h⟩
    · exact .inr h

/-- Where the search ends. -/
theorem records_of_no_layer {dir : CallDirection} {V : Set String} {a : String} {lo hi : ℕ} {w : Walk}
    (h : ∀ k, lo ≤ k → k < hi → ∀ x, ¬ Layer (Hop g dir) V a k x) : Records g dir V a lo hi w w :=
  ⟨[], (List.append_nil _).symm, fun _ hn => absurd hn List.not_mem_nil,
    fun _ k x hlo hhi hlayer => absurd hlayer (h k hlo hhi x)⟩

section Layer

variable {dir : CallDirection} {V : Set String} {a : String} {lo hi : ℕ} {w w₁ : Walk} {added : List SubgraphNode}

/-- Where the map fills up, no more is promised than that what is new is of the layer. -/
theorem records_of_full (hadded : w₁.nodes = w.nodes ++ added)
    (hnew : ∀ n ∈ added, n.role = dir.role ∧ Layer (Hop g dir) V a lo n.name ∧ n.depth = dir.sign * (lo : ℕ))
    (hfull : subgraphMaxNodes ≤ w₁.nodes.length) (hlt : lo < hi) : Records g dir V a lo hi w w₁ := by
  refine ⟨added, hadded, fun n hn => ?_, fun hroom => absurd hroom (not_lt.mpr hfull)⟩
  exact ⟨(hnew n hn).1, lo, le_rfl, hlt, (hnew n hn).2⟩

/-- One whole layer, and the layers after it. -/
theorem Records.cons {w₂ : Walk} (hrest : Records g dir V a (lo + 1) hi w₁ w₂)
    (hadded : w₁.nodes = w.nodes ++ added)
    (hnew : ∀ n ∈ added, n.role = dir.role ∧ Layer (Hop g dir) V a lo n.name ∧ n.depth = dir.sign * (lo : ℕ))
    (hwhole : ∀ y, Layer (Hop g dir) V a lo y → y ∈ added.map (·.name)) (hlt : lo < hi) :
    Records g dir V a lo hi w w₂ := by
  obtain ⟨rest, hnodes, hsound, hcomplete⟩ := hrest
  refine ⟨added ++ rest, ?_, ?_, ?_⟩
  · rw [hnodes, hadded, List.append_assoc]
  · refine List.forall_mem_append.mpr ⟨fun n hn => ?_, fun n hn => ?_⟩
    · exact ⟨(hnew n hn).1, lo, le_rfl, hlt, (hnew n hn).2⟩
    · obtain ⟨hrole, k, hlo, hhi, h⟩ := hsound n hn
      exact ⟨hrole, k, by omega, hhi, h⟩
  · intro hroom k x hlo hhi h
    obtain rfl | hlt := Nat.eq_or_lt_of_le hlo
    · obtain ⟨n, hn, hname⟩ := List.mem_map.mp (hwhole x h)
      exact ⟨n, List.mem_append_left _ hn, hname⟩
    · obtain ⟨n, hn, hname⟩ := hcomplete hroom k x hlt hhi h
      exact ⟨n, List.mem_append_right _ hn, hname⟩

end Layer

/-- **A walk is a search.** From layer `d` on, the layers that are left are recorded. -/
theorem expandBFS_records {dir : CallDirection} (hrole : dir.role ≠ .seed) {V : Set String} {a : String}
    (levels d : ℕ) {frontier : List String} {w : Walk}
    (hfrontier : ∀ y, y ∈ frontier ↔ Layer (Hop g dir) V a d y)
    (hnames : ∀ y, y ∈ w.names ↔ y ∈ V ∨ ∃ j ≤ d, Layer (Hop g dir) V a j y)
    (hquiet : (expandBFS S dir levels (d + 1) frontier w).Quiet S g) :
    Records g dir V a (d + 1) (d + 1 + levels) w (expandBFS S dir levels (d + 1) frontier w) := by
  induction levels generalizing d frontier w with
  | zero => exact records_of_no_layer fun k hlo hhi => absurd hlo (by omega)
  | succ levels ih =>
    unfold expandBFS at hquiet ⊢
    dsimp only at hquiet ⊢
    by_cases hdone : frontier = []
    · -- nothing on this layer, and nothing beyond
      rw [if_pos hdone]
      have hempty : ∀ y, ¬ Layer (Hop g dir) V a d y := by
        intro y hy
        rw [← hfrontier, hdone] at hy
        exact absurd hy List.not_mem_nil
      exact records_of_no_layer fun k hlo _ x hlayer => not_layer_of_le hempty (by omega) hlayer
    · rw [if_neg hdone] at hquiet ⊢
      have hsteps := fun v f => expandBFS_steps (S := S) hrole levels (d + 2) f v
      have hlevel : (expandLevel S dir (d + 1) frontier w []).1.Quiet S g := by
        split_ifs at hquiet
        · exact hquiet
        · exact hquiet.of_steps ((trimFrontier_steps _ _).trans (hsteps _ _))
      obtain ⟨added, hadded, hnext, hnew, hcomplete⟩ := expandLevel_layer hrole hfrontier hnames hlevel
      cases hstop : (expandLevel S dir (d + 1) frontier w []).2.2 with
      | true =>
        rw [if_pos rfl]
        exact records_of_full hadded hnew ((expandLevel_expands hrole (d + 1) frontier hlevel).1 hstop) (by omega)
      | false =>
        rw [hstop, if_neg (by decide)] at hquiet
        rw [if_neg (by decide)]
        have hwhole := (hquiet.of_steps (hsteps (trimFrontier _ _).1 (trimFrontier _ _).2)).whole
        rw [trimFrontier_of_whole hwhole] at hquiet ⊢
        have hall : ∀ y, y ∈ (expandLevel S dir (d + 1) frontier w []).2.1 ↔ Layer (Hop g dir) V a (d + 1) y := by
          intro y
          rw [hnext]
          refine ⟨fun hy => ?_, hcomplete hstop y⟩
          obtain ⟨n, hn, rfl⟩ := List.mem_map.mp hy
          exact (hnew n hn).2.1
        have hnames' := names_of_layer hadded hnames fun y => hnext ▸ hall y
        have hrest := ih (d + 1) hall hnames' hquiet
        rw [Nat.add_right_comm (d + 1) 1 levels] at hrest
        exact hrest.cons hadded hnew (hcomplete hstop) (by omega)

/-! ### Structural neighbours -/

theorem takeAux_grows {rel : Relation} {role : Role} {edge : CallEdge → SubgraphEdge} {answer es : List CallEdge}
    {n : ℕ} {name : String} (hanswer : S.answer n rel name = some answer) (hrole : role ≠ .seed)
    (hes : ∀ e ∈ es, e ∈ graphEdges answer) {w : Walk} (hquiet : (takeAux rel role edge es w).Quiet S g) :
    ∃ new, Grows role 1 w (takeAux rel role edge es w) new ∧
      ∀ y, y ∈ new ↔ y ∉ w.names ∧ ∃ e ∈ es, rel.filed e = y := by
  induction es generalizing w with
  | nil => exact ⟨[], grows_nil rfl, fun y => by simp⟩
  | cons e es ih =>
    obtain ⟨he, hes⟩ := List.forall_mem_cons.mp hes
    unfold takeAux at hquiet ⊢
    obtain ⟨new, hgrows, hnew⟩ := ih hes hquiet
    have hsteps := takeAux_steps (S := S) edge hanswer hrole hes
      ((w.upsertNode (rel.filed e) e.filePath role 1).1.addEdge (edge e))
    obtain ⟨hall, hmem⟩ := grows_cons (ne_empty_of_mem_graphEdges he) _ (hquiet.of_steps hsteps) hgrows hnew
    refine ⟨_, hall, fun y => ?_⟩
    rw [hmem, List.exists_mem_cons_iff]

theorem auxRelation_log {rel : Relation} {role : Role} (edge : CallEdge → SubgraphEdge) (seedName : String)
    (hrole : role ≠ .seed) (w : Walk) :
    w.log ++ [.edges rel seedName] <+: (auxRelation S rel role edge seedName w).log := by
  unfold auxRelation Walk.query
  dsimp only
  cases hanswer : S.answer w.log.length rel seedName with
  | none => exact List.prefix_rfl
  | some es =>
    exact steps_log_grow (takeAux_steps (S := S) edge hanswer hrole (fun _ h => h)
      { w with log := w.log ++ [.edges rel seedName] })

/-- One structural relation of a seed. -/
theorem auxRelation_grows {rel : Relation} {role : Role} (edge : CallEdge → SubgraphEdge) (seedName : String)
    (hrole : role ≠ .seed) {w : Walk} (hquiet : (auxRelation S rel role edge seedName w).Quiet S g) :
    ∃ new, Grows role 1 w (auxRelation S rel role edge seedName w) new ∧
      ∀ y, y ∈ new ↔ y ∉ w.names ∧ ∃ e ∈ graphEdges (g rel seedName), rel.filed e = y := by
  have hanswer := hquiet.answer_of_log (auxRelation_log edge seedName hrole w)
  unfold auxRelation Walk.query at hquiet ⊢
  rw [hanswer] at hquiet ⊢
  dsimp only [Option.map_some] at hquiet ⊢
  exact takeAux_grows hanswer hrole (fun _ h => h) hquiet

/-- The structural relations of a seed. -/
def auxRelations : List Relation := [.importers, .extends, .methods]

/-- A seed is asked about for each of them. -/
theorem addAux_asks (seedName : String) (w : Walk) {rel : Relation} (hrel : rel ∈ auxRelations) :
    .edges rel seedName ∈ (addAux S seedName w).log := by
  have hasked : ∀ {rel role} (edge : CallEdge → SubgraphEdge) (v : Walk), role ≠ .seed →
      .edges rel seedName ∈ (auxRelation S rel role edge seedName v).log := fun edge v hrole =>
    (auxRelation_log edge seedName hrole v).subset (List.mem_append_right _ List.mem_cons_self)
  have hkept : ∀ {rel role} (edge : CallEdge → SubgraphEdge) (v : Walk), role ≠ .seed →
      v.log ⊆ (auxRelation S rel role edge seedName v).log := fun edge v hrole =>
    ((List.prefix_append _ _).trans (auxRelation_log edge seedName hrole v)).subset
  simp only [auxRelations, List.mem_cons, List.not_mem_nil, or_false] at hrel
  rcases hrel with rfl | rfl | rfl
  · exact hkept _ _ (by decide) (hkept _ _ (by decide) (hasked _ _ (by decide)))
  · exact hkept _ _ (by decide) (hasked _ _ (by decide))
  · exact hasked _ _ (by decide)

/-- What one relation adds for a seed: names that are new, each filed by an edge of the answer. -/
def FiledBy (g : Relation → String → List CallEdge) (rel : Relation) (seedName : String) (w : Walk)
    (new : List String) : Prop :=
  ∀ y, y ∈ new ↔ y ∉ w.names ∧ ∃ e ∈ graphEdges (g rel seedName), rel.filed e = y

/-- After its own part a neighbour is on the map. -/
theorem FiledBy.mem_names {rel : Relation} {seedName : String} {role : Role} {w w' : Walk} {new : List String}
    (h : FiledBy g rel seedName w new) (hgrows : Grows role 1 w w' new) {e : CallEdge}
    (he : e ∈ graphEdges (g rel seedName)) : rel.filed e ∈ w'.names := by
  rw [hgrows.names, List.mem_append, h]
  by_cases hold : rel.filed e ∈ w.names
  · exact .inl hold
  · exact .inr ⟨hold, e, he, rfl⟩

/-- The three relations of a seed, one after the other. -/
theorem addAux_grows (seedName : String) {w : Walk} (hquiet : (addAux S seedName w).Quiet S g) :
    ∃ w₁ w₂ : Walk, ∃ new₁ new₂ new₃ : List String,
      (Grows .importer 1 w w₁ new₁ ∧ FiledBy g .importers seedName w new₁) ∧
      (Grows .extends 1 w₁ w₂ new₂ ∧ FiledBy g .extends seedName w₁ new₂) ∧
      (Grows .method 1 w₂ (addAux S seedName w) new₃ ∧ FiledBy g .methods seedName w₂ new₃) := by
  have hmethods := auxRelation_grows (fun e => ⟨e.fromName, e.toName, "HAS_METHOD"⟩) seedName (by decide) hquiet
  have hsteps₂ := auxRelation_steps (S := S) .methods .method (fun e => ⟨e.fromName, e.toName, "HAS_METHOD"⟩) seedName
    (by decide) (auxRelation S .extends .extends (fun e => ⟨e.fromName, seedName, "EXTENDS"⟩) seedName
      (auxRelation S .importers .importer (fun e => ⟨e.fromName, seedName, "IMPORTS"⟩) seedName w))
  have hextends := auxRelation_grows (fun e => ⟨e.fromName, seedName, "EXTENDS"⟩) seedName (by decide)
    (hquiet.of_steps hsteps₂)
  have hsteps₁ := auxRelation_steps (S := S) .extends .extends (fun e => ⟨e.fromName, seedName, "EXTENDS"⟩) seedName
    (by decide) (auxRelation S .importers .importer (fun e => ⟨e.fromName, seedName, "IMPORTS"⟩) seedName w)
  have himporters := auxRelation_grows (fun e => ⟨e.fromName, seedName, "IMPORTS"⟩) seedName (by decide)
    ((hquiet.of_steps hsteps₂).of_steps hsteps₁)
  obtain ⟨new₁, himporters⟩ := himporters
  obtain ⟨new₂, hextends⟩ := hextends
  obtain ⟨new₃, hmethods⟩ := hmethods
  exact ⟨_, _, new₁, new₂, new₃, himporters, hextends, hmethods⟩

/-- The structural neighbours of a seed are on the map, and what is new has their roles. -/
theorem addAux_records (seedName : String) {w : Walk} (hquiet : (addAux S seedName w).Quiet S g) :
    (∃ added : List SubgraphNode, (addAux S seedName w).nodes = w.nodes ++ added ∧
      ∀ n ∈ added, n.role ∈ [.importer, .extends, .method] ∧
        ∃ rel ∈ auxRelations, ∃ e ∈ graphEdges (g rel seedName), rel.filed e = n.name) ∧
    ∀ rel ∈ auxRelations, ∀ e ∈ graphEdges (g rel seedName), rel.filed e ∈ (addAux S seedName w).names := by
  obtain ⟨w₁, w₂, new₁, new₂, new₃, ⟨hgrows₁, hnew₁⟩, ⟨hgrows₂, hnew₂⟩, ⟨hgrows₃, hnew₃⟩⟩ :=
    addAux_grows seedName hquiet
  have hlater₂ : ∀ y ∈ w₂.names, y ∈ (addAux S seedName w).names := by
    intro y hy
    rw [hgrows₃.names]
    exact List.mem_append_left _ hy
  have hlater₁ : ∀ y ∈ w₁.names, y ∈ (addAux S seedName w).names := by
    intro y hy
    refine hlater₂ y ?_
    rw [hgrows₂.names]
    exact List.mem_append_left _ hy
  constructor
  · obtain ⟨added₁, hnodes₁, rfl, hroles₁⟩ := hgrows₁
    obtain ⟨added₂, hnodes₂, rfl, hroles₂⟩ := hgrows₂
    obtain ⟨added₃, hnodes₃, rfl, hroles₃⟩ := hgrows₃
    refine ⟨added₁ ++ added₂ ++ added₃, ?_, ?_⟩
    · rw [hnodes₃, hnodes₂, hnodes₁, List.append_assoc, List.append_assoc, List.append_assoc]
    · refine List.forall_mem_append.mpr ⟨List.forall_mem_append.mpr ⟨fun n hn => ?_, fun n hn => ?_⟩, fun n hn => ?_⟩
      · exact ⟨by rw [(hroles₁ n hn).1]; decide, .importers, by decide, ((hnew₁ n.name).mp (List.mem_map_of_mem hn)).2⟩
      · exact ⟨by rw [(hroles₂ n hn).1]; decide, .extends, by decide, ((hnew₂ n.name).mp (List.mem_map_of_mem hn)).2⟩
      · exact ⟨by rw [(hroles₃ n hn).1]; decide, .methods, by decide, ((hnew₃ n.name).mp (List.mem_map_of_mem hn)).2⟩
  · -- what is on the map after its own part stays there
    intro rel hrel e he
    simp only [auxRelations, List.mem_cons, List.not_mem_nil, or_false] at hrel
    obtain rfl | rfl | rfl := hrel
    · exact hlater₁ _ (hnew₁.mem_names hgrows₁ he)
    · exact hlater₂ _ (hnew₂.mem_names hgrows₂ he)
    · exact hnew₃.mem_names hgrows₃ he

end Levels

end Devrouter.Codegraph
