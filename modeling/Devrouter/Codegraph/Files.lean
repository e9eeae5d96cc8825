import Devrouter.Codegraph.Steps

/-!
# The files of graph nodes

The sidecar puts one file on an edge and the client stores it under one endpoint. For six of the seven
relations the handler takes the file from the symbol at that endpoint (`mem_handle_filed`). The upstream wires
are the exception: the edge from a route to its handler carries the file of the handler, and the client stores
it under the route. `files_right_iff` says for which databases that does no harm.
-/

namespace Devrouter.Codegraph

namespace Database

variable (db : Database)

instance (name file : String) : Decidable (db.DefinedIn name file) :=
  inferInstanceAs (Decidable (∃ n ∈ db.nodes, n.name = name ∧ n.filePath = file))

/-- The bindings that an upstream wire answer for a handler is made of: the first of each route, up to the
limit. -/
def answeredRoutes (handler : String) : List WireRow :=
  (((wireRows db).filter fun r =>
    r.handler = handler ∧ r.route ≠ "" ∧ r.handler ≠ "" ∧ r.route ≠ r.handler).firstBy (·.route) []).take relationLimit

/-- A sidecar over the database. A query fails when `fails` says so. -/
def sidecar (fails : ℕ → Bool) (nameHits : ℕ → String → Option ℤ) : Sidecar where
  answer n rel name := if fails n then none else some (db.handle rel name)
  nameHits := nameHits

end Database

section Handlers

variable {db : Database}

theorem Database.mem_nodesByName {name : String} {n : GraphNode} (h : n ∈ db.nodesByName name) :
    n ∈ db.nodes ∧ n.name = name := by
  obtain ⟨hmem, hname⟩ := List.mem_filter.mp h
  exact ⟨hmem, of_decide_eq_true hname⟩

theorem Database.mem_of_nodeById {id : String} {n : GraphNode} (h : db.nodeById id = some n) : n ∈ db.nodes :=
  List.mem_of_find?_eq_some h

/-- **Six relations.** The file on an edge is that of the endpoint it is stored under. -/
theorem mem_handle_filed {rel : Relation} (hrel : rel ≠ .crossWireCallers) {name : String} {e : CallEdge}
    (h : e ∈ db.handle rel name) : db.DefinedIn (rel.filed e) e.filePath := by
  have hlimit : 0 < relationLimit := by decide
  cases rel with
  | callers =>
    obtain ⟨target, -, h⟩ := List.mem_flatMap.mp (mem_of_mem_dedupEdges hlimit h).1
    obtain ⟨r, -, h⟩ := List.mem_filterMap.mp h
    obtain ⟨src, hsrc, rfl⟩ := Option.map_eq_some_iff.mp h
    exact ⟨src, db.mem_of_nodeById hsrc, rfl, rfl⟩
  | callees =>
    obtain ⟨source, -, h⟩ := List.mem_flatMap.mp (mem_of_mem_dedupEdges hlimit h).1
    obtain ⟨r, -, h⟩ := List.mem_filterMap.mp h
    obtain ⟨dst, hdst, rfl⟩ := Option.map_eq_some_iff.mp h
    exact ⟨dst, db.mem_of_nodeById hdst, rfl, rfl⟩
  | importers =>
    obtain ⟨target, -, h⟩ := List.mem_flatMap.mp (mem_of_mem_dedupEdges hlimit h).1
    obtain ⟨r, -, h⟩ := List.mem_filterMap.mp h
    obtain ⟨src, hsrc, rfl⟩ := Option.map_eq_some_iff.mp h
    exact ⟨src, db.mem_of_nodeById (Option.filter_eq_some_iff.mp hsrc).1, rfl, rfl⟩
  | «extends» =>
    obtain ⟨node, hnode, h⟩ := List.mem_flatMap.mp (mem_of_mem_dedupEdges hlimit h).1
    rcases List.mem_append.mp h with h | h
    · -- to a parent, with the symbol's own file
      obtain ⟨r, -, h⟩ := List.mem_filterMap.mp h
      obtain ⟨parent, -, rfl⟩ := Option.map_eq_some_iff.mp h
      obtain ⟨hmem, hname⟩ := db.mem_nodesByName hnode
      exact ⟨node, hmem, hname, rfl⟩
    · obtain ⟨r, -, h⟩ := List.mem_filterMap.mp h
      obtain ⟨child, hchild, rfl⟩ := Option.map_eq_some_iff.mp h
      exact ⟨child, db.mem_of_nodeById hchild, rfl, rfl⟩
  | methods =>
    obtain ⟨owner, -, h⟩ := List.mem_flatMap.mp (mem_of_mem_dedupEdges hlimit h).1
    obtain ⟨r, -, h⟩ := List.mem_filterMap.mp h
    obtain ⟨m, hm, rfl⟩ := Option.map_eq_some_iff.mp h
    exact ⟨m, db.mem_of_nodeById (Option.filter_eq_some_iff.mp hm).1, rfl, rfl⟩
  | crossWireCallees =>
    obtain ⟨row, hrow, rfl⟩ := List.mem_map.mp (mem_of_mem_dedupEdges hlimit h).1
    obtain ⟨r, -, h⟩ := List.mem_flatMap.mp (List.mem_of_mem_take (List.mem_filter.mp hrow).1)
    obtain ⟨edge, -, h⟩ := List.mem_flatMap.mp h
    obtain ⟨hd, hhd, rfl⟩ := List.mem_map.mp h
    exact ⟨hd, (List.mem_filter.mp hhd).1, rfl, rfl⟩
  | crossWireCallers => exact absurd rfl hrel

/-- Edges to one handler are told apart by their routes. -/
theorem handle_crossWireCallers (name : String) :
    db.handle .crossWireCallers name =
      (db.answeredRoutes name).map fun r => ⟨r.route, r.handler, r.handlerFile⟩ := by
  have hlimit : 0 < relationLimit := by decide
  have hkey : Function.Injective fun route : String => route ++ "|" ++ name := by
    intro a b hab
    have hlist := congrArg String.toList hab
    simp only [String.toList_append] at hlist
    exact String.toList_inj.mp (List.append_cancel_right (List.append_cancel_right hlist))
  have hproper : (((wireRows db).filter fun r => r.handler = name).map fun r =>
      (⟨r.route, r.handler, r.handlerFile⟩ : CallEdge)).filter (·.proper) =
      ((wireRows db).filter fun r => r.handler = name ∧ r.route ≠ "" ∧ r.handler ≠ "" ∧ r.route ≠ r.handler).map
        fun r => ⟨r.route, r.handler, r.handlerFile⟩ := by
    rw [List.filter_map, List.filter_filter]
    congr 1
    refine List.filter_congr fun r _ => ?_
    simp only [Function.comp_apply, CallEdge.proper]
    by_cases hname : r.handler = name
    · simp [hname, Bool.and_assoc]
    · simp [hname]
  change dedupEdges (wireEdges db name .callers) relationLimit = _
  rw [dedupEdges_eq hlimit]
  unfold wireEdges Database.answeredRoutes
  dsimp only
  rw [hproper, List.firstBy_map, ← List.map_take]
  congr 2
  -- on these rows the key is the route with the handler behind
  refine List.firstBy_of_injective hkey [] fun r hr => ?_
  have hname := (of_decide_eq_true (List.mem_filter.mp hr).2).1
  unfold CallEdge.key
  rw [hname]

end Handlers

/-! ### Nodes -/

section Nodes

variable {db : Database}

/-- Every node of the map is filed under a file that defines it. -/
def Filed (db : Database) (w : Walk) : Prop := ∀ n ∈ w.nodes, n.filePath ≠ "" → db.DefinedIn n.name n.filePath

theorem filed_upsertNode {w : Walk} (hw : Filed db w) {name file : String} (role : Role) (depth : ℤ)
    (hfile : file ≠ "" → db.DefinedIn name file) : Filed db (w.upsertNode name file role depth).1 := by
  obtain ⟨h, -⟩ | ⟨h, -⟩ | ⟨h, -⟩ := w.upsertNode_cases name file role depth
  · rw [h]
    exact hw
  · rw [h]
    exact hw
  · rw [h]
    intro n hn
    rcases List.mem_append.mp hn with hn | hn
    · exact hw n hn
    · rw [List.mem_singleton.mp hn]
      exact hfile

/-- **A step** keeps the nodes filed right when the answers are. -/
theorem filed_step {fails : ℕ → Bool} {hits : ℕ → String → Option ℤ}
    (hright : ∀ rel name, ∀ e ∈ db.handle rel name, e.filePath ≠ "" → db.DefinedIn (rel.filed e) e.filePath)
    {w w' : Walk} (hw : Filed db w) (hstep : Step (db.sidecar fails hits) w w') : Filed db w' := by
  cases hstep with
  | ask => exact hw
  | flag => exact hw
  | @node n rel name es e role depth hanswer he _ =>
    have hes : es = db.handle rel name := by
      simp only [Database.sidecar] at hanswer
      split_ifs at hanswer
      exact (Option.some.inj hanswer).symm
    subst hes
    exact filed_upsertNode hw role depth (hright rel name e (List.mem_filter.mp he).1)
  | seed name => exact filed_upsertNode hw .seed 0 fun h => absurd rfl h
  | edge e =>
    unfold Filed
    rw [w.addEdge_nodes]
    exact hw

/-- **The files are right**, in every answer and in every subgraph, exactly when each route that an upstream
wire answer binds to a handler is the name of a symbol or route in the file of the handler. -/
theorem files_right_iff (db : Database) :
    ((∀ rel name, ∀ e ∈ db.handle rel name, e.filePath ≠ "" → db.DefinedIn (rel.filed e) e.filePath) ∧
      ∀ fails hits L seeds, ∀ sg ∈ subgraph (db.sidecar fails hits) L seeds,
        ∀ n ∈ sg.nodes, n.filePath ≠ "" → db.DefinedIn n.name n.filePath) ↔
      ∀ handler, ∀ r ∈ db.answeredRoutes handler, r.handlerFile ≠ "" → db.DefinedIn r.route r.handlerFile := by
  constructor
  · rintro ⟨hanswers, -⟩ handler r hr
    -- the route is answered with its handler's file
    have hmem : (⟨r.route, r.handler, r.handlerFile⟩ : CallEdge) ∈ db.handle .crossWireCallers handler := by
      rw [handle_crossWireCallers]
      exact List.mem_map.mpr ⟨r, hr, rfl⟩
    exact hanswers .crossWireCallers handler _ hmem
  · intro hroutes
    have hanswers : ∀ rel name, ∀ e ∈ db.handle rel name,
        e.filePath ≠ "" → db.DefinedIn (rel.filed e) e.filePath := by
      intro rel name e he hfile
      -- every other relation files what it joins from the nodes
      by_cases hrel : rel = .crossWireCallers
      · subst hrel
        rw [handle_crossWireCallers] at he
        obtain ⟨r, hr, rfl⟩ := List.mem_map.mp he
        exact hroutes name r hr hfile
      · exact mem_handle_filed hrel he
    refine ⟨hanswers, fun fails hits L seeds sg hsg n hn => ?_⟩
    -- each step files what was answered, so the whole walk does
    have hfiled : Filed db (walkSeeds (db.sidecar fails hits) L seeds) :=
      walkSeeds_induction (fun n hn => absurd hn List.not_mem_nil) (fun w w' => filed_step hanswers) seeds
    unfold subgraph at hsg
    split_ifs at hsg
    · exact absurd hsg (by simp)
    · obtain rfl := Option.some.inj hsg
      exact hfiled n ((List.mem_insertionSort _).mp hn)

end Nodes

/-- A route in one file whose handler is in another. -/
def usersRoute : Database where
  nodes := [⟨"n1", "route", "GET /users", "src/routes.ts"⟩, ⟨"n2", "function", "listUsers", "src/users.ts"⟩]
  edges := [⟨"n1", "n2", "references"⟩]

/-- **The route is filed under its handler's file**, where no such name is defined. -/
theorem usersRoute_misfiled :
    (subgraph (usersRoute.sidecar (fun _ => false) fun _ _ => some 0) asciiRunes ["listUsers"]).map (·.nodes) =
        some [⟨"listUsers", "", .seed, 0⟩, ⟨"GET /users", "src/users.ts", .caller, -1⟩] ∧
      ¬ usersRoute.DefinedIn "GET /users" "src/users.ts" := by
  decide +kernel

end Devrouter.Codegraph
