import Devrouter.Engine.Tables
import Devrouter.Lib.Frontier
import Mathlib.Data.List.Sort

/-!
# Breadth-first searches of the graph

Model of `findPath` and `traverseBFS` in `codegraph/src/graph/traversal.ts`. The set of visited ids is a list here,
the last one first.

Both loops put a symbol in the queue for every edge that leads to it, and visit it when it is taken from the queue for
the first time. `Search.Frontier` is what they keep, so that `findPath` returns a path with the fewest edges
(`findPath_shortest`), and a `traverseBFS` that its limit does not stop returns the symbols within its depth, with an
edge from a shortest path to each (`traverseBFS_ball`).
-/

namespace Devrouter.Engine

namespace Tables

variable (t : Tables)

/-- The nodes that a query for some ids has found, by their id. -/
def getNodesByIds (ids : List String) (id : String) : Option Node := if id ∈ ids then t.getNodeById id else none

/-- The edges with an end that is not among the ids. -/
def openSources (ids : List String) : List Edge := t.edges.filter (·.source ∉ ids)

def openTargets (ids : List String) : List Edge := t.edges.filter (·.target ∉ ids)

end Tables

/-- What two disjoint conditions let through, one that both imply lets through. -/
theorem length_filter_add_le {α : Type} {p q r : α → Bool} (hp : ∀ a, p a → r a) (hq : ∀ a, q a → r a)
    (hpq : ∀ a, p a → ¬ q a) (l : List α) : (l.filter p).length + (l.filter q).length ≤ (l.filter r).length := by
  induction l with
  | nil => exact Nat.le_refl 0
  | cons a l ih =>
    simp only [List.filter_cons]
    split
    · next hpa =>
      rw [if_neg (hpq a hpa), if_pos (hp a hpa), List.length_cons, List.length_cons]
      omega
    · split
      · next hqa =>
        rw [if_pos (hq a hqa), List.length_cons, List.length_cons]
        omega
      · split
        · rw [List.length_cons]
          omega
        · exact ih

variable {t : Tables} {v : String} {visited : List String}

/-- The edges that a visit follows are not followed again. -/
theorem length_openSources_cons (hv : v ∉ visited) (kinds : List String) :
    (t.openSources (v :: visited)).length + (t.getOutgoingEdges v kinds).length ≤ (t.openSources visited).length := by
  refine length_filter_add_le (fun e he => ?_) (fun e he => ?_) (fun e he => ?_) t.edges
  · simp only [decide_eq_true_eq, List.mem_cons, not_or] at he ⊢
    exact he.2
  · simp only [decide_eq_true_eq] at he ⊢
    exact he.1 ▸ hv
  · simp only [decide_eq_true_eq, List.mem_cons, not_or] at he ⊢
    exact fun h => he.1 h.1

theorem length_openTargets_cons (hv : v ∉ visited) (kinds : List String) :
    (t.openTargets (v :: visited)).length + (t.getIncomingEdges v kinds).length ≤ (t.openTargets visited).length := by
  refine length_filter_add_le (fun e he => ?_) (fun e he => ?_) (fun e he => ?_) t.edges
  · simp only [decide_eq_true_eq, List.mem_cons, not_or] at he ⊢
    exact he.2
  · simp only [decide_eq_true_eq] at he ⊢
    exact he.1 ▸ hv
  · simp only [decide_eq_true_eq, List.mem_cons, not_or] at he ⊢
    exact fun h => he.1 h.1

/-! ### Shortest paths -/

structure PathStep where
  node : Node
  edge : Option Edge
  deriving DecidableEq, Repr

/-- What a visit of the first of the queue puts into it: the targets that are not visited, and are there. -/
def findPathPush (t : Tables) (kinds visited : List String) (nodeId : String) (path : List PathStep) :
    List (String × List PathStep) :=
  let outgoingEdges := t.getOutgoingEdges nodeId kinds
  let nextNodes := t.getNodesByIds ((outgoingEdges.map (·.target)).filter (· ∉ visited))
  outgoingEdges.filterMap fun e =>
    if e.target ∈ visited then none else (nextNodes e.target).map fun n => (e.target, path ++ [⟨n, some e⟩])

theorem length_findPathPush_le (kinds visited : List String) (v : String) (path : List PathStep) :
    (findPathPush t kinds visited v path).length ≤ (t.getOutgoingEdges v kinds).length :=
  List.length_filterMap_le _ _

def findPathLoop (t : Tables) (toId : String) (kinds : List String) :
    List String → List (String × List PathStep) → Option (List PathStep)
  | _, [] => none
  | visited, (nodeId, path) :: queue =>
    if nodeId = toId then some path
    else if _h : nodeId ∈ visited then findPathLoop t toId kinds visited queue
    else findPathLoop t toId kinds (nodeId :: visited) (queue ++ findPathPush t kinds (nodeId :: visited) nodeId path)
  termination_by visited queue => (t.openSources visited).length + queue.length
  decreasing_by
    · simp only [List.length_cons]
      omega
    · have hopen := length_openSources_cons (t := t) _h kinds
      have hpush := length_findPathPush_le (t := t) kinds (nodeId :: visited) nodeId path
      simp only [List.length_append, List.length_cons]
      omega

/-- No kinds means any kind. -/
def findPath (t : Tables) (fromId toId : String) (kinds : List String) : Option (List PathStep) :=
  match t.getNodeById fromId, t.getNodeById toId with
  | some fromNode, some _ => findPathLoop t toId kinds [] [(fromId, [⟨fromNode, none⟩])]
  | _, _ => none

section FindPath

variable {kinds : List String} {fromId toId : String} {path : List PathStep}

/-- An edge of one of the kinds leads from one symbol to another. -/
def Link (t : Tables) (kinds : List String) (u w : String) : Prop :=
  ∃ e ∈ t.getOutgoingEdges u kinds, e.target = w ∧ (t.getNodeById w).isSome

/-- A path as `findPath` returns it: the nodes that follow each other along edges, with the edge that leads to each. -/
inductive IsPath (t : Tables) (kinds : List String) (fromId : String) : List PathStep → String → Prop
  | start {n : Node} (hn : t.getNodeById fromId = some n) : IsPath t kinds fromId [⟨n, none⟩] fromId
  | step {path : List PathStep} {u : String} (h : IsPath t kinds fromId path u) {e : Edge}
      (he : e ∈ t.getOutgoingEdges u kinds) {n : Node} (hn : t.getNodeById e.target = some n) :
      IsPath t kinds fromId (path ++ [⟨n, some e⟩]) e.target

theorem IsPath.length_pos (h : IsPath t kinds fromId path v) : 0 < path.length := by
  cases h with
  | start => exact Nat.one_pos
  | step => simp

/-- A path has an edge for each of its hops. -/
theorem IsPath.hops (h : IsPath t kinds fromId path v) :
    Search.Hops (Link t kinds) ∅ fromId (path.length - 1) v := by
  induction h with
  | start => exact .start
  | @step path u h e he n hn ih =>
    have hlink : Link t kinds u e.target := ⟨e, he, rfl, by rw [hn, Option.isSome_some]⟩
    have hlength : (path ++ [(⟨n, some e⟩ : PathStep)]).length - 1 = path.length - 1 + 1 := by
      have hpos := h.length_pos
      rw [List.length_append, List.length_singleton]
      omega
    rw [hlength]
    exact .next ih hlink (Set.notMem_empty _)

theorem mem_findPathPush {q : String × List PathStep} (hq : q ∈ findPathPush t kinds visited v path) :
    ∃ e ∈ t.getOutgoingEdges v kinds, ∃ n, t.getNodeById e.target = some n ∧
      q = (e.target, path ++ [⟨n, some e⟩]) := by
  obtain ⟨e, he, hsome⟩ := List.mem_filterMap.mp hq
  refine ⟨e, he, ?_⟩
  split at hsome
  · exact absurd hsome nofun
  · obtain ⟨n, hn, rfl⟩ := Option.map_eq_some_iff.mp hsome
    exact ⟨n, (Option.ite_none_right_eq_some.mp hn).2, rfl⟩

/-- What is linked to the visited symbol is visited, or is put in the queue. -/
theorem exists_findPathPush {w : String} (h : Link t kinds v w) :
    w ∈ visited ∨ w ∈ (findPathPush t kinds visited v path).map (·.1) := by
  obtain ⟨e, he, rfl, hsome⟩ := h
  obtain ⟨n, hn⟩ := Option.isSome_iff_exists.mp hsome
  by_cases hw : e.target ∈ visited
  · exact .inl hw
  · refine .inr (List.mem_map.mpr ⟨(e.target, path ++ [⟨n, some e⟩]), ?_, rfl⟩)
    refine List.mem_filterMap.mpr ⟨e, he, ?_⟩
    have hmem : e.target ∈ ((t.getOutgoingEdges v kinds).map (·.target)).filter (· ∉ visited) :=
      List.mem_filter.mpr ⟨List.mem_map_of_mem he, by simpa using hw⟩
    rw [if_neg hw, Tables.getNodesByIds, if_pos hmem, hn]
    rfl

/-- The entries of the queue with the number of their hops. -/
def depths (queue : List (String × List PathStep)) : List (String × ℕ) := queue.map fun q => (q.1, q.2.length - 1)

theorem depths_append_findPathPush (h : IsPath t kinds fromId path v) (queue : List (String × List PathStep)) :
    depths (queue ++ findPathPush t kinds visited v path) =
      depths queue ++ ((findPathPush t kinds visited v path).map (·.1)).map (·, path.length - 1 + 1) := by
  rw [depths, depths, List.map_append, List.map_map]
  refine congrArg _ (List.map_congr_left fun q hq => ?_)
  obtain ⟨e, -, n, -, rfl⟩ := mem_findPathPush hq
  have hpos := h.length_pos
  refine Prod.ext rfl ?_
  show (path ++ [(⟨n, some e⟩ : PathStep)]).length - 1 = path.length - 1 + 1
  rw [List.length_append, List.length_singleton]
  omega

/-- The loop keeps the frontier, and its paths are paths. -/
theorem findPathLoop_spec {dist : String → ℕ} {queue : List (String × List PathStep)}
    (h : Search.Frontier (Link t kinds) (fun _ => True) fromId dist visited (depths queue))
    (hpaths : ∀ q ∈ queue, IsPath t kinds fromId q.2 q.1) (hto : toId ∉ visited) :
    (∀ path, findPathLoop t toId kinds visited queue = some path →
      IsPath t kinds fromId path toId ∧ ∀ k, Search.Hops (Link t kinds) ∅ fromId k toId → path.length - 1 ≤ k) ∧
      (findPathLoop t toId kinds visited queue = none → ∀ k, ¬ Search.Hops (Link t kinds) ∅ fromId k toId) := by
  have hmore : ∀ i j : ℕ, i ≤ j → True → True := fun _ _ _ h => h
  fun_induction findPathLoop t toId kinds visited queue generalizing dist with
  | case1 visited =>
    refine ⟨nofun, fun _ k hk => hto ?_⟩
    exact (h.mem_visited_iff hmore).mpr ⟨k, hk, fun _ _ => trivial⟩
  | case2 visited path queue =>
    refine ⟨fun path' heq => ?_, nofun⟩
    obtain rfl := Option.some.inj heq
    -- the first of the queue is found with the fewest hops
    exact ⟨hpaths _ List.mem_cons_self, fun k hk => h.le_of_within hmore hto ⟨hk, fun _ _ => trivial⟩⟩
  | case3 visited nodeId path queue hne hmem ih =>
    exact ih (h.skip hmem) (fun q hq => hpaths q (List.mem_cons_of_mem _ hq)) hto
  | case4 visited nodeId path queue hne hnew ih =>
    have hpath : IsPath t kinds fromId path nodeId := hpaths _ List.mem_cons_self
    have hvisit : Search.Frontier (Link t kinds) (fun _ => True) fromId
        (Function.update dist nodeId (path.length - 1)) (nodeId :: visited)
        (depths (queue ++ findPathPush t kinds (nodeId :: visited) nodeId path)) := by
      rw [depths_append_findPathPush hpath]
      refine h.visit hmore hnew (fun w hw => ⟨trivial, ?_⟩) fun _ w hw => exists_findPathPush hw
      obtain ⟨q, hq, rfl⟩ := List.mem_map.mp hw
      obtain ⟨e, he, n, hn, rfl⟩ := mem_findPathPush hq
      exact ⟨e, he, rfl, by rw [hn, Option.isSome_some]⟩
    refine ih hvisit (fun q hq => ?_) (List.not_mem_cons_of_ne_of_not_mem (Ne.symm hne) hto)
    cases List.mem_append.mp hq with
    | inl hold => exact hpaths q (List.mem_cons_of_mem _ hold)
    | inr hlast =>
      obtain ⟨e, he, n, hn, rfl⟩ := mem_findPathPush hlast
      exact .step hpath he hn

theorem IsPath.isSome_from (h : IsPath t kinds fromId path v) : (t.getNodeById fromId).isSome := by
  induction h with
  | start hn => rw [hn, Option.isSome_some]
  | step _ _ _ ih => exact ih

theorem IsPath.isSome_to (h : IsPath t kinds fromId path v) : (t.getNodeById v).isSome := by
  cases h with
  | start hn => rw [hn, Option.isSome_some]
  | step _ _ hn => rw [hn, Option.isSome_some]

/-- **The shortest path.** What is found is a path with the fewest edges, and nothing is found only where no path leads
from one symbol to the other. -/
theorem findPath_shortest (t : Tables) (fromId toId : String) (kinds : List String) :
    (∀ path, findPath t fromId toId kinds = some path →
      IsPath t kinds fromId path toId ∧ ∀ path', IsPath t kinds fromId path' toId → path.length ≤ path'.length) ∧
      (findPath t fromId toId kinds = none → ∀ path, ¬ IsPath t kinds fromId path toId) := by
  rw [findPath]
  split
  · next fromNode toNode hfrom hto =>
    have hstart : ∀ q ∈ [(fromId, [(⟨fromNode, none⟩ : PathStep)])], IsPath t kinds fromId q.2 q.1 := by
      intro q hq
      rw [List.mem_singleton.mp hq]
      exact .start hfrom
    obtain ⟨hsome, hnone⟩ := findPathLoop_spec (Search.Frontier.init fun _ => 0) hstart (List.not_mem_nil (a := toId))
    refine ⟨fun path hpath => ?_, fun h path hpath => hnone h _ hpath.hops⟩
    obtain ⟨hpath, hleast⟩ := hsome path hpath
    refine ⟨hpath, fun path' hpath' => ?_⟩
    have hle := hleast _ hpath'.hops
    have hpos := hpath'.length_pos
    omega
  · next hmissing =>
    refine ⟨nofun, fun _ path hpath => ?_⟩
    obtain ⟨fromNode, hfrom⟩ := Option.isSome_iff_exists.mp hpath.isSome_from
    obtain ⟨toNode, hto⟩ := Option.isSome_iff_exists.mp hpath.isSome_to
    exact hmissing fromNode toNode hfrom hto

end FindPath

/-! ### Breadth-first traversal -/

inductive Direction where
  | outgoing
  | incoming
  | both
  deriving DecidableEq, Repr

structure TraversalOptions where
  /-- `none` is `Infinity`. -/
  maxDepth : Option ℕ := none
  /-- No kinds means any kind, of edges and of nodes. -/
  edgeKinds : List String := []
  nodeKinds : List String := []
  direction : Direction := .outgoing
  limit : ℕ := 1000
  includeStart : Bool := true

structure TraversalStep where
  node : Node
  edge : Option Edge
  depth : ℕ

structure Subgraph where
  /-- The map of the nodes, in the order of their insertion. -/
  nodes : List Node := []
  edges : List Edge := []
  roots : List String := []

/-- `set` of a map keeps the place of a key that is there. -/
def mapSet (nodes : List Node) (n : Node) : List Node :=
  if n.id ∈ nodes.map (·.id) then nodes.map fun m => if m.id = n.id then n else m else nodes ++ [n]

namespace Subgraph

def addEdge (g : Subgraph) (e : Option Edge) : Subgraph := { g with edges := g.edges ++ e.toList }

def setNodes (g : Subgraph) (ns : List Node) : Subgraph := { g with nodes := ns.foldl mapSet g.nodes }

end Subgraph

def getAdjacentEdges (t : Tables) (nodeId : String) (direction : Direction) (kinds : List String) : List Edge :=
  match direction with
  | .outgoing => t.getOutgoingEdges nodeId kinds
  | .incoming => t.getIncomingEdges nodeId kinds
  | .both => t.getOutgoingEdges nodeId kinds ++ t.getIncomingEdges nodeId kinds

/-- Structural edges come first. -/
def Edge.priority (e : Edge) : ℕ := if e.kind = "contains" then 0 else if e.kind = "calls" then 1 else 2

/-- The other end of an edge. -/
def Edge.across (e : Edge) (nodeId : String) : String := if e.source = nodeId then e.target else e.source

namespace TraversalOptions

variable (opts : TraversalOptions)

/-- A symbol at the depth is looked beyond. -/
def more (depth : ℕ) : Bool := opts.maxDepth.all (depth < ·)

def Admits (n : Node) : Prop := opts.nodeKinds = [] ∨ n.kind ∈ opts.nodeKinds

instance (n : Node) : Decidable (opts.Admits n) := inferInstanceAs (Decidable (_ ∨ _))

/-- The steps to the neighbours of a symbol that are not visited. -/
def push (t : Tables) (visited : List String) (nodeId : String) (depth : ℕ) : List TraversalStep :=
  let adjacentEdges :=
    (getAdjacentEdges t nodeId opts.direction opts.edgeKinds).insertionSort fun a b => a.priority ≤ b.priority
  let neighborNodes := t.getNodesByIds ((adjacentEdges.map (·.across nodeId)).filter (· ∉ visited))
  adjacentEdges.filterMap fun e =>
    if e.across nodeId ∈ visited then none
    else ((neighborNodes (e.across nodeId)).filter (decide <| opts.Admits ·)).map fun n => ⟨n, some e, depth + 1⟩

theorem length_push_le (t : Tables) (visited : List String) (nodeId : String) (depth : ℕ) :
    (opts.push t visited nodeId depth).length ≤
      (t.getOutgoingEdges nodeId opts.edgeKinds).length + (t.getIncomingEdges nodeId opts.edgeKinds).length := by
  refine (List.length_filterMap_le _ _).trans ?_
  rw [List.length_insertionSort]
  cases opts.direction with
  | outgoing => exact Nat.le_add_right _ _
  | incoming => exact Nat.le_add_left _ _
  | both => exact List.length_append.le

/-- The loop of `traverseBFS`. -/
def bfsLoop (t : Tables) (visited : List String) (queue : List TraversalStep) (found : Subgraph) : Subgraph :=
  match queue with
  | [] => found
  | step :: queue =>
    if opts.limit ≤ found.nodes.length then found
    else if _h : step.node.id ∈ visited then bfsLoop t visited queue found
    else if opts.more step.depth then
      bfsLoop t (step.node.id :: visited)
        (queue ++ opts.push t (step.node.id :: visited) step.node.id step.depth)
        ((found.addEdge step.edge).setNodes
          ((opts.push t (step.node.id :: visited) step.node.id step.depth).map (·.node)))
    else bfsLoop t (step.node.id :: visited) queue (found.addEdge step.edge)
  termination_by (t.openSources visited).length + (t.openTargets visited).length + queue.length
  decreasing_by
    · simp only [List.length_cons]
      omega
    · have hsources := length_openSources_cons (t := t) _h opts.edgeKinds
      have htargets := length_openTargets_cons (t := t) _h opts.edgeKinds
      have hpush := opts.length_push_le t (step.node.id :: visited) step.node.id step.depth
      simp only [List.length_append, List.length_cons]
      omega
    · have hsources := length_openSources_cons (t := t) _h opts.edgeKinds
      have htargets := length_openTargets_cons (t := t) _h opts.edgeKinds
      simp only [List.length_cons]
      omega

end TraversalOptions

def traverseBFS (t : Tables) (startId : String) (opts : TraversalOptions) : Subgraph :=
  match t.getNodeById startId with
  | none => {}
  | some startNode =>
    { opts.bfsLoop t [] [⟨startNode, none, 0⟩] { nodes := if opts.includeStart then [startNode] else [] } with
      roots := [startId] }

/-! #### The map of the nodes -/

theorem id_of_getNodeById {id : String} {n : Node} (h : t.getNodeById id = some n) : n.id = id := by
  obtain ⟨r, hr, rfl⟩ := Option.map_eq_some_iff.mp h
  exact Tables.id_of_row? hr

/-- The nodes of a map that come from the tables. -/
def Genuine (t : Tables) (ns : List Node) : Prop := ∀ n ∈ ns, t.getNodeById n.id = some n

/-- A node that is there is set to what it was. -/
theorem Genuine.mapSet_of_mem {ns : List Node} (h : Genuine t ns) {m : Node} (hm : t.getNodeById m.id = some m)
    (hmem : m.id ∈ ns.map (·.id)) : mapSet ns m = ns := by
  rw [mapSet, if_pos hmem]
  refine (List.map_congr_left fun n hn => ?_).trans (List.map_id ns)
  split
  · next hid => exact Option.some.inj (hm.symm.trans (hid ▸ h n hn))
  · rfl

theorem Genuine.mem_mapSet {ns : List Node} (h : Genuine t ns) {m n : Node} (hm : t.getNodeById m.id = some m) :
    n ∈ mapSet ns m ↔ n ∈ ns ∨ n = m := by
  by_cases hmem : m.id ∈ ns.map (·.id)
  · rw [h.mapSet_of_mem hm hmem]
    refine (or_iff_left_of_imp fun heq => ?_).symm
    obtain ⟨a, ha, hid⟩ := List.mem_map.mp hmem
    have hsame : a = m := Option.some.inj ((h a ha).symm.trans (hid ▸ hm))
    exact heq ▸ hsame ▸ ha
  · rw [mapSet, if_neg hmem, List.mem_append, List.mem_singleton]

theorem Genuine.foldl_mapSet {ns ms : List Node} (h : Genuine t ns) (hms : Genuine t ms) :
    Genuine t (ms.foldl mapSet ns) ∧ ∀ n, n ∈ ms.foldl mapSet ns ↔ n ∈ ns ∨ n ∈ ms := by
  induction ms generalizing ns with
  | nil => exact ⟨h, fun n => by simp⟩
  | cons m ms ih =>
    obtain ⟨hm, hms⟩ := List.forall_mem_cons.mp hms
    have hset : Genuine t (mapSet ns m) := fun n hn => by
      cases (h.mem_mapSet hm).mp hn with
      | inl hold => exact h n hold
      | inr heq => exact heq ▸ hm
    obtain ⟨hgenuine, hmem⟩ := ih hset hms
    refine ⟨hgenuine, fun n => ?_⟩
    rw [List.foldl_cons, hmem, h.mem_mapSet hm, List.mem_cons, or_assoc]

theorem nodup_foldl_mapSet {ns : List Node} (h : (ns.map (·.id)).Nodup) (ms : List Node) :
    ((ms.foldl mapSet ns).map (·.id)).Nodup := by
  induction ms generalizing ns with
  | nil => exact h
  | cons m ms ih =>
    refine ih ?_
    rw [mapSet]
    split
    · -- the ids stay as they are
      have hids : (ns.map fun n => if n.id = m.id then m else n).map (·.id) = ns.map (·.id) := by
        rw [List.map_map]
        refine List.map_congr_left fun n _ => ?_
        rw [Function.comp_apply]
        split
        · next hid => exact hid.symm
        · rfl
      rwa [hids]
    · next hnew =>
      rw [List.map_append, List.map_singleton]
      exact List.nodup_append'.mpr ⟨h, List.nodup_singleton _, fun id hid hm => hnew (List.mem_singleton.mp hm ▸ hid)⟩

/-! #### The symbols within the depth -/

namespace TraversalOptions

variable {opts : TraversalOptions} {e : Edge} {u w : String}

variable (opts) in
/-- An edge that a traversal follows from one symbol to another. -/
def Joins (t : Tables) (e : Edge) (u w : String) : Prop :=
  e ∈ getAdjacentEdges t u opts.direction opts.edgeKinds ∧ e.across u = w ∧
    ∃ n, t.getNodeById w = some n ∧ opts.Admits n

variable (opts) in
def Beside (t : Tables) (u w : String) : Prop := ∃ e, opts.Joins t e u w

theorem more_of_le (i j : ℕ) (hij : i ≤ j) (hj : opts.more j) : opts.more i := by
  rw [more] at hj ⊢
  cases h : opts.maxDepth with
  | none => rfl
  | some m =>
    rw [h, Option.all_some, decide_eq_true_eq] at hj
    rw [Option.all_some, decide_eq_true_eq]
    omega

theorem mem_push {depth : ℕ} {s : TraversalStep} (hs : s ∈ opts.push t visited v depth) :
    s.depth = depth + 1 ∧ t.getNodeById s.node.id = some s.node ∧ s.node.id ∉ visited ∧
      ∃ e, s.edge = some e ∧ opts.Joins t e v s.node.id := by
  obtain ⟨e, he, hsome⟩ := List.mem_filterMap.mp hs
  have he : e ∈ getAdjacentEdges t v opts.direction opts.edgeKinds := (List.perm_insertionSort _ _).mem_iff.mp he
  split at hsome
  · exact absurd hsome nofun
  · next hnew =>
    obtain ⟨n, hn, rfl⟩ := Option.map_eq_some_iff.mp hsome
    obtain ⟨hn, hadmits⟩ := Option.filter_eq_some_iff.mp hn
    have hnode := (Option.ite_none_right_eq_some.mp hn).2
    obtain hid := id_of_getNodeById hnode
    rw [← hid] at hnode hnew
    exact ⟨rfl, hnode, hnew, e, rfl, he, hid.symm, n, hnode, of_decide_eq_true hadmits⟩

theorem exists_push (h : opts.Beside t v w) (depth : ℕ) :
    w ∈ visited ∨ ∃ s ∈ opts.push t visited v depth, s.node.id = w := by
  obtain ⟨e, he, rfl, n, hn, hadmits⟩ := h
  by_cases hw : e.across v ∈ visited
  · exact .inl hw
  · have hsorted : e ∈ (getAdjacentEdges t v opts.direction opts.edgeKinds).insertionSort
        fun a b => a.priority ≤ b.priority := (List.perm_insertionSort _ _).mem_iff.mpr he
    refine .inr ⟨⟨n, some e, depth + 1⟩, List.mem_filterMap.mpr ⟨e, hsorted, ?_⟩, id_of_getNodeById hn⟩
    have hmem : e.across v ∈ (((getAdjacentEdges t v opts.direction opts.edgeKinds).insertionSort
        fun a b => a.priority ≤ b.priority).map (·.across v)).filter (· ∉ visited) :=
      List.mem_filter.mpr ⟨List.mem_map_of_mem hsorted, by simpa using hw⟩
    rw [if_neg hw, Tables.getNodesByIds, if_pos hmem, hn, Option.filter_some, if_pos (decide_eq_true hadmits)]
    rfl

/-- The entries of the queue with their depths. -/
def entries (queue : List TraversalStep) : List (String × ℕ) := queue.map fun s => (s.node.id, s.depth)

/-- The first step of a traversal. -/
def startStep (start : Node) : TraversalStep := ⟨start, none, 0⟩

variable (opts) in
/-- **What a traversal keeps.** Each edge of the result is followed from one symbol to one that is a hop farther, and
there is one for each symbol but the start; the nodes are those visited and those in the queue. -/
structure Walked (t : Tables) (start : Node) (dist : String → ℕ) (visited : List String) (queue : List TraversalStep)
    (found : Subgraph) : Prop where
  frontier : Search.Frontier (opts.Beside t) (opts.more · = true) start.id dist visited (entries queue)
  begun : start.id ∈ visited ∨ visited = [] ∧ queue = [startStep start]
  queued : ∀ s ∈ queue, t.getNodeById s.node.id = some s.node
  led : ∀ s ∈ queue, s = startStep start ∨ s.node.id ≠ start.id ∧
    ∃ e u, s.edge = some e ∧ u ∈ visited ∧ dist u + 1 = s.depth ∧ opts.Joins t e u s.node.id
  followed : ∀ e ∈ found.edges, ∃ u ∈ visited, ∃ w ∈ visited, dist u + 1 = dist w ∧ opts.Joins t e u w
  count : found.edges.length = visited.length - 1
  nodup : visited.Nodup
  genuine : Genuine t found.nodes
  nodup_ids : (found.nodes.map (·.id)).Nodup
  mem_nodes : ∀ n, n ∈ found.nodes ↔ t.getNodeById n.id = some n ∧ (n.id = start.id ∧ opts.includeStart ∨
    n.id ≠ start.id ∧ (n.id ∈ visited ∨ ∃ s ∈ queue, s.node.id = n.id))

namespace Walked

variable {start : Node} {dist : String → ℕ} {queue : List TraversalStep} {found : Subgraph} {s : TraversalStep}

theorem init (hstart : t.getNodeById start.id = some start) :
    opts.Walked t start (fun _ => 0) [] [startStep start] { nodes := if opts.includeStart then [start] else [] } where
  frontier := Search.Frontier.init _
  begun := .inr ⟨rfl, rfl⟩
  queued := by
    intro s hs
    rw [List.mem_singleton.mp hs]
    exact hstart
  led := fun s hs => .inl (List.mem_singleton.mp hs)
  followed := fun _ he => absurd he List.not_mem_nil
  count := rfl
  nodup := List.nodup_nil
  genuine := by
    intro n hn
    split at hn
    · rw [List.mem_singleton.mp hn]
      exact hstart
    · exact absurd hn List.not_mem_nil
  nodup_ids := by
    split
    · exact List.nodup_singleton _
    · exact List.nodup_nil
  mem_nodes := by
    intro n
    have hqueue : ¬ (n.id ≠ start.id ∧ (n.id ∈ ([] : List String) ∨ ∃ s ∈ [startStep start], s.node.id = n.id)) := by
      rintro ⟨hne, hmem | ⟨s, hs, hid⟩⟩
      · exact absurd hmem List.not_mem_nil
      · rw [List.mem_singleton.mp hs] at hid
        exact hne hid.symm
    rw [or_iff_left hqueue]
    constructor
    · intro hn
      split at hn
      · next hinclude =>
        rw [List.mem_singleton.mp hn]
        exact ⟨hstart, rfl, hinclude⟩
      · exact absurd hn List.not_mem_nil
    · rintro ⟨hn, hid, hinclude⟩
      rw [hid] at hn
      rw [if_pos hinclude, List.mem_singleton]
      exact Option.some.inj (hn.symm.trans hstart)

/-- A step to a visited symbol is passed over. -/
theorem skip (h : opts.Walked t start dist visited (s :: queue) found) (hs : s.node.id ∈ visited) :
    opts.Walked t start dist visited queue found where
  frontier := h.frontier.skip hs
  begun := .inl (h.begun.elim id fun hnil => absurd hs (hnil.1 ▸ List.not_mem_nil))
  queued := fun s' hs' => h.queued s' (List.mem_cons_of_mem s hs')
  led := fun s' hs' => h.led s' (List.mem_cons_of_mem s hs')
  followed := h.followed
  count := h.count
  nodup := h.nodup
  genuine := h.genuine
  nodup_ids := h.nodup_ids
  mem_nodes := by
    intro n
    rw [h.mem_nodes n]
    refine and_congr_right fun _ => or_congr_right (and_congr_right fun _ => ?_)
    constructor
    · rintro (hmem | ⟨s', hs', hid⟩)
      · exact .inl hmem
      · cases List.mem_cons.mp hs' with
        | inl heq => exact .inl (hid ▸ heq ▸ hs)
        | inr hrest => exact .inr ⟨s', hrest, hid⟩
    · exact Or.imp_right fun ⟨s', hs', hid⟩ => ⟨s', List.mem_cons_of_mem s hs', hid⟩

/-- A symbol is visited, and the steps to its neighbours are put in the queue. -/
theorem visit (h : opts.Walked t start dist visited (s :: queue) found) (hs : s.node.id ∉ visited)
    {new : List TraversalStep}
    (hnew : ∀ s' ∈ new, opts.more s.depth ∧ s'.depth = s.depth + 1 ∧ t.getNodeById s'.node.id = some s'.node ∧
      s'.node.id ∉ s.node.id :: visited ∧ ∃ e, s'.edge = some e ∧ opts.Joins t e s.node.id s'.node.id)
    (hall : opts.more s.depth → ∀ w, opts.Beside t s.node.id w →
      w ∈ s.node.id :: visited ∨ ∃ s' ∈ new, s'.node.id = w) :
    opts.Walked t start (Function.update dist s.node.id s.depth) (s.node.id :: visited) (queue ++ new)
      ((found.addEdge s.edge).setNodes (new.map (·.node))) := by
  have hself : Function.update dist s.node.id s.depth s.node.id = s.depth := Function.update_self _ _ _
  have hother : ∀ x ∈ visited, Function.update dist s.node.id s.depth x = dist x := fun x hx =>
    Function.update_of_ne (ne_of_mem_of_not_mem hx hs) _ _
  have hstart : start.id ∈ s.node.id :: visited := by
    obtain hmem | ⟨-, hqueue⟩ := h.begun
    · exact List.mem_cons_of_mem _ hmem
    · rw [(List.cons.inj hqueue).1]
      exact List.mem_cons_self
  have hgenuine : Genuine t (new.map (·.node)) := by
    intro n hn
    obtain ⟨s', hs', rfl⟩ := List.mem_map.mp hn
    exact (hnew s' hs').2.2.1
  obtain ⟨hnodes, hmem⟩ := h.genuine.foldl_mapSet hgenuine
  refine
    { frontier := ?_, begun := .inl hstart, queued := ?_, led := ?_, followed := ?_, count := ?_,
      nodup := List.nodup_cons.mpr ⟨hs, h.nodup⟩, genuine := hnodes,
      nodup_ids := nodup_foldl_mapSet h.nodup_ids _, mem_nodes := ?_ }
  · have hentries : entries (queue ++ new) = entries queue ++ (new.map (·.node.id)).map (·, s.depth + 1) := by
      rw [entries, entries, List.map_append, List.map_map]
      refine congrArg _ (List.map_congr_left fun s' hs' => ?_)
      rw [(hnew s' hs').2.1]
      rfl
    rw [hentries]
    refine h.frontier.visit more_of_le hs (fun w hw => ?_) fun hmore w hw => ?_
    · obtain ⟨s', hs', rfl⟩ := List.mem_map.mp hw
      obtain ⟨hmore, -, -, -, e, -, hjoins⟩ := hnew s' hs'
      exact ⟨hmore, e, hjoins⟩
    · exact (hall hmore w hw).imp_right fun ⟨s', hs', hid⟩ => List.mem_map.mpr ⟨s', hs', hid⟩
  · intro s' hs'
    cases List.mem_append.mp hs' with
    | inl hold => exact h.queued s' (List.mem_cons_of_mem s hold)
    | inr hlast => exact (hnew s' hlast).2.2.1
  · intro s' hs'
    cases List.mem_append.mp hs' with
    | inl hold =>
      refine (h.led s' (List.mem_cons_of_mem s hold)).imp_right fun ⟨hne, e, u, he, hu, hdist, hjoins⟩ => ?_
      exact ⟨hne, e, u, he, List.mem_cons_of_mem _ hu, by rwa [hother u hu], hjoins⟩
    | inr hlast =>
      obtain ⟨-, hdepth, -, hfresh, e, he, hjoins⟩ := hnew s' hlast
      refine .inr ⟨fun hid => hfresh (hid ▸ hstart), e, s.node.id, he, List.mem_cons_self, ?_, hjoins⟩
      rw [hself, hdepth]
  · intro e he
    cases List.mem_append.mp he with
    | inl hold =>
      obtain ⟨u, hu, w, hw, hdist, hjoins⟩ := h.followed e hold
      refine ⟨u, List.mem_cons_of_mem _ hu, w, List.mem_cons_of_mem _ hw, ?_, hjoins⟩
      rwa [hother u hu, hother w hw]
    | inr hlast =>
      -- the edge that led to the visited symbol
      have hedge : s.edge = some e := Option.mem_toList.mp hlast
      obtain heq | ⟨-, e', u, he', hu, hdist, hjoins⟩ := h.led s List.mem_cons_self
      · rw [heq] at hedge
        exact absurd hedge nofun
      · obtain rfl := Option.some.inj (he'.symm.trans hedge)
        refine ⟨u, List.mem_cons_of_mem _ hu, s.node.id, List.mem_cons_self, ?_, hjoins⟩
        rw [hother u hu, hself, hdist]
  · show (found.edges ++ s.edge.toList).length = (s.node.id :: visited).length - 1
    rw [List.length_append, h.count, List.length_cons]
    obtain heq | ⟨-, e, u, he, hu, -, -⟩ := h.led s List.mem_cons_self
    · have hnil : visited = [] := by
        obtain hmem | ⟨hnil, -⟩ := h.begun
        · rw [heq] at hs
          exact absurd hmem hs
        · exact hnil
      rw [heq, hnil]
      rfl
    · have hpos := List.length_pos_of_mem hu
      rw [he, Option.toList_some, List.length_singleton]
      omega
  · intro n
    show n ∈ (new.map (·.node)).foldl mapSet found.nodes ↔ _
    rw [hmem n, h.mem_nodes n]
    constructor
    · rintro (⟨hn, hcase⟩ | hlast)
      · refine ⟨hn, hcase.imp_right fun ⟨hne, hplace⟩ => ⟨hne, ?_⟩⟩
        obtain hvisited | ⟨s', hs', hid⟩ := hplace
        · exact .inl (List.mem_cons_of_mem _ hvisited)
        · cases List.mem_cons.mp hs' with
          | inl heq => exact .inl (hid ▸ heq ▸ List.mem_cons_self)
          | inr hrest => exact .inr ⟨s', List.mem_append_left _ hrest, hid⟩
      · obtain ⟨s', hs', rfl⟩ := List.mem_map.mp hlast
        obtain ⟨-, -, hn, hfresh, -⟩ := hnew s' hs'
        exact ⟨hn, .inr ⟨fun hid => hfresh (hid ▸ hstart), .inr ⟨s', List.mem_append_right _ hs', rfl⟩⟩⟩
    · rintro ⟨hn, hcase⟩
      obtain hroot | ⟨hne, hvisited | ⟨s', hs', hid⟩⟩ := hcase
      · exact .inl ⟨hn, .inl hroot⟩
      · refine .inl ⟨hn, .inr ⟨hne, ?_⟩⟩
        cases List.mem_cons.mp hvisited with
        | inl heq => exact .inr ⟨s, List.mem_cons_self, heq.symm⟩
        | inr hold => exact .inl hold
      · cases List.mem_append.mp hs' with
        | inl hold => exact .inl ⟨hn, .inr ⟨hne, .inr ⟨s', List.mem_cons_of_mem s hold, hid⟩⟩⟩
        | inr hlast =>
          refine .inr (List.mem_map.mpr ⟨s', hlast, ?_⟩)
          have hnode := (hnew s' hlast).2.2.1
          rw [hid, hn] at hnode
          exact (Option.some.inj hnode).symm

/-- The loop ends with an empty queue, or where the limit is reached. -/
theorem exists_bfsLoop (h : opts.Walked t start dist visited queue found) :
    ∃ dist' visited' queue', opts.Walked t start dist' visited' queue' (opts.bfsLoop t visited queue found) ∧
      (queue' = [] ∨ opts.limit ≤ (opts.bfsLoop t visited queue found).nodes.length) := by
  fun_induction bfsLoop opts t visited queue found generalizing dist with
  | case1 visited found => exact ⟨dist, visited, [], h, .inl rfl⟩
  | case2 visited found step queue hlimit => exact ⟨dist, visited, step :: queue, h, .inr hlimit⟩
  | case3 visited found step queue hlimit hmem ih => exact ih (h.skip hmem)
  | case4 visited found step queue hlimit hnew hmore ih =>
    refine ih (h.visit hnew (fun s' hs' => ?_) fun _ w hw => exists_push hw step.depth)
    obtain ⟨hdepth, hnode, hfresh, hedge⟩ := mem_push hs'
    exact ⟨hmore, hdepth, hnode, hfresh, hedge⟩
  | case5 visited found step queue hlimit hnew hmore ih =>
    have hvisit := h.visit hnew (fun s' (hs' : s' ∈ ([] : List TraversalStep)) => absurd hs' List.not_mem_nil)
      fun hmore' => absurd hmore' hmore
    rw [List.append_nil] at hvisit
    exact ih hvisit

theorem within (h : opts.Walked t start dist visited queue found) {n : Node} (hn : n ∈ found.nodes) :
    ∃ k, Search.Within (opts.Beside t) (opts.more · = true) start.id k n.id := by
  obtain ⟨-, ⟨hid, -⟩ | ⟨-, hvisited | ⟨s, hs, hid⟩⟩⟩ := (h.mem_nodes n).mp hn
  · exact ⟨0, hid ▸ .start⟩
  · exact ⟨dist n.id, h.frontier.within_visited _ hvisited⟩
  · exact ⟨s.depth, hid ▸ h.frontier.within_queue (s.node.id, s.depth) (List.mem_map_of_mem hs)⟩

/-- Once the queue is empty, all that is within the depth is found. -/
theorem mem_nodes_iff (h : opts.Walked t start dist visited [] found) (n : Node) :
    n ∈ found.nodes ↔ t.getNodeById n.id = some n ∧ (n.id = start.id ∧ opts.includeStart ∨
      n.id ≠ start.id ∧ ∃ k, Search.Within (opts.Beside t) (opts.more · = true) start.id k n.id) := by
  rw [h.mem_nodes n, ← h.frontier.mem_visited_iff more_of_le]
  simp

/-- And there is an edge for each of the nodes but the start. -/
theorem length_edges (h : opts.Walked t start dist visited [] found) :
    found.edges.length = (found.nodes.filter (·.id ≠ start.id)).length := by
  have hstart : start.id ∈ visited := h.begun.elim id fun hnil => absurd hnil.2 nofun
  have hperm : ((found.nodes.filter (·.id ≠ start.id)).map (·.id)).Perm (visited.erase start.id) := by
    refine (List.perm_ext_iff_of_nodup (h.nodup_ids.sublist (List.filter_sublist.map _)) (h.nodup.erase _)).mpr ?_
    intro id
    rw [h.nodup.mem_erase_iff, List.mem_map]
    constructor
    · rintro ⟨n, hn, rfl⟩
      obtain ⟨hmem, hne⟩ := List.mem_filter.mp hn
      have hne : n.id ≠ start.id := of_decide_eq_true hne
      obtain ⟨-, ⟨hid, -⟩ | ⟨-, hvisited | ⟨s, hs, -⟩⟩⟩ := (h.mem_nodes n).mp hmem
      · exact absurd hid hne
      · exact ⟨hne, hvisited⟩
      · exact absurd hs List.not_mem_nil
    · rintro ⟨hne, hvisited⟩
      -- what is visited and is not the start was reached by an edge to a node
      obtain ⟨n, hn⟩ : ∃ n, t.getNodeById id = some n := by
        have hwithin := (h.frontier.within_visited id hvisited).1
        generalize dist id = k at hwithin
        cases hwithin with
        | start => exact absurd rfl hne
        | next _ hlink _ =>
          obtain ⟨e, -, -, n, hn, -⟩ := hlink
          exact ⟨n, hn⟩
      obtain rfl := id_of_getNodeById hn
      exact ⟨n, List.mem_filter.mpr ⟨(h.mem_nodes n).mpr ⟨hn, .inr ⟨hne, .inl hvisited⟩⟩, decide_eq_true hne⟩, rfl⟩
  have hlength := hperm.length_eq
  rw [List.length_map, List.length_erase_of_mem hstart] at hlength
  rw [h.count, hlength]

end Walked

end TraversalOptions

open TraversalOptions in
/-- **The ball around the start.** What a traversal returns is within its depth, and each edge leads one hop away from
the start. When the limit does not stop it, it returns all that is within the depth, in a tree. -/
theorem traverseBFS_ball {startId : String} {start : Node} (hstart : t.getNodeById startId = some start)
    (opts : TraversalOptions) :
    (∀ n ∈ (traverseBFS t startId opts).nodes, t.getNodeById n.id = some n ∧
      ∃ k, Search.Within (opts.Beside t) (opts.more · = true) startId k n.id) ∧
      (∀ e ∈ (traverseBFS t startId opts).edges, ∃ u w k, opts.Joins t e u w ∧
        Search.Distance (opts.Beside t) (opts.more · = true) startId k u ∧
        Search.Distance (opts.Beside t) (opts.more · = true) startId (k + 1) w) ∧
      ((traverseBFS t startId opts).nodes.map (·.id)).Nodup ∧
      ((traverseBFS t startId opts).nodes.length < opts.limit →
        (∀ n, n ∈ (traverseBFS t startId opts).nodes ↔ t.getNodeById n.id = some n ∧
          (n.id = startId ∧ opts.includeStart ∨
            n.id ≠ startId ∧ ∃ k, Search.Within (opts.Beside t) (opts.more · = true) startId k n.id)) ∧
        (traverseBFS t startId opts).edges.length =
          ((traverseBFS t startId opts).nodes.filter (·.id ≠ startId)).length) := by
  obtain rfl := id_of_getNodeById hstart
  have hinit : opts.Walked t start (fun _ => 0) [] [startStep start]
      { nodes := if opts.includeStart then [start] else [] } := .init hstart
  obtain ⟨dist, visited, queue, h, hend⟩ := hinit.exists_bfsLoop
  rw [traverseBFS, hstart]
  refine ⟨fun n hn => ⟨h.genuine n hn, h.within hn⟩, fun e he => ?_, h.nodup_ids, fun hlimit => ?_⟩
  · obtain ⟨u, hu, w, hw, hdist, hjoins⟩ := h.followed e he
    exact ⟨u, w, dist u, hjoins, h.frontier.distance hu, hdist ▸ h.frontier.distance hw⟩
  · obtain rfl | hreached := hend
    · exact ⟨h.mem_nodes_iff, h.length_edges⟩
    · exact absurd hlimit (Nat.not_lt.mpr hreached)

/-- `main` calls `helper`. -/
def mainCallsHelper : Tables :=
  (({} : Tables).insertNodes
    [⟨"main", "function", "main", "main", "a.ts", "typescript", 1, 9, 0, 1, none, none, none, none, none, none, none,
      none, none, none, 0⟩,
     ⟨"helper", "function", "helper", "helper", "b.ts", "typescript", 1, 9, 0, 1, none, none, none, none, none, none,
      none, none, none, none, 0⟩]).insertEdges [{ source := "main", target := "helper", kind := "calls" }]

open TraversalOptions in
/-- From `main`. -/
theorem traverseBFS_ball_main :
    (∀ n ∈ (traverseBFS mainCallsHelper "main" {}).nodes, mainCallsHelper.getNodeById n.id = some n ∧
      ∃ k, Search.Within (Beside {} mainCallsHelper) (more {} · = true) "main" k n.id) ∧
      ((traverseBFS mainCallsHelper "main" {}).nodes.map (·.id)).Nodup := by
  have hmain : mainCallsHelper.getNodeById "main" = some _ := rfl
  obtain ⟨hwithin, -, hnodup, -⟩ := traverseBFS_ball hmain {}
  exact ⟨hwithin, hnodup⟩

end Devrouter.Engine
