import Devrouter.Engine.Traversal
import Devrouter.Lib.DepthFirst

/-!
# Depth-first searches of the graph

Model of `getCallGraph`, `getTypeHierarchy` and `getImpactRadius` in `codegraph/src/graph/traversal.ts`, with the
recursions under them. These share the visited ids between all their branches, so that one that is cut off by its
depth may miss what it would have found on another way; what it finds is within the depth. When the depth is more than
the number of symbols, nothing is missed.

`getTypeHierarchy` looks for the ancestors and then for the descendants, with one set of visited ids. The first search
has visited the type itself, so the second one ends at once: the hierarchy is that of the ancestors
(`getTypeHierarchy_ancestors`).
-/

namespace Devrouter.Engine

open Search

variable {t : Tables}

/-- The nodes at the ends of some edges, with the edges that lead there. -/
def endNodes (t : Tables) (end_ : Edge → String) (edges : List Edge) : List (Edge × Node) :=
  edges.filterMap fun e => (t.getNodesByIds (edges.map end_) (end_ e)).map fun n => (e, n)

theorem mem_endNodes {end_ : Edge → String} {edges : List Edge} {p : Edge × Node} :
    p ∈ endNodes t end_ edges ↔ p.1 ∈ edges ∧ t.getNodeById (end_ p.1) = some p.2 := by
  rw [endNodes, List.mem_filterMap]
  constructor
  · rintro ⟨e, he, hsome⟩
    obtain ⟨n, hn, rfl⟩ := Option.map_eq_some_iff.mp hsome
    exact ⟨he, (Option.ite_none_right_eq_some.mp hn).2⟩
  · rintro ⟨he, hn⟩
    refine ⟨p.1, he, ?_⟩
    rw [Tables.getNodesByIds, if_pos (List.mem_map_of_mem he), hn]
    rfl

/-- A node as a search meets it: by its id. -/
def byId (p : Edge × Node) : (Edge × Node) × String := (p, p.2.id)

/-! ### The call graph -/

def callKinds : List String := ["calls", "references", "imports"]

def callersOf (t : Tables) (nodeId : String) : List ((Edge × Node) × String) :=
  (endNodes t (·.source) (t.getIncomingEdges nodeId callKinds)).map byId

def calleesOf (t : Tables) (nodeId : String) : List ((Edge × Node) × String) :=
  (endNodes t (·.target) (t.getOutgoingEdges nodeId callKinds)).map byId

/-- `getCallersRecursive` is the search along the callers. -/
def getCallers (t : Tables) (nodeId : String) (maxDepth : ℕ) : List (Edge × Node) :=
  (walk (callersOf t) maxDepth nodeId {}).log.map (·.label)

/-- `getCalleesRecursive` is the search along the callees. -/
def getCallees (t : Tables) (nodeId : String) (maxDepth : ℕ) : List (Edge × Node) :=
  (walk (calleesOf t) maxDepth nodeId {}).log.map (·.label)

def getCallGraph (t : Tables) (nodeId : String) (depth : ℕ) : Subgraph :=
  match t.getNodeById nodeId with
  | none => {}
  | some focalNode =>
    let found := getCallers t nodeId depth ++ getCallees t nodeId depth
    { nodes := (found.map (·.2)).foldl mapSet [focalNode], edges := found.map (·.1), roots := [nodeId] }

section CallGraph

variable {nodeId : String} {next : String → List ((Edge × Node) × String)}

/-- Steps to nodes of the tables, by their ids. -/
def Sound (t : Tables) (next : String → List ((Edge × Node) × String)) : Prop :=
  ∀ u, ∀ p ∈ next u, t.getNodeById p.2 = some p.1.2

theorem sound_map_byId (end_ : Edge → String) (edges : String → List Edge) :
    Sound t fun u => (endNodes t end_ (edges u)).map byId := by
  intro u p hp
  obtain ⟨q, hq, rfl⟩ := List.mem_map.mp hp
  have hnode := (mem_endNodes.mp hq).2
  show t.getNodeById q.2.id = some q.2
  rw [id_of_getNodeById hnode, hnode]

theorem mem_ids_of_getNodeById {id : String} {n : Node} (h : t.getNodeById id = some n) : id ∈ t.ids := by
  obtain ⟨r, hr, -⟩ := Option.map_eq_some_iff.mp h
  exact Tables.row?_isSome.mp (by rw [hr, Option.isSome_some])

theorem Sound.mem_ids (h : Sound t next) : ∀ u ∈ t.ids, ∀ p ∈ next u, p.2 ∈ t.ids :=
  fun u _ p hp => mem_ids_of_getNodeById (h u p hp)

/-- The nodes logged by a sound search are found under the ids to which it has gone. -/
theorem Sound.getNodeById_log (h : Sound t next) {n : ℕ} {q : Step String (Edge × Node)}
    (hq : q ∈ (walk next n nodeId {}).log) : t.getNodeById q.w = some q.label.2 :=
  h q.u (q.label, q.w) ((walk_within next n nodeId).1 q hq).1

/-- What a search of some depth logs, as nodes. -/
theorem Sound.mem_log (h : Sound t next) {n : ℕ} {m : Node} :
    m ∈ ((walk next n nodeId {}).log.map (·.label)).map (·.2) ↔
      t.getNodeById m.id = some m ∧ m.id ∈ (walk next n nodeId {}).log.map (·.w) := by
  constructor
  · intro hm
    obtain ⟨p, hp, rfl⟩ := List.mem_map.mp hm
    obtain ⟨q, hq, rfl⟩ := List.mem_map.mp hp
    have hnode := h.getNodeById_log hq
    have hid := id_of_getNodeById hnode
    exact ⟨hid ▸ hnode, List.mem_map.mpr ⟨q, hq, hid.symm⟩⟩
  · rintro ⟨hm, hlog⟩
    obtain ⟨q, hq, hid⟩ := List.mem_map.mp hlog
    have hnode := h.getNodeById_log hq
    rw [hid, hm] at hnode
    exact List.mem_map.mpr ⟨q.label, List.mem_map_of_mem hq, (Option.some.inj hnode).symm⟩

/-- A step to a vertex is within the depth of the search. -/
theorem exists_hops_of_mem_log {n : ℕ} {x : String} (hx : x ∈ (walk next n nodeId {}).log.map (·.w)) :
    ∃ k ≤ n, Hops (Leads next) ∅ nodeId k x := by
  obtain ⟨q, hq, rfl⟩ := List.mem_map.mp hx
  obtain ⟨hstep, k, hk, hhops⟩ := (walk_within next n nodeId).1 q hq
  exact ⟨k + 1, hk, .next hhops ⟨_, hstep, rfl⟩ (Set.notMem_empty _)⟩

theorem sound_callersOf (t : Tables) : Sound t (callersOf t) :=
  sound_map_byId (·.source) fun u => t.getIncomingEdges u callKinds

theorem sound_calleesOf (t : Tables) : Sound t (calleesOf t) :=
  sound_map_byId (·.target) fun u => t.getOutgoingEdges u callKinds

/-- With more depth than there are symbols, a sound search logs all that can be reached. -/
theorem Sound.mem_log_of_lt (h : Sound t next) (hmem : nodeId ∈ t.ids) {n : ℕ} (hn : t.nodes.length < n) {x : String} :
    x ∈ (walk next n nodeId {}).log.map (·.w) ↔ x ≠ nodeId ∧ ∃ k, Hops (Leads next) ∅ nodeId k x :=
  mem_log_walk_iff h.mem_ids hmem (by rwa [Tables.ids, List.length_map])

/-- The nodes of a call graph. -/
theorem mem_getCallGraph {focal n : Node} (hfocal : t.getNodeById nodeId = some focal) {depth : ℕ} :
    n ∈ (getCallGraph t nodeId depth).nodes ↔ t.getNodeById n.id = some n ∧ (n.id = nodeId ∨
      n.id ∈ (walk (callersOf t) depth nodeId {}).log.map (·.w) ∨
      n.id ∈ (walk (calleesOf t) depth nodeId {}).log.map (·.w)) := by
  have hid := id_of_getNodeById hfocal
  have hroot : Genuine t [focal] := by
    intro m hm
    rw [List.mem_singleton.mp hm, hid, hfocal]
  have hfound : ∀ m, m ∈ (getCallers t nodeId depth ++ getCallees t nodeId depth).map (·.2) ↔
      t.getNodeById m.id = some m ∧ (m.id ∈ (walk (callersOf t) depth nodeId {}).log.map (·.w) ∨
        m.id ∈ (walk (calleesOf t) depth nodeId {}).log.map (·.w)) := by
    intro m
    rw [List.map_append, List.mem_append, getCallers, getCallees, (sound_callersOf t).mem_log,
      (sound_calleesOf t).mem_log, and_or_left]
  have hgenuine : Genuine t ((getCallers t nodeId depth ++ getCallees t nodeId depth).map (·.2)) :=
    fun m hm => ((hfound m).mp hm).1
  rw [getCallGraph, hfocal]
  show n ∈ ((getCallers t nodeId depth ++ getCallees t nodeId depth).map (·.2)).foldl mapSet [focal] ↔ _
  rw [(hroot.foldl_mapSet hgenuine).2, hfound, List.mem_singleton]
  constructor
  · rintro (rfl | ⟨hn, hlog⟩)
    · exact ⟨hid ▸ hfocal, .inl hid⟩
    · exact ⟨hn, .inr hlog⟩
  · rintro ⟨hn, hself | hlog⟩
    · rw [hself, hfocal] at hn
      exact .inl (Option.some.inj hn).symm
    · exact .inr ⟨hn, hlog⟩

/-- **The call graph** holds the symbol, and callers and callees within the depth. With more depth than there are
symbols it holds all of them. -/
theorem getCallGraph_spec {focal : Node} (hfocal : t.getNodeById nodeId = some focal) (depth : ℕ) :
    ((getCallGraph t nodeId depth).nodes.map (·.id)).Nodup ∧
      (∀ n ∈ (getCallGraph t nodeId depth).nodes, t.getNodeById n.id = some n ∧
        ∃ k ≤ depth, Hops (Leads (callersOf t)) ∅ nodeId k n.id ∨ Hops (Leads (calleesOf t)) ∅ nodeId k n.id) ∧
      (t.nodes.length < depth → ∀ n, n ∈ (getCallGraph t nodeId depth).nodes ↔ t.getNodeById n.id = some n ∧
        ∃ k, Hops (Leads (callersOf t)) ∅ nodeId k n.id ∨ Hops (Leads (calleesOf t)) ∅ nodeId k n.id) := by
  refine ⟨?_, fun n hn => ?_, fun hdepth n => ?_⟩
  · rw [getCallGraph, hfocal]
    have hroot : ([focal].map (·.id)).Nodup := List.nodup_singleton _
    exact nodup_foldl_mapSet hroot _
  · obtain ⟨hnode, hself | hcaller | hcallee⟩ := (mem_getCallGraph hfocal).mp hn
    · exact ⟨hnode, 0, Nat.zero_le _, .inl (hself ▸ .start)⟩
    · obtain ⟨k, hk, hhops⟩ := exists_hops_of_mem_log hcaller
      exact ⟨hnode, k, hk, .inl hhops⟩
    · obtain ⟨k, hk, hhops⟩ := exists_hops_of_mem_log hcallee
      exact ⟨hnode, k, hk, .inr hhops⟩
  · have hmem := mem_ids_of_getNodeById hfocal
    rw [mem_getCallGraph hfocal, (sound_callersOf t).mem_log_of_lt hmem hdepth,
      (sound_calleesOf t).mem_log_of_lt hmem hdepth]
    refine and_congr_right fun _ => ?_
    constructor
    · rintro (hself | ⟨-, k, hk⟩ | ⟨-, k, hk⟩)
      · exact ⟨0, .inl (hself ▸ .start)⟩
      · exact ⟨k, .inl hk⟩
      · exact ⟨k, .inr hk⟩
    · rintro ⟨k, hk⟩
      by_cases hself : n.id = nodeId
      · exact .inl hself
      · exact .inr (hk.imp (fun h => ⟨hself, k, h⟩) fun h => ⟨hself, k, h⟩)

/-- `main`, and what it calls. -/
theorem getCallGraph_spec_main :
    ((getCallGraph mainCallsHelper "main" 3).nodes.map (·.id)).Nodup ∧
      ∀ n, n ∈ (getCallGraph mainCallsHelper "main" 3).nodes ↔ mainCallsHelper.getNodeById n.id = some n ∧
        ∃ k, Hops (Leads (callersOf mainCallsHelper)) ∅ "main" k n.id ∨
          Hops (Leads (calleesOf mainCallsHelper)) ∅ "main" k n.id := by
  have hmain : mainCallsHelper.getNodeById "main" = some _ := rfl
  obtain ⟨hnodup, -, hall⟩ := getCallGraph_spec hmain 3
  exact ⟨hnodup, hall (by decide)⟩

end CallGraph

/-! ### Members and dependents -/

/-- What a search with a map of nodes has found. -/
structure Collected where
  nodes : List Node := []
  edges : List Edge := []
  visited : List String := []

namespace Collected

def add (s : Collected) (p : Edge × Node) : Collected :=
  { s with nodes := mapSet s.nodes p.2, edges := s.edges ++ [p.1] }

def goInside (go : String → Collected → Collected) (s : Collected) (p : Edge × Node) : Collected :=
  if p.2.id ∈ s.visited then s else go p.2.id (s.add p)

def goAcross (go : String → Collected → Collected) (s : Collected) (p : Edge × Node) : Collected :=
  if p.2.id ∈ s.nodes.map (·.id) then s else go p.2.id (s.add p)

end Collected

/-- The search that looks inside a symbol at the same depth, and across to other symbols one deeper. It goes inside
to what is not visited, and across to what is not found. The first number bounds the recursion, the second is the depth
that is left. -/
def collect (inside across : String → List (Edge × Node)) : ℕ → ℕ → String → Collected → Collected
  | 0, _, _, s => s
  | fuel + 1, left, nodeId, s =>
    if left = 0 ∨ nodeId ∈ s.visited then s
    else
      (across nodeId).foldl (Collected.goAcross (collect inside across fuel (left - 1)))
        ((inside nodeId).foldl (Collected.goInside (collect inside across fuel left))
          { s with visited := nodeId :: s.visited })

def typeKinds : List String := ["extends", "implements"]

def supertypesOf (t : Tables) (nodeId : String) : List (Edge × Node) :=
  endNodes t (·.target) (t.getOutgoingEdges nodeId typeKinds)

def subtypesOf (t : Tables) (nodeId : String) : List (Edge × Node) :=
  endNodes t (·.source) (t.getIncomingEdges nodeId typeKinds)

/-- The searches of types have no depth, and look inside nothing. -/
def getTypeAncestors (t : Tables) (nodeId : String) (s : Collected) : Collected :=
  collect (fun _ => []) (supertypesOf t) (t.nodes.length + 1) (t.nodes.length + 1) nodeId s

def getTypeDescendants (t : Tables) (nodeId : String) (s : Collected) : Collected :=
  collect (fun _ => []) (subtypesOf t) (t.nodes.length + 1) (t.nodes.length + 1) nodeId s

def getTypeHierarchy (t : Tables) (nodeId : String) : Subgraph :=
  match t.getNodeById nodeId with
  | none => {}
  | some focalNode =>
    let s := getTypeDescendants t nodeId (getTypeAncestors t nodeId { nodes := [focalNode] })
    { nodes := s.nodes, edges := s.edges, roots := [nodeId] }

def containerKinds : List String := ["class", "interface", "struct", "trait", "protocol", "module", "enum"]

/-- The members of a container, and of no other symbol. -/
def membersOf (t : Tables) (nodeId : String) : List (Edge × Node) :=
  if (t.getNodeById nodeId).any (·.kind ∈ containerKinds) then
    endNodes t (·.target) (t.getOutgoingEdges nodeId ["contains"])
  else []

/-- What has an edge to a symbol, other than its container. -/
def dependentsOf (t : Tables) (nodeId : String) : List (Edge × Node) :=
  endNodes t (·.source) ((t.getIncomingEdges nodeId []).filter (·.kind ≠ "contains"))

def getImpactRecursive (t : Tables) (maxDepth : ℕ) (nodeId : String) (s : Collected) : Collected :=
  collect (membersOf t) (dependentsOf t) (t.nodes.length + 1) maxDepth nodeId s

def getImpactRadius (t : Tables) (nodeId : String) (maxDepth : ℕ) : Subgraph :=
  match t.getNodeById nodeId with
  | none => {}
  | some focalNode =>
    let s := getImpactRecursive t maxDepth nodeId { nodes := [focalNode] }
    { nodes := s.nodes, edges := s.edges, roots := [nodeId] }

section Collect

variable {inside across : String → List (Edge × Node)} {focal : Node} {tr : Trail String (Edge × Node)}

/-- What a search has collected by its trail. -/
def ofTrail (focal : Node) (tr : Trail String (Edge × Node)) : Collected where
  nodes := focal :: tr.log.map (·.label.2)
  edges := tr.log.map (·.label.1)
  visited := tr.visited

/-- The nodes are those of the visited ids. -/
def Matches (focal : Node) (tr : Trail String (Edge × Node)) : Prop :=
  ∀ x, x ∈ (ofTrail focal tr).nodes.map (·.id) ↔ x ∈ tr.visited

/-- The steps of a search, inside and across. -/
def insideAcross (inside across : String → List (Edge × Node)) (u : String) : List ((Edge × Node) × String) :=
  (inside u ++ across u).map byId

theorem Matches.of_grows (h : Matches focal tr) {tr' : Trail String (Edge × Node)}
    (hgrows : Grows (insideAcross inside across) tr tr') : Matches focal tr' := by
  obtain ⟨new, hlog, hvisited, hsteps⟩ := hgrows.exists_log
  have hids : (new.map (·.label.2)).map (·.id) = new.map (·.w) := by
    rw [List.map_map]
    refine List.map_congr_left fun q hq => ?_
    obtain ⟨p, -, hp⟩ := List.mem_map.mp (hsteps q hq)
    obtain ⟨rfl, hw⟩ := Prod.mk.inj hp
    exact hw
  have hnodes : (ofTrail focal tr').nodes = (ofTrail focal tr).nodes ++ new.map (·.label.2) := by
    rw [ofTrail, hlog, List.map_append]
    rfl
  intro x
  rw [hnodes, List.map_append, List.mem_append, h x, hids, hvisited, List.mem_append, List.mem_reverse, or_comm]

/-- A node whose id is not visited is new in the map. -/
theorem Matches.add_ofTrail (h : Matches focal tr) (v : String) {p : Edge × Node} (hp : p.2.id ∉ tr.visited) :
    (ofTrail focal tr).add p = ofTrail focal { tr with log := tr.log ++ [⟨v, p, p.2.id⟩] } := by
  have hset : mapSet (ofTrail focal tr).nodes p.2 = (ofTrail focal tr).nodes ++ [p.2] :=
    if_neg fun hmem => hp ((h p.2.id).mp hmem)
  rw [Collected.add, hset]
  simp [ofTrail]

theorem Matches.add (h : Matches focal tr) (v : String) (p : Edge × Node) :
    Matches focal { visited := p.2.id :: tr.visited, log := tr.log ++ [⟨v, p, p.2.id⟩] } := by
  intro x
  have hnodes : (ofTrail focal { visited := p.2.id :: tr.visited, log := tr.log ++ [⟨v, p, p.2.id⟩] }).nodes =
      (ofTrail focal tr).nodes ++ [p.2] := by simp [ofTrail]
  rw [hnodes, List.map_append, List.mem_append, h x, List.map_singleton, List.mem_singleton, List.mem_cons, or_comm]

variable {univ : List String} (huniv : ∀ u ∈ univ, ∀ p ∈ insideAcross inside across u, p.2 ∈ univ)
include huniv

/-- A loop that follows the trail at each step follows it to the end. -/
theorem foldl_ofTrail {fuel m : ℕ} (hfuel : m < fuel) {v : String} (hv : v ∈ univ)
    {f : Collected → Edge × Node → Collected}
    {l : List (Edge × Node)} (hl : ∀ p ∈ l, byId p ∈ insideAcross inside across v)
    (hf : ∀ p ∈ l, ∀ tr, Matches focal tr → (unvisited univ tr.visited).length ≤ m →
      f (ofTrail focal tr) p = ofTrail focal (walkStep (walk (insideAcross inside across) fuel) v tr (byId p)))
    (hm : Matches focal tr) (hle : (unvisited univ tr.visited).length ≤ m) :
    l.foldl f (ofTrail focal tr) =
        ofTrail focal ((l.map byId).foldl (walkStep (walk (insideAcross inside across) fuel) v) tr) ∧
      Matches focal ((l.map byId).foldl (walkStep (walk (insideAcross inside across) fuel) v) tr) ∧
      (unvisited univ ((l.map byId).foldl (walkStep (walk (insideAcross inside across) fuel) v) tr).visited).length ≤
        m := by
  induction l generalizing tr with
  | nil => exact ⟨rfl, hm, hle⟩
  | cons p l ih =>
    obtain ⟨hp, hl⟩ := List.forall_mem_cons.mp hl
    obtain ⟨hfp, hfl⟩ := List.forall_mem_cons.mp hf
    obtain ⟨hgrows, -⟩ := grows_walkStep huniv hv hp (hle.trans_lt hfuel)
    rw [List.foldl_cons, List.map_cons, List.foldl_cons, hfp tr hm hle]
    exact ih hl hfl (hm.of_grows hgrows) ((length_unvisited_le univ hgrows.subset).trans hle)

/-- **A search that is deep enough** collects what its trail logs. -/
theorem collect_ofTrail {fuel left : ℕ} {v : String} (hv : v ∈ univ) (hnew : v ∉ tr.visited)
    (hfuel : (unvisited univ tr.visited).length < fuel) (hleft : (unvisited univ tr.visited).length < left)
    (hm : Matches focal { tr with visited := v :: tr.visited }) :
    collect inside across fuel left v (ofTrail focal tr) =
      ofTrail focal (walk (insideAcross inside across) fuel v tr) := by
  induction fuel generalizing left v tr with
  | zero => exact absurd hfuel (Nat.not_lt_zero _)
  | succ fuel ih =>
    have hless := length_unvisited_cons_lt hv hnew
    have hinside : ∀ p ∈ inside v, byId p ∈ insideAcross inside across v := fun p hp =>
      List.mem_map_of_mem (List.mem_append_left _ hp)
    have hacross : ∀ p ∈ across v, byId p ∈ insideAcross inside across v := fun p hp =>
      List.mem_map_of_mem (List.mem_append_right _ hp)
    have hguard : ¬ (left = 0 ∨ v ∈ (ofTrail focal tr).visited) := by
      rintro (hzero | hmem)
      · omega
      · exact hnew hmem
    -- both ways of going on are a step of the trail
    have hgo : ∀ (left' : ℕ) (p : Edge × Node) (tr' : Trail String (Edge × Node)),
        byId p ∈ insideAcross inside across v → Matches focal tr' → p.2.id ∉ tr'.visited →
        (unvisited univ tr'.visited).length ≤ (unvisited univ (v :: tr.visited)).length → left ≤ left' + 1 →
        collect inside across fuel left' p.2.id ((ofTrail focal tr').add p) =
          ofTrail focal (walk (insideAcross inside across) fuel p.2.id
            { tr' with log := tr'.log ++ [⟨v, p, p.2.id⟩] }) := by
      intro left' p tr' hp hm' hfresh hle hleft'
      rw [hm'.add_ofTrail v hfresh]
      refine ih (huniv v hv _ hp) hfresh ?_ ?_ (hm'.add v p)
      · show (unvisited univ tr'.visited).length < fuel
        omega
      · show (unvisited univ tr'.visited).length < left'
        omega
    have hsmall : (unvisited univ (v :: tr.visited)).length < fuel := by omega
    obtain ⟨hfirst, hm₁, hle₁⟩ := foldl_ofTrail huniv hsmall hv
      (f := Collected.goInside (collect inside across fuel left))
      hinside (fun p hp tr' hm' hle => by
        rw [Collected.goInside, walkStep]
        show (if p.2.id ∈ tr'.visited then _ else _) = ofTrail focal (if p.2.id ∈ tr'.visited then _ else _)
        split
        · rfl
        · next hfresh => exact hgo left p tr' (hinside p hp) hm' hfresh hle (Nat.le_succ left))
      hm (Nat.le_refl _)
    obtain ⟨hsecond, -, -⟩ := foldl_ofTrail huniv hsmall hv
      (f := Collected.goAcross (collect inside across fuel (left - 1)))
      hacross (fun p hp tr' hm' hle => by
        rw [Collected.goAcross, walkStep, if_congr (hm' p.2.id) rfl rfl]
        show (if p.2.id ∈ tr'.visited then _ else _) = ofTrail focal (if p.2.id ∈ tr'.visited then _ else _)
        split
        · rfl
        · next hfresh => exact hgo (left - 1) p tr' (hacross p hp) hm' hfresh hle (by omega))
      hm₁ hle₁
    rw [collect, if_neg hguard, walk, if_neg hnew]
    show List.foldl _ (List.foldl _ (ofTrail focal { tr with visited := v :: tr.visited }) _) _ = _
    rw [hfirst, hsecond, ← List.foldl_append, ← List.map_append]
    rfl

end Collect

section Reached

variable {inside across : String → List (Edge × Node)} {focal : Node} {nodeId : String}

theorem matches_start (hid : focal.id = nodeId) : Matches focal { visited := [nodeId] } := by
  intro x
  show x ∈ [focal.id] ↔ x ∈ [nodeId]
  rw [hid]

/-- What a deep search from the focal node collects: it and what can be reached, and an edge for each of these. -/
theorem collect_spec (hsound : Sound t (insideAcross inside across)) (hfocal : t.getNodeById nodeId = some focal)
    {depth : ℕ} (hdepth : t.nodes.length < depth) {s : Collected}
    (hs : s = collect inside across (t.nodes.length + 1) depth nodeId { nodes := [focal] }) :
    (s.nodes.map (·.id)).Nodup ∧
      (∀ n, n ∈ s.nodes ↔ t.getNodeById n.id = some n ∧
        ∃ k, Hops (Leads (insideAcross inside across)) ∅ nodeId k n.id) ∧
      (∀ e ∈ s.edges, ∃ u n, (∃ k, Hops (Leads (insideAcross inside across)) ∅ nodeId k u) ∧
        byId (e, n) ∈ insideAcross inside across u) ∧
      s.edges.length + 1 = s.nodes.length ∧ nodeId ∈ s.visited := by
  have hid := id_of_getNodeById hfocal
  have hmem := mem_ids_of_getNodeById hfocal
  have hlength : t.ids.length = t.nodes.length := List.length_map _
  have hleft : (unvisited t.ids ([] : List String)).length ≤ t.nodes.length :=
    (List.length_filter_le _ _).trans hlength.le
  have htrail : s = ofTrail focal (walk (insideAcross inside across) (t.nodes.length + 1) nodeId {}) := by
    rw [hs]
    have hnone : nodeId ∉ ({} : Trail String (Edge × Node)).visited := List.not_mem_nil
    refine collect_ofTrail hsound.mem_ids hmem hnone ?_ ?_ (matches_start hid)
    · exact Nat.lt_succ_of_le hleft
    · exact hleft.trans_lt hdepth
  have hdeep : t.nodes.length < t.nodes.length + 1 := Nat.lt_succ_self _
  have hdeepids : t.ids.length < t.nodes.length + 1 := by omega
  have hids : s.nodes.map (·.id) =
      nodeId :: (walk (insideAcross inside across) (t.nodes.length + 1) nodeId {}).log.map (·.w) := by
    rw [htrail]
    show focal.id :: (List.map _ _).map _ = _
    rw [hid, List.map_map]
    refine congrArg _ (List.map_congr_left fun q hq => ?_)
    exact id_of_getNodeById (hsound.getNodeById_log hq)
  have hvisited := visited_walk_eq hsound.mem_ids hmem hdeepids
  refine ⟨?_, fun n => ?_, fun e he => ?_, ?_, ?_⟩
  · rw [hids]
    refine List.nodup_cons.mpr ⟨fun hlog => ?_, nodup_log_walk hsound.mem_ids hmem hdeepids⟩
    exact ((hsound.mem_log_of_lt hmem hdeep).mp hlog).1 rfl
  · have hnodes : n ∈ s.nodes ↔ n = focal ∨ t.getNodeById n.id = some n ∧
        n.id ≠ nodeId ∧ ∃ k, Hops (Leads (insideAcross inside across)) ∅ nodeId k n.id := by
      rw [htrail, ← hsound.mem_log_of_lt hmem hdeep, ← hsound.mem_log, List.map_map]
      exact List.mem_cons
    rw [hnodes]
    constructor
    · rintro (rfl | ⟨hn, -, hreach⟩)
      · exact ⟨hid ▸ hfocal, 0, hid ▸ .start⟩
      · exact ⟨hn, hreach⟩
    · rintro ⟨hn, hreach⟩
      by_cases hself : n.id = nodeId
      · rw [hself, hfocal] at hn
        exact .inl (Option.some.inj hn).symm
      · exact .inr ⟨hn, hself, hreach⟩
  · rw [htrail] at he
    obtain ⟨q, hq, rfl⟩ := List.mem_map.mp he
    obtain ⟨hstep, k, -, hk⟩ := (walk_within _ _ _).1 q hq
    obtain ⟨p, hp, heq⟩ := List.mem_map.mp hstep
    have hlabel : p = q.label := (Prod.mk.inj heq).1
    exact ⟨q.u, q.label.2, ⟨k, hk⟩, hlabel ▸ List.mem_map_of_mem hp⟩
  · rw [htrail]
    show (List.map _ _).length + 1 = (focal :: List.map _ _).length
    rw [List.length_cons, List.length_map, List.length_map]
  · rw [htrail]
    show nodeId ∈ (walk (insideAcross inside across) (t.nodes.length + 1) nodeId {}).visited
    rw [hvisited]
    exact List.mem_append_right _ (List.mem_singleton_self _)

/-- What is visited is left alone. -/
theorem collect_of_mem {fuel left : ℕ} {s : Collected} (h : nodeId ∈ s.visited) :
    collect inside across fuel left nodeId s = s := by
  cases fuel with
  | zero => rfl
  | succ fuel => rw [collect, if_pos (.inr h)]

theorem leads_supertypesOf {u w : String} :
    Leads (insideAcross (fun _ => []) (supertypesOf t)) u w ↔ Link t typeKinds u w := by
  constructor
  · rintro ⟨q, hq, hw⟩
    obtain ⟨p, hp, rfl⟩ := List.mem_map.mp hq
    obtain ⟨he, hn⟩ := mem_endNodes.mp hp
    have hid : p.2.id = p.1.target := id_of_getNodeById hn
    obtain rfl : p.2.id = w := hw
    exact ⟨p.1, he, hid.symm, by rw [hid, hn, Option.isSome_some]⟩
  · rintro ⟨e, he, rfl, hsome⟩
    obtain ⟨n, hn⟩ := Option.isSome_iff_exists.mp hsome
    exact ⟨byId (e, n), List.mem_map_of_mem (mem_endNodes.mpr ⟨he, hn⟩), id_of_getNodeById hn⟩

theorem hops_congr {hop hop' : String → String → Prop} (h : ∀ u w, hop u w ↔ hop' u w) {k : ℕ} {a x : String} :
    Hops hop ∅ a k x ↔ Hops hop' ∅ a k x :=
  ⟨.mono_hop fun u w => (h u w).mp, .mono_hop fun u w => (h u w).mpr⟩

/-- **The type hierarchy** is that of the ancestors, each with the edge that first led to it. The descendants are not
looked for. -/
theorem getTypeHierarchy_ancestors (hfocal : t.getNodeById nodeId = some focal) :
    ((getTypeHierarchy t nodeId).nodes.map (·.id)).Nodup ∧
      (∀ n, n ∈ (getTypeHierarchy t nodeId).nodes ↔ t.getNodeById n.id = some n ∧
        ∃ k, Hops (Link t typeKinds) ∅ nodeId k n.id) ∧
      (∀ e ∈ (getTypeHierarchy t nodeId).edges, e ∈ t.getOutgoingEdges e.source typeKinds ∧
        ∃ k, Hops (Link t typeKinds) ∅ nodeId k e.source) ∧
      (getTypeHierarchy t nodeId).edges.length + 1 = (getTypeHierarchy t nodeId).nodes.length := by
  have hsound : Sound t (insideAcross (fun _ => []) (supertypesOf t)) :=
    sound_map_byId (·.target) fun u => t.getOutgoingEdges u typeKinds
  obtain ⟨hnodup, hnodes, hedges, hlength, hvisited⟩ := collect_spec hsound hfocal (Nat.lt_succ_self _) rfl
  have hhierarchy : getTypeHierarchy t nodeId =
      { nodes := (getTypeAncestors t nodeId { nodes := [focal] }).nodes
        edges := (getTypeAncestors t nodeId { nodes := [focal] }).edges, roots := [nodeId] } := by
    -- the second search finds the type visited
    have hsecond : getTypeDescendants t nodeId (getTypeAncestors t nodeId { nodes := [focal] }) =
        getTypeAncestors t nodeId { nodes := [focal] } := collect_of_mem hvisited
    rw [getTypeHierarchy, hfocal]
    show Subgraph.mk (getTypeDescendants t nodeId _).nodes (getTypeDescendants t nodeId _).edges _ = _
    rw [hsecond]
  rw [hhierarchy]
  refine ⟨hnodup, fun n => ?_, fun e he => ?_, hlength⟩
  · refine (hnodes n).trans (and_congr_right fun _ => exists_congr fun k => ?_)
    exact hops_congr fun _ _ => leads_supertypesOf
  · obtain ⟨u, n, ⟨k, hk⟩, hstep⟩ := hedges e he
    obtain ⟨p, hp, heq⟩ := List.mem_map.mp hstep
    obtain ⟨rfl, -⟩ := Prod.mk.inj (Prod.mk.inj heq).1
    have hmem := (mem_endNodes.mp hp).1
    have hsource : p.1.source = u := (of_decide_eq_true (List.mem_filter.mp hmem).2).1
    rw [hsource]
    exact ⟨hmem, k, (hops_congr fun _ _ => leads_supertypesOf).mp hk⟩

/-- `Circle` extends `Shape`. -/
def circleExtendsShape : Tables :=
  (({} : Tables).insertNodes
    [⟨"Shape", "class", "Shape", "Shape", "a.ts", "typescript", 1, 9, 0, 1, none, none, none, none, none, none, none,
      none, none, none, 0⟩,
     ⟨"Circle", "class", "Circle", "Circle", "a.ts", "typescript", 11, 19, 0, 1, none, none, none, none, none, none,
      none, none, none, none, 0⟩]).insertEdges [{ source := "Circle", target := "Shape", kind := "extends" }]

theorem getTypeHierarchy_ancestors_circle :
    (∀ n, n ∈ (getTypeHierarchy circleExtendsShape "Circle").nodes ↔ circleExtendsShape.getNodeById n.id = some n ∧
      ∃ k, Hops (Link circleExtendsShape typeKinds) ∅ "Circle" k n.id) ∧
      (getTypeHierarchy circleExtendsShape "Circle").edges.length + 1 =
        (getTypeHierarchy circleExtendsShape "Circle").nodes.length := by
  have hcircle : circleExtendsShape.getNodeById "Circle" = some _ := rfl
  obtain ⟨-, hnodes, -, hlength⟩ := getTypeHierarchy_ancestors hcircle
  exact ⟨hnodes, hlength⟩

/-- The hierarchy of `Shape` does not have `Circle` in it. -/
example : (getTypeHierarchy circleExtendsShape "Shape").nodes.map (·.id) = ["Shape"] := by decide +kernel

end Reached

/-! ### The impact radius -/

section Impact

variable {inside across : String → List (Edge × Node)} {focal : Node} {nodeId a u w x : String} {k maxDepth : ℕ}

/-- Around a symbol, `k` steps across: what is inside is as near as what it is in. -/
inductive Around (inside across : String → List (Edge × Node)) (a : String) : ℕ → String → Prop
  | self : Around inside across a 0 a
  | inside {k : ℕ} {u : String} (h : Around inside across a k u) {p : Edge × Node} (hp : p ∈ inside u) :
      Around inside across a k p.2.id
  | across {k : ℕ} {u : String} (h : Around inside across a k u) {p : Edge × Node} (hp : p ∈ across u) :
      Around inside across a (k + 1) p.2.id

theorem exists_around_iff :
    (∃ k, Around inside across a k x) ↔ ∃ k, Hops (Leads (insideAcross inside across)) ∅ a k x := by
  constructor
  · rintro ⟨k, hk⟩
    induction hk with
    | self => exact ⟨0, .start⟩
    | inside _ hp ih =>
      obtain ⟨j, hj⟩ := ih
      exact ⟨j + 1, .next hj ⟨_, List.mem_map_of_mem (List.mem_append_left _ hp), rfl⟩ (Set.notMem_empty _)⟩
    | across _ hp ih =>
      obtain ⟨j, hj⟩ := ih
      exact ⟨j + 1, .next hj ⟨_, List.mem_map_of_mem (List.mem_append_right _ hp), rfl⟩ (Set.notMem_empty _)⟩
  · rintro ⟨k, hk⟩
    induction hk with
    | start => exact ⟨0, .self⟩
    | next _ hstep _ ih =>
      obtain ⟨j, hj⟩ := ih
      obtain ⟨q, hq, hw⟩ := hstep
      obtain ⟨p, hp, rfl⟩ := List.mem_map.mp hq
      obtain rfl : p.2.id = _ := hw
      cases List.mem_append.mp hp with
      | inl hinside => exact ⟨j, .inside hj hinside⟩
      | inr hacross => exact ⟨j + 1, .across hj hacross⟩

/-- A loop keeps what its steps keep. -/
theorem foldl_invariant {σ β : Type} {P : σ → Prop} {f : σ → β → σ} {l : List β}
    (hf : ∀ b ∈ l, ∀ s, P s → P (f s b)) {s : σ} (hs : P s) : P (l.foldl f s) := by
  induction l generalizing s with
  | nil => exact hs
  | cons b l ih =>
    obtain ⟨hb, hl⟩ := List.forall_mem_cons.mp hf
    exact ih hl (hb s hs)

/-- The nodes found are nodes of the tables within the depth, each once. -/
def Near (t : Tables) (inside across : String → List (Edge × Node)) (a : String) (maxDepth : ℕ) (s : Collected) :
    Prop :=
  (s.nodes.map (·.id)).Nodup ∧
    ∀ n ∈ s.nodes, t.getNodeById n.id = some n ∧ ∃ k ≤ maxDepth, Around inside across a k n.id

theorem Near.add {s : Collected} (h : Near t inside across a maxDepth s) {p : Edge × Node}
    (hnode : t.getNodeById p.2.id = some p.2) (hk : k ≤ maxDepth) (hp : Around inside across a k p.2.id) :
    Near t inside across a maxDepth (s.add p) := by
  have hgenuine : Genuine t s.nodes := fun n hn => (h.2 n hn).1
  refine ⟨nodup_foldl_mapSet h.1 [p.2], fun n hn => ?_⟩
  cases (hgenuine.mem_mapSet hnode).mp hn with
  | inl hold => exact h.2 n hold
  | inr heq => exact heq ▸ ⟨hnode, k, hk, hp⟩

/-- **Within the depth.** Whatever the depth, a search collects what is within it. -/
theorem near_collect (hsound : Sound t (insideAcross inside across)) {fuel left : ℕ} {v : String} {s : Collected}
    (hv : Around inside across a k v) (hk : k + left ≤ maxDepth) (hs : Near t inside across a maxDepth s) :
    Near t inside across a maxDepth (collect inside across fuel left v s) := by
  have hnode : ∀ u, ∀ p ∈ inside u ++ across u, t.getNodeById p.2.id = some p.2 := fun u p hp =>
    hsound u (byId p) (List.mem_map_of_mem hp)
  induction fuel generalizing left k v s with
  | zero => exact hs
  | succ fuel ih =>
    rw [collect]
    split
    · exact hs
    · next hgo =>
      refine foldl_invariant (fun p hp s₁ hs₁ => ?_) (foldl_invariant (fun p hp s₁ hs₁ => ?_) hs)
      · rw [Collected.goAcross]
        split
        · exact hs₁
        · have hstep := hv.across hp
          have hpos : left ≠ 0 := fun hzero => hgo (.inl hzero)
          exact ih hstep (by omega) (hs₁.add (hnode v p (List.mem_append_right _ hp)) (by omega) hstep)
      · rw [Collected.goInside]
        split
        · exact hs₁
        · have hstep := hv.inside hp
          exact ih hstep hk (hs₁.add (hnode v p (List.mem_append_left _ hp)) (by omega) hstep)

theorem sound_membersDependents (t : Tables) : Sound t (insideAcross (membersOf t) (dependentsOf t)) := by
  intro u q hq
  obtain ⟨p, hp, rfl⟩ := List.mem_map.mp hq
  have hnode : ∃ id, t.getNodeById id = some p.2 := by
    cases List.mem_append.mp hp with
    | inl hmember =>
      rw [membersOf] at hmember
      split at hmember
      · exact ⟨_, (mem_endNodes.mp hmember).2⟩
      · exact absurd hmember List.not_mem_nil
    | inr hdependent => exact ⟨_, (mem_endNodes.mp hdependent).2⟩
  obtain ⟨id, hid⟩ := hnode
  show t.getNodeById p.2.id = some p.2
  rw [id_of_getNodeById hid, hid]

/-- **The impact radius** holds what depends on the symbol within the depth, where the members of a container are as
near as it is. With more depth than there are symbols it holds all that depends on the symbol. -/
theorem getImpactRadius_spec (hfocal : t.getNodeById nodeId = some focal) (maxDepth : ℕ) :
    ((getImpactRadius t nodeId maxDepth).nodes.map (·.id)).Nodup ∧
      (∀ n ∈ (getImpactRadius t nodeId maxDepth).nodes, t.getNodeById n.id = some n ∧
        ∃ k ≤ maxDepth, Around (membersOf t) (dependentsOf t) nodeId k n.id) ∧
      (t.nodes.length < maxDepth → ∀ n, n ∈ (getImpactRadius t nodeId maxDepth).nodes ↔
        t.getNodeById n.id = some n ∧ ∃ k, Around (membersOf t) (dependentsOf t) nodeId k n.id) := by
  have hid := id_of_getNodeById hfocal
  have hstart : Near t (membersOf t) (dependentsOf t) nodeId maxDepth { nodes := [focal] } := by
    refine ⟨List.nodup_singleton _, fun n hn => ?_⟩
    rw [List.mem_singleton.mp hn, hid]
    exact ⟨hfocal, 0, Nat.zero_le _, .self⟩
  have hnear : Near t (membersOf t) (dependentsOf t) nodeId maxDepth
      (getImpactRecursive t maxDepth nodeId { nodes := [focal] }) :=
    near_collect (sound_membersDependents t) .self (Nat.zero_add maxDepth).le hstart
  rw [getImpactRadius, hfocal]
  refine ⟨hnear.1, hnear.2, fun hdepth n => ?_⟩
  obtain ⟨-, hnodes, -⟩ := collect_spec (sound_membersDependents t) hfocal hdepth rfl
  rw [exists_around_iff]
  exact hnodes n

/-- What a change of `helper` reaches. -/
theorem getImpactRadius_spec_helper :
    ((getImpactRadius mainCallsHelper "helper" 3).nodes.map (·.id)).Nodup ∧
      ∀ n, n ∈ (getImpactRadius mainCallsHelper "helper" 3).nodes ↔ mainCallsHelper.getNodeById n.id = some n ∧
        ∃ k, Around (membersOf mainCallsHelper) (dependentsOf mainCallsHelper) "helper" k n.id := by
  have hhelper : mainCallsHelper.getNodeById "helper" = some _ := rfl
  obtain ⟨hnodup, -, hall⟩ := getImpactRadius_spec hhelper 3
  exact ⟨hnodup, hall (by decide)⟩

theorem subset_visited_collect {fuel left : ℕ} {v : String} (s : Collected) :
    s.visited ⊆ (collect inside across fuel left v s).visited := by
  induction fuel generalizing left v s with
  | zero => exact List.Subset.refl _
  | succ fuel ih =>
    rw [collect]
    split
    · exact List.Subset.refl _
    · have hstart : s.visited ⊆ { s with visited := v :: s.visited : Collected }.visited := List.subset_cons_self _ _
      refine foldl_invariant (P := fun s₁ : Collected => s.visited ⊆ s₁.visited) (fun p _ s₁ hs₁ => ?_)
        (foldl_invariant (P := fun s₁ : Collected => s.visited ⊆ s₁.visited) (fun p _ s₁ hs₁ => ?_) hstart)
      · rw [Collected.goAcross]
        split
        · exact hs₁
        · exact List.Subset.trans hs₁ (ih (s₁.add p))
      · rw [Collected.goInside]
        split
        · exact hs₁
        · exact List.Subset.trans hs₁ (ih (s₁.add p))

/-- Two loops agree whose steps agree. -/
theorem foldl_congr_of_invariant {σ β : Type} {P : σ → Prop} {f g : σ → β → σ} {l : List β}
    (hf : ∀ b ∈ l, ∀ s, P s → f s b = g s b ∧ P (f s b)) {s : σ} (hs : P s) :
    l.foldl f s = l.foldl g s ∧ P (l.foldl f s) := by
  induction l generalizing s with
  | nil => exact ⟨rfl, hs⟩
  | cons b l ih =>
    obtain ⟨hb, hl⟩ := List.forall_mem_cons.mp hf
    obtain ⟨heq, hP⟩ := hb s hs
    rw [List.foldl_cons, List.foldl_cons, ← heq]
    exact ih hl hP

/-- With more fuel than there are symbols left, the fuel does not matter. -/
theorem collect_succ {univ : List String} (huniv : ∀ u ∈ univ, ∀ p ∈ inside u ++ across u, p.2.id ∈ univ)
    {fuel left : ℕ} {v : String} (hv : v ∈ univ) {s : Collected} (hfuel : (unvisited univ s.visited).length < fuel) :
    collect inside across (fuel + 1) left v s = collect inside across fuel left v s := by
  induction fuel generalizing left v s with
  | zero => exact absurd hfuel (Nat.not_lt_zero _)
  | succ fuel ih =>
    rw [collect, collect]
    split
    · rfl
    · next hgo =>
      have hnew : v ∉ s.visited := fun hmem => hgo (.inr hmem)
      have hless := length_unvisited_cons_lt hv hnew
      have hstep : ∀ (left' : ℕ) (s₁ : Collected) (p : Edge × Node), p ∈ inside v ++ across v →
          (unvisited univ s₁.visited).length < fuel →
          collect inside across (fuel + 1) left' p.2.id (s₁.add p) =
              collect inside across fuel left' p.2.id (s₁.add p) ∧
            (unvisited univ (collect inside across (fuel + 1) left' p.2.id (s₁.add p)).visited).length < fuel :=
        fun left' s₁ p hp hs₁ => ⟨ih (huniv v hv p hp) hs₁,
          (length_unvisited_le univ (subset_visited_collect (s₁.add p))).trans_lt hs₁⟩
      have hstart : (unvisited univ { s with visited := v :: s.visited : Collected }.visited).length < fuel := by
        show (unvisited univ (v :: s.visited)).length < fuel
        omega
      obtain ⟨hinside, hmid⟩ := foldl_congr_of_invariant
        (P := fun s₁ : Collected => (unvisited univ s₁.visited).length < fuel)
        (f := Collected.goInside (collect inside across (fuel + 1) left))
        (g := Collected.goInside (collect inside across fuel left)) (l := inside v) (fun p hp s₁ hs₁ => by
          rw [Collected.goInside, Collected.goInside]
          split
          · exact ⟨rfl, hs₁⟩
          · exact hstep left s₁ p (List.mem_append_left _ hp) hs₁) hstart
      obtain ⟨hacross, -⟩ := foldl_congr_of_invariant
        (P := fun s₁ : Collected => (unvisited univ s₁.visited).length < fuel)
        (f := Collected.goAcross (collect inside across (fuel + 1) (left - 1)))
        (g := Collected.goAcross (collect inside across fuel (left - 1))) (l := across v) (fun p hp s₁ hs₁ => by
          rw [Collected.goAcross, Collected.goAcross]
          split
          · exact ⟨rfl, hs₁⟩
          · exact hstep (left - 1) s₁ p (List.mem_append_right _ hp) hs₁) hmid
      rw [hacross, hinside]

/-- So the bound on the recursion is none: more of it changes nothing. -/
theorem getImpactRecursive_fuel (hfocal : t.getNodeById nodeId = some focal) {fuel : ℕ}
    (hfuel : t.nodes.length < fuel) :
    collect (membersOf t) (dependentsOf t) fuel maxDepth nodeId { nodes := [focal] } =
      getImpactRecursive t maxDepth nodeId { nodes := [focal] } := by
  have hsound := sound_membersDependents t
  have huniv : ∀ u ∈ t.ids, ∀ p ∈ membersOf t u ++ dependentsOf t u, p.2.id ∈ t.ids := fun u hu p hp =>
    hsound.mem_ids u hu (byId p) (List.mem_map_of_mem hp)
  have hleft : (unvisited t.ids ([] : List String)).length ≤ t.nodes.length :=
    (List.length_filter_le _ _).trans (List.length_map _).le
  induction fuel, Nat.succ_le_of_lt hfuel using Nat.le_induction with
  | base => rfl
  | succ fuel hle ih =>
    rw [collect_succ huniv (mem_ids_of_getNodeById hfocal) (hleft.trans_lt hle)]
    exact ih hle

end Impact

end Devrouter.Engine
