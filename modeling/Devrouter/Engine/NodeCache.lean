import Devrouter.Engine.Tables
import Devrouter.Lib.Answers
import Devrouter.Lib.LastWins

/-!
# The cache of nodes

Model of `QueryBuilder` in `codegraph/src/db/queries.ts` with its cache: `getNodeById` and `getNodesByIds` serve a
node from memory when it was read before, and every statement that writes a node takes it out of the cache first.
The cache is a `Map`, so it lists its nodes in the order they came in, and a node that is read goes to the end.

`cached_run_eq` compares it with the tables read directly: no run of calls can tell the two apart. What carries it
is `Mirrors`: a cached node is what its row reads as now.
-/

namespace Devrouter.Engine

structure QueryBuilder where
  tables : Tables
  nodeCache : List Node := []

def maxCacheSize : ℕ := 1000

def sqliteParamChunkSize : ℕ := 500

/-- The chunks of `n + 1` elements that a loop over the offsets cuts off. -/
def chunks {α : Type} (n : ℕ) (l : List α) : List (List α) :=
  match l with
  | [] => []
  | a :: l => (a :: l.take n) :: chunks n (l.drop n)
termination_by l.length
decreasing_by
  rw [List.length_drop, List.length_cons]
  omega

/-- Setting an entry of a `Map` from ids to nodes. -/
def setNode (map : List Node) (n : Node) : List Node := map.setLast (fun m n => m.id = n.id) n

namespace QueryBuilder

/-! ### The cache -/

def cached (cache : List Node) (id : String) : Option Node := cache.find? (·.id = id)

/-- Out, and in again at the end. -/
def touch (cache : List Node) (n : Node) : List Node := cache.filter (·.id ≠ n.id) ++ [n]

/-- The oldest entry goes when the cache is full, unless its key is the empty text. -/
def evictOldest : List Node → List Node
  | [] => []
  | n :: cache => if n.id = "" then n :: cache else cache

def cacheNode (cache : List Node) (n : Node) : List Node :=
  setNode (if cache.length ≥ maxCacheSize then evictOldest cache else cache) n

variable (q : QueryBuilder)

def getNodeById (id : String) : Option Node × QueryBuilder :=
  match cached q.nodeCache id with
  | some n => (some n, { q with nodeCache := touch q.nodeCache n })
  | none =>
    match q.tables.row? id with
    | none => (none, q)
    | some row => (some (rowToNode row), { q with nodeCache := cacheNode q.nodeCache (rowToNode row) })

/-- What `getNodesByIds` has found, what is cached, and the ids that were not. -/
structure Lookup where
  out : List Node := []
  nodeCache : List Node
  misses : List String := []

/-- The loop over the ids: hits are served first. -/
def Lookup.serve (l : Lookup) (id : String) : Lookup :=
  match cached l.nodeCache id with
  | some n => { l with nodeCache := touch l.nodeCache n, out := setNode l.out n }
  | none => { l with misses := l.misses ++ [id] }

/-- A row of a chunk of the misses. -/
def Lookup.load (l : Lookup) (row : NodeRow) : Lookup :=
  { l with out := setNode l.out (rowToNode row), nodeCache := cacheNode l.nodeCache (rowToNode row) }

/-- The rows of a chunk, in the order of the table. -/
def Lookup.loadChunk (t : Tables) (l : Lookup) (chunk : List String) : Lookup :=
  (t.nodes.filter (·.id ∈ chunk)).foldl Lookup.load l

/-- A `Map` from ids to nodes. -/
def getNodesByIds (ids : List String) : List Node × QueryBuilder :=
  let served := ids.foldl Lookup.serve { nodeCache := q.nodeCache }
  let loaded := (chunks (sqliteParamChunkSize - 1) served.misses).foldl (Lookup.loadChunk q.tables) served
  (loaded.out, { q with nodeCache := loaded.nodeCache })

/-- A node that is not written stays in the cache. -/
def insertNode (n : Node) : QueryBuilder :=
  if n.Valid then ⟨q.tables.insertNode n, q.nodeCache.filter (·.id ≠ n.id)⟩ else q

def insertNodes (ns : List Node) : QueryBuilder := ns.foldl insertNode q

def updateNode (n : Node) : QueryBuilder := ⟨q.tables.updateNode n, q.nodeCache.filter (·.id ≠ n.id)⟩

def deleteNode (id : String) : QueryBuilder := ⟨q.tables.deleteNode id, q.nodeCache.filter (·.id ≠ id)⟩

def deleteNodesByFile (path : String) : QueryBuilder :=
  ⟨q.tables.deleteNodesByFile path, q.nodeCache.filter (·.filePath ≠ path)⟩

def deleteFile (path : String) : QueryBuilder :=
  { q.deleteNodesByFile path with tables := q.tables.deleteFile path }

def clearCache : QueryBuilder := { q with nodeCache := [] }

def clear : QueryBuilder := ⟨Tables.clear, []⟩

end QueryBuilder

/-! ### Calls -/

/-- The calls of a connection. -/
inductive Call where
  | insertNode (n : Node)
  | insertNodes (ns : List Node)
  | updateNode (n : Node)
  | deleteNode (id : String)
  | deleteNodesByFile (path : String)
  | getNodeById (id : String)
  | getNodesByIds (ids : List String)
  | insertEdge (e : Edge)
  | insertEdges (es : List Edge)
  | deleteEdgesBySource (source : String)
  | getOutgoingEdges (source : String) (kinds : List String)
  | getIncomingEdges (target : String) (kinds : List String)
  | upsertFile (f : FileRecord)
  | deleteFile (path : String)
  | insertUnresolvedRef (u : UnresolvedReference)
  | insertUnresolvedRefsBatch (us : List UnresolvedReference)
  | deleteUnresolvedByNode (id : String)
  | deleteSpecificResolvedReferences (keys : List (String × String × String))
  | clearUnresolvedReferences
  | clearCache
  | clear

inductive Answer where
  | done
  | failed
  | node (n : Option Node)
  | nodes (get : String → Option Node)
  | edges (es : List Edge)

/-- A statement that may fail leaves the tables as they are when it does. -/
def attempt (t : Tables) : Option Tables → Answer × Tables
  | some t' => (.done, t')
  | none => (.failed, t)

/-- The calls on the tables alone. -/
def plain : Server Tables Call Answer where
  call t
    | .insertNode n => (.done, t.insertNode n)
    | .insertNodes ns => (.done, t.insertNodes ns)
    | .updateNode n => (.done, t.updateNode n)
    | .deleteNode id => (.done, t.deleteNode id)
    | .deleteNodesByFile path => (.done, t.deleteNodesByFile path)
    | .getNodeById id => (.node (t.getNodeById id), t)
    | .getNodesByIds ids => (.nodes fun id => if id ∈ ids then t.getNodeById id else none, t)
    | .insertEdge e => attempt t (t.insertEdge e)
    | .insertEdges es => (.done, t.insertEdges es)
    | .deleteEdgesBySource source => (.done, t.deleteEdgesBySource source)
    | .getOutgoingEdges source kinds => (.edges (t.getOutgoingEdges source kinds), t)
    | .getIncomingEdges target kinds => (.edges (t.getIncomingEdges target kinds), t)
    | .upsertFile f => (.done, t.upsertFile f)
    | .deleteFile path => (.done, t.deleteFile path)
    | .insertUnresolvedRef u => attempt t (t.insertUnresolvedRef u)
    | .insertUnresolvedRefsBatch us => attempt t (t.insertUnresolvedRefsBatch us)
    | .deleteUnresolvedByNode id => (.done, t.deleteUnresolvedByNode id)
    | .deleteSpecificResolvedReferences keys => (.done, t.deleteSpecificResolvedReferences keys)
    | .clearUnresolvedReferences => (.done, t.clearUnresolvedReferences)
    | .clearCache => (.done, t)
    | .clear => (.done, Tables.clear)

/-- The calls of `QueryBuilder`: those that do not read or write nodes pass the cache by. -/
def cached : Server QueryBuilder Call Answer where
  call q
    | .insertNode n => (.done, q.insertNode n)
    | .insertNodes ns => (.done, q.insertNodes ns)
    | .updateNode n => (.done, q.updateNode n)
    | .deleteNode id => (.done, q.deleteNode id)
    | .deleteNodesByFile path => (.done, q.deleteNodesByFile path)
    | .getNodeById id => (.node (q.getNodeById id).1, (q.getNodeById id).2)
    | .getNodesByIds ids =>
      (.nodes fun id => QueryBuilder.cached (q.getNodesByIds ids).1 id, (q.getNodesByIds ids).2)
    | .deleteFile path => (.done, q.deleteFile path)
    | .clearCache => (.done, q.clearCache)
    | .clear => (.done, QueryBuilder.clear)
    | call => ((plain.call q.tables call).1, { q with tables := (plain.call q.tables call).2 })

/-! ### What the cache holds -/

section Mirrors

variable {t : Tables} {cache : List Node} {n : Node} {id : String}

/-- A cached node is what its row reads as. -/
def Mirrors (t : Tables) (cache : List Node) : Prop := ∀ n ∈ cache, t.getNodeById n.id = some n

theorem getNodeById_row (ht : t.Consistent) {row : NodeRow} (h : row ∈ t.nodes) :
    t.getNodeById (rowToNode row).id = some (rowToNode row) := by
  rw [Tables.getNodeById, rowToNode_id, (Tables.row?_eq_some ht).mpr ⟨h, rfl⟩, Option.map_some]

theorem Mirrors.sublist {cache' : List Node} (h : Mirrors t cache) (hsub : cache' ⊆ cache) : Mirrors t cache' :=
  fun n hn => h n (hsub hn)

theorem mem_of_cached (h : QueryBuilder.cached cache id = some n) : n ∈ cache ∧ n.id = id :=
  ⟨List.mem_of_find?_eq_some h, by simpa using List.find?_some h⟩

/-- A hit is right. -/
theorem Mirrors.cached (h : Mirrors t cache) (hn : QueryBuilder.cached cache id = some n) :
    t.getNodeById id = some n := by
  obtain ⟨hmem, rfl⟩ := mem_of_cached hn
  exact h n hmem

theorem Mirrors.touch (h : Mirrors t cache) (hn : n ∈ cache) : Mirrors t (QueryBuilder.touch cache n) := by
  intro m hm
  cases List.mem_append.mp hm with
  | inl hold => exact h m (List.mem_of_mem_filter hold)
  | inr hnew => exact (List.mem_singleton.mp hnew) ▸ h n hn

theorem length_touch_le (hn : n ∈ cache) : (QueryBuilder.touch cache n).length ≤ cache.length := by
  rw [QueryBuilder.touch, List.length_append, List.length_singleton]
  -- the node itself does not pass the filter
  exact List.length_filter_lt_length_iff_exists.mpr ⟨n, hn, by simp⟩

theorem evictOldest_subset : QueryBuilder.evictOldest cache ⊆ cache := by
  cases cache with
  | nil => exact List.Subset.refl _
  | cons m cache =>
    rw [QueryBuilder.evictOldest]
    split
    · exact List.Subset.refl _
    · exact List.subset_cons_self m cache

theorem Mirrors.setNode (h : Mirrors t cache) (hn : t.getNodeById n.id = some n) : Mirrors t (setNode cache n) := by
  intro m hm
  cases List.mem_setLast hm with
  | inl heq => exact heq ▸ hn
  | inr hold => exact h m hold

theorem Mirrors.cacheNode (h : Mirrors t cache) (hn : t.getNodeById n.id = some n) :
    Mirrors t (QueryBuilder.cacheNode cache n) := by
  rw [QueryBuilder.cacheNode]
  split
  · exact (h.sublist evictOldest_subset).setNode hn
  · exact h.setNode hn

/-- A cached node has an id. -/
theorem Mirrors.id_ne (h : Mirrors t cache) (ht : t.Consistent) (hn : n ∈ cache) : n.id ≠ "" := by
  obtain ⟨row, hrow, hid⟩ := Option.map_eq_some_iff.mp (h n hn)
  have hvalid := ht.valid row ((Tables.row?_eq_some ht).mp hrow).1
  rw [hid] at hvalid
  exact hvalid.1

theorem length_cacheNode_le (h : Mirrors t cache) (ht : t.Consistent) (hsmall : cache.length ≤ maxCacheSize) :
    (QueryBuilder.cacheNode cache n).length ≤ maxCacheSize := by
  rw [QueryBuilder.cacheNode]
  split
  · next hfull =>
    refine Nat.le_trans (List.length_setLast_le _ _) ?_
    cases cache with
    | nil => exact absurd hfull (by decide)
    | cons m cache =>
      -- the oldest node has an id, so it goes
      rw [QueryBuilder.evictOldest, if_neg (h.id_ne ht List.mem_cons_self)]
      exact hsmall
  · next hroom => exact Nat.le_trans (List.length_setLast_le _ _) (Nat.lt_of_not_le hroom)

/-- Where the rows of the cached nodes stay, the cache stays right. -/
theorem Mirrors.of_row? {t' : Tables} (h : Mirrors t cache) (hrow : ∀ n ∈ cache, t'.row? n.id = t.row? n.id) :
    Mirrors t' cache := by
  intro n hn
  rw [Tables.getNodeById, hrow n hn]
  exact h n hn

end Mirrors

/-! ### Reads -/

section Reads

variable {t : Tables} {ids done : List String}

theorem flatten_chunks {α : Type} (n : ℕ) (l : List α) : (chunks n l).flatten = l := by
  induction l using chunks.induct n with
  | case1 => rw [chunks, List.flatten_nil]
  | case2 a l ih => rw [chunks, List.flatten_cons, ih, List.cons_append, List.take_append_drop]

namespace QueryBuilder

/-- While `getNodesByIds` runs: what is found and what is cached is right, and of the ids that are `done` those with
a row are found or missed. -/
structure Lookup.Fine (t : Tables) (ids done : List String) (l : Lookup) : Prop where
  out : Mirrors t l.out
  out_ids : ∀ n ∈ l.out, n.id ∈ ids
  cache : Mirrors t l.nodeCache
  small : l.nodeCache.length ≤ maxCacheSize
  misses_ids : ∀ id ∈ l.misses, id ∈ ids
  found : ∀ id ∈ done, (∃ n ∈ l.out, n.id = id) ∨ id ∈ l.misses

variable {l : Lookup}

/-- What is found stays found. -/
theorem exists_mem_setNode {out : List Node} {id : String} (n : Node) (h : ∃ m ∈ out, m.id = id) :
    ∃ m ∈ setNode out n, m.id = id := by
  obtain ⟨m, hm, rfl⟩ := h
  exact List.exists_mem_setLast (f := Node.id) (fun a b hab => of_decide_eq_true hab) hm

theorem Lookup.Fine.serve (h : Lookup.Fine t ids done l) {id : String} (hid : id ∈ ids) :
    Lookup.Fine t ids (done ++ [id]) (l.serve id) := by
  rw [Lookup.serve]
  cases hn : cached l.nodeCache id with
  | some n =>
    obtain ⟨hmem, rfl⟩ := mem_of_cached hn
    constructor
    · exact h.out.setNode (h.cache n hmem)
    · intro m hm
      cases List.mem_setLast hm with
      | inl heq => exact heq ▸ hid
      | inr hold => exact h.out_ids m hold
    · exact h.cache.touch hmem
    · exact Nat.le_trans (length_touch_le hmem) h.small
    · exact h.misses_ids
    · intro k hk
      cases List.mem_append.mp hk with
      | inl hold => exact (h.found k hold).imp_left (exists_mem_setNode n)
      | inr hnew => exact .inl ⟨n, List.mem_setLast_self l.out n, (List.mem_singleton.mp hnew).symm⟩
  | none =>
    refine { h with misses_ids := fun k hk => ?_, found := fun k hk => ?_ }
    · cases List.mem_append.mp hk with
      | inl hold => exact h.misses_ids k hold
      | inr hnew => exact (List.mem_singleton.mp hnew) ▸ hid
    · cases List.mem_append.mp hk with
      | inl hold => exact (h.found k hold).imp_right (List.mem_append_left _)
      | inr hnew => exact .inr (List.mem_append_right _ hnew)

theorem Lookup.Fine.foldl_serve (h : Lookup.Fine t ids done l) {rest : List String} (hrest : rest ⊆ ids) :
    Lookup.Fine t ids (done ++ rest) (rest.foldl Lookup.serve l) := by
  induction rest generalizing done l with
  | nil => rwa [List.append_nil]
  | cons id rest ih =>
    have hnext := ih (h.serve (hrest List.mem_cons_self)) fun k hk => hrest (List.mem_cons_of_mem id hk)
    rwa [List.append_assoc] at hnext

/-- Loading rows of ids that were asked for: all of them are found then, and what was found stays. -/
theorem Lookup.Fine.foldl_load (h : Lookup.Fine t ids done l) (ht : t.Consistent) {rows : List NodeRow}
    (hrows : ∀ row ∈ rows, row ∈ t.nodes ∧ row.id ∈ ids) :
    Lookup.Fine t ids done (rows.foldl Lookup.load l) ∧
      (∀ id, (∃ n ∈ l.out, n.id = id) → ∃ n ∈ (rows.foldl Lookup.load l).out, n.id = id) ∧
      (∀ row ∈ rows, ∃ n ∈ (rows.foldl Lookup.load l).out, n.id = row.id) ∧
      (rows.foldl Lookup.load l).misses = l.misses := by
  induction rows generalizing l with
  | nil => exact ⟨h, fun _ hn => hn, fun _ hrow => absurd hrow List.not_mem_nil, rfl⟩
  | cons row rows ih =>
    obtain ⟨hrow, hid⟩ := hrows row List.mem_cons_self
    have hread := getNodeById_row ht hrow
    have hload : Lookup.Fine t ids done (l.load row) := by
      constructor
      · exact h.out.setNode hread
      · intro m hm
        cases List.mem_setLast hm with
        | inl heq => exact heq ▸ hid
        | inr hold => exact h.out_ids m hold
      · exact h.cache.cacheNode hread
      · exact length_cacheNode_le h.cache ht h.small
      · exact h.misses_ids
      · exact fun k hk => (h.found k hk).imp_left (exists_mem_setNode _)
    obtain ⟨hfine, hkeep, hall, hmisses⟩ := ih hload fun row' hrow' => hrows row' (List.mem_cons_of_mem row hrow')
    refine ⟨hfine, fun id hn => hkeep id (exists_mem_setNode _ hn), fun row' hrow' => ?_, hmisses⟩
    cases List.mem_cons.mp hrow' with
    | inl heq => exact heq ▸ hkeep row.id ⟨rowToNode row, List.mem_setLast_self l.out _, rfl⟩
    | inr hrest => exact hall row' hrest

theorem Lookup.Fine.foldl_loadChunk (h : Lookup.Fine t ids done l) (ht : t.Consistent) (css : List (List String))
    (hcss : css.flatten ⊆ ids) :
    Lookup.Fine t ids done (css.foldl (Lookup.loadChunk t) l) ∧
      (∀ id, (∃ n ∈ l.out, n.id = id) → ∃ n ∈ (css.foldl (Lookup.loadChunk t) l).out, n.id = id) ∧
      ∀ id ∈ css.flatten, id ∈ t.ids → ∃ n ∈ (css.foldl (Lookup.loadChunk t) l).out, n.id = id := by
  induction css generalizing l with
  | nil => exact ⟨h, fun _ hn => hn, fun _ hid => absurd hid List.not_mem_nil⟩
  | cons chunk css ih =>
    rw [List.flatten_cons] at hcss
    have hrows : ∀ row ∈ t.nodes.filter (·.id ∈ chunk), row ∈ t.nodes ∧ row.id ∈ ids := by
      intro row hrow
      obtain ⟨hmem, hchunk⟩ := List.mem_filter.mp hrow
      exact ⟨hmem, hcss (List.mem_append_left _ (of_decide_eq_true hchunk))⟩
    obtain ⟨hfine, hkeep, hall, -⟩ := h.foldl_load ht hrows
    obtain ⟨hfine', hkeep', hall'⟩ := ih hfine fun id hid => hcss (List.mem_append_right _ hid)
    refine ⟨hfine', fun id hn => hkeep' id (hkeep id hn), fun id hid hrow => ?_⟩
    rw [List.flatten_cons] at hid
    cases List.mem_append.mp hid with
    | inl hchunk =>
      obtain ⟨row, hmem, rfl⟩ := Tables.mem_ids.mp hrow
      exact hkeep' _ (hall row (List.mem_filter.mpr ⟨hmem, decide_eq_true hchunk⟩))
    | inr hrest => exact hall' id hrest hrow

/-- **The batch lookup** finds what the table has, and leaves a cache that is right. -/
theorem getNodesByIds_spec {q : QueryBuilder} (ht : q.tables.Consistent) (hcache : Mirrors q.tables q.nodeCache)
    (hsmall : q.nodeCache.length ≤ maxCacheSize) (ids : List String) :
    (∀ id, cached (q.getNodesByIds ids).1 id = if id ∈ ids then q.tables.getNodeById id else none) ∧
      (q.getNodesByIds ids).2.tables = q.tables ∧
      Mirrors q.tables (q.getNodesByIds ids).2.nodeCache ∧
      (q.getNodesByIds ids).2.nodeCache.length ≤ maxCacheSize := by
  have hstart : Lookup.Fine q.tables ids [] { nodeCache := q.nodeCache } :=
    { out := fun _ h => absurd h List.not_mem_nil
      out_ids := fun _ h => absurd h List.not_mem_nil
      cache := hcache
      small := hsmall
      misses_ids := fun _ h => absurd h List.not_mem_nil
      found := fun _ h => absurd h List.not_mem_nil }
  have hserved := hstart.foldl_serve (List.Subset.refl ids)
  rw [List.nil_append] at hserved
  have hflat := flatten_chunks (sqliteParamChunkSize - 1) (ids.foldl Lookup.serve { nodeCache := q.nodeCache }).misses
  obtain ⟨hfine, hkeep, hall⟩ := hserved.foldl_loadChunk ht
    (chunks (sqliteParamChunkSize - 1) (ids.foldl Lookup.serve { nodeCache := q.nodeCache }).misses)
    (fun id hid => hserved.misses_ids id (hflat ▸ hid))
  refine ⟨fun id => ?_, rfl, hfine.cache, hfine.small⟩
  show cached (List.foldl _ _ _ : Lookup).out id = _
  cases hn : cached (List.foldl _ _ _ : Lookup).out id with
  | some n =>
    obtain ⟨hmem, rfl⟩ := mem_of_cached hn
    rw [if_pos (hfine.out_ids n hmem), hfine.out n hmem]
  | none =>
    split
    · next hid =>
      -- an id with a row has been found
      cases hread : q.tables.getNodeById id with
      | none => rfl
      | some m =>
        obtain ⟨row, hrow, -⟩ := Option.map_eq_some_iff.mp hread
        have hids : id ∈ q.tables.ids := Tables.row?_isSome.mp (Option.isSome_of_eq_some hrow)
        obtain ⟨n, hmem, hnid⟩ : ∃ n ∈ (List.foldl _ _ _ : Lookup).out, n.id = id := by
          cases hserved.found id hid with
          | inl hout => exact hkeep id hout
          | inr hmiss => exact hall id (hflat.symm ▸ hmiss) hids
        exact absurd (decide_eq_true hnid) (List.find?_eq_none.mp hn n hmem)
    · rfl

theorem getNodeById_spec {q : QueryBuilder} (ht : q.tables.Consistent) (hcache : Mirrors q.tables q.nodeCache)
    (hsmall : q.nodeCache.length ≤ maxCacheSize) (id : String) :
    (q.getNodeById id).1 = q.tables.getNodeById id ∧ (q.getNodeById id).2.tables = q.tables ∧
      Mirrors q.tables (q.getNodeById id).2.nodeCache ∧
      (q.getNodeById id).2.nodeCache.length ≤ maxCacheSize := by
  rw [getNodeById]
  cases hn : cached q.nodeCache id with
  | some n =>
    obtain ⟨hmem, -⟩ := mem_of_cached hn
    exact ⟨(hcache.cached hn).symm, rfl, hcache.touch hmem, Nat.le_trans (length_touch_le hmem) hsmall⟩
  | none =>
    cases hrow : q.tables.row? id with
    | none => exact ⟨by rw [Tables.getNodeById, hrow, Option.map_none], rfl, hcache, hsmall⟩
    | some row =>
      have hread := getNodeById_row ht ((Tables.row?_eq_some ht).mp hrow).1
      exact ⟨by rw [Tables.getNodeById, hrow, Option.map_some], rfl, hcache.cacheNode hread,
        length_cacheNode_le hcache ht hsmall⟩

end QueryBuilder

end Reads

/-! ### Runs -/

/-- Tables that every call leaves consistent. -/
theorem consistent_plain {t : Tables} (h : t.Consistent) (c : Call) : (plain.call t c).2.Consistent := by
  cases c with
  | insertNode n => exact h.insertNode n
  | insertNodes ns => exact h.insertNodes ns
  | updateNode n => exact h.updateNode n
  | deleteNode id => exact h.deleteNode id
  | deleteNodesByFile path => exact h.deleteNodesByFile path
  | getNodeById | getNodesByIds | getOutgoingEdges | getIncomingEdges | clearCache => exact h
  | insertEdge e =>
    show (attempt t (t.insertEdge e)).2.Consistent
    cases ht : t.insertEdge e with
    | none => exact h
    | some t' => exact h.insertEdge ht
  | insertEdges es => exact h.insertEdges es
  | deleteEdgesBySource source => exact h.deleteEdgesBySource source
  | upsertFile f => exact h.upsertFile f
  | deleteFile path => exact h.deleteFile path
  | insertUnresolvedRef u =>
    show (attempt t (t.insertUnresolvedRef u)).2.Consistent
    cases ht : t.insertUnresolvedRef u with
    | none => exact h
    | some t' => exact h.insertUnresolvedRef ht
  | insertUnresolvedRefsBatch us =>
    show (attempt t (t.insertUnresolvedRefsBatch us)).2.Consistent
    cases ht : t.insertUnresolvedRefsBatch us with
    | none => exact h
    | some t' => exact h.insertUnresolvedRefsBatch ht
  | deleteUnresolvedByNode id => exact h.filter_unresolvedRefs _
  | deleteSpecificResolvedReferences keys => exact h.filter_unresolvedRefs _
  | clearUnresolvedReferences => exact h.clearUnresolvedReferences
  | clear => exact Tables.consistent_empty

/-- A connection and the tables it is compared with. -/
structure Synced (q : QueryBuilder) (t : Tables) : Prop where
  tables : q.tables = t
  consistent : t.Consistent
  mirrors : Mirrors t q.nodeCache
  small : q.nodeCache.length ≤ maxCacheSize

namespace Synced

variable {q : QueryBuilder} {t : Tables}

/-- A write that takes the nodes out of the cache whose rows it changes. -/
theorem write (h : Synced q t) {t' : Tables} {keep : Node → Bool} (ht : t'.Consistent)
    (hrow : ∀ n ∈ q.nodeCache, keep n → t'.row? n.id = t.row? n.id) :
    Synced ⟨t', q.nodeCache.filter keep⟩ t' where
  tables := rfl
  consistent := ht
  mirrors := by
    refine (h.mirrors.sublist (List.filter_subset_self _)).of_row? fun n hn => ?_
    exact hrow n (List.mem_of_mem_filter hn) (List.mem_filter.mp hn).2
  small := Nat.le_trans (List.length_filter_le _ _) h.small

/-- A call that leaves the nodes alone. -/
theorem pass (h : Synced q t) {t' : Tables} (ht : t'.Consistent) (hnodes : t'.nodes = t.nodes) :
    Synced { q with tables := t' } t' where
  tables := rfl
  consistent := ht
  mirrors := h.mirrors.of_row? fun _ _ => congrArg (List.find? _) hnodes
  small := h.small

theorem insertNode (h : Synced q t) (n : Node) : Synced (q.insertNode n) (t.insertNode n) := by
  obtain rfl := h.tables
  rw [QueryBuilder.insertNode]
  split
  · next hn =>
    refine h.write (h.consistent.insertNode n) fun m _ hkeep => ?_
    rw [h.consistent.row?_insertNode hn, if_neg (of_decide_eq_true hkeep)]
  · next hn => rwa [Tables.insertNode, if_neg hn]

theorem insertNodes (h : Synced q t) (ns : List Node) : Synced (q.insertNodes ns) (t.insertNodes ns) := by
  rw [QueryBuilder.insertNodes, Tables.insertNodes]
  induction ns generalizing q t with
  | nil => exact h
  | cons n ns ih => exact ih (h.insertNode n)

theorem updateNode (h : Synced q t) (n : Node) : Synced (q.updateNode n) (t.updateNode n) := by
  obtain rfl := h.tables
  refine h.write (h.consistent.updateNode n) fun m _ hkeep => ?_
  by_cases hn : n.Valid
  · rw [Tables.row?_updateNode hn, if_neg (of_decide_eq_true hkeep)]
  · rw [Tables.updateNode, if_neg hn]

theorem deleteNode (h : Synced q t) (id : String) : Synced (q.deleteNode id) (t.deleteNode id) := by
  obtain rfl := h.tables
  refine h.write (h.consistent.deleteNode id) fun m _ hkeep => ?_
  rw [Tables.deleteNode, h.consistent.row?_deleteNodesWhere]
  refine Option.ext fun row => Option.filter_eq_some_iff.trans (and_iff_left_of_imp fun hrow => ?_)
  rw [Tables.id_of_row? hrow]
  simpa using hkeep

/-- The cache goes by the file it has read, which is the file of the row. -/
theorem row?_deleteNodesByFile (h : Synced q t) {path : String} {n : Node} (hn : n ∈ q.nodeCache)
    (hkeep : n.filePath ≠ path) : (t.deleteNodesByFile path).row? n.id = t.row? n.id := by
  rw [Tables.deleteNodesByFile, h.consistent.row?_deleteNodesWhere]
  refine Option.ext fun row => Option.filter_eq_some_iff.trans (and_iff_left_of_imp fun hrow => ?_)
  have hread := h.mirrors n hn
  rw [Tables.getNodeById, hrow, Option.map_some, Option.some_inj] at hread
  have hpath : row.filePath = n.filePath := congrArg Node.filePath hread
  simpa [hpath] using hkeep

theorem deleteNodesByFile (h : Synced q t) (path : String) :
    Synced (q.deleteNodesByFile path) (t.deleteNodesByFile path) := by
  obtain rfl := h.tables
  exact h.write (h.consistent.deleteNodesByFile path) fun n hn hkeep =>
    h.row?_deleteNodesByFile hn (of_decide_eq_true hkeep)

theorem deleteFile (h : Synced q t) (path : String) : Synced (q.deleteFile path) (t.deleteFile path) := by
  obtain rfl := h.tables
  exact h.write (h.consistent.deleteFile path) fun n hn hkeep =>
    h.row?_deleteNodesByFile hn (of_decide_eq_true hkeep)

/-- **One call.** The answers are the same, and the cache is right again. -/
theorem call (h : Synced q t) (c : Call) :
    (cached.call q c).1 = (plain.call t c).1 ∧ Synced (cached.call q c).2 (plain.call t c).2 := by
  obtain rfl := h.tables
  have ht := consistent_plain h.consistent c
  cases c with
  | insertNode n => exact ⟨rfl, h.insertNode n⟩
  | insertNodes ns => exact ⟨rfl, h.insertNodes ns⟩
  | updateNode n => exact ⟨rfl, h.updateNode n⟩
  | deleteNode id => exact ⟨rfl, h.deleteNode id⟩
  | deleteNodesByFile path => exact ⟨rfl, h.deleteNodesByFile path⟩
  | getNodeById id =>
    obtain ⟨hnode, htables, hcache, hsmall⟩ := QueryBuilder.getNodeById_spec h.consistent h.mirrors h.small id
    exact ⟨congrArg Answer.node hnode, htables, h.consistent, hcache, hsmall⟩
  | getNodesByIds ids =>
    obtain ⟨hnodes, htables, hcache, hsmall⟩ := QueryBuilder.getNodesByIds_spec h.consistent h.mirrors h.small ids
    exact ⟨congrArg Answer.nodes (funext hnodes), htables, h.consistent, hcache, hsmall⟩
  | deleteFile path => exact ⟨rfl, h.deleteFile path⟩
  | clearCache => exact ⟨rfl, rfl, h.consistent, fun _ hn => absurd hn List.not_mem_nil, Nat.zero_le _⟩
  | clear => exact ⟨rfl, rfl, ht, fun _ hn => absurd hn List.not_mem_nil, Nat.zero_le _⟩
  | insertEdge e =>
    refine ⟨rfl, h.pass ht ?_⟩
    show (attempt q.tables (q.tables.insertEdge e)).2.nodes = _
    rw [Tables.insertEdge]
    split <;> rfl
  | insertUnresolvedRef u =>
    refine ⟨rfl, h.pass ht ?_⟩
    show (attempt q.tables (q.tables.insertUnresolvedRef u)).2.nodes = _
    rw [Tables.insertUnresolvedRef]
    split <;> rfl
  | insertUnresolvedRefsBatch us =>
    refine ⟨rfl, h.pass ht ?_⟩
    show (attempt q.tables (q.tables.insertUnresolvedRefsBatch us)).2.nodes = _
    cases hus : q.tables.insertUnresolvedRefsBatch us with
    | none => rfl
    | some t' => exact Tables.nodes_insertUnresolvedRefsBatch hus
  | insertEdges | deleteEdgesBySource | getOutgoingEdges | getIncomingEdges | upsertFile | deleteUnresolvedByNode
  | deleteSpecificResolvedReferences | clearUnresolvedReferences => exact ⟨rfl, h.pass ht rfl⟩

end Synced

/-- **The cache cannot be seen.** A connection that is opened on consistent tables answers every run of calls as the
tables themselves do, holds a thousand nodes at most, and leaves consistent tables behind. -/
theorem cached_run_eq {t : Tables} (ht : t.Consistent) (calls : List Call) :
    (cached.run ⟨t, []⟩ calls).1 = (plain.run t calls).1 ∧
      (cached.run ⟨t, []⟩ calls).2.tables = (plain.run t calls).2 ∧
      (cached.run ⟨t, []⟩ calls).2.nodeCache.length ≤ 1000 ∧ (plain.run t calls).2.Consistent := by
  have hstart : Synced ⟨t, []⟩ t :=
    { tables := rfl, consistent := ht, mirrors := fun _ h => absurd h List.not_mem_nil, small := Nat.zero_le _ }
  obtain ⟨hanswers, hlast⟩ := Server.run_eq_of_simulation (fun _ _ c h => h.call c) hstart calls
  exact ⟨hanswers, hlast.tables, hlast.small, hlast.consistent⟩

/-- A node that is read twice, deleted, and read once more. -/
theorem cached_run_eq_deleted :
    let n : Node := { id := "file:a.ts", kind := "file", name := "a.ts", qualifiedName := "a.ts", filePath := "a.ts",
                      language := "typescript" }
    let calls : List Call := [.insertNode n, .getNodeById n.id, .getNodeById n.id, .deleteNodesByFile "a.ts",
      .getNodeById n.id]
    (cached.run ⟨{}, []⟩ calls).1 = (plain.run {} calls).1 ∧
      (cached.run ⟨{}, []⟩ calls).2.tables = (plain.run {} calls).2 ∧
      (cached.run ⟨{}, []⟩ calls).2.nodeCache.length ≤ 1000 ∧ (plain.run {} calls).2.Consistent :=
  cached_run_eq Tables.consistent_empty _

end Devrouter.Engine
