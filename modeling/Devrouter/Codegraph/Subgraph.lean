import Mathlib.Data.List.Sort
import Devrouter.Codegraph.Handlers
import Devrouter.Lib.GoText

/-!
# The subgraph of a flow

Model of `Client.Subgraph` in `internal/codegraph/client.go`: from every seed a walk down the calls, a walk up
the calls and the structural neighbours, over one map of nodes in which the first write of a name wins.

The sidecar is asked one query after another. What it answers is a function of the number of the query, so
that an answer can fail at one time and come at another.
-/

namespace Devrouter.Codegraph

/-! ### Nodes and edges -/

inductive Role
  | seed
  | caller
  | callee
  | method
  | extends
  | importer
  deriving DecidableEq, Repr

structure SubgraphNode where
  name : String
  filePath : String
  role : Role
  depth : ℤ
  deriving DecidableEq, Repr

structure SubgraphEdge where
  fromName : String
  toName : String
  etype : String
  deriving DecidableEq, Repr

def SubgraphEdge.key (e : SubgraphEdge) : String := e.etype ++ "|" ++ e.fromName ++ "|" ++ e.toName

structure Subgraph where
  seeds : List String
  nodes : List SubgraphNode
  edges : List SubgraphEdge
  truncated : Bool
  deriving DecidableEq, Repr

def subgraphMaxSeeds : ℕ := 8

def subgraphMaxNodes : ℕ := 500

def subgraphMaxEdges : ℕ := 1000

def subgraphMaxDepth : ℕ := 5

def subgraphMaxFrontier : ℕ := 40

/-! ### The sidecar -/

/-- A query of a walk: for the edges of a relation, or for the number of symbols with a name. -/
inductive Query
  | edges (rel : Relation) (name : String)
  | nameHits (term : String)
  deriving DecidableEq, Repr

/-- What the sidecar answers to the query with the given number; none for an error. -/
structure Sidecar where
  answer : ℕ → Relation → String → Option (List CallEdge)
  nameHits : ℕ → String → Option ℤ

/-- The variables of `Subgraph`: the nodes and edges in the order they were added. -/
structure Walk where
  nodes : List SubgraphNode
  edges : List SubgraphEdge
  truncated : Bool
  /-- The queries so far. -/
  log : List Query
  deriving DecidableEq, Repr

def Walk.empty : Walk := ⟨[], [], false, []⟩

namespace Walk

/-- A name is in the map of nodes. -/
def Has (w : Walk) (name : String) : Prop := ∃ n ∈ w.nodes, n.name = name

instance (w : Walk) (name : String) : Decidable (w.Has name) :=
  inferInstanceAs (Decidable (∃ n ∈ w.nodes, n.name = name))

/-- Whether the node was added, with the walk after it. -/
def upsertNode (w : Walk) (name file : String) (role : Role) (depth : ℤ) : Walk × Bool :=
  if name = "" then (w, false)
  else if w.Has name then (w, false)
  else if w.nodes.length ≥ subgraphMaxNodes then ({ w with truncated := true }, false)
  else ({ w with nodes := w.nodes ++ [⟨name, file, role, depth⟩] }, true)

def addEdge (w : Walk) (e : SubgraphEdge) : Walk :=
  if e.fromName = "" ∨ e.toName = "" ∨ e.fromName = e.toName then w
  else if w.edges.any (·.key = e.key) then w
  else if w.edges.length ≥ subgraphMaxEdges then { w with truncated := true }
  else { w with edges := w.edges ++ [e] }

/-- A query of a relation, and what the client makes of the answer. -/
def query (S : Sidecar) (w : Walk) (rel : Relation) (name : String) : Option (List CallEdge) × Walk :=
  ((S.answer w.log.length rel name).map graphEdges, { w with log := w.log ++ [.edges rel name] })

def queryHits (S : Sidecar) (w : Walk) (term : String) : Option ℤ × Walk :=
  (S.nameHits w.log.length term, { w with log := w.log ++ [.nameHits term] })

end Walk

/-! ### The walk along the calls -/

/-- What differs between `expandCalleesBFS` and `expandCallersBFS`. -/
structure CallDirection where
  calls : Relation
  wires : Relation
  role : Role
  sign : ℤ

def downstream : CallDirection := ⟨.callees, .crossWireCallees, .callee, 1⟩

def upstream : CallDirection := ⟨.callers, .crossWireCallers, .caller, -1⟩

/-- The edges of an answer: every far end is put on the map, and into the next frontier when it is new. -/
def takeEdges (rel : Relation) (role : Role) (depth : ℤ) (etype : String) :
    List CallEdge → Walk × List String → Walk × List String
  | [], acc => acc
  | e :: es, (w, next) =>
    let (w, added) := w.upsertNode (rel.filed e) e.filePath role depth
    takeEdges rel role depth etype es
      (w.addEdge ⟨e.fromName, e.toName, etype⟩, if added then next ++ [rel.filed e] else next)

/-- A step of a walk: where it stands, the next frontier, and whether the walk is over. -/
abbrev Expansion := Walk × List String × Bool

/-- One query for a frontier node with the loop over its answer. Only the answers of `CALLS` are checked
against the limit. -/
def takeAnswer (S : Sidecar) (rel : Relation) (flagged : Bool) (role : Role) (depth : ℤ) (etype name : String)
    (w : Walk) (next : List String) : Expansion :=
  let (answer, w) := w.query S rel name
  match answer with
  | none => (w, next, false)
  | some es =>
    let w := if flagged && es.length ≥ relationLimit then { w with truncated := true } else w
    let (w, next) := takeEdges rel role depth etype es (w, next)
    (w, next, w.nodes.length ≥ subgraphMaxNodes)

/-- The round of a frontier node: its calls, then its wires. -/
def expandNode (S : Sidecar) (dir : CallDirection) (d : ℕ) (name : String) (w : Walk) (next : List String) :
    Expansion :=
  let (w, next, stop) := takeAnswer S dir.calls true dir.role (dir.sign * d) "CALLS" name w next
  if stop then (w, next, true)
  else takeAnswer S dir.wires false dir.role (dir.sign * d) "INVOKES" name w next

def expandLevel (S : Sidecar) (dir : CallDirection) (d : ℕ) : List String → Walk → List String → Expansion
  | [], w, next => (w, next, false)
  | name :: names, w, next =>
    let (w, next, stop) := expandNode S dir d name w next
    if stop then (w, next, true) else expandLevel S dir d names w next

/-- The cut of a frontier that is too wide. -/
def trimFrontier (w : Walk) (next : List String) : Walk × List String :=
  if next.length > subgraphMaxFrontier then
    ({ w with truncated := true }, (next.insertionSort (· ≤ ·)).take subgraphMaxFrontier)
  else (w, next)

/-- The levels of a walk, from depth `d` on; `levels` are left. -/
def expandBFS (S : Sidecar) (dir : CallDirection) : ℕ → ℕ → List String → Walk → Walk
  | 0, _, _, w => w
  | levels + 1, d, frontier, w =>
    if frontier = [] then w
    else
      let (w, next, stop) := expandLevel S dir d frontier w []
      if stop then w
      else
        let (w, next) := trimFrontier w next
        expandBFS S dir levels (d + 1) next w

def expandCalleesBFS (S : Sidecar) (seedName : String) (w : Walk) : Walk :=
  expandBFS S downstream subgraphMaxDepth 1 [seedName] w

def expandCallersBFS (S : Sidecar) (seedName : String) (w : Walk) : Walk :=
  expandBFS S upstream subgraphMaxDepth 1 [seedName] w

/-! ### Structural neighbours -/

/-- The loop over one structural answer. -/
def takeAux (rel : Relation) (role : Role) (edge : CallEdge → SubgraphEdge) : List CallEdge → Walk → Walk
  | [], w => w
  | e :: es, w =>
    takeAux rel role edge es (((w.upsertNode (rel.filed e) e.filePath role 1).1).addEdge (edge e))

/-- One structural relation of a seed. -/
def auxRelation (S : Sidecar) (rel : Relation) (role : Role) (edge : CallEdge → SubgraphEdge) (seedName : String)
    (w : Walk) : Walk :=
  let (answer, w) := w.query S rel seedName
  match answer with
  | none => w
  | some es => takeAux rel role edge es w

def addAux (S : Sidecar) (seedName : String) (w : Walk) : Walk :=
  let w := auxRelation S .importers .importer (fun e => ⟨e.fromName, seedName, "IMPORTS"⟩) seedName w
  let w := auxRelation S .extends .extends (fun e => ⟨e.fromName, seedName, "EXTENDS"⟩) seedName w
  auxRelation S .methods .method (fun e => ⟨e.fromName, e.toName, "HAS_METHOD"⟩) seedName w

/-! ### Seeds -/

/-- `snapshotSeed`: the walk after it, and how many nodes it added. -/
def snapshotSeed (S : Sidecar) (seedName : String) (w : Walk) : Walk × ℕ :=
  let before := w.nodes.length
  let w := expandCalleesBFS S seedName w
  let w := expandCallersBFS S seedName w
  let w := addAux S seedName w
  (w, w.nodes.length - before)

def commonShortSymbols : List String :=
  ["init", "new", "run", "start", "stop", "close", "open", "read", "write", "get", "set", "add", "do", "main"]

def bareTailRarityCeiling : ℤ := 30

/-- `bareTail`: what is behind the last dot, when it is long enough. -/
def bareTail (name : String) : String :=
  let tail := String.ofList (name.toList.reverse.takeWhile (· ≠ '.')).reverse
  if '.' ∉ name.toList ∨ tail = "" ∨ byteLen tail < 3 then "" else tail

/-- The name a seed that added nothing falls back to, if any. -/
def fallbackTail (S : Sidecar) (L : RuneLower) (seed : String) (w : Walk) : Option String × Walk :=
  let tail := bareTail seed
  if tail = "" ∨ tail = seed then (none, w)
  else if commonShortSymbols.contains (L.lower tail) then (none, w)
  else
    let (hits, w) := w.queryHits S tail
    match hits with
    | some n => (if bareTailRarityCeiling < n then none else some tail, w)
    | none => (some tail, w)

/-- The round of a seed in the main loop. -/
def walkSeed (S : Sidecar) (L : RuneLower) (w : Walk) (seed : String) : Walk :=
  let (w, _) := w.upsertNode seed "" .seed 0
  let (w, added) := snapshotSeed S seed w
  if added > 0 then w
  else
    let (tail, w) := fallbackTail S L seed w
    match tail with
    | none => w
    | some tail =>
      let (w, _) := w.upsertNode tail "" .seed 0
      (snapshotSeed S tail w).1

/-- The seeds that are used: trimmed, not empty, without repetitions. -/
def cleanedSeeds (seeds : List String) : List String :=
  (((seeds.map trimSpace).filter (· ≠ "")).eraseDups).take subgraphMaxSeeds

/-! ### The result -/

def roleRank : Role → ℕ
  | .seed => 0
  | .caller => 1
  | .callee => 2
  | .method => 3
  | .extends => 4
  | .importer => 5

def nodeBefore (a b : SubgraphNode) : Bool :=
  if roleRank a.role ≠ roleRank b.role then roleRank a.role < roleRank b.role else a.name ≤ b.name

def edgeBefore (a b : SubgraphEdge) : Bool :=
  if a.etype ≠ b.etype then a.etype < b.etype
  else if a.fromName ≠ b.fromName then a.fromName < b.fromName
  else a.toName ≤ b.toName

/-- The walk over all seeds. -/
def walkSeeds (S : Sidecar) (L : RuneLower) (seeds : List String) : Walk :=
  (cleanedSeeds seeds).foldl (walkSeed S L) .empty

/-- The result, in its stable order. -/
def Walk.toSubgraph (w : Walk) (seeds : List String) : Subgraph where
  seeds := seeds
  nodes := w.nodes.insertionSort fun a b => nodeBefore a b
  edges := w.edges.insertionSort fun a b => edgeBefore a b
  truncated := w.truncated

/-- `Client.Subgraph`; none for its error when no seed is usable. -/
def subgraph (S : Sidecar) (L : RuneLower) (seeds : List String) : Option Subgraph :=
  if cleanedSeeds seeds = [] then none else some ((walkSeeds S L seeds).toSubgraph (cleanedSeeds seeds))

end Devrouter.Codegraph
