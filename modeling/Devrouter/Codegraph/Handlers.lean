import Mathlib.Tactic.Common
import Devrouter.Lib.FirstBy

/-!
# The codegraph sidecar

Model of the graph handlers of the sidecar, `lib/handlers.js` under `codegraph`, over the tables `nodes` and
`edges` of its database, for the relations that `Client.Subgraph` walks. A query of the engine returns the
matching rows in the order of the table.

Every handler answers with edges `{from, to, file}`. Which of the two endpoints the file belongs to differs
from relation to relation; `Relation.filed` is the endpoint the Go client stores it under.
-/

namespace Devrouter.Codegraph

/-! ### The database -/

structure GraphNode where
  id : String
  kind : String
  name : String
  filePath : String
  deriving DecidableEq, Repr

structure GraphEdge where
  source : String
  target : String
  kind : String
  deriving DecidableEq, Repr

structure Database where
  nodes : List GraphNode
  edges : List GraphEdge

namespace Database

variable (db : Database)

def nodesByName (name : String) : List GraphNode := db.nodes.filter (·.name = name)

def nodeById (id : String) : Option GraphNode := db.nodes.find? (·.id = id)

def incomingEdges (target : String) (kinds : List String) : List GraphEdge :=
  db.edges.filter fun e => e.target = target ∧ e.kind ∈ kinds

def outgoingEdges (source : String) (kinds : List String) : List GraphEdge :=
  db.edges.filter fun e => e.source = source ∧ e.kind ∈ kinds

/-- A symbol or a route of that name is defined in the file. -/
def DefinedIn (name file : String) : Prop := ∃ n ∈ db.nodes, n.name = name ∧ n.filePath = file

end Database

/-! ### Answers -/

/-- An edge of an answer, with the file of one of its endpoints. -/
structure CallEdge where
  fromName : String
  toName : String
  filePath : String
  deriving DecidableEq, Repr

/-- Two endpoints that are not empty and not the same. -/
def CallEdge.proper (e : CallEdge) : Bool := e.fromName ≠ "" && e.toName ≠ "" && e.fromName ≠ e.toName

def CallEdge.key (e : CallEdge) : String := e.fromName ++ "|" ++ e.toName

/-- The loop of `dedupEdges`; `n` edges are out. -/
def dedupLoop (limit : ℕ) (seen : List String) (n : ℕ) : List CallEdge → List CallEdge
  | [] => []
  | e :: edges =>
    if !e.proper then dedupLoop limit seen n edges
    else if e.key ∈ seen then dedupLoop limit seen n edges
    else if limit > 0 ∧ n + 1 ≥ limit then [e]
    else e :: dedupLoop limit (e.key :: seen) (n + 1) edges

def dedupEdges (edges : List CallEdge) (limit : ℕ) : List CallEdge := dedupLoop limit [] 0 edges

section Handlers

variable (db : Database)

/-- The edges `callers` collects. -/
def callerEdges (name : String) : List CallEdge :=
  (db.nodesByName name).flatMap fun target =>
    (db.incomingEdges target.id ["calls"]).filterMap fun e =>
      (db.nodeById e.source).map fun src => ⟨src.name, name, src.filePath⟩

def callers (name : String) (limit : ℕ) : List CallEdge := dedupEdges (callerEdges db name) limit

/-- The edges `callees` collects. -/
def calleeEdges (name : String) : List CallEdge :=
  (db.nodesByName name).flatMap fun source =>
    (db.outgoingEdges source.id ["calls"]).filterMap fun e =>
      (db.nodeById e.target).map fun dst => ⟨name, dst.name, dst.filePath⟩

def callees (name : String) (limit : ℕ) : List CallEdge := dedupEdges (calleeEdges db name) limit

/-- The edges `importers` collects: from another file. -/
def importerEdges (name : String) : List CallEdge :=
  (db.nodesByName name).flatMap fun target =>
    (db.incomingEdges target.id ["references", "imports", "calls"]).filterMap fun e =>
      ((db.nodeById e.source).filter fun src => src.filePath ≠ target.filePath).map fun src =>
        ⟨src.name, name, src.filePath⟩

def importers (name : String) (limit : ℕ) : List CallEdge := dedupEdges (importerEdges db name) limit

/-- The edges `extendsRel` collects: to the parents of a symbol with the file of the symbol, then from its
children with theirs. -/
def extendsEdges (name : String) : List CallEdge :=
  (db.nodesByName name).flatMap fun node =>
    ((db.outgoingEdges node.id ["extends", "implements"]).filterMap fun e =>
      (db.nodeById e.target).map fun parent => ⟨name, parent.name, node.filePath⟩) ++
    ((db.incomingEdges node.id ["extends", "implements"]).filterMap fun e =>
      (db.nodeById e.source).map fun child => ⟨child.name, name, child.filePath⟩)

def extendsRel (name : String) (limit : ℕ) : List CallEdge := dedupEdges (extendsEdges db name) limit

def memberKinds : List String := ["method", "function", "property", "field"]

/-- The edges `methods` collects. -/
def methodEdges (name : String) : List CallEdge :=
  (db.nodesByName name).flatMap fun owner =>
    (db.outgoingEdges owner.id ["contains"]).filterMap fun e =>
      ((db.nodeById e.target).filter fun m => m.kind ∈ memberKinds).map fun m => ⟨name, m.name, m.filePath⟩

def methods (name : String) (limit : ℕ) : List CallEdge := dedupEdges (methodEdges db name) limit

/-- The edges `upstream` collects: from the callers of the callers of the symbol to its callers. -/
def upstreamEdges (name : String) : List CallEdge :=
  (db.nodesByName name).flatMap fun target =>
    ((db.incomingEdges target.id ["calls"]).filterMap fun pe => db.nodeById pe.source).flatMap fun parent =>
      (db.incomingEdges parent.id ["calls"]).filterMap fun ge =>
        (db.nodeById ge.source).map fun gp => ⟨gp.name, parent.name, gp.filePath⟩

/-- `upstream`. -/
def Database.upstream (name : String) (limit : ℕ) : List CallEdge := dedupEdges (upstreamEdges db name) limit

/-- A row of the join in `crossWire`. -/
structure WireRow where
  route : String
  routeFile : String
  handler : String
  handlerFile : String
  deriving DecidableEq, Repr

def wireRowLimit : ℕ := 2000

/-- The join of routes with their handlers. -/
def wireRows : List WireRow :=
  ((db.nodes.filter (·.kind = "route")).flatMap fun r =>
    (db.outgoingEdges r.id ["references", "calls"]).flatMap fun e =>
      (db.nodes.filter fun h => h.id = e.target ∧ h.kind ∈ ["function", "method", "class"]).map fun h =>
        ⟨r.name, r.filePath, h.name, h.filePath⟩).take wireRowLimit

inductive Direction
  | callees
  | callers
  deriving DecidableEq, Repr

/-- The edges `crossWire` collects. -/
def wireEdges (name : String) : Direction → List CallEdge
  | .callers => ((wireRows db).filter fun r => r.handler = name).map fun r => ⟨r.route, r.handler, r.handlerFile⟩
  | .callees =>
    ((wireRows db).filter fun r => r.route = name ∨ r.handler = name).map fun r => ⟨name, r.handler, r.handlerFile⟩

def crossWire (name : String) (direction : Direction) (limit : ℕ) : List CallEdge :=
  dedupEdges (wireEdges db name direction) limit

end Handlers

/-! ### The client's queries -/

/-- The queries of the client: by what they ask for. -/
inductive Relation
  | callers
  | callees
  | importers
  | extends
  | methods
  | crossWireCallees
  | crossWireCallers
  deriving DecidableEq, Repr

/-- The limit the client asks with. -/
def relationLimit : ℕ := 15

/-- What the sidecar answers. -/
def Database.handle (db : Database) (rel : Relation) (name : String) : List CallEdge :=
  match rel with
  | .callers => Codegraph.callers db name relationLimit
  | .callees => Codegraph.callees db name relationLimit
  | .importers => Codegraph.importers db name relationLimit
  | .extends => extendsRel db name relationLimit
  | .methods => Codegraph.methods db name relationLimit
  | .crossWireCallees => crossWire db name .callees relationLimit
  | .crossWireCallers => crossWire db name .callers relationLimit

/-- `graphEdges`: edges without both endpoints are left out. -/
def graphEdges (edges : List CallEdge) : List CallEdge := edges.filter fun e => e.fromName ≠ "" ∧ e.toName ≠ ""

/-- The limit of `UpstreamChain`. -/
def upstreamLimit : ℕ := 10

/-- `UpstreamChain`. -/
def Database.upstreamChain (db : Database) (name : String) : List CallEdge :=
  graphEdges (db.upstream name upstreamLimit)

/-- The endpoint that `Client.Subgraph` stores the file of an edge under. -/
def Relation.filed (rel : Relation) (e : CallEdge) : String :=
  match rel with
  | .callers | .importers | .extends | .crossWireCallers => e.fromName
  | .callees | .methods | .crossWireCallees => e.toName

/-! ### Deduplication -/

section Dedup

theorem dedupLoop_eq {limit : ℕ} (hlimit : 0 < limit) (seen : List String) {n : ℕ} (hn : n < limit)
    (edges : List CallEdge) :
    dedupLoop limit seen n edges = ((edges.filter (·.proper)).firstBy (·.key) seen).take (limit - n) := by
  induction edges generalizing seen n with
  | nil => exact List.take_nil.symm
  | cons e edges ih =>
    unfold dedupLoop
    by_cases hproper : e.proper = true
    · rw [List.filter_cons_of_pos hproper, List.firstBy_cons, if_neg (by simp [hproper])]
      by_cases hseen : e.key ∈ seen
      · rw [if_pos hseen, if_pos hseen, ih seen hn]
      · rw [if_neg hseen, if_neg hseen]
        obtain ⟨m, hm⟩ : ∃ m, limit - n = m + 1 := ⟨limit - n - 1, by omega⟩
        rw [hm, List.take_succ_cons]
        split_ifs with hlast
        · -- the limit is reached
          obtain rfl : m = 0 := by omega
          rw [List.take_zero]
        · rw [ih (e.key :: seen) (by omega : n + 1 < limit)]
          congr 2
          omega
    · rw [List.filter_cons_of_neg hproper, if_pos (by simpa using hproper), ih seen hn]

/-- **`dedupEdges`** keeps the first edges of distinct keys, up to the limit. -/
theorem dedupEdges_eq {limit : ℕ} (hlimit : 0 < limit) (edges : List CallEdge) :
    dedupEdges edges limit = ((edges.filter (·.proper)).firstBy (·.key) []).take limit :=
  dedupLoop_eq hlimit [] hlimit edges

theorem mem_of_mem_dedupEdges {limit : ℕ} (hlimit : 0 < limit) {edges : List CallEdge} {e : CallEdge}
    (h : e ∈ dedupEdges edges limit) : e ∈ edges ∧ e.proper = true := by
  rw [dedupEdges_eq hlimit] at h
  exact List.mem_filter.mp (List.firstBy_sublist.subset (List.mem_of_mem_take h))

end Dedup

end Devrouter.Codegraph
