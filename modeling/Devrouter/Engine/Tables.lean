import Mathlib.Data.List.Dedup
import Mathlib.Tactic.Common

/-!
# The tables of the engine

Model of the statements of `QueryBuilder` in `codegraph/src/db/queries.ts` on the tables of `db/schema.sql`, without
the cache of nodes. A table lists its rows in the order they were inserted. A statement without `ORDER BY` gives
its rows in that order here; SQL leaves the order open, and no result below looks at it.

The foreign keys cascade: whatever deletes a node also deletes the edges at either end of it and the references
from it. `INSERT OR REPLACE` is such a deletion when the id is taken.

`Consistent` is what the statements keep: the ids are distinct, and edges and references lead to nodes.
-/

namespace Devrouter.Engine

/-- A symbol, as the extraction hands it over. -/
structure Node where
  id : String
  kind : String
  name : String
  qualifiedName : String
  filePath : String
  language : String
  startLine : ℕ := 0
  endLine : ℕ := 0
  startColumn : ℕ := 0
  endColumn : ℕ := 0
  docstring : Option String := none
  signature : Option String := none
  visibility : Option String := none
  isExported : Option Bool := none
  isAsync : Option Bool := none
  isStatic : Option Bool := none
  isAbstract : Option Bool := none
  decorators : Option (List String) := none
  typeParameters : Option (List String) := none
  returnType : Option String := none
  updatedAt : ℕ := 0
  deriving DecidableEq, Repr

/-- A row of `nodes`. The two lists are stored as JSON. -/
structure NodeRow where
  id : String
  kind : String
  name : String
  qualifiedName : String
  filePath : String
  language : String
  startLine : ℕ
  endLine : ℕ
  startColumn : ℕ
  endColumn : ℕ
  docstring : Option String
  signature : Option String
  visibility : Option String
  isExported : Bool
  isAsync : Bool
  isStatic : Bool
  isAbstract : Bool
  decorators : Option (List String)
  typeParameters : Option (List String)
  returnType : Option String
  updatedAt : ℕ
  deriving DecidableEq, Repr

/-- The parameters of the statements that write a node. A missing flag is stored as 0. -/
def nodeToRow (n : Node) : NodeRow where
  id := n.id
  kind := n.kind
  name := n.name
  qualifiedName := n.qualifiedName
  filePath := n.filePath
  language := n.language
  startLine := n.startLine
  endLine := n.endLine
  startColumn := n.startColumn
  endColumn := n.endColumn
  docstring := n.docstring
  signature := n.signature
  visibility := n.visibility
  isExported := n.isExported.getD false
  isAsync := n.isAsync.getD false
  isStatic := n.isStatic.getD false
  isAbstract := n.isAbstract.getD false
  decorators := n.decorators
  typeParameters := n.typeParameters
  returnType := n.returnType
  updatedAt := n.updatedAt

def rowToNode (r : NodeRow) : Node where
  id := r.id
  kind := r.kind
  name := r.name
  qualifiedName := r.qualifiedName
  filePath := r.filePath
  language := r.language
  startLine := r.startLine
  endLine := r.endLine
  startColumn := r.startColumn
  endColumn := r.endColumn
  docstring := r.docstring
  signature := r.signature
  visibility := r.visibility
  isExported := some r.isExported
  isAsync := some r.isAsync
  isStatic := some r.isStatic
  isAbstract := some r.isAbstract
  decorators := r.decorators
  typeParameters := r.typeParameters
  returnType := r.returnType
  updatedAt := r.updatedAt

@[simp] theorem nodeToRow_id (n : Node) : (nodeToRow n).id = n.id := rfl

@[simp] theorem nodeToRow_filePath (n : Node) : (nodeToRow n).filePath = n.filePath := rfl

@[simp] theorem rowToNode_id (r : NodeRow) : (rowToNode r).id = r.id := rfl

@[simp] theorem rowToNode_kind (r : NodeRow) : (rowToNode r).kind = r.kind := rfl

@[simp] theorem rowToNode_filePath (r : NodeRow) : (rowToNode r).filePath = r.filePath := rfl

/-- A row that was read is written as it was. -/
@[simp] theorem nodeToRow_rowToNode (r : NodeRow) : nodeToRow (rowToNode r) = r := rfl

/-- The fields without which a node is not written. -/
def Node.Valid (n : Node) : Prop := n.id ≠ "" ∧ n.kind ≠ "" ∧ n.name ≠ "" ∧ n.filePath ≠ "" ∧ n.language ≠ ""

instance (n : Node) : Decidable n.Valid := inferInstanceAs (Decidable (_ ∧ _))

structure Edge where
  source : String
  target : String
  kind : String
  /-- The JSON text of the metadata. -/
  metadata : Option String := none
  line : Option ℕ := none
  column : Option ℕ := none
  provenance : Option String := none
  deriving DecidableEq, Repr

structure FileRecord where
  path : String
  contentHash : String
  language : String
  size : ℕ
  modifiedAt : ℕ
  indexedAt : ℕ
  nodeCount : ℕ
  /-- The messages of the errors; no list is stored when there are none. -/
  errors : List String := []
  deriving DecidableEq, Repr

structure UnresolvedReference where
  fromNodeId : String
  referenceName : String
  referenceKind : String
  line : ℕ
  column : ℕ
  filePath : Option String := none
  language : Option String := none
  candidates : Option (List String) := none
  deriving DecidableEq, Repr

structure Tables where
  nodes : List NodeRow := []
  edges : List Edge := []
  files : List FileRecord := []
  unresolvedRefs : List UnresolvedReference := []
  deriving DecidableEq, Repr

namespace Tables

variable (t : Tables)

/-! ### Reads -/

def ids : List String := t.nodes.map (·.id)

/-- The row with an id. -/
def row? (id : String) : Option NodeRow := t.nodes.find? (·.id = id)

def getNodeById (id : String) : Option Node := (t.row? id).map rowToNode

def getNodesByFile (path : String) : List Node := (t.nodes.filter (·.filePath = path)).map rowToNode

def getNodesByKind (kind : String) : List Node := (t.nodes.filter (·.kind = kind)).map rowToNode

/-- No kinds means any kind. -/
def getOutgoingEdges (source : String) (kinds : List String) : List Edge :=
  t.edges.filter fun e => e.source = source ∧ (kinds = [] ∨ e.kind ∈ kinds)

def getIncomingEdges (target : String) (kinds : List String) : List Edge :=
  t.edges.filter fun e => e.target = target ∧ (kinds = [] ∨ e.kind ∈ kinds)

def getFileByPath (path : String) : Option FileRecord := t.files.find? (·.path = path)

/-- The files of the symbols that `edges`, all but the `contains` ones, lead to from a symbol of the file. -/
def getDependencyFilePaths (path : String) : List String :=
  (t.edges.filterMap fun e => do
    let src ← t.row? e.source
    let tgt ← t.row? e.target
    if src.filePath = path ∧ e.kind ≠ "contains" ∧ tgt.filePath ≠ path then some tgt.filePath else none).dedup

/-- The files of the symbols from which `edges` lead to a symbol of the file. -/
def getDependentFilePaths (path : String) : List String :=
  (t.edges.filterMap fun e => do
    let src ← t.row? e.source
    let tgt ← t.row? e.target
    if tgt.filePath = path ∧ e.kind ≠ "contains" ∧ src.filePath ≠ path then some src.filePath else none).dedup

/-! ### Writes -/

/-- Delete the nodes of a kind, and with them what refers to them. -/
def deleteNodesWhere (gone : NodeRow → Bool) : Tables :=
  let lost := (t.nodes.filter gone).map (·.id)
  { t with
    nodes := t.nodes.filter fun r => !gone r
    edges := t.edges.filter fun e => e.source ∉ lost ∧ e.target ∉ lost
    unresolvedRefs := t.unresolvedRefs.filter fun u => u.fromNodeId ∉ lost }

def deleteNode (id : String) : Tables := t.deleteNodesWhere (·.id = id)

def deleteNodesByFile (path : String) : Tables := t.deleteNodesWhere (·.filePath = path)

/-- `INSERT OR REPLACE`. -/
def insertNode (n : Node) : Tables :=
  if n.Valid then
    let t' := t.deleteNode n.id
    { t' with nodes := t'.nodes ++ [nodeToRow n] }
  else t

def insertNodes (ns : List Node) : Tables := ns.foldl insertNode t

def updateNode (n : Node) : Tables :=
  if n.Valid then { t with nodes := t.nodes.map fun r => if r.id = n.id then nodeToRow n else r } else t

/-- One `INSERT`. It fails when an end is missing, since `OR IGNORE` does not cover foreign keys. -/
def insertEdge (e : Edge) : Option Tables :=
  if e.source ∈ t.ids ∧ e.target ∈ t.ids then some { t with edges := t.edges ++ [e] } else none

/-- The edges whose ends are there are inserted, in one transaction. -/
def insertEdges (es : List Edge) : Tables :=
  { t with edges := t.edges ++ es.filter fun e => e.source ∈ t.ids ∧ e.target ∈ t.ids }

def deleteEdgesBySource (source : String) : Tables := { t with edges := t.edges.filter (·.source ≠ source) }

def upsertFile (f : FileRecord) : Tables :=
  { t with
    files := if t.files.any (·.path = f.path) then t.files.map fun g => if g.path = f.path then f else g
      else t.files ++ [f] }

/-- The row of a file and its nodes. -/
def deleteFile (path : String) : Tables :=
  let t' := t.deleteNodesByFile path
  { t' with files := t'.files.filter (·.path ≠ path) }

def insertUnresolvedRef (u : UnresolvedReference) : Option Tables :=
  if u.fromNodeId ∈ t.ids then
    some { t with
      unresolvedRefs := t.unresolvedRefs ++
        [{ u with filePath := some (u.filePath.getD ""), language := some (u.language.getD "unknown") }] }
  else none

/-- All of them, or none when one fails. -/
def insertUnresolvedRefsBatch (us : List UnresolvedReference) : Option Tables :=
  us.foldlM insertUnresolvedRef t

def deleteUnresolvedByNode (id : String) : Tables :=
  { t with unresolvedRefs := t.unresolvedRefs.filter (·.fromNodeId ≠ id) }

/-- Every reference with one of the keys is deleted. -/
def deleteSpecificResolvedReferences (keys : List (String × String × String)) : Tables :=
  { t with
    unresolvedRefs := t.unresolvedRefs.filter fun u => (u.fromNodeId, u.referenceName, u.referenceKind) ∉ keys }

def clearUnresolvedReferences : Tables := { t with unresolvedRefs := [] }

def clear : Tables := {}

/-! ### Consistency -/

/-- **Consistency.** -/
structure Consistent : Prop where
  nodup_ids : t.ids.Nodup
  valid : ∀ r ∈ t.nodes, (rowToNode r).Valid
  source_mem : ∀ e ∈ t.edges, e.source ∈ t.ids
  target_mem : ∀ e ∈ t.edges, e.target ∈ t.ids
  fromNode_mem : ∀ u ∈ t.unresolvedRefs, u.fromNodeId ∈ t.ids
  nodup_paths : (t.files.map (·.path)).Nodup

variable {t}

theorem mem_ids {id : String} : id ∈ t.ids ↔ ∃ r ∈ t.nodes, r.id = id := List.mem_map

theorem consistent_empty : Consistent {} where
  nodup_ids := List.nodup_nil
  valid := fun _ h => absurd h List.not_mem_nil
  source_mem := fun _ h => absurd h List.not_mem_nil
  target_mem := fun _ h => absurd h List.not_mem_nil
  fromNode_mem := fun _ h => absurd h List.not_mem_nil
  nodup_paths := List.nodup_nil

/-- A deletion takes the ids away that it deletes, and no others. -/
theorem Consistent.mem_ids_deleteNodesWhere (h : t.Consistent) {gone : NodeRow → Bool} {id : String} :
    id ∈ (t.deleteNodesWhere gone).ids ↔ id ∈ t.ids ∧ id ∉ (t.nodes.filter gone).map (·.id) := by
  rw [mem_ids, mem_ids]
  constructor
  · rintro ⟨r, hr, rfl⟩
    obtain ⟨hmem, hkeep⟩ := List.mem_filter.mp hr
    refine ⟨⟨r, hmem, rfl⟩, fun hlost => ?_⟩
    obtain ⟨r', hr', hid⟩ := List.mem_map.mp hlost
    obtain ⟨hmem', hgone⟩ := List.mem_filter.mp hr'
    -- ids are distinct, so the deleted row would be this one
    have heq : r' = r := List.inj_on_of_nodup_map h.nodup_ids hmem' hmem hid
    rw [heq] at hgone
    rw [hgone] at hkeep
    exact Bool.false_ne_true hkeep
  · rintro ⟨⟨r, hr, rfl⟩, hlost⟩
    refine ⟨r, List.mem_filter.mpr ⟨hr, ?_⟩, rfl⟩
    by_contra hgone
    exact hlost (List.mem_map.mpr ⟨r, List.mem_filter.mpr ⟨hr, by simpa using hgone⟩, rfl⟩)

theorem Consistent.deleteNodesWhere (h : t.Consistent) (gone : NodeRow → Bool) :
    (t.deleteNodesWhere gone).Consistent where
  nodup_ids := h.nodup_ids.sublist (List.filter_sublist.map _)
  valid := fun r hr => h.valid r (List.mem_of_mem_filter hr)
  source_mem := by
    intro e he
    obtain ⟨hmem, hkeep⟩ := List.mem_filter.mp he
    exact h.mem_ids_deleteNodesWhere.mpr ⟨h.source_mem e hmem, (of_decide_eq_true hkeep).1⟩
  target_mem := by
    intro e he
    obtain ⟨hmem, hkeep⟩ := List.mem_filter.mp he
    exact h.mem_ids_deleteNodesWhere.mpr ⟨h.target_mem e hmem, (of_decide_eq_true hkeep).2⟩
  fromNode_mem := by
    intro u hu
    obtain ⟨hmem, hkeep⟩ := List.mem_filter.mp hu
    exact h.mem_ids_deleteNodesWhere.mpr ⟨h.fromNode_mem u hmem, of_decide_eq_true hkeep⟩
  nodup_paths := h.nodup_paths

theorem Consistent.deleteNode (h : t.Consistent) (id : String) : (t.deleteNode id).Consistent :=
  h.deleteNodesWhere _

theorem Consistent.deleteNodesByFile (h : t.Consistent) (path : String) : (t.deleteNodesByFile path).Consistent :=
  h.deleteNodesWhere _

theorem notMem_ids_deleteNode {id : String} : id ∉ (t.deleteNode id).ids := by
  intro hmem
  obtain ⟨r, hr, hid⟩ := mem_ids.mp hmem
  have hkeep := (List.mem_filter.mp hr).2
  simp [hid] at hkeep

theorem Consistent.insertNode (h : t.Consistent) (n : Node) : (t.insertNode n).Consistent := by
  rw [Tables.insertNode]
  split
  · next hvalid =>
    have hdel := h.deleteNode n.id
    have hids : Tables.ids { t.deleteNode n.id with nodes := (t.deleteNode n.id).nodes ++ [nodeToRow n] } =
        (t.deleteNode n.id).ids ++ [n.id] := List.map_append
    constructor
    · rw [hids]
      refine List.nodup_append'.mpr ⟨hdel.nodup_ids, List.nodup_singleton _, fun id hid hn => ?_⟩
      rw [List.mem_singleton.mp hn] at hid
      exact notMem_ids_deleteNode hid
    · intro r hr
      cases List.mem_append.mp hr with
      | inl hold => exact hdel.valid r hold
      | inr hnew => exact (List.mem_singleton.mp hnew) ▸ hvalid
    · exact fun e he => hids ▸ List.mem_append_left _ (hdel.source_mem e he)
    · exact fun e he => hids ▸ List.mem_append_left _ (hdel.target_mem e he)
    · exact fun u hu => hids ▸ List.mem_append_left _ (hdel.fromNode_mem u hu)
    · exact hdel.nodup_paths
  · exact h

theorem Consistent.insertNodes (h : t.Consistent) (ns : List Node) : (t.insertNodes ns).Consistent := by
  rw [Tables.insertNodes]
  induction ns generalizing t with
  | nil => exact h
  | cons n ns ih => exact ih (h.insertNode n)

/-- An update leaves the ids as they are. -/
theorem ids_map_update (n : Node) :
    ids { t with nodes := t.nodes.map fun r => if r.id = n.id then nodeToRow n else r } = t.ids := by
  rw [ids, ids, List.map_map]
  refine List.map_congr_left fun r _ => ?_
  rw [Function.comp_apply]
  split
  · next hid => exact hid.symm
  · rfl

theorem Consistent.updateNode (h : t.Consistent) (n : Node) : (t.updateNode n).Consistent := by
  rw [Tables.updateNode]
  split
  · next hvalid =>
    have hids := ids_map_update (t := t) n
    constructor
    · exact hids ▸ h.nodup_ids
    · intro r hr
      obtain ⟨r', hr', rfl⟩ := List.mem_map.mp hr
      split
      · exact hvalid
      · exact h.valid r' hr'
    · exact fun e he => hids ▸ h.source_mem e he
    · exact fun e he => hids ▸ h.target_mem e he
    · exact fun u hu => hids ▸ h.fromNode_mem u hu
    · exact h.nodup_paths
  · exact h

theorem Consistent.insertEdge (h : t.Consistent) {e : Edge} {t' : Tables} (ht : t.insertEdge e = some t') :
    t'.Consistent := by
  obtain ⟨hends, ⟨⟩⟩ := Option.ite_none_right_eq_some.mp ht
  refine { h with source_mem := fun d hd => ?_, target_mem := fun d hd => ?_ }
  · cases List.mem_append.mp hd with
    | inl hold => exact h.source_mem d hold
    | inr hnew => exact (List.mem_singleton.mp hnew) ▸ hends.1
  · cases List.mem_append.mp hd with
    | inl hold => exact h.target_mem d hold
    | inr hnew => exact (List.mem_singleton.mp hnew) ▸ hends.2

theorem Consistent.insertEdges (h : t.Consistent) (es : List Edge) : (t.insertEdges es).Consistent := by
  have hends : ∀ e ∈ es.filter fun e => e.source ∈ t.ids ∧ e.target ∈ t.ids, e.source ∈ t.ids ∧ e.target ∈ t.ids :=
    fun e he => of_decide_eq_true (List.mem_filter.mp he).2
  refine { h with source_mem := fun e he => ?_, target_mem := fun e he => ?_ }
  · exact (List.mem_append.mp he).elim (h.source_mem e) fun hnew => (hends e hnew).1
  · exact (List.mem_append.mp he).elim (h.target_mem e) fun hnew => (hends e hnew).2

theorem Consistent.deleteEdgesBySource (h : t.Consistent) (source : String) :
    (t.deleteEdgesBySource source).Consistent :=
  { h with
    source_mem := fun e he => h.source_mem e (List.mem_of_mem_filter he)
    target_mem := fun e he => h.target_mem e (List.mem_of_mem_filter he) }

theorem Consistent.upsertFile (h : t.Consistent) (f : FileRecord) : (t.upsertFile f).Consistent := by
  refine { h with nodup_paths := ?_ }
  show ((if t.files.any (·.path = f.path) then t.files.map fun g => if g.path = f.path then f else g
    else t.files ++ [f]).map (·.path)).Nodup
  split
  · -- the paths stay as they are
    have hpaths : (t.files.map fun g => if g.path = f.path then f else g).map (·.path) = t.files.map (·.path) := by
      rw [List.map_map]
      refine List.map_congr_left fun g _ => ?_
      rw [Function.comp_apply]
      split
      · next hpath => exact hpath.symm
      · rfl
    exact hpaths ▸ h.nodup_paths
  · next hnew =>
    rw [List.map_append]
    refine List.nodup_append'.mpr ⟨h.nodup_paths, List.nodup_singleton _, fun path hold hpath => hnew ?_⟩
    obtain ⟨g, hg, rfl⟩ := List.mem_map.mp hold
    exact List.any_eq_true.mpr ⟨g, hg, decide_eq_true (List.mem_singleton.mp hpath)⟩

theorem Consistent.deleteFile (h : t.Consistent) (path : String) : (t.deleteFile path).Consistent :=
  { h.deleteNodesByFile path with nodup_paths := h.nodup_paths.sublist (List.filter_sublist.map _) }

theorem Consistent.insertUnresolvedRef (h : t.Consistent) {u : UnresolvedReference} {t' : Tables}
    (ht : t.insertUnresolvedRef u = some t') : t'.Consistent := by
  obtain ⟨hfrom, ⟨⟩⟩ := Option.ite_none_right_eq_some.mp ht
  refine { h with fromNode_mem := fun v hv => ?_ }
  cases List.mem_append.mp hv with
  | inl hold => exact h.fromNode_mem v hold
  | inr hnew =>
    obtain rfl := List.mem_singleton.mp hnew
    exact hfrom

/-- References do not touch the nodes. -/
theorem nodes_insertUnresolvedRefsBatch {us : List UnresolvedReference} {t' : Tables}
    (ht : t.insertUnresolvedRefsBatch us = some t') : t'.nodes = t.nodes := by
  rw [Tables.insertUnresolvedRefsBatch] at ht
  induction us generalizing t with
  | nil => exact Option.some.inj ht ▸ rfl
  | cons u us ih =>
    obtain ⟨t₁, h₁, h₂⟩ := Option.bind_eq_some_iff.mp ht
    obtain ⟨-, ⟨⟩⟩ := Option.ite_none_right_eq_some.mp h₁
    exact (ih h₂).trans rfl

theorem Consistent.insertUnresolvedRefsBatch (h : t.Consistent) {us : List UnresolvedReference} {t' : Tables}
    (ht : t.insertUnresolvedRefsBatch us = some t') : t'.Consistent := by
  rw [Tables.insertUnresolvedRefsBatch] at ht
  induction us generalizing t with
  | nil => exact Option.some.inj ht ▸ h
  | cons u us ih =>
    obtain ⟨t₁, h₁, h₂⟩ := Option.bind_eq_some_iff.mp ht
    exact ih (h.insertUnresolvedRef h₁) h₂

/-- References can go at any time. -/
theorem Consistent.filter_unresolvedRefs (h : t.Consistent) (p : UnresolvedReference → Bool) :
    Consistent { t with unresolvedRefs := t.unresolvedRefs.filter p } :=
  { h with fromNode_mem := fun u hu => h.fromNode_mem u (List.mem_of_mem_filter hu) }

theorem Consistent.clearUnresolvedReferences (h : t.Consistent) : t.clearUnresolvedReferences.Consistent :=
  { h with fromNode_mem := fun _ hu => absurd hu List.not_mem_nil }

/-! ### What is found under an id -/

theorem id_of_row? {id : String} {r : NodeRow} (h : t.row? id = some r) : r.id = id := by
  simpa using List.find?_some h

theorem row?_eq_some (h : t.Consistent) {id : String} {r : NodeRow} :
    t.row? id = some r ↔ r ∈ t.nodes ∧ r.id = id := by
  constructor
  · intro hr
    exact ⟨List.mem_of_find?_eq_some hr, id_of_row? hr⟩
  · rintro ⟨hr, rfl⟩
    obtain ⟨r', hr'⟩ : ∃ r', t.row? r.id = some r' := by
      refine Option.isSome_iff_exists.mp (List.find?_isSome.mpr ⟨r, hr, decide_eq_true rfl⟩)
    rw [hr', List.inj_on_of_nodup_map h.nodup_ids (List.mem_of_find?_eq_some hr') hr (id_of_row? hr')]

theorem row?_isSome {id : String} : (t.row? id).isSome ↔ id ∈ t.ids := by
  rw [row?, List.find?_isSome, mem_ids]
  simp only [decide_eq_true_eq]

theorem Consistent.row?_deleteNodesWhere (h : t.Consistent) (gone : NodeRow → Bool) (id : String) :
    (t.deleteNodesWhere gone).row? id = (t.row? id).filter fun r => !gone r := by
  refine Option.ext fun r => ?_
  rw [row?_eq_some (h.deleteNodesWhere gone), Option.filter_eq_some_iff, row?_eq_some h]
  show r ∈ t.nodes.filter (fun r => !gone r) ∧ r.id = id ↔ _
  rw [List.mem_filter]
  tauto

/-- **An insertion** is found under its id, and changes nothing else. -/
theorem Consistent.row?_insertNode (h : t.Consistent) {n : Node} (hn : n.Valid) (id : String) :
    (t.insertNode n).row? id = if id = n.id then some (nodeToRow n) else t.row? id := by
  have hrow : (t.insertNode n).row? id = ((t.deleteNode n.id).row? id).or
      (if n.id = id then some (nodeToRow n) else none) := by
    rw [Tables.insertNode, if_pos hn]
    show ((t.deleteNode n.id).nodes ++ [nodeToRow n]).find? _ = _
    rw [List.find?_append]
    refine congrArg _ ?_
    by_cases hid : n.id = id <;> simp [hid]
  rw [hrow, Tables.deleteNode, h.row?_deleteNodesWhere]
  by_cases hid : id = n.id
  · have hnone : (t.row? id).filter (fun r => !decide (r.id = n.id)) = none := by
      refine Option.filter_eq_none_iff.mpr fun r hr => ?_
      simp [id_of_row? hr, hid]
    rw [hnone, if_pos hid, if_pos hid.symm, Option.none_or]
  · have hsame : (t.row? id).filter (fun r => !decide (r.id = n.id)) = t.row? id := by
      refine Option.ext fun r => Option.filter_eq_some_iff.trans (and_iff_left_of_imp fun hr => ?_)
      simp [id_of_row? hr, hid]
    rw [hsame, if_neg hid, if_neg (Ne.symm hid), Option.or_none]

/-- What is found under a key once the entries with the key of `new` have given way to it. -/
theorem find?_map_replace {α κ : Type} [DecidableEq κ] (key : α → κ) (new : α) (k : κ) (l : List α) :
    (l.map fun a => if key a = key new then new else a).find? (fun a => key a = k) =
      if k = key new then (l.find? fun a => key a = k).map fun _ => new else l.find? fun a => key a = k := by
  induction l with
  | nil => simp
  | cons a as ih =>
    rw [List.map_cons, List.find?_cons, List.find?_cons]
    by_cases ha : key a = key new
    · rw [if_pos ha]
      by_cases hk : k = key new
      · simp [ha, hk]
      · simpa [ha, hk, Ne.symm hk] using ih
    · rw [if_neg ha]
      by_cases hk : key a = k
      · have hne : k ≠ key new := hk ▸ ha
        simp [hk, hne]
      · simpa [hk] using ih

theorem row?_updateNode {n : Node} (hn : n.Valid) (id : String) :
    (t.updateNode n).row? id = if id = n.id then (t.row? id).map fun _ => nodeToRow n else t.row? id := by
  rw [updateNode, if_pos hn]
  exact find?_map_replace NodeRow.id (nodeToRow n) id t.nodes

end Tables

end Devrouter.Engine
