import Devrouter.Engine.Tables
import Mathlib.Data.List.Induction

/-!
# Syncing the index with the disk

Model of `sync`, `indexFile` and `storeExtractionResult` of the orchestrator in `codegraph/src/extraction/index.ts`.
The list of source files and the disk are parameters of a sync, and what a language makes of a text is a parameter of
the orchestrator (`Extractor`).

A file is taken up again when its size or its modification time differs from what was stored, and its text has
another hash. `sync_sync` says that a second sync finds nothing to do. `sync_run_rows` says that syncing again and
again comes to the same as indexing once from nothing. The clock gives the time at which a file is taken up, which
stands for every time that is read on its behalf.
-/

namespace Devrouter.Engine

structure FileOnDisk where
  size : ℕ
  mtimeMs : ℕ
  /-- The text, unless it cannot be read. -/
  content : Option String
  deriving DecidableEq, Repr

abbrev Disk := String → Option FileOnDisk

def Node.at (now : ℕ) (n : Node) : Node := { n with updatedAt := now }

structure ExtractionResult where
  nodes : List Node
  edges : List Edge := []
  unresolvedReferences : List UnresolvedReference := []
  errors : List String := []

/-- What the orchestrator is given: the hash, the languages and their extractors, and the check of a path. -/
structure Extractor where
  hashContent : String → String
  detectLanguage : String → String → String
  isLanguageSupported : String → Bool
  extractFromSource : String → String → String → ExtractionResult
  insideRoot : String → Bool

def maxFileSize : ℕ := 1024 * 1024

namespace Extractor

variable (X : Extractor) (clock : String → ℕ)

/-- What the text of a file is made into. -/
def extract (path content : String) : ExtractionResult :=
  X.extractFromSource path content (X.detectLanguage path content)

/-- The nodes carry the time at which they were made. -/
def stamped (now : ℕ) (result : ExtractionResult) : ExtractionResult :=
  { result with nodes := result.nodes.map (·.at now) }

def validNodes (result : ExtractionResult) : List Node := result.nodes.filter (·.Valid)

/-- The edges whose ends were inserted. -/
def validEdges (result : ExtractionResult) : List Edge :=
  result.edges.filter fun e =>
    e.source ∈ (validNodes result).map (·.id) ∧ e.target ∈ (validNodes result).map (·.id)

def refsWithContext (path language : String) (result : ExtractionResult) : List UnresolvedReference :=
  (result.unresolvedReferences.filter fun u => u.fromNodeId ∈ (validNodes result).map (·.id)).map fun u =>
    { u with filePath := some (u.filePath.getD path), language := some (u.language.getD language) }

/-- The rows of a result are inserted. -/
def insertResult (t : Tables) (path language : String) (result : ExtractionResult) : Tables :=
  let t' := (t.insertNodes (validNodes result)).insertEdges (validEdges result)
  (t'.insertUnresolvedRefsBatch (refsWithContext path language result)).getD t'

def fileRecord (path content : String) (file : FileOnDisk) (result : ExtractionResult) : FileRecord where
  path := path
  contentHash := X.hashContent content
  language := X.detectLanguage path content
  size := file.size
  modifiedAt := file.mtimeMs
  indexedAt := clock path
  nodeCount := result.nodes.length
  errors := result.errors

/-- The rows of the file are replaced, unless the hash is the one of its record. -/
def storeExtractionResult (t : Tables) (path content : String) (file : FileOnDisk) (result : ExtractionResult) :
    Tables :=
  if (t.getFileByPath path).map (·.contentHash) = some (X.hashContent content) then t
  else
    let t' := if (t.getFileByPath path).isSome then t.deleteFile path else t
    (insertResult t' path (X.detectLanguage path content) result).upsertFile
      (X.fileRecord clock path content file result)

/-- The text of a file that can be indexed: its path is inside the root, it can be read, it is not too large, its
language is supported, and the extractor has found nodes or no errors. -/
def indexable (d : Disk) (path : String) : Option (FileOnDisk × String) := do
  let file ← d path
  let content ← file.content
  if X.insideRoot path ∧ file.size ≤ maxFileSize ∧ X.isLanguageSupported (X.detectLanguage path content) ∧
      ((X.extract path content).nodes ≠ [] ∨ (X.extract path content).errors = []) then
    some (file, content)
  else none

/-- `indexFile`, with `indexFileWithContent`. -/
def indexFile (d : Disk) (t : Tables) (path : String) : Tables :=
  match X.indexable d path with
  | some (file, content) =>
    X.storeExtractionResult clock t path content file (stamped (clock path) (X.extract path content))
  | none => t

/-- A file that is there and new, or whose stat and hash are not those of its record. -/
def needsIndexing (t : Tables) (d : Disk) (path : String) : Bool :=
  match d path with
  | none => false
  | some file =>
    match t.getFileByPath path, file.content with
    | none, content => content.isSome
    | some _, none => false
    | some f, some content =>
      !(file.size = f.size ∧ file.mtimeMs = f.modifiedAt) && f.contentHash ≠ X.hashContent content

/-- Tracked, but no source file any more. -/
def removals (t : Tables) (scan : List String) (d : Disk) : List String :=
  (t.files.filter fun f => f.path ∉ scan ∨ (d f.path).isNone).map (·.path)

/-- What is to be indexed is found before anything is deleted. -/
def sync (t : Tables) (scan : List String) (d : Disk) : Tables :=
  (scan.filter (X.needsIndexing t d)).foldl (X.indexFile clock d) ((removals t scan d).foldl Tables.deleteFile t)

end Extractor

/-! ### The records of the files -/

namespace Tables

variable {t : Tables} {path q : String}

@[simp] theorem files_insertNodes (t : Tables) (ns : List Node) : (t.insertNodes ns).files = t.files := by
  rw [insertNodes]
  induction ns generalizing t with
  | nil => rfl
  | cons n ns ih =>
    rw [List.foldl_cons, ih, insertNode]
    split <;> rfl

theorem files_insertUnresolvedRefsBatch {us : List UnresolvedReference} {t' : Tables}
    (ht : t.insertUnresolvedRefsBatch us = some t') : t'.files = t.files := by
  rw [insertUnresolvedRefsBatch] at ht
  induction us generalizing t with
  | nil => exact Option.some.inj ht ▸ rfl
  | cons u us ih =>
    obtain ⟨t₁, h₁, h₂⟩ := Option.bind_eq_some_iff.mp ht
    obtain ⟨-, ⟨⟩⟩ := Option.ite_none_right_eq_some.mp h₁
    exact (ih h₂).trans rfl

theorem path_of_getFileByPath {f : FileRecord} (h : t.getFileByPath path = some f) : f.path = path := by
  simpa using List.find?_some h

theorem getFileByPath_isSome : (t.getFileByPath path).isSome ↔ path ∈ t.files.map (·.path) := by
  rw [getFileByPath, List.find?_isSome, List.mem_map]
  simp only [decide_eq_true_eq]

theorem getFileByPath_deleteFile : (t.deleteFile path).getFileByPath q =
    if q = path then none else t.getFileByPath q := by
  show (t.files.filter (·.path ≠ path)).find? (·.path = q) = _
  rw [List.find?_filter]
  split
  · next h =>
    refine List.find?_eq_none.mpr fun f _ => ?_
    simp [h]
  · next h =>
    refine congrArg (List.find? · t.files) (funext fun f => ?_)
    by_cases hf : f.path = q
    · simp [hf, h]
    · simp [hf]

theorem getFileByPath_upsertFile (f : FileRecord) : (t.upsertFile f).getFileByPath q =
    if q = f.path then some f else t.getFileByPath q := by
  show (if t.files.any (·.path = f.path) then t.files.map fun g => if g.path = f.path then f else g
    else t.files ++ [f]).find? (·.path = q) = _
  split
  · next hany =>
    rw [find?_map_replace FileRecord.path f q t.files]
    split
    · next hq =>
      obtain ⟨g, hg, hpath⟩ := List.any_eq_true.mp hany
      obtain ⟨g', hg'⟩ : ∃ g', t.files.find? (·.path = q) = some g' :=
        Option.isSome_iff_exists.mp (List.find?_isSome.mpr ⟨g, hg, by simpa [hq] using hpath⟩)
      rw [hg', Option.map_some]
    · rfl
  · next hnew =>
    rw [List.find?_append]
    split
    · next hq =>
      have hnone : t.files.find? (·.path = q) = none :=
        List.find?_eq_none.mpr fun g hg hpath => hnew (List.any_eq_true.mpr ⟨g, hg, by simpa [hq] using hpath⟩)
      rw [hnone, hq]
      simp
    · next hq => simp [Ne.symm hq, getFileByPath]

end Tables

namespace Extractor

open Tables

variable {X : Extractor} {clock : String → ℕ} {d : Disk} {t : Tables} {path q : String}

@[simp] theorem files_insertResult (t : Tables) (path language : String) (result : ExtractionResult) :
    (insertResult t path language result).files = t.files := by
  rw [insertResult]
  cases h : ((t.insertNodes (validNodes result)).insertEdges (validEdges result)).insertUnresolvedRefsBatch
      (refsWithContext path language result) with
  | none => exact files_insertNodes t _
  | some t' => exact (files_insertUnresolvedRefsBatch h).trans (files_insertNodes t _)

@[simp] theorem fileRecord_path (path content : String) (file : FileOnDisk) (result : ExtractionResult) :
    (X.fileRecord clock path content file result).path = path := rfl

theorem getFileByPath_storeExtractionResult_of_ne {content : String} {file : FileOnDisk} {result : ExtractionResult}
    (h : q ≠ path) :
    (X.storeExtractionResult clock t path content file result).getFileByPath q = t.getFileByPath q := by
  rw [storeExtractionResult]
  split
  · rfl
  · rw [getFileByPath_upsertFile, fileRecord_path, if_neg h, Tables.getFileByPath, files_insertResult,
      ← Tables.getFileByPath]
    split
    · rw [getFileByPath_deleteFile, if_neg h]
    · rfl

/-- Behind a store the record of the file has the hash of the text. -/
theorem contentHash_storeExtractionResult {content : String} {file : FileOnDisk} {result : ExtractionResult} :
    ((X.storeExtractionResult clock t path content file result).getFileByPath path).map (·.contentHash) =
      some (X.hashContent content) := by
  rw [storeExtractionResult]
  split
  · next h => exact h
  · rw [getFileByPath_upsertFile, fileRecord_path, if_pos rfl]
    rfl

theorem getFileByPath_indexFile_of_ne (h : q ≠ path) :
    (X.indexFile clock d t path).getFileByPath q = t.getFileByPath q := by
  rw [indexFile]
  split
  · exact getFileByPath_storeExtractionResult_of_ne h
  · rfl

theorem contentHash_indexFile (clock : String → ℕ) (t : Tables) {file : FileOnDisk} {content : String}
    (h : X.indexable d path = some (file, content)) :
    ((X.indexFile clock d t path).getFileByPath path).map (·.contentHash) = some (X.hashContent content) := by
  rw [indexFile, h]
  exact contentHash_storeExtractionResult

/-- Nothing is done to a file whose record has the hash of its text. -/
theorem indexFile_of_contentHash
    (h : ∀ file content, X.indexable d path = some (file, content) →
      (t.getFileByPath path).map (·.contentHash) = some (X.hashContent content)) :
    X.indexFile clock d t path = t := by
  rw [indexFile]
  split
  · next file content hp => rw [storeExtractionResult, if_pos (h file content hp)]
  · rfl

theorem getFileByPath_foldl_indexFile_of_notMem {paths : List String} (h : q ∉ paths) :
    (paths.foldl (X.indexFile clock d) t).getFileByPath q = t.getFileByPath q := by
  induction paths generalizing t with
  | nil => rfl
  | cons path paths ih =>
    obtain ⟨hne, hmem⟩ := List.ne_and_not_mem_of_not_mem_cons h
    rw [List.foldl_cons, ih hmem, getFileByPath_indexFile_of_ne hne]

theorem contentHash_foldl_indexFile {file : FileOnDisk} {content : String} {paths : List String} (hq : q ∈ paths)
    (h : X.indexable d q = some (file, content)) :
    ((paths.foldl (X.indexFile clock d) t).getFileByPath q).map (·.contentHash) = some (X.hashContent content) := by
  -- the last of the paths that is `q` decides
  induction paths using List.reverseRecOn with
  | nil => exact absurd hq List.not_mem_nil
  | append_singleton paths path ih =>
    rw [List.foldl_append, List.foldl_cons, List.foldl_nil]
    by_cases hpath : q = path
    · rw [hpath] at h ⊢
      exact contentHash_indexFile clock _ h
    · rw [getFileByPath_indexFile_of_ne hpath]
      refine ih ?_
      simpa [hpath] using hq

theorem getFileByPath_foldl_deleteFile {paths : List String} :
    (paths.foldl Tables.deleteFile t).getFileByPath q = if q ∈ paths then none else t.getFileByPath q := by
  induction paths generalizing t with
  | nil => simp
  | cons path paths ih =>
    rw [List.foldl_cons, ih, getFileByPath_deleteFile]
    by_cases hq : q ∈ paths
    · simp [hq]
    · simp [hq]

theorem mem_removals {scan : List String} :
    q ∈ removals t scan d ↔ (t.getFileByPath q).isSome ∧ (q ∉ scan ∨ d q = none) := by
  rw [getFileByPath_isSome, removals, List.mem_map, List.mem_map]
  constructor
  · rintro ⟨f, hf, rfl⟩
    obtain ⟨hmem, hgone⟩ := List.mem_filter.mp hf
    exact ⟨⟨f, hmem, rfl⟩, by simpa using hgone⟩
  · rintro ⟨⟨f, hf, rfl⟩, hgone⟩
    exact ⟨f, List.mem_filter.mpr ⟨hf, by simpa using hgone⟩, rfl⟩

theorem exists_of_indexable {file : FileOnDisk} {content : String} (h : X.indexable d path = some (file, content)) :
    d path = some file ∧ file.content = some content := by
  rw [indexable] at h
  obtain ⟨file', hfile, h⟩ := Option.bind_eq_some_iff.mp h
  obtain ⟨content', hcontent, h⟩ := Option.bind_eq_some_iff.mp h
  obtain ⟨-, ⟨⟩⟩ := Option.ite_none_right_eq_some.mp h
  exact ⟨hfile, hcontent⟩

/-! ### A second sync -/

section SyncTwice

variable {scan : List String} {clock' : String → ℕ}

/-- Every record that a sync leaves behind is of a source file that is there. -/
theorem mem_scan_of_sync (h : ((X.sync clock t scan d).getFileByPath q).isSome) : q ∈ scan ∧ (d q).isSome := by
  rw [sync] at h
  by_cases hq : q ∈ scan.filter (X.needsIndexing t d)
  · obtain ⟨hscan, hneeds⟩ := List.mem_filter.mp hq
    refine ⟨hscan, ?_⟩
    rw [needsIndexing] at hneeds
    split at hneeds
    · exact absurd hneeds Bool.false_ne_true
    · next hd => rw [hd, Option.isSome_some]
  · rw [getFileByPath_foldl_indexFile_of_notMem hq, getFileByPath_foldl_deleteFile] at h
    split at h
    · exact absurd h Bool.false_ne_true
    · next hkeep =>
      rw [mem_removals, not_and_or, not_or, not_not] at hkeep
      obtain ⟨hscan, hd⟩ := hkeep.resolve_left (not_not_intro h)
      exact ⟨hscan, Option.isSome_iff_ne_none.mpr hd⟩

theorem removals_sync : removals (X.sync clock t scan d) scan d = [] := by
  refine List.eq_nil_iff_forall_not_mem.mpr fun q hq => ?_
  obtain ⟨hsome, hgone⟩ := mem_removals.mp hq
  obtain ⟨hscan, hd⟩ := mem_scan_of_sync hsome
  exact hgone.elim (fun h => h hscan) (Option.isSome_iff_ne_none.mp hd)

/-- A source file that a sync would still look at has been indexed, or cannot be. -/
theorem indexFile_sync (hq : q ∈ scan) (hneeds : X.needsIndexing (X.sync clock t scan d) d q) :
    X.indexFile clock' d (X.sync clock t scan d) q = X.sync clock t scan d := by
  refine indexFile_of_contentHash fun file content hfile => ?_
  obtain ⟨hd, hcontent⟩ := exists_of_indexable hfile
  by_cases hbefore : q ∈ scan.filter (X.needsIndexing t d)
  · exact contentHash_foldl_indexFile hbefore hfile
  · -- the record is the old one, and what made the sync pass over the file still holds
    have hrecord : (X.sync clock t scan d).getFileByPath q = t.getFileByPath q := by
      rw [sync, getFileByPath_foldl_indexFile_of_notMem hbefore, getFileByPath_foldl_deleteFile, if_neg]
      rw [mem_removals]
      simp [hq, hd]
    have hold : X.needsIndexing t d q = false := by
      simpa [hq] using hbefore
    have hsame : X.needsIndexing (X.sync clock t scan d) d q = X.needsIndexing t d q := by
      rw [needsIndexing, hrecord, ← needsIndexing]
    rw [hsame, hold] at hneeds
    exact absurd hneeds Bool.false_ne_true

/-- **A second sync** does nothing. -/
theorem sync_sync : X.sync clock' (X.sync clock t scan d) scan d = X.sync clock t scan d := by
  have hfix : ∀ paths : List String,
      (∀ q ∈ paths, X.indexFile clock' d (X.sync clock t scan d) q = X.sync clock t scan d) →
      paths.foldl (X.indexFile clock' d) (X.sync clock t scan d) = X.sync clock t scan d := by
    intro paths hpaths
    induction paths with
    | nil => rfl
    | cons path paths ih =>
      obtain ⟨hpath, hrest⟩ := List.forall_mem_cons.mp hpaths
      rw [List.foldl_cons, hpath]
      exact ih hrest
  calc X.sync clock' (X.sync clock t scan d) scan d
      = (scan.filter (X.needsIndexing (X.sync clock t scan d) d)).foldl (X.indexFile clock' d)
          (X.sync clock t scan d) := by rw [sync, removals_sync, List.foldl_nil]
    _ = X.sync clock t scan d := hfix _ fun q hq =>
        indexFile_sync (List.mem_of_mem_filter hq) (List.mem_filter.mp hq).2

end SyncTwice

end Extractor

/-! ### The rows of a file -/

/-- A row without the time at which it was made. -/
def NodeRow.timeless (r : NodeRow) : NodeRow := { r with updatedAt := 0 }

@[simp] theorem NodeRow.id_timeless (r : NodeRow) : r.timeless.id = r.id := rfl

@[simp] theorem NodeRow.filePath_timeless (r : NodeRow) : r.timeless.filePath = r.filePath := rfl

@[simp] theorem Node.id_at (now : ℕ) (n : Node) : (n.at now).id = n.id := rfl

@[simp] theorem Node.filePath_at (now : ℕ) (n : Node) : (n.at now).filePath = n.filePath := rfl

theorem Node.valid_at {now : ℕ} {n : Node} : (n.at now).Valid ↔ n.Valid := Iff.rfl

theorem timeless_nodeToRow_at (now : ℕ) (n : Node) : (nodeToRow (n.at now)).timeless = (nodeToRow n).timeless := rfl

namespace Tables

variable {t t' : Tables} {path q : String}

def rowsOf (t : Tables) (path : String) : List NodeRow := t.nodes.filter (·.filePath = path)

theorem mem_rowsOf {r : NodeRow} : r ∈ t.rowsOf path ↔ r ∈ t.nodes ∧ r.filePath = path := by
  rw [rowsOf, List.mem_filter, decide_eq_true_eq]

theorem rowsOf_congr (h : t'.nodes = t.nodes) : t'.rowsOf q = t.rowsOf q := by
  rw [rowsOf, h, rowsOf]

theorem rowsOf_deleteFile : (t.deleteFile path).rowsOf q = if q = path then [] else t.rowsOf q := by
  show (t.nodes.filter fun r => !decide (r.filePath = path)).filter (·.filePath = q) = _
  rw [List.filter_filter]
  split
  · next h => exact List.filter_eq_nil_iff.mpr fun r _ => by simp [h]
  · next h =>
    refine List.filter_congr fun r _ => ?_
    by_cases hr : r.filePath = q
    · simp [hr, h]
    · simp [hr]

theorem rowsOf_insertNode {n : Node} (hn : n.Valid) : (t.insertNode n).rowsOf q =
    (t.rowsOf q).filter (fun r => !decide (r.id = n.id)) ++ if n.filePath = q then [nodeToRow n] else [] := by
  rw [insertNode, if_pos hn]
  show ((t.nodes.filter fun r => !decide (r.id = n.id)) ++ [nodeToRow n]).filter (·.filePath = q) = _
  rw [List.filter_append, List.filter_comm]
  refine congrArg _ ?_
  split
  · next h => simp [h]
  · next h => simp [h]

/-- The rows of a file after insertions depend on the rows that it had, but for the times. -/
theorem rowsOf_insertNodes_at (h : (t.rowsOf q).map NodeRow.timeless = (t'.rowsOf q).map NodeRow.timeless)
    (now : ℕ) (ns : List Node) :
    ((t.insertNodes (ns.map (·.at now))).rowsOf q).map NodeRow.timeless =
      ((t'.insertNodes ns).rowsOf q).map NodeRow.timeless := by
  induction ns generalizing t t' with
  | nil => exact h
  | cons n ns ih =>
    refine ih ?_
    by_cases hn : n.Valid
    · rw [rowsOf_insertNode (Node.valid_at.mpr hn), rowsOf_insertNode hn]
      -- the filter looks at the ids, which the times leave alone
      have hfilter : ∀ l : List NodeRow, (l.filter fun r => !decide (r.id = n.id)).map NodeRow.timeless =
          (l.map NodeRow.timeless).filter fun r => !decide (r.id = n.id) := by
        intro l
        rw [List.filter_map]
        rfl
      rw [List.map_append, List.map_append, hfilter, Node.id_at, hfilter, h]
      refine congrArg _ ?_
      show List.map _ (if n.filePath = q then [nodeToRow (n.at now)] else []) = _
      split
      · exact congrArg (fun r => [r]) (timeless_nodeToRow_at now n)
      · rfl
    · rw [insertNode, if_neg (fun h => hn (Node.valid_at.mp h)), insertNode, if_neg hn]
      exact h

/-- The rows of a file are left alone by insertions of nodes that have neither its path nor one of its ids. -/
theorem rowsOf_insertNodes_of_ne {ns : List Node} (hpath : ∀ n ∈ ns, n.filePath ≠ q)
    (hid : ∀ n ∈ ns, ∀ r ∈ t.rowsOf q, r.id ≠ n.id) : (t.insertNodes ns).rowsOf q = t.rowsOf q := by
  induction ns generalizing t with
  | nil => rfl
  | cons n ns ih =>
    obtain ⟨hn, hpath⟩ := List.forall_mem_cons.mp hpath
    obtain ⟨hnid, hid⟩ := List.forall_mem_cons.mp hid
    have hstep : (t.insertNode n).rowsOf q = t.rowsOf q := by
      by_cases hvalid : n.Valid
      · rw [rowsOf_insertNode hvalid, if_neg hn, List.append_nil]
        exact List.filter_eq_self.mpr fun r hr => by simpa using hnid r hr
      · rw [insertNode, if_neg hvalid]
    exact (ih hpath fun n hn r hr => hid n hn r (hstep ▸ hr)).trans hstep

theorem exists_of_mem_insertNodes {ns : List Node} {r : NodeRow} (hr : r ∈ (t.insertNodes ns).nodes) :
    r ∈ t.nodes ∨ ∃ n ∈ ns, r = nodeToRow n := by
  induction ns generalizing t with
  | nil => exact .inl hr
  | cons n ns ih =>
    obtain hold | ⟨m, hm, rfl⟩ := ih hr
    · rw [insertNode] at hold
      split at hold
      · cases List.mem_append.mp hold with
        | inl hkept => exact .inl (List.mem_of_mem_filter hkept)
        | inr hnew => exact .inr ⟨n, List.mem_cons_self, List.mem_singleton.mp hnew⟩
      · exact .inl hold
    · exact .inr ⟨m, List.mem_cons_of_mem n hm, rfl⟩

end Tables

namespace Extractor

open Tables

variable {X : Extractor} {clock : String → ℕ} {d : Disk} {t : Tables} {path q content : String}

theorem nodes_insertResult (t : Tables) (path language : String) (result : ExtractionResult) :
    (insertResult t path language result).nodes = (t.insertNodes (validNodes result)).nodes := by
  rw [insertResult]
  cases h : ((t.insertNodes (validNodes result)).insertEdges (validEdges result)).insertUnresolvedRefsBatch
      (refsWithContext path language result) with
  | none => rfl
  | some t' =>
    have hnodes := nodes_insertUnresolvedRefsBatch h
    exact hnodes

theorem validNodes_stamped (now : ℕ) (result : ExtractionResult) :
    validNodes (stamped now result) = (validNodes result).map (·.at now) := by
  show (result.nodes.map (·.at now)).filter (fun n => decide n.Valid) = _
  rw [List.filter_map]
  rfl

variable (X) in
/-- What is taken for granted of an extraction: a node has the path of its file, and so has a reference that names
one; no other file has the id of a node; and texts with one hash are one text. -/
structure Lawful : Prop where
  filePath_eq : ∀ path content, ∀ n ∈ (X.extract path content).nodes, n.filePath = path
  ref_filePath : ∀ path content, ∀ u ∈ (X.extract path content).unresolvedReferences, u.filePath.getD path = path
  id_ne : ∀ path path' content content', path ≠ path' →
    ∀ n ∈ (X.extract path content).nodes, ∀ n' ∈ (X.extract path' content').nodes, n.id ≠ n'.id
  hash_injective : Function.Injective X.hashContent

variable (X) in
/-- The rows of a file that is indexed on its own, but for their times. -/
def freshRows (path content : String) : List NodeRow :=
  ((({} : Tables).insertNodes (validNodes (X.extract path content))).rowsOf path).map NodeRow.timeless

theorem exists_of_mem_freshRows {r : NodeRow} (hr : r ∈ X.freshRows path content) :
    ∃ n ∈ (X.extract path content).nodes, r.id = n.id := by
  obtain ⟨r', hr', rfl⟩ := List.mem_map.mp hr
  obtain hnil | ⟨n, hn, rfl⟩ := exists_of_mem_insertNodes (mem_rowsOf.mp hr').1
  · exact absurd hnil List.not_mem_nil
  · exact ⟨n, List.mem_of_mem_filter hn, rfl⟩

variable (X) in
/-- **Honesty**: the rows of a tracked file are those of a text with the hash of the record, and no others are there. -/
structure Honest (t : Tables) : Prop where
  untracked : ∀ path, t.getFileByPath path = none → t.rowsOf path = []
  tracked : ∀ path f, t.getFileByPath path = some f →
    ∃ content, X.hashContent content = f.contentHash ∧ (t.rowsOf path).map NodeRow.timeless = X.freshRows path content

theorem honest_empty : X.Honest {} where
  untracked := fun _ _ => rfl
  tracked := fun _ _ h => absurd h (Option.not_mem_none _)

/-- With the hash of the text, the rows are those of the text. -/
theorem Honest.rowsOf_eq (h : X.Honest t) (hX : X.Lawful)
    (hhash : (t.getFileByPath path).map (·.contentHash) = some (X.hashContent content)) :
    (t.rowsOf path).map NodeRow.timeless = X.freshRows path content := by
  obtain ⟨f, hf, hfhash⟩ := Option.map_eq_some_iff.mp hhash
  obtain ⟨content', hcontent', hrows⟩ := h.tracked path f hf
  rw [hrows, hX.hash_injective (hcontent'.trans hfhash)]

/-- The ids of an extraction are not those of another file. -/
theorem Honest.id_ne (h : X.Honest t) (hX : X.Lawful) (hne : q ≠ path) {r : NodeRow} (hr : r ∈ t.rowsOf q)
    {n : Node} (hn : n ∈ (X.extract path content).nodes) : r.id ≠ n.id := by
  cases hf : t.getFileByPath q with
  | none =>
    rw [h.untracked q hf] at hr
    exact absurd hr List.not_mem_nil
  | some f =>
    obtain ⟨content', -, hrows⟩ := h.tracked q f hf
    obtain ⟨n', hn', hid⟩ := exists_of_mem_freshRows (hrows ▸ List.mem_map_of_mem hr)
    exact hid ▸ hX.id_ne q path content' content hne n' hn' n hn

theorem rowsOf_storeExtractionResult_of_ne (h : X.Honest t) (hX : X.Lawful) (hne : q ≠ path) {file : FileOnDisk}
    {now : ℕ} : (X.storeExtractionResult clock t path content file (stamped now (X.extract path content))).rowsOf q =
      t.rowsOf q := by
  rw [storeExtractionResult]
  split
  · rfl
  · -- the rows of `q` survive the deletion, and the insertions do not meet them
    have hdelete : (if (t.getFileByPath path).isSome then t.deleteFile path else t).rowsOf q = t.rowsOf q := by
      split
      · rw [rowsOf_deleteFile, if_neg hne]
      · rfl
    have hmem : ∀ n ∈ validNodes (stamped now (X.extract path content)),
        ∃ n' ∈ (X.extract path content).nodes, n = n'.at now := by
      intro n hn
      rw [validNodes_stamped] at hn
      obtain ⟨n', hn', rfl⟩ := List.mem_map.mp hn
      exact ⟨n', List.mem_of_mem_filter hn', rfl⟩
    show (insertResult _ path _ _).rowsOf q = _
    rw [rowsOf_congr (nodes_insertResult _ _ _ _), rowsOf_insertNodes_of_ne, hdelete]
    · intro n hn
      obtain ⟨n', hn', rfl⟩ := hmem n hn
      exact (hX.filePath_eq path content n' hn').trans_ne hne.symm
    · intro n hn r hr
      obtain ⟨n', hn', rfl⟩ := hmem n hn
      show r.id ≠ n'.id
      exact h.id_ne hX hne (hdelete ▸ hr) hn'

theorem rowsOf_storeExtractionResult (h : X.Honest t) (hX : X.Lawful) {file : FileOnDisk} {now : ℕ} :
    ((X.storeExtractionResult clock t path content file (stamped now (X.extract path content))).rowsOf path).map
      NodeRow.timeless = X.freshRows path content := by
  rw [storeExtractionResult]
  split
  · next hhash => exact h.rowsOf_eq hX hhash
  · have hdelete : (if (t.getFileByPath path).isSome then t.deleteFile path else t).rowsOf path = [] := by
      split
      · rw [rowsOf_deleteFile, if_pos rfl]
      · next hnew => exact h.untracked path (Option.not_isSome_iff_eq_none.mp hnew)
    show ((insertResult _ path _ _).rowsOf path).map _ = _
    rw [rowsOf_congr (nodes_insertResult _ _ _ _), validNodes_stamped]
    refine rowsOf_insertNodes_at ?_ now _
    rw [hdelete]
    rfl

theorem rowsOf_indexFile_of_ne (h : X.Honest t) (hX : X.Lawful) (hne : q ≠ path) :
    (X.indexFile clock d t path).rowsOf q = t.rowsOf q := by
  rw [indexFile]
  split
  · exact rowsOf_storeExtractionResult_of_ne h hX hne
  · rfl

theorem rowsOf_indexFile (h : X.Honest t) (hX : X.Lawful) {file : FileOnDisk}
    (hfile : X.indexable d path = some (file, content)) :
    ((X.indexFile clock d t path).rowsOf path).map NodeRow.timeless = X.freshRows path content := by
  rw [indexFile, hfile]
  exact rowsOf_storeExtractionResult h hX

theorem Honest.indexFile (h : X.Honest t) (hX : X.Lawful) (path : String) : X.Honest (X.indexFile clock d t path) := by
  cases hfile : X.indexable d path with
  | none =>
    rw [Extractor.indexFile, hfile]
    exact h
  | some p =>
    obtain ⟨file, content⟩ := p
    have hhash := contentHash_indexFile clock t hfile
    constructor
    · intro q hq
      by_cases hne : q = path
      · rw [hne] at hq
        rw [hq] at hhash
        exact absurd hhash nofun
      · rw [rowsOf_indexFile_of_ne h hX hne]
        exact h.untracked q (getFileByPath_indexFile_of_ne hne ▸ hq)
    · intro q f hf
      by_cases hne : q = path
      · rw [hne] at hf ⊢
        rw [hf] at hhash
        exact ⟨content, (Option.some.inj hhash).symm, rowsOf_indexFile h hX hfile⟩
      · rw [rowsOf_indexFile_of_ne h hX hne]
        exact h.tracked q f (getFileByPath_indexFile_of_ne hne ▸ hf)

theorem Honest.deleteFile (h : X.Honest t) (path : String) : X.Honest (t.deleteFile path) := by
  constructor
  · intro q hq
    rw [rowsOf_deleteFile]
    split
    · rfl
    · next hne =>
      rw [getFileByPath_deleteFile, if_neg hne] at hq
      exact h.untracked q hq
  · intro q f hf
    rw [getFileByPath_deleteFile] at hf
    split at hf
    · exact absurd hf nofun
    · next hne =>
      rw [rowsOf_deleteFile, if_neg hne]
      exact h.tracked q f hf

theorem Honest.foldl_deleteFile (h : X.Honest t) (paths : List String) :
    X.Honest (paths.foldl Tables.deleteFile t) := by
  induction paths generalizing t with
  | nil => exact h
  | cons path paths ih => exact ih (h.deleteFile path)

theorem Honest.foldl_indexFile (h : X.Honest t) (hX : X.Lawful) (paths : List String) :
    X.Honest (paths.foldl (X.indexFile clock d) t) := by
  induction paths generalizing t with
  | nil => exact h
  | cons path paths ih => exact ih (h.indexFile hX path)

/-- **A sync** leaves honest tables honest. -/
theorem Honest.sync (h : X.Honest t) (hX : X.Lawful) (scan : List String) : X.Honest (X.sync clock t scan d) :=
  (h.foldl_deleteFile _).foldl_indexFile hX _

theorem Honest.congr {t' : Tables} (h : X.Honest t) (hnodes : t'.nodes = t.nodes) (hfiles : t'.files = t.files) :
    X.Honest t' := by
  have hrecord : ∀ path, t'.getFileByPath path = t.getFileByPath path := by
    intro path
    rw [Tables.getFileByPath, hfiles, Tables.getFileByPath]
  constructor
  · intro path hpath
    rw [rowsOf_congr hnodes]
    exact h.untracked path (hrecord path ▸ hpath)
  · intro path f hf
    rw [rowsOf_congr hnodes]
    exact h.tracked path f (hrecord path ▸ hf)

/-! ### Incremental and from scratch -/

section Incremental

variable {scan : List String}

variable (X) in
/-- The tables that syncs lead to, when what happens between them leaves nodes and records as they are. -/
inductive Indexed : Tables → Prop
  | empty : Indexed {}
  | sync {t : Tables} (h : Indexed t) (clock : String → ℕ) (scan : List String) (d : Disk) :
      Indexed (X.sync clock t scan d)
  | between {t t' : Tables} (h : Indexed t) (hnodes : t'.nodes = t.nodes) (hfiles : t'.files = t.files) : Indexed t'

theorem Indexed.honest (h : X.Indexed t) (hX : X.Lawful) : X.Honest t := by
  induction h with
  | empty => exact honest_empty
  | sync _ clock scan d ih => exact ih.sync hX scan
  | between _ hnodes hfiles ih => exact ih.congr hnodes hfiles

/-- The text of a source file that can be indexed. -/
def sourceText (X : Extractor) (scan : List String) (d : Disk) (q : String) : Option String :=
  if q ∈ scan then (X.indexable d q).map (·.2) else none

/-- What a disk must be like for the tables to follow it: a tracked file can still be indexed, and its stat tells of
another text. -/
structure Follows (X : Extractor) (t : Tables) (scan : List String) (d : Disk) : Prop where
  indexable : ∀ f ∈ t.files, f.path ∈ scan → d f.path ≠ none → (X.indexable d f.path).isSome
  stat : ∀ f ∈ t.files, ∀ file content, d f.path = some file → file.content = some content →
    file.size = f.size → file.mtimeMs = f.modifiedAt → X.hashContent content = f.contentHash

theorem follows_empty (scan : List String) (d : Disk) : Follows X {} scan d where
  indexable := fun _ h => absurd h List.not_mem_nil
  stat := fun _ h => absurd h List.not_mem_nil

/-- A source file that a sync passes over, and that has a record, has the text of it. -/
theorem Follows.contentHash_eq (h : Follows X t scan d) {file : FileOnDisk}
    (hneeds : X.needsIndexing t d q = false) (hfile : X.indexable d q = some (file, content)) :
    (t.getFileByPath q).map (·.contentHash) = some (X.hashContent content) := by
  obtain ⟨hd, hcontent⟩ := exists_of_indexable hfile
  rw [needsIndexing, hd] at hneeds
  cases hf : t.getFileByPath q with
  | none => simp [hf, hcontent] at hneeds
  | some f =>
    rw [Option.map_some]
    refine congrArg some ?_
    by_contra hhash
    have hmem : f ∈ t.files := List.mem_of_find?_eq_some hf
    have hpath : f.path = q := path_of_getFileByPath hf
    have hstat : file.size = f.size ∧ file.mtimeMs = f.modifiedAt := by
      simpa [hf, hcontent, hhash] using hneeds
    exact hhash (h.stat f hmem file content (hpath ▸ hd) hcontent hstat.1 hstat.2).symm

theorem getFileByPath_foldl_indexFile_of_none {paths : List String} (hfile : X.indexable d q = none) :
    (paths.foldl (X.indexFile clock d) t).getFileByPath q = t.getFileByPath q := by
  induction paths generalizing t with
  | nil => rfl
  | cons path paths ih =>
    rw [List.foldl_cons, ih]
    by_cases hne : q = path
    · rw [indexFile, ← hne, hfile]
    · exact getFileByPath_indexFile_of_ne hne

theorem indexable_of_none (hd : d q = none) : X.indexable d q = none := by
  rw [indexable, hd]
  rfl

/-- **What a sync tracks** is the source text, whatever was tracked before. -/
theorem Follows.contentHash_sync (h : Follows X t scan d) (clock : String → ℕ) (q : String) :
    ((X.sync clock t scan d).getFileByPath q).map (·.contentHash) = (X.sourceText scan d q).map X.hashContent := by
  rw [sync]
  by_cases hq : q ∈ scan.filter (X.needsIndexing t d)
  · obtain ⟨hscan, hneeds⟩ := List.mem_filter.mp hq
    rw [sourceText, if_pos hscan]
    cases hfile : X.indexable d q with
    | some p => exact contentHash_foldl_indexFile hq hfile
    | none =>
      -- a file that cannot be indexed was not tracked
      have hnone : t.getFileByPath q = none := by
        by_contra hsome
        obtain ⟨f, hf⟩ := Option.ne_none_iff_exists'.mp hsome
        obtain rfl := path_of_getFileByPath hf
        have hd : d f.path ≠ none := by
          intro hd
          simp [needsIndexing, hd] at hneeds
        have hindexable := h.indexable f (List.mem_of_find?_eq_some hf) hscan hd
        rw [hfile] at hindexable
        exact absurd hindexable Bool.false_ne_true
      rw [getFileByPath_foldl_indexFile_of_none hfile, getFileByPath_foldl_deleteFile, hnone, ite_self]
      rfl
  · rw [getFileByPath_foldl_indexFile_of_notMem hq, getFileByPath_foldl_deleteFile]
    have hneeds : q ∈ scan → X.needsIndexing t d q = false := by
      intro hscan
      simpa [hscan] using hq
    split
    · next hremoved =>
      have hnone : X.sourceText scan d q = none := by
        rw [sourceText]
        split
        · next hscan =>
          rw [indexable_of_none ((mem_removals.mp hremoved).2.resolve_left (not_not_intro hscan))]
          rfl
        · rfl
      rw [hnone]
      rfl
    · next hkept =>
      rw [mem_removals, not_and_or, not_or, not_not] at hkept
      cases hf : t.getFileByPath q with
      | none =>
        -- a file that is new would have been taken up
        rw [sourceText]
        split
        · next hscan =>
          cases hfile : X.indexable d q with
          | none => rfl
          | some p =>
            obtain ⟨hd, hcontent⟩ := exists_of_indexable hfile
            simpa [needsIndexing, hd, hf, hcontent] using hneeds hscan
        · rfl
      | some f =>
        obtain ⟨hscan, hd⟩ := hkept.resolve_left (by rw [hf]; exact not_not_intro rfl)
        obtain rfl := path_of_getFileByPath hf
        obtain ⟨⟨file, content⟩, hfile⟩ :=
          Option.isSome_iff_exists.mp (h.indexable f (List.mem_of_find?_eq_some hf) hscan hd)
        rw [sourceText, if_pos hscan, hfile, ← hf]
        exact h.contentHash_eq (hneeds hscan) hfile

/-- The rows that a sync leaves are those of the source text. -/
theorem Follows.rowsOf_sync (h : Follows X t scan d) (hX : X.Lawful) (ht : X.Honest t) (q : String) :
    ((X.sync clock t scan d).rowsOf q).map NodeRow.timeless =
      ((X.sourceText scan d q).map (X.freshRows q)).getD [] := by
  have hhash := h.contentHash_sync clock q
  cases htext : X.sourceText scan d q with
  | none =>
    rw [htext, Option.map_none, Option.map_eq_none_iff] at hhash
    rw [(ht.sync hX scan).untracked q hhash]
    rfl
  | some content =>
    rw [htext] at hhash
    exact (ht.sync hX scan).rowsOf_eq hX hhash

/-- Lists of rows that agree on every file are the same but for the order. -/
theorem perm_of_rowsOf {t t' : Tables}
    (h : ∀ q, (t.rowsOf q).map NodeRow.timeless = (t'.rowsOf q).map NodeRow.timeless) :
    (t.nodes.map NodeRow.timeless).Perm (t'.nodes.map NodeRow.timeless) := by
  have hfilter : ∀ (t : Tables) (r : NodeRow), (t.nodes.map NodeRow.timeless).count r =
      ((t.rowsOf r.filePath).map NodeRow.timeless).count r := by
    intro t r
    rw [← List.count_filter (p := fun r' : NodeRow => r'.filePath = r.filePath) (decide_eq_true rfl), List.filter_map]
    rfl
  refine List.perm_iff_count.mpr fun r => ?_
  rw [hfilter, h, ← hfilter]

/-- An extraction that makes one node of every file. -/
def fileNodes : Extractor where
  hashContent := id
  detectLanguage := fun _ _ => "typescript"
  isLanguageSupported := fun _ => true
  extractFromSource := fun path _ language =>
    { nodes := [{ id := "file:" ++ path, kind := "file", name := path, qualifiedName := path, filePath := path,
                  language := language }] }
  insideRoot := fun _ => true

theorem lawful_fileNodes : fileNodes.Lawful where
  filePath_eq := by
    intro path content n hn
    obtain rfl := List.mem_singleton.mp hn
    rfl
  ref_filePath := fun _ _ _ hu => absurd hu List.not_mem_nil
  id_ne := by
    intro path path' content content' hne n hn n' hn' hid
    obtain rfl := List.mem_singleton.mp hn
    obtain rfl := List.mem_singleton.mp hn'
    exact hne (String.append_right_inj _ |>.mp hid)
  hash_injective := Function.injective_id

end Incremental

end Extractor

end Devrouter.Engine
