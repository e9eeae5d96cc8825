import Devrouter.Lib.Fields
import Devrouter.Memory.Redis

/-!
# The memory store

Model of `internal/memory/store.go`: the key layout, the four kinds of memories and the functions that
save them. `Embed` and `GitFileHash` call other programs; what they answer during one save, and the
time, are an `Env`. The conflict warnings that `SaveDecision` computes after its write are not
modelled: they only read.

The saves of a file, a function and a flow are one program, `saveRecord`, on the key, the source, the
embedded text and the fields of the memory; `Record` is the union of the three, and `Record.save_eq`
says so. `Record.save_run` is what a save does when nothing fails.
-/

open Prog

namespace Devrouter.Memory

variable {F : Type}

/-! ### Keys -/

/-- The namespace of the production binary. -/
def defaultKeyspace : String := "mem"

/-- `strings.ContainsAny` of the characters a keyspace must not hold. -/
def hasForbidden (s : String) : Bool := s.toList.any fun c => c ∈ [':', '*', '?', '[', ']']

/-- A namespace that `NewStoreWithKeyspace` accepts. -/
structure Keyspace where
  str : String
  ne_empty : str ≠ ""
  allowed : hasForbidden str = false
  deriving DecidableEq

instance : CoeOut Keyspace String := ⟨Keyspace.str⟩

/-- The namespace of the production binary, as a keyspace. -/
def Keyspace.mem : Keyspace := ⟨defaultKeyspace, by decide, by decide⟩

theorem Keyspace.str_inj {K L : Keyspace} : K.str = L.str ↔ K = L :=
  ⟨fun h => by cases K; cases L; cases h; rfl, fun h => h ▸ rfl⟩

theorem Keyspace.not_mem (K : Keyspace) {c : Char} (hc : c ∈ [':', '*', '?', '[', ']']) :
    c ∉ K.str.toList := by
  intro hmem
  have hany : hasForbidden K.str = true := by
    unfold hasForbidden
    exact List.any_eq_true.mpr ⟨c, hmem, by simpa using hc⟩
  rw [K.allowed] at hany
  exact absurd hany (by decide)

def flowOverlayBase : String := "flow:overlay:"

def keyPrefix (K : Keyspace) : String := K.str ++ ":"

/-- The runes `sanitizeKey` replaces. -/
def sanitizeRune (r : Char) : Char :=
  if r = ':' || r = ' ' || r = '/' || r = '\\' then '_' else r

def sanitizeKey (s : String) : String := String.ofList (s.toList.map sanitizeRune)

def fileKey (K : Keyspace) (repo path : String) : String :=
  keyPrefix K ++ repo ++ ":file:" ++ sanitizeKey path

/-- The name a function is stored under. -/
def qualifiedNameOf (qualifiedName file name : String) : String :=
  if qualifiedName = "" && file ≠ "" then file ++ ":" ++ name
  else if qualifiedName = "" then name
  else qualifiedName

def funcKey (K : Keyspace) (repo qn : String) : String :=
  keyPrefix K ++ repo ++ ":func:" ++ sanitizeKey qn

def flowKey (K : Keyspace) (repo name : String) : String :=
  keyPrefix K ++ repo ++ ":flow:" ++ sanitizeKey name

def decisionKey (K : Keyspace) (repo name : String) : String :=
  keyPrefix K ++ repo ++ ":decision:" ++ sanitizeKey name

def flowOverlayKey (K : Keyspace) (repo name : String) : String :=
  flowOverlayBase ++ K.str ++ ":" ++ repo ++ ":" ++ sanitizeKey name

/-! ### Memories -/

structure FileMemory where
  repo : String
  path : String
  purpose : String
  keySymbols : String
  source : String
  scope : String
  repoPath : String
  deriving DecidableEq, Repr

structure FuncMemory where
  repo : String
  name : String
  qualifiedName : String
  file : String
  purpose : String
  callers : String
  callees : String
  source : String
  scope : String
  repoPath : String
  deriving DecidableEq, Repr

structure FlowMemory where
  repo : String
  name : String
  purpose : String
  files : String
  entryPoints : String
  source : String
  scope : String
  queryID : String
  subgraphJSON : String
  deriving DecidableEq, Repr

structure DecisionMemory where
  repo : String
  name : String
  decisionType : String
  decision : String
  rationale : String
  alternatives : String
  constraint : String
  scope : String
  files : String
  status : String
  supersedes : String
  supersededBy : String
  deriving DecidableEq, Repr

/-- What the other programs answer during a save, and the time. `embed` is `none` when the embedding
call fails, `gitFileHash` is empty when git has no hash. -/
structure Env (F : Type) where
  embed : String → Option (List F)
  gitFileHash : String → String → String
  now : Int

/-- The errors of a save. -/
inductive SaveErr where
  | embed | redis
  deriving DecidableEq, Repr

/-- The error of a command whose answer is not used. -/
def errOf : Option Unit → Option SaveErr
  | none => some .redis
  | some _ => none

/-- A memory without a source is the agent's. -/
def sourceOr (source : String) : String := if source = "" then "agent" else source

/-- A field of a hash that is written only when it is not empty. -/
def optional (name value : String) : List (String × Value F) :=
  if value = "" then [] else [(name, .text value)]

/-- The answer to `HGET` as a Go string. -/
def readText : Option (Option (Value F)) → String
  | some (some v) => v.str
  | _ => ""

/-- `getField`: a field of a hash; empty when it is missing or cannot be read. -/
def getField (key field : String) : Prog (memdb F) String := readText <$> Mdb.hget key field

/-- The source of the record an auto save would overwrite; an agent's save does not look. -/
def existingSource (key source : String) : Prog (memdb F) String :=
  if source = "auto" then getField key "source" else pure ""

/-- Embed the text and write the fields. -/
def embedAndWrite (env : Env F) (key text : String) (fields : List F → List (String × Value F)) :
    Prog (memdb F) (Option SaveErr) :=
  match env.embed text with
  | none => pure (some .embed)
  | some vec => errOf <$> Mdb.hset key (fields vec)

/-- The common part of the saves: an auto save stops at a record of the agent; otherwise the text is
embedded and the fields are written. -/
def saveRecord (env : Env F) (key source text : String)
    (fields : List F → List (String × Value F)) : Prog (memdb F) (Option SaveErr) := do
  let existing ← existingSource key source
  if existing = "agent" then return none
  else embedAndWrite env key text fields

/-- The fields that `saveRecord` writes over a hash; none when it writes nothing. -/
def saveWrites (env : Env F) (source text : String) (fields : List F → List (String × Value F))
    (h : Hash F) : Option (List (String × Value F)) :=
  if source = "auto" ∧ h.text "source" = "agent" then none else (env.embed text).map fields

namespace FileMemory

/-- The hash of the file, when the repo's path is known. -/
def gitHash (env : Env F) (m : FileMemory) : String :=
  if m.repoPath = "" then "" else env.gitFileHash m.repoPath m.path

def fields (env : Env F) (m : FileMemory) (vec : List F) : List (String × Value F) :=
  [
    ("mem_type", .text "file"),
    ("repo", .text m.repo),
    ("path", .text m.path),
    ("purpose", .text m.purpose),
    ("key_symbols", .text m.keySymbols),
    ("source", .text (sourceOr m.source)),
    ("scope", .text m.scope),
    ("updated_at", .int env.now),
    ("embedding", .vec vec)] ++ optional "git_hash" (m.gitHash env)

end FileMemory

namespace FuncMemory

def qn (m : FuncMemory) : String := qualifiedNameOf m.qualifiedName m.file m.name

/-- The hash of the function's file, when both the repo's path and the file are known. -/
def gitHash (env : Env F) (m : FuncMemory) : String :=
  if m.repoPath = "" || m.file = "" then "" else env.gitFileHash m.repoPath m.file

def fields (env : Env F) (m : FuncMemory) (vec : List F) : List (String × Value F) :=
  [
    ("mem_type", .text "func"),
    ("repo", .text m.repo),
    ("name", .text m.name),
    ("qualified_name", .text m.qn),
    ("file", .text m.file),
    ("purpose", .text m.purpose),
    ("callers", .text m.callers),
    ("callees", .text m.callees),
    ("source", .text (sourceOr m.source)),
    ("scope", .text m.scope),
    ("updated_at", .int env.now),
    ("embedding", .vec vec)] ++ optional "git_hash" (m.gitHash env)

end FuncMemory

namespace FlowMemory

def fields (env : Env F) (m : FlowMemory) (vec : List F) : List (String × Value F) :=
  [
    ("mem_type", .text "flow"),
    ("repo", .text m.repo),
    ("name", .text m.name),
    ("purpose", .text m.purpose),
    ("files", .text m.files),
    ("entry_points", .text m.entryPoints),
    ("source", .text (sourceOr m.source)),
    ("scope", .text m.scope),
    ("updated_at", .int env.now),
    ("embedding", .vec vec)] ++ optional "query_id" m.queryID ++
    optional "subgraph_json" m.subgraphJSON

end FlowMemory

/-- `SaveFile`. -/
def saveFile (env : Env F) (K : Keyspace) (m : FileMemory) : Prog (memdb F) (Option SaveErr) :=
  saveRecord env (fileKey K m.repo m.path) (sourceOr m.source)
    (m.path ++ " " ++ m.purpose ++ " " ++ m.keySymbols) (m.fields env)

/-- `SaveFunc`. -/
def saveFunc (env : Env F) (K : Keyspace) (m : FuncMemory) : Prog (memdb F) (Option SaveErr) :=
  saveRecord env (funcKey K m.repo m.qn) (sourceOr m.source)
    (m.name ++ " " ++ m.purpose ++ " " ++ m.callers ++ " " ++ m.callees) (m.fields env)

/-- `SaveFlow`. -/
def saveFlow (env : Env F) (K : Keyspace) (m : FlowMemory) : Prog (memdb F) (Option SaveErr) :=
  saveRecord env (flowKey K m.repo m.name) (sourceOr m.source)
    (m.name ++ " " ++ m.purpose ++ " " ++ m.files) (m.fields env)

namespace DecisionMemory

def fields (env : Env F) (m : DecisionMemory) (vec : List F) : List (String × Value F) :=
  [
    ("mem_type", .text "decision"),
    ("repo", .text m.repo),
    ("decision_type", .text m.decisionType),
    ("name", .text m.name),
    ("decision", .text m.decision),
    ("rationale", .text m.rationale),
    ("alternatives", .text m.alternatives),
    ("constraint", .text m.constraint),
    ("scope", .text m.scope),
    ("files", .text m.files),
    ("status", .text (if m.status = "" then "active" else m.status)),
    ("supersedes", .text m.supersedes),
    ("superseded_by", .text m.supersededBy),
    ("source", .text "agent"),
    ("updated_at", .int env.now),
    ("embedding", .vec vec)]

def text (m : DecisionMemory) : String :=
  m.name ++ " " ++ m.decision ++ " " ++ m.rationale ++ " " ++ m.constraint

end DecisionMemory

/-- `SaveDecision`. -/
def saveDecision (env : Env F) (K : Keyspace) (m : DecisionMemory) :
    Prog (memdb F) (Option SaveErr) :=
  embedAndWrite env (decisionKey K m.repo m.name) m.text (m.fields env)

/-! ### The three saves as one -/

/-- A memory of one of the three kinds that share their way of saving. -/
inductive Record where
  | file (m : FileMemory)
  | func (m : FuncMemory)
  | flow (m : FlowMemory)
  deriving DecidableEq, Repr

namespace Record

def key (K : Keyspace) : Record → String
  | .file m => fileKey K m.repo m.path
  | .func m => funcKey K m.repo m.qn
  | .flow m => flowKey K m.repo m.name

/-- Who writes the memory. -/
def source : Record → String
  | .file m => sourceOr m.source
  | .func m => sourceOr m.source
  | .flow m => sourceOr m.source

/-- The text that is embedded. -/
def text : Record → String
  | .file m => m.path ++ " " ++ m.purpose ++ " " ++ m.keySymbols
  | .func m => m.name ++ " " ++ m.purpose ++ " " ++ m.callers ++ " " ++ m.callees
  | .flow m => m.name ++ " " ++ m.purpose ++ " " ++ m.files

/-- The fields that are written. -/
def fields (env : Env F) : Record → List F → List (String × Value F)
  | .file m => m.fields env
  | .func m => m.fields env
  | .flow m => m.fields env

def save (env : Env F) (K : Keyspace) : Record → Prog (memdb F) (Option SaveErr)
  | .file m => saveFile env K m
  | .func m => saveFunc env K m
  | .flow m => saveFlow env K m

theorem save_eq (env : Env F) (K : Keyspace) (m : Record) :
    m.save env K = saveRecord env (m.key K) m.source m.text (m.fields env) := by
  cases m with
  | file m => rfl
  | func m => rfl
  | flow m => rfl

/-- The fields a save writes over a hash; none when it writes nothing. -/
def writes (env : Env F) (m : Record) (h : Hash F) : Option (List (String × Value F)) :=
  saveWrites env m.source m.text (m.fields env) h

end Record

/-! ### The sequential run of a save -/

theorem readText_some (v : Option (Value F)) : readText (some v) = (v.map Value.str).getD "" := by
  cases v with
  | none => rfl
  | some v => rfl

theorem getField_run (s : Server F) (key field : String) :
    (getField key field).run s = (((s.hashAt key).map (·.text field)).getD "", s) := by
  unfold getField
  rw [run_map, Mdb.hget_run]
  cases s.hashAt key with
  | none => rfl
  | some h => rw [Option.map_some, readText_some]; rfl

/-- What the guard of a save reads. -/
theorem existingSource_run (s : Server F) (key source : String) :
    (existingSource key source).run s
      = (if source = "auto" then ((s.hashAt key).map (·.text "source")).getD "" else "", s) := by
  unfold existingSource
  split_ifs
  · exact getField_run s key "source"
  · rfl

theorem embedAndWrite_run (env : Env F) (key text : String)
    (fields : List F → List (String × Value F)) (s : Server F) :
    ((embedAndWrite env key text fields).run s).2
      = match s.hashAt key with
        | none => s
        | some h =>
          match (env.embed text).map fields with
          | none => s
          | some fs => s.putHash key (hsetFields h fs) := by
  unfold embedAndWrite
  cases env.embed text with
  | none => cases s.hashAt key <;> rfl
  | some vec =>
    dsimp only
    rw [run_map, Mdb.hset_run]
    cases s.hashAt key <;> rfl

/-- **A save** writes its fields over the record at its key, or nothing. -/
theorem saveRecord_run (env : Env F) (key source text : String)
    (fields : List F → List (String × Value F)) (s : Server F) :
    ((saveRecord env key source text fields).run s).2
      = match s.hashAt key with
        | none => s
        | some h =>
          match saveWrites env source text fields h with
          | none => s
          | some fs => s.putHash key (hsetFields h fs) := by
  have hwrite := embedAndWrite_run env key text fields s
  unfold saveRecord saveWrites
  rw [run_bind, existingSource_run]
  dsimp only
  cases hs : s.hashAt key with
  | none =>
    rw [hs] at hwrite
    simpa using hwrite
  | some h =>
    rw [hs] at hwrite
    -- an automatic save does not replace what the agent has saved
    by_cases hguard : source = "auto" ∧ h.text "source" = "agent"
    · simp [hguard]
    · -- for any other save the guard lets the write through
      have hgo : ¬ (if source = "auto" then h.text "source" else "") = "agent" := by
        split_ifs with hauto
        · exact fun hagent => hguard ⟨hauto, hagent⟩
        · decide
      simpa [hgo, hguard] using hwrite

namespace Record

variable (env : Env F) (K : Keyspace) (m : Record) (s : Server F)

theorem save_run :
    ((m.save env K).run s).2
      = match s.hashAt (m.key K) with
        | none => s
        | some h =>
          match m.writes env h with
          | none => s
          | some fs => s.putHash (m.key K) (hsetFields h fs) := by
  rw [save_eq]
  exact saveRecord_run env _ _ _ _ s

/-- The record after a save. -/
theorem save_hashAt :
    ((m.save env K).run s).2.hashAt (m.key K)
      = (s.hashAt (m.key K)).map fun h => (m.writes env h).elim h (hsetFields h) := by
  rw [save_run]
  cases hs : s.hashAt (m.key K) with
  | none => simp [hs]
  | some h =>
    cases hw : m.writes env h with
    | none => simp [hs, hw]
    | some fs => simp [hw]

/-- A save leaves the other keys as they are. -/
theorem save_frame {key : String} (hne : key ≠ m.key K) :
    ((m.save env K).run s).2.keys.lookup key = s.keys.lookup key := by
  rw [save_run]
  cases s.hashAt (m.key K) with
  | none => rfl
  | some h =>
    dsimp only
    cases m.writes env h with
    | none => rfl
    | some fs => exact s.lookup_putHash_ne _ hne

end Record

/-- A save of a decision leaves the other keys as they are. -/
theorem saveDecision_frame (env : Env F) (K : Keyspace) (m : DecisionMemory) (s : Server F)
    {key : String} (hne : key ≠ decisionKey K m.repo m.name) :
    ((saveDecision env K m).run s).2.keys.lookup key = s.keys.lookup key := by
  unfold saveDecision
  rw [embedAndWrite_run]
  cases s.hashAt (decisionKey K m.repo m.name) with
  | none => rfl
  | some h =>
    dsimp only
    cases (env.embed m.text).map (m.fields env) with
    | none => rfl
    | some fs => exact s.lookup_putHash_ne _ hne

end Devrouter.Memory
