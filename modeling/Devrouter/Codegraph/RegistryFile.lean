import Mathlib.Data.Rat.Defs
import Devrouter.Codegraph.Tokens
import Devrouter.Lib.LastWins
import Devrouter.Lib.SlashPath

/-!
# The registry file

Model of `src/codegraph/lib/registry.js`. The sidecar reads the first registry that exists among four places and
writes to one of two: `CODEGRAPH_HOME` when it is set, the home directory otherwise.

A file holds what `JSON.parse` makes of it. Files are found through `locate`, which stands for the working
directory and the links of the machine: two paths may be one file. A value of a field is what the loader can
tell apart, so an array or an object is its text; two of them are never the same key.

`read_after_write_iff` says when an entry that was written is what is read back.
-/

namespace Devrouter.Codegraph.RegistryFile

/-! ### Rows -/

/-- A value of a field. -/
inductive FieldValue where
  | null
  | bool (b : Bool)
  | number (x : ℚ)
  | text (s : String)
  | composite (json : String)
  deriving DecidableEq

namespace FieldValue

def truthy : FieldValue → Bool
  | null => false
  | bool b => b
  | number x => x ≠ 0
  | text s => s ≠ ""
  | composite _ => true

/-- `||`. -/
def orElse (v w : FieldValue) : FieldValue := if v.truthy then v else w

/-- The keys of a `Map`: arrays and objects are compared by identity. -/
def sameKey : FieldValue → FieldValue → Bool
  | composite _, _ => false
  | v, w => v = w

end FieldValue

/-- An element of the array. A field that is missing reads as `null`. -/
inductive Row where
  | value (v : FieldValue)
  | object (members : List (String × FieldValue))
  deriving DecidableEq

/-- `e.key`; the last member with the key counts. -/
def Row.member (key : String) : Row → FieldValue
  | value _ => .null
  | object members => ((members.reverse.find? (·.1 = key)).map Prod.snd).getD .null

/-- What a file holds. -/
inductive Content where
  | malformed
  | value (v : FieldValue)
  | rows (rs : List Row)
  deriving DecidableEq

structure Entry where
  name : FieldValue
  path : FieldValue
  storagePath : FieldValue
  indexedAt : FieldValue
  deriving DecidableEq

def Entry.sameName (e e' : Entry) : Bool := e.name.sameKey e'.name

/-- The query `e.name === name` for a text. -/
def Entry.hasName (name : String) (e : Entry) : Bool := e.name = .text name

/-! ### Paths -/

/-- `path.join`. -/
def joinPath (parts : List String) : String := String.ofList (SlashPath.join (parts.map String.toList))

/-- `trim`. -/
def jsTrim (s : String) : String := String.ofList (s.toList.trimWhile jsIsSpace)

structure Environment (Loc : Type) where
  codegraphHome : Option String
  gitnexusHome : Option String
  home : Option String
  /-- The home directory of the account, which counts when `HOME` is not set. -/
  accountHome : String
  /-- Where the machine finds the file of a path. -/
  locate : String → Loc

variable {Loc : Type}

abbrev Files (Loc : Type) := Loc → Option Content

namespace Environment

variable (env : Environment Loc)

/-- `os.homedir`. -/
def homedir : String := env.home.getD env.accountHome

/-- `env.X && env.X.trim()`, when it is truthy. -/
def trimmed (v : Option String) : Option String := (v.map jsTrim).filter (· ≠ "")

def homeCandidates : List String :=
  (trimmed env.codegraphHome).toList ++ (trimmed env.gitnexusHome).toList ++
    [joinPath [env.homedir, ".codegraph"], joinPath [env.homedir, ".gitnexus"]]

def registryReadPath (files : Files Loc) : String :=
  ((env.homeCandidates.map fun home => joinPath [home, "registry.json"]).find?
    fun p => (files (env.locate p)).isSome).getD (joinPath [env.homedir, ".codegraph", "registry.json"])

def registryWritePath : String :=
  joinPath [(trimmed env.codegraphHome).getD (joinPath [env.homedir, ".codegraph"]), "registry.json"]

end Environment

/-! ### Loading -/

def storageDir (path : String) : String := joinPath [path, ".codegraph"]

/-- `e.storagePath || path.join(e.path, '.codegraph')`. Joining what is no text throws. -/
def Row.storage (row : Row) : Option FieldValue :=
  if (row.member "storagePath").truthy then some (row.member "storagePath")
  else
    match row.member "path" with
    | .text path => some (.text (storageDir path))
    | _ => none

/-- A row of the loop: `some none` is dropped, `none` throws. -/
def Row.read (row : Row) : Option (Option Entry) :=
  if (row.member "name").truthy && (row.member "path").truthy then
    row.storage.map fun storage =>
      some ⟨row.member "name", row.member "path", storage, (row.member "indexedAt").orElse (.text "")⟩
  else some none

def readRows : List Row → Option (List Entry)
  | [] => some []
  | row :: rows => do
    let e ← row.read
    let es ← readRows rows
    return e.toList ++ es

/-- The entries of a file; `none` throws. -/
def Content.entries : Content → Option (List Entry)
  | malformed => some []
  | value _ => some []
  | rows rs => (readRows rs).map (List.lastWins Entry.sameName)

variable (env : Environment Loc) (files : Files Loc)

def loadRegistry : Option (List Entry) :=
  match files (env.locate (env.registryReadPath files)) with
  | none => some []
  | some content => content.entries

/-- `none` throws, `some none` is `null`. -/
def resolve (name : String) : Option (Option Entry) :=
  if name = "" then some none else (loadRegistry env files).map (List.find? (Entry.hasName name))

/-! ### Writing -/

/-- The argument of `upsertEntry`. -/
structure NewEntry where
  name : String
  path : String
  storagePath : Option String
  indexedAt : Option String

/-- `now` is the time of the call. -/
def NewEntry.normalized (now : String) (entry : NewEntry) : Entry where
  name := .text entry.name
  path := .text entry.path
  storagePath := .text ((entry.storagePath.filter (· ≠ "")).getD (storageDir entry.path))
  indexedAt := .text ((entry.indexedAt.filter (· ≠ "")).getD now)

/-- An entry as it is printed. -/
def Entry.row (e : Entry) : Row :=
  .object [("name", e.name), ("path", e.path), ("storagePath", e.storagePath), ("indexedAt", e.indexedAt)]

/-- The entry that is returned and the files after it; `none` throws. -/
def upsertEntry [DecidableEq Loc] (now : String) (entry : NewEntry) : Option (Entry × Files Loc) :=
  if entry.name = "" ∨ entry.path = "" then none
  else
    (loadRegistry env files).map fun entries =>
      let normalized := entry.normalized now
      let existing := entries.filter (fun e => !e.hasName entry.name) ++ [normalized]
      (normalized, Function.update files (env.locate env.registryWritePath) (some (.rows (existing.map Entry.row))))

/-! ### What is loaded -/

/-- The entry that a row holds. -/
def Row.entry (row : Row) : Option Entry := row.read.join

/-- The path has to be joined and is no text. -/
structure Row.Unjoinable (row : Row) : Prop where
  name : (row.member "name").truthy = true
  path : (row.member "path").truthy = true
  storagePath : (row.member "storagePath").truthy = false
  not_text : ∀ s, row.member "path" ≠ .text s

/-- The last complete row with the name. -/
def lastNamed (name : String) (rows : List Row) : Option Entry :=
  (rows.filterMap Row.entry).reverse.find? (Entry.hasName name)

/-- An entry that is read again as it was printed. -/
structure Entry.Complete (e : Entry) : Prop where
  name : e.name.truthy = true
  path : e.path.truthy = true
  storagePath : e.storagePath.truthy = true
  indexedAt : e.indexedAt.orElse (.text "") = e.indexedAt

theorem Row.storage_eq_none_iff {row : Row} :
    row.storage = none ↔ (row.member "storagePath").truthy = false ∧ ∀ s, row.member "path" ≠ .text s := by
  rw [Row.storage]
  cases hstorage : (row.member "storagePath").truthy with
  | true => simp
  | false => cases hpath : row.member "path" <;> simp

theorem Row.read_eq_none_iff {row : Row} : row.read = none ↔ row.Unjoinable := by
  rw [Row.read]
  by_cases hnamed : ((row.member "name").truthy && (row.member "path").truthy) = true
  · rw [if_pos hnamed, Option.map_eq_none_iff, Row.storage_eq_none_iff]
    obtain ⟨hname, hpath⟩ := Bool.and_eq_true_iff.mp hnamed
    exact ⟨fun h => ⟨hname, hpath, h.1, h.2⟩, fun h => ⟨h.storagePath, h.not_text⟩⟩
  · rw [if_neg hnamed]
    refine ⟨fun h => (Option.some_ne_none _ h).elim, fun h => absurd ?_ hnamed⟩
    rw [h.name, h.path, Bool.and_self]

theorem joinPath_ne_empty (parts : List String) : joinPath parts ≠ "" := by
  intro h
  have hlist : SlashPath.join (parts.map String.toList) = [] := by
    simpa [joinPath] using congrArg String.toList h
  exact SlashPath.join_ne_nil _ hlist

theorem truthy_text {s : String} (h : s ≠ "") : (FieldValue.text s).truthy = true := by simp [FieldValue.truthy, h]

theorem orElse_text (s : String) : (FieldValue.text s).orElse (.text "") = .text s := by
  by_cases h : s = ""
  · subst h
    rfl
  · rw [FieldValue.orElse, if_pos (truthy_text h)]

theorem FieldValue.orElse_idem (v : FieldValue) : (v.orElse (.text "")).orElse (.text "") = v.orElse (.text "") := by
  cases h : v.truthy <;> simp [FieldValue.orElse, h]

theorem Row.storage_truthy {row : Row} {v : FieldValue} (h : row.storage = some v) : v.truthy = true := by
  rw [Row.storage] at h
  split at h
  · next htruthy => exact Option.some.inj h ▸ htruthy
  · split at h
    · exact Option.some.inj h ▸ truthy_text (joinPath_ne_empty _)
    · cases h

theorem Row.complete_of_read {row : Row} {e : Entry} (h : row.read = some (some e)) : e.Complete := by
  rw [Row.read] at h
  split at h
  · next hnamed =>
    obtain ⟨storage, hstorage, he⟩ := Option.map_eq_some_iff.mp h
    obtain ⟨hname, hpath⟩ := Bool.and_eq_true_iff.mp hnamed
    rw [← Option.some.inj he]
    exact ⟨hname, hpath, Row.storage_truthy hstorage, FieldValue.orElse_idem _⟩
  · cases h

theorem Row.complete_of_entry {row : Row} {e : Entry} (h : row.entry = some e) : e.Complete :=
  row.complete_of_read (Option.join_eq_some_iff.mp h)

/-- What was printed is read again. -/
theorem Entry.Complete.read_row {e : Entry} (h : e.Complete) : e.row.read = some (some e) := by
  have hname : e.row.member "name" = e.name := rfl
  have hpath : e.row.member "path" = e.path := rfl
  have hstorage : e.row.member "storagePath" = e.storagePath := rfl
  have hindexed : e.row.member "indexedAt" = e.indexedAt := rfl
  rw [Row.read, hname, hpath, h.name, h.path, hindexed, h.indexedAt, Row.storage, hstorage, if_pos h.storagePath]
  rfl

theorem readRows_eq_none_iff {rows : List Row} : readRows rows = none ↔ ∃ row ∈ rows, row.Unjoinable := by
  induction rows with
  | nil => simp [readRows]
  | cons row rows ih =>
    rw [List.exists_mem_cons_iff, ← ih, ← Row.read_eq_none_iff, readRows]
    cases hrow : row.read <;> cases hrows : readRows rows <;> simp

theorem readRows_eq_some {rows : List Row} {es : List Entry} (h : readRows rows = some es) :
    es = rows.filterMap Row.entry := by
  induction rows generalizing es with
  | nil => exact (Option.some.inj h).symm
  | cons row rows ih =>
    rw [readRows] at h
    obtain ⟨e, he, h⟩ := Option.bind_eq_some_iff.mp h
    obtain ⟨es', hes', h⟩ := Option.bind_eq_some_iff.mp h
    rw [← Option.some.inj h, ih hes', List.filterMap_cons, Row.entry, he]
    cases e <;> rfl

theorem FieldValue.eq_of_sameKey {v w : FieldValue} (h : v.sameKey w = true) : v = w := by
  cases v <;> simp_all [FieldValue.sameKey]

theorem name_eq_of_sameName {e e' : Entry} (h : e.sameName e' = true) : e.name = e'.name :=
  FieldValue.eq_of_sameKey h

theorem sameName_trans (a b c : Entry) (hab : a.sameName b = true) (hbc : b.sameName c = true) :
    a.sameName c = true := by
  rw [Entry.sameName, name_eq_of_sameName hab]
  exact hbc

/-- A name that is a text is asked for by one query. -/
theorem oneKey_hasName (name : String) : List.OneKey Entry.sameName (Entry.hasName name) where
  same_of {a b} ha hb := by
    have ha' : a.name = .text name := by simpa [Entry.hasName] using ha
    have hb' : b.name = .text name := by simpa [Entry.hasName] using hb
    simp [Entry.sameName, ha', hb', FieldValue.sameKey]
  of_same {a b} h := by rw [Entry.hasName, name_eq_of_sameName h, Entry.hasName]

/-- A loaded registry. -/
structure Loaded (es : List Entry) : Prop where
  apart : es.Apart Entry.sameName
  complete : ∀ e ∈ es, e.Complete

theorem Content.loaded {content : Content} {es : List Entry} (h : content.entries = some es) : Loaded es := by
  cases content with
  | malformed => exact Option.some.inj h ▸ ⟨List.Pairwise.nil, fun e he => absurd he List.not_mem_nil⟩
  | value v => exact Option.some.inj h ▸ ⟨List.Pairwise.nil, fun e he => absurd he List.not_mem_nil⟩
  | rows rs =>
    obtain ⟨read, hread, rfl⟩ := Option.map_eq_some_iff.mp h
    refine ⟨List.apart_lastWins sameName_trans read, fun e he => ?_⟩
    have hmem := List.mem_of_mem_lastWins he
    rw [readRows_eq_some hread] at hmem
    obtain ⟨row, -, hrow⟩ := List.mem_filterMap.mp hmem
    exact row.complete_of_entry hrow

/-- **Printing and reading.** The registry that was printed is the one that is loaded. -/
theorem Loaded.entries_rows {es : List Entry} (h : Loaded es) : (Content.rows (es.map Entry.row)).entries = some es := by
  have hrows : readRows (es.map Entry.row) = some es := by
    have hcomplete := h.complete
    clear h
    induction es with
    | nil => rfl
    | cons e es ih =>
      rw [List.map_cons, readRows, (hcomplete e List.mem_cons_self).read_row,
        ih fun e he => hcomplete e (List.mem_cons_of_mem _ he)]
      rfl
  rw [Content.entries, hrows, Option.map_some, h.apart.lastWins_eq]

/-- The query of a name finds the last complete row. -/
theorem Content.find?_entries {rows : List Row} {es : List Entry} (h : (Content.rows rows).entries = some es)
    (name : String) : es.find? (Entry.hasName name) = lastNamed name rows := by
  obtain ⟨read, hread, rfl⟩ := Option.map_eq_some_iff.mp h
  rw [List.find?_lastWins (oneKey_hasName name), readRows_eq_some hread, lastNamed]

theorem loaded_of_load {es : List Entry} (h : loadRegistry env files = some es) : Loaded es := by
  rw [loadRegistry] at h
  split at h
  · exact Option.some.inj h ▸ ⟨List.Pairwise.nil, fun e he => absurd he List.not_mem_nil⟩
  · next content _ => exact content.loaded h

/-! ### What is written -/

theorem NewEntry.complete_normalized (now : String) {entry : NewEntry} (hname : entry.name ≠ "")
    (hpath : entry.path ≠ "") : (entry.normalized now).Complete where
  name := truthy_text hname
  path := truthy_text hpath
  storagePath := by
    refine truthy_text ?_
    cases h : entry.storagePath.filter (· ≠ "") with
    | none => exact joinPath_ne_empty _
    | some dir => simpa using (Option.filter_eq_some_iff.mp h).2
  indexedAt := orElse_text _

/-- The registry after an entry was added or replaced. -/
def upserted (now : String) (entry : NewEntry) (es : List Entry) : List Entry :=
  es.filter (fun e => !e.hasName entry.name) ++ [entry.normalized now]

variable {now : String} {entry : NewEntry} {es : List Entry}

theorem hasName_normalized (name : String) :
    (entry.normalized now).hasName name = decide (entry.name = name) := by
  simp [Entry.hasName, NewEntry.normalized]

theorem Loaded.upserted (h : Loaded es) (hname : entry.name ≠ "") (hpath : entry.path ≠ "") :
    Loaded (upserted now entry es) := by
  constructor
  · refine List.pairwise_append.mpr ⟨h.apart.filter _, List.pairwise_singleton _ _, fun e he e' he' => ?_⟩
    rw [List.mem_singleton.mp he']
    -- what stays has another name
    have hother : e.hasName entry.name = false := by simpa using (List.mem_filter.mp he).2
    by_contra hsame
    have heq := (oneKey_hasName entry.name).of_same (by simpa using hsame)
    rw [hother, hasName_normalized, decide_eq_true rfl] at heq
    exact Bool.false_ne_true heq
  · intro e he
    cases List.mem_append.mp he with
    | inl hold => exact h.complete e (List.mem_filter.mp hold).1
    | inr hnew => exact List.mem_singleton.mp hnew ▸ NewEntry.complete_normalized now hname hpath

theorem find?_upserted (name : String) : (upserted now entry es).find? (Entry.hasName name)
    = if name = entry.name then some (entry.normalized now) else es.find? (Entry.hasName name) := by
  rw [upserted, List.find?_append, List.find?_singleton, hasName_normalized]
  by_cases hn : name = entry.name
  · have hnone : (es.filter fun e => !e.hasName entry.name).find? (Entry.hasName name) = none := by
      refine List.find?_eq_none.mpr fun e he => ?_
      simpa [hn] using (List.mem_filter.mp he).2
    rw [hnone]
    simp [hn]
  · have hkeep : (fun e : Entry => !e.hasName entry.name && e.hasName name) = Entry.hasName name := by
      funext e
      cases hq : e.hasName name with
      | false => rw [Bool.and_false]
      | true =>
        have he : e.name = .text name := by simpa [Entry.hasName] using hq
        simp [Entry.hasName, he, hn]
    simp [List.find?_filter, hn, hkeep, Ne.symm hn]

theorem mem_upserted {e : Entry} (he : e ∈ es) (hother : e.hasName entry.name = false) :
    e ∈ upserted now entry es := List.mem_append_left _ (List.mem_filter.mpr ⟨he, by simp [hother]⟩)

/-! ### Where it is read -/

/-- The legacy registry hides the file that is written. -/
def Shadowed : Prop :=
  Environment.trimmed env.codegraphHome = none ∧
    ∃ home, Environment.trimmed env.gitnexusHome = some home ∧
      (files (env.locate (joinPath [home, "registry.json"]))).isSome ∧
      env.locate (joinPath [home, "registry.json"]) ≠ env.locate env.registryWritePath

variable {env : Environment Loc} {files : Files Loc}

/-- What the hidden registry leaves to be read. -/
theorem Shadowed.registryReadPath {after : Files Loc} (h : Shadowed env files)
    (hafter : ∀ loc, loc ≠ env.locate env.registryWritePath → after loc = files loc) :
    env.registryReadPath after = env.registryReadPath files ∧
      env.locate (env.registryReadPath files) ≠ env.locate env.registryWritePath := by
  obtain ⟨hunset, home, hhome, hexists, hne⟩ := h
  have hread : ∀ fs : Files Loc, (fs (env.locate (joinPath [home, "registry.json"]))).isSome →
      env.registryReadPath fs = joinPath [home, "registry.json"] := by
    intro fs hfs
    rw [Environment.registryReadPath, Environment.homeCandidates, hunset, hhome]
    simp [hfs]
  rw [hread files hexists, hread after (by rwa [hafter _ hne])]
  exact ⟨rfl, hne⟩

/-- Otherwise the file that was written is read. -/
theorem locate_registryReadPath {after : Files Loc} (h : ¬ Shadowed env files)
    (hafter : ∀ loc, loc ≠ env.locate env.registryWritePath → after loc = files loc)
    (hwritten : (after (env.locate env.registryWritePath)).isSome) :
    env.locate (env.registryReadPath after) = env.locate env.registryWritePath := by
  cases hset : Environment.trimmed env.codegraphHome with
  | some home =>
    have hwrite : env.registryWritePath = joinPath [home, "registry.json"] := by
      rw [Environment.registryWritePath, hset, Option.getD_some]
    rw [hwrite] at hwritten ⊢
    rw [Environment.registryReadPath, Environment.homeCandidates, hset]
    simp [hwritten]
  | none =>
    have hwrite : env.registryWritePath = joinPath [joinPath [env.homedir, ".codegraph"], "registry.json"] := by
      rw [Environment.registryWritePath, hset, Option.getD_none]
    rw [hwrite] at hwritten hafter ⊢
    rw [Environment.registryReadPath, Environment.homeCandidates, hset]
    cases hlegacy : Environment.trimmed env.gitnexusHome with
    | none => simp [hwritten]
    | some home =>
      cases hexists : (after (env.locate (joinPath [home, "registry.json"]))).isSome with
      | false => simp [hexists, hwritten]
      | true =>
        -- the legacy registry exists now, so it existed before or it is the file that was written
        by_contra hother
        simp only [Option.toList_none, Option.toList_some, List.nil_append, List.cons_append, List.map_cons,
          List.find?_cons, hexists, Option.getD_some] at hother
        refine h ⟨hset, home, hlegacy, ?_, by rwa [hwrite]⟩
        rw [← hafter _ hother]
        exact hexists

/-! ### Reading what was written -/

theorem load_eq_none_iff : loadRegistry env files = none ↔
    ∃ rows, files (env.locate (env.registryReadPath files)) = some (.rows rows) ∧ ∃ row ∈ rows, row.Unjoinable := by
  rw [loadRegistry]
  cases hfile : files (env.locate (env.registryReadPath files)) with
  | none => simp
  | some content =>
    cases content with
    | malformed => simp [Content.entries]
    | value v => simp [Content.entries]
    | rows rs => simp [Content.entries, readRows_eq_none_iff]

/-- Resolving a name finds the last complete row of the file that is read. -/
theorem resolve_eq_some_iff {name : String} (hname : name ≠ "") {e : Entry} :
    resolve env files name = some (some e) ↔
      loadRegistry env files ≠ none ∧ ∃ rows, files (env.locate (env.registryReadPath files)) = some (.rows rows) ∧
        lastNamed name rows = some e := by
  rw [resolve, if_neg hname, loadRegistry]
  cases hfile : files (env.locate (env.registryReadPath files)) with
  | none => simp
  | some content =>
    cases content with
    | malformed => simp [Content.entries]
    | value v => simp [Content.entries]
    | rows rs =>
      cases hes : (Content.rows rs).entries with
      | none => simp [hes]
      | some es => simp [hes, Content.find?_entries hes]

/-- No row of the file that is read has a path that cannot be joined, and a legacy registry that hides the file
that is written already holds the entry. -/
structure ReadsBack (env : Environment Loc) (files : Files Loc) (now : String) (entry : NewEntry) : Prop where
  joinable : ∀ rows, files (env.locate (env.registryReadPath files)) = some (.rows rows) →
    ∀ row ∈ rows, ¬ row.Unjoinable
  held : Shadowed env files → ∃ rows, files (env.locate (env.registryReadPath files)) = some (.rows rows) ∧
    lastNamed entry.name rows = some (entry.normalized now)

theorem ReadsBack.load_ne_none (h : ReadsBack env files now entry) : loadRegistry env files ≠ none := by
  intro hnone
  obtain ⟨rows, hfile, row, hrow, hun⟩ := load_eq_none_iff.mp hnone
  exact h.joinable rows hfile row hrow hun

variable [DecidableEq Loc]

/-- **What an upsert does.** Its entry goes to the file that is written, and this is the file that is read unless
it is hidden. -/
theorem upsertEntry_spec {written : Entry} {after : Files Loc}
    (h : upsertEntry env files now entry = some (written, after)) :
    ∃ es, loadRegistry env files = some es ∧ written = entry.normalized now ∧
      (Shadowed env files → loadRegistry env after = some es) ∧
      (¬ Shadowed env files → loadRegistry env after = some (upserted now entry es)) := by
  rw [upsertEntry] at h
  split at h
  · cases h
  next hfields =>
  rw [not_or] at hfields
  obtain ⟨es, hload, heq⟩ := Option.map_eq_some_iff.mp h
  obtain ⟨rfl, rfl⟩ := Prod.mk.inj heq
  -- every other file is as it was
  have hafter : ∀ loc, loc ≠ env.locate env.registryWritePath → Function.update files (env.locate env.registryWritePath)
      (some (.rows ((upserted now entry es).map Entry.row))) loc = files loc :=
    fun loc hloc => Function.update_of_ne hloc _ _
  -- another registry is read before the written one, so the entry is not seen
  refine ⟨es, hload, rfl, fun hshadow => ?_, fun hshadow => ?_⟩
  · obtain ⟨hpath, hne⟩ := hshadow.registryReadPath hafter
    rw [← hload, loadRegistry]
    simp only [upserted] at hpath hafter
    rw [hpath, hafter _ hne]
    rfl
  · -- the written registry is the one that is read next
    have hpath := locate_registryReadPath hshadow hafter (by rw [Function.update_self]; rfl)
    rw [loadRegistry]
    simp only [upserted] at hpath
    rw [hpath, Function.update_self]
    exact ((loaded_of_load _ _ hload).upserted hfields.1 hfields.2).entries_rows

/-- A file that is not hidden answers with the entry that was written last. -/
theorem resolve_upsert {written : Entry} {after : Files Loc}
    (h : upsertEntry env files now entry = some (written, after)) (hshown : ¬ Shadowed env files) (name : String) :
    resolve env after name = if name = entry.name then some (some written) else resolve env files name := by
  obtain ⟨es, hload, rfl, -, hafter⟩ := upsertEntry_spec h
  by_cases hempty : name = ""
  · have hother : name ≠ entry.name := by
      intro heq
      rw [upsertEntry, if_pos (.inl (heq ▸ hempty))] at h
      cases h
    rw [if_neg hother, resolve, resolve, if_pos hempty, if_pos hempty]
  · rw [resolve, resolve, if_neg hempty, if_neg hempty, hafter hshown, hload, Option.map_some, find?_upserted]
    split <;> rfl

/-- A file that is hidden changes no answer. -/
theorem resolve_upsert_shadowed {written : Entry} {after : Files Loc}
    (h : upsertEntry env files now entry = some (written, after)) (hhidden : Shadowed env files) (name : String) :
    resolve env after name = resolve env files name := by
  obtain ⟨es, hload, -, hafter, -⟩ := upsertEntry_spec h
  rw [resolve, resolve, hafter hhidden, hload]

/-- The entry that is written is read back, and the other entries are what they were. -/
def ReadAfterWrite (env : Environment Loc) (files : Files Loc) (now : String) (entry : NewEntry) : Prop :=
  ∃ written after, upsertEntry env files now entry = some (written, after) ∧
    resolve env after entry.name = some (some written) ∧
    (∀ name, name ≠ entry.name → resolve env after name = resolve env files name) ∧
    ∀ es, loadRegistry env files = some es → ∀ e ∈ es, e.hasName entry.name = false →
      ∃ es', loadRegistry env after = some es' ∧ e ∈ es'

/-- No entry of another name is lost. -/
theorem mem_load_upsert {written : Entry} {after : Files Loc} {es : List Entry}
    (h : upsertEntry env files now entry = some (written, after)) (hload : loadRegistry env files = some es) {e : Entry}
    (he : e ∈ es) (hother : e.hasName entry.name = false) : ∃ es', loadRegistry env after = some es' ∧ e ∈ es' := by
  obtain ⟨es', hload', -, hhidden, hshown⟩ := upsertEntry_spec h
  obtain rfl : es' = es := Option.some.inj (hload'.symm.trans hload)
  by_cases hs : Shadowed env files
  · exact ⟨es', hhidden hs, he⟩
  · exact ⟨_, hshown hs, mem_upserted he hother⟩

/-! ### Repeated upserts -/

/-- The files after a run of upserts, each with its time; `none` throws. -/
def upsertAll (env : Environment Loc) : Files Loc → List (String × NewEntry) → Option (Files Loc)
  | files, [] => some files
  | files, (now, entry) :: rest => (upsertEntry env files now entry).bind fun r => upsertAll env r.2 rest

/-- Upserts write where the legacy registry is not. -/
theorem shadowed_upsert {written : Entry} {after : Files Loc}
    (h : upsertEntry env files now entry = some (written, after)) : Shadowed env after ↔ Shadowed env files := by
  have hafter : ∀ loc, loc ≠ env.locate env.registryWritePath → after loc = files loc := by
    intro loc hloc
    rw [upsertEntry] at h
    split at h
    · cases h
    obtain ⟨es, -, heq⟩ := Option.map_eq_some_iff.mp h
    rw [← (Prod.mk.inj heq).2]
    exact Function.update_of_ne hloc _ _
  unfold Shadowed
  refine and_congr_right fun _ => exists_congr fun home => and_congr_right fun _ => ?_
  constructor
  · rintro ⟨hexists, hne⟩
    exact ⟨by rwa [← hafter _ hne], hne⟩
  · rintro ⟨hexists, hne⟩
    exact ⟨by rwa [hafter _ hne], hne⟩

/-- **Repeated upserts.** Where no legacy registry hides the file, a name that was written resolves to its last
entry, and any other name to what it was. -/
theorem resolve_upsertAll {writes : List (String × NewEntry)} {after : Files Loc} (hshown : ¬ Shadowed env files)
    (h : upsertAll env files writes = some after) (name : String) :
    resolve env after name = ((writes.reverse.find? (·.2.name = name)).map fun w => some (some (w.2.normalized w.1))).getD
      (resolve env files name) := by
  induction writes generalizing files with
  | nil => exact Option.some.inj h ▸ rfl
  | cons write writes ih =>
    obtain ⟨⟨written, mid⟩, hupsert, hrest⟩ := Option.bind_eq_some_iff.mp h
    obtain ⟨-, -, hwritten, -⟩ := upsertEntry_spec hupsert
    rw [ih (by rwa [shadowed_upsert hupsert]) hrest, resolve_upsert hupsert hshown, List.reverse_cons,
      List.find?_append, List.find?_singleton, hwritten]
    cases writes.reverse.find? (·.2.name = name) with
    | some w => rfl
    | none =>
      by_cases hname : write.2.name = name
      · simp [hname]
      · simp [hname, Ne.symm hname]

/-- **Reading what was written.** An entry is read back, beside all the others, exactly when no row stops the
loader and the file that is written is read, or the one that hides it holds the entry. -/
theorem read_after_write_iff (env : Environment Loc) (files : Files Loc) (now : String) (entry : NewEntry)
    (hname : entry.name ≠ "") (hpath : entry.path ≠ "") :
    ReadAfterWrite env files now entry ↔ ReadsBack env files now entry := by
  constructor
  · intro h
    obtain ⟨written, after, hupsert, hresolve, -, -⟩ := h
    obtain ⟨es, hload, rfl, -, -⟩ := upsertEntry_spec hupsert
    constructor
    · intro rows hfile row hrow hun
      have hnone := load_eq_none_iff.mpr ⟨rows, hfile, row, hrow, hun⟩
      exact Option.some_ne_none es (hload.symm.trans hnone)
    · intro hhidden
      -- the upsert is not seen, so the entry was there before
      rw [resolve_upsert_shadowed hupsert hhidden, resolve_eq_some_iff hname] at hresolve
      exact hresolve.2
  · intro h
    obtain ⟨es, hload⟩ := Option.ne_none_iff_exists'.mp h.load_ne_none
    obtain ⟨after, hupsert⟩ : ∃ after, upsertEntry env files now entry = some (entry.normalized now, after) := by
      rw [upsertEntry, if_neg (by simp [hname, hpath]), hload]
      exact ⟨_, rfl⟩
    have hkept : ∀ es, loadRegistry env files = some es → ∀ e ∈ es, e.hasName entry.name = false →
        ∃ es', loadRegistry env after = some es' ∧ e ∈ es' := fun es hload e he => mem_load_upsert hupsert hload he
    refine ⟨_, after, hupsert, ?_⟩
    by_cases hs : Shadowed env files
    · have hsame := resolve_upsert_shadowed hupsert hs
      refine ⟨?_, fun name _ => hsame name, hkept⟩
      rw [hsame]
      exact (resolve_eq_some_iff hname).mpr ⟨h.load_ne_none, h.held hs⟩
    · have hafter := resolve_upsert hupsert hs
      refine ⟨?_, fun name hother => ?_, hkept⟩
      · rw [hafter, if_pos rfl]
      · rw [hafter, if_neg hother]

/-- A machine whose sidecar runs with `GITNEXUS_HOME`. -/
def legacyHome : Environment String where
  codegraphHome := none
  gitnexusHome := some "/opt/gitnexus"
  home := some "/home/dev"
  accountHome := "/home/dev"
  locate := id

/-- A machine without settings. -/
def plainHome : Environment String := { legacyHome with gitnexusHome := none }

def shop : NewEntry := ⟨"shop", "/src/shop", none, none⟩

/-- A row without a time. -/
def apiRow : Row := .object [("name", .text "api"), ("path", .text "/src/api"), ("storagePath", .text "/data/api")]

def apiRegistry (place : String) : Files String := fun p => if p = place then some (.rows [apiRow]) else none

/-- Beside another entry the new one is read back. -/
theorem plainHome_readsBack :
    ReadAfterWrite plainHome (apiRegistry "/home/dev/.codegraph/registry.json") "2026-03-01T09:00:00.000Z" shop := by
  refine (read_after_write_iff _ _ _ shop (by decide) (by decide)).mpr ⟨?_, ?_⟩
  · intro rows hfile row hrow hun
    have hrows : rows = [apiRow] := by
      have hread : apiRegistry "/home/dev/.codegraph/registry.json" (plainHome.locate (plainHome.registryReadPath
          (apiRegistry "/home/dev/.codegraph/registry.json"))) = some (.rows [apiRow]) := by decide
      simpa using hfile.symm.trans hread
    subst hrows
    have hstorage := hun.storagePath
    rw [List.mem_singleton.mp hrow] at hstorage
    exact absurd hstorage (by decide)
  · rintro ⟨-, home, hhome, -⟩
    exact absurd hhome (by simp [plainHome, Environment.trimmed])

/-- **The legacy registry hides the upsert.** The entry is written to the home directory, and no request finds
it. -/
theorem legacyHome_unread :
    ¬ ReadAfterWrite legacyHome (apiRegistry "/opt/gitnexus/registry.json") "2026-03-01T09:00:00.000Z" shop := by
  rintro ⟨written, after, hupsert, hresolve, -⟩
  have hmissing : (upsertEntry legacyHome (apiRegistry "/opt/gitnexus/registry.json") "2026-03-01T09:00:00.000Z"
      shop).map (fun r => resolve legacyHome r.2 "shop") = some (some none) := by decide
  rw [hupsert, Option.map_some] at hmissing
  exact absurd (hresolve.symm.trans (Option.some.inj hmissing)) (by simp)

end Devrouter.Codegraph.RegistryFile
