import Devrouter.Codegraph.RegistryFile
import Devrouter.Lib.GoText

/-!
# The registry on the Go side

Model of the loader in `internal/crossrepo/registry.go`, which reads the file that the sidecar writes. The rows
are decoded into a struct: a member sets the field whose name it has up to case, `null` sets nothing, and any
other value of the wrong type spoils the whole file. Among rows of one name the first counts, where the
sidecar counts the last.

`agree_iff` says when the two see the same repositories at the same paths.
-/

namespace Devrouter.CrossRepo

open Codegraph.RegistryFile

/-! ### Decoding -/

structure RegistryEntry where
  name : String
  path : String
  storagePath : String
  indexedAt : String
  deriving DecidableEq

inductive RegistryField where
  | name
  | path
  | storagePath
  | indexedAt
  deriving DecidableEq

/-- The name of a field in JSON. -/
def RegistryField.json : RegistryField → String
  | name => "name"
  | path => "path"
  | storagePath => "storagePath"
  | indexedAt => "indexedAt"

/-- The fold of a character to an ASCII letter. -/
def foldRune (c : Char) : Char := if c = 'ſ' then 's' else if c = '\u212A' then 'k' else c.toLower

/-- The field that a member sets. -/
def fieldOf (key : String) : Option RegistryField :=
  [RegistryField.name, .path, .storagePath, .indexedAt].find? fun f =>
    key.toList.map foldRune = f.json.toList.map foldRune

namespace RegistryEntry

def zero : RegistryEntry := ⟨"", "", "", ""⟩

def setField (e : RegistryEntry) (s : String) : RegistryField → RegistryEntry
  | .name => { e with name := s }
  | .path => { e with path := s }
  | .storagePath => { e with storagePath := s }
  | .indexedAt => { e with indexedAt := s }

/-- One member of an object; `none` is an error of type. -/
def setMember (e : RegistryEntry) (m : String × FieldValue) : Option RegistryEntry :=
  match fieldOf m.1 with
  | none => some e
  | some f =>
    match m.2 with
    | .null => some e
    | .text s => some (e.setField s f)
    | _ => none

end RegistryEntry

/-- One element of the array; `none` is an error of type. -/
def decodeRow : Row → Option RegistryEntry
  | .value .null => some .zero
  | .value _ => none
  | .object members => members.foldlM RegistryEntry.setMember .zero

def RegistryEntry.complete (e : RegistryEntry) : Bool := e.name ≠ "" && e.path ≠ ""

/-- `json.Unmarshal` into the list of rows, and the loop that cleans it. -/
def readRegistryFile : Option Content → Option (List RegistryEntry)
  | none => some []
  | some .malformed => none
  | some (.value .null) => some []
  | some (.value _) => none
  | some (.rows rs) => (rs.mapM decodeRow).map (List.filter RegistryEntry.complete)

/-! ### The registry -/

/-- `Names`. -/
def names (entries : List RegistryEntry) : List String := (entries.map (·.name)).eraseDups

/-- `Lookup`. -/
def lookup (entries : List RegistryEntry) (name : String) : Option RegistryEntry :=
  if name = "" then none else entries.find? (·.name = name)

variable {Loc : Type} (env : Environment Loc) (files : Files Loc)

/-- `filepath.Join`. -/
def filepathJoin (parts : List String) : String :=
  match parts.dropWhile (· = "") with
  | [] => ""
  | parts => String.ofList (SlashPath.clean (['/'].intercalate (parts.map String.toList)))

/-- `strings.TrimSpace(os.Getenv(..))`, when it is not empty. -/
def getenvTrimmed (v : Option String) : Option String := (v.map trimSpace).filter (· ≠ "")

/-- `os.UserHomeDir`. -/
def userHomeDir : Option String := env.home.filter (· ≠ "")

def registryCandidates : List String :=
  ((getenvTrimmed env.codegraphHome).map fun v => filepathJoin [v, "registry.json"]).toList ++
    ((getenvTrimmed env.gitnexusHome).map fun v => filepathJoin [v, "registry.json"]).toList ++
    ((userHomeDir env).map fun home =>
      [filepathJoin [home, ".codegraph", "registry.json"], filepathJoin [home, ".gitnexus", "registry.json"]]).getD []

def resolveRegistryPath : String :=
  ((registryCandidates env).find? fun p => (files (env.locate p)).isSome).getD
    (((userHomeDir env).map fun home => filepathJoin [home, ".codegraph", "registry.json"]).getD "registry.json")

/-- `Load` without its cache; `none` is an error. -/
def load : Option (List RegistryEntry) := readRegistryFile (files (env.locate (resolveRegistryPath env files)))

/-! ### What the two see -/

/-- The sidecar has a repository of this name at this path. -/
def SidecarSees (name path : FieldValue) : Prop :=
  ∃ es, loadRegistry env files = some es ∧ ∃ e ∈ es, e.name = name ∧ e.path = path

/-- The loader has a repository of this name at this path. -/
def LoaderSees (name path : FieldValue) : Prop :=
  ∃ entries, load env files = some entries ∧ ∃ n ∈ names entries, ∃ e, lookup entries n = some e ∧
    name = .text n ∧ path = .text e.path

def Agree : Prop := ∀ name path, LoaderSees env files name path ↔ SidecarSees env files name path

/-- The rows that the loader can decode: all of them or none. -/
def loaderRows : Option Content → List Row
  | some (.rows rs) => if rs.all fun row => (decodeRow row).isSome then rs else []
  | _ => []

/-- The rows that the sidecar can read: all of them or none. -/
def sidecarRows : Option Content → List Row
  | some (.rows rs) => if rs.all fun row => row.read.isSome then rs else []
  | _ => []

/-- The entry that the loader makes of a row. -/
def completeEntry (row : Row) : Option RegistryEntry := (decodeRow row).filter RegistryEntry.complete

/-- The first complete row with the name, as the loader decodes rows. -/
def firstNamed (name : String) (rows : List Row) : Option RegistryEntry :=
  (rows.filterMap completeEntry).find? (·.name = name)

/-- Every row that the sidecar takes is named by a text, and the first row of a name in the one list has the path
of the last row of the name in the other. -/
structure Alike (loader sidecar : List Row) : Prop where
  named : ∀ row ∈ sidecar, ∀ e, row.entry = some e → ∃ name, e.name = .text name
  paths : ∀ name, (firstNamed name loader).map (fun e => FieldValue.text e.path) = (lastNamed name sidecar).map (·.path)

/-! ### Rows that are read -/

/-- A fallible map succeeds on all elements or fails. -/
theorem mapM_eq_ite {α β : Type} (f : α → Option β) (l : List α) :
    l.mapM f = if l.all fun a => (f a).isSome then some (l.filterMap f) else none := by
  induction l with
  | nil => rfl
  | cons a l ih =>
    rw [List.mapM_cons, ih, List.all_cons, List.filterMap_cons]
    cases f a with
    | none => rfl
    | some b => cases l.all fun a => (f a).isSome <;> rfl

theorem readRows_eq_ite (rs : List Row) :
    readRows rs = if rs.all fun row => row.read.isSome then some (rs.filterMap Row.entry) else none := by
  cases hread : readRows rs with
  | none =>
    obtain ⟨row, hrow, hun⟩ := readRows_eq_none_iff.mp hread
    have hnot : ¬ (rs.all fun row => row.read.isSome) = true := by
      intro hall
      have hsome := List.all_eq_true.mp hall row hrow
      rw [Row.read_eq_none_iff.mpr hun] at hsome
      exact Bool.false_ne_true hsome
    rw [if_neg hnot]
  | some es =>
    have hall : (rs.all fun row => row.read.isSome) = true := by
      refine List.all_eq_true.mpr fun row hrow => Option.isSome_iff_ne_none.mpr fun hnone => ?_
      have hfail := readRows_eq_none_iff.mpr ⟨row, hrow, Row.read_eq_none_iff.mp hnone⟩
      exact Option.some_ne_none es (hread.symm.trans hfail)
    rw [if_pos hall, readRows_eq_some hread]

/-- The entries of the loader, with no entries for an error. -/
theorem readRegistryFile_getD (content : Option Content) :
    (readRegistryFile content).getD [] = (loaderRows content).filterMap completeEntry := by
  rcases content with _ | _ | v | rs
  · rfl
  · rfl
  · cases v <;> rfl
  · rw [readRegistryFile, mapM_eq_ite, loaderRows]
    split
    · rw [Option.map_some, Option.getD_some, List.filter_filterMap]
      rfl
    · rfl

/-- The entries of the sidecar, with no entries for an exception. -/
theorem loadRegistry_getD : (loadRegistry env files).getD []
    = ((sidecarRows (files (env.locate (env.registryReadPath files)))).filterMap Row.entry).lastWins Entry.sameName := by
  rw [loadRegistry]
  rcases files (env.locate (env.registryReadPath files)) with _ | _ | v | rs
  · rfl
  · rfl
  · rfl
  · show ((readRows rs).map (List.lastWins Entry.sameName)).getD [] = _
    rw [readRows_eq_ite, sidecarRows]
    split <;> rfl

/-! ### Names and paths -/

theorem loaderSees_iff {name path : FieldValue} : LoaderSees env files name path ↔
    ∃ n, name = .text n ∧ (firstNamed n (loaderRows (files (env.locate (resolveRegistryPath env files))))).map
      (fun e => FieldValue.text e.path) = some path := by
  have hentries := readRegistryFile_getD (files (env.locate (resolveRegistryPath env files)))
  constructor
  · rintro ⟨entries, hload, n, -, e, hlookup, rfl, rfl⟩
    have hfind : entries.find? (·.name = n) = some e := by
      rw [lookup] at hlookup
      split at hlookup
      · cases hlookup
      · exact hlookup
    rw [← load, hload, Option.getD_some] at hentries
    exact ⟨n, rfl, by rw [firstNamed, ← hentries, hfind, Option.map_some]⟩
  · rintro ⟨n, rfl, hfirst⟩
    obtain ⟨e, hfind, rfl⟩ := Option.map_eq_some_iff.mp hfirst
    rw [firstNamed, ← hentries, ← load] at hfind
    cases hload : load env files with
    | none =>
      rw [hload] at hfind
      cases hfind
    | some entries =>
      rw [hload, Option.getD_some] at hfind
      have hmem : e ∈ entries := List.mem_of_find?_eq_some hfind
      have hname : e.name = n := by simpa using List.find?_some hfind
      -- an entry that is kept has a name
      have hne : n ≠ "" := by
        rw [← load, hload, Option.getD_some] at hentries
        rw [hentries] at hmem
        obtain ⟨row, -, hrow⟩ := List.mem_filterMap.mp hmem
        have hcomplete := (Option.filter_eq_some_iff.mp hrow).2
        rw [RegistryEntry.complete, hname] at hcomplete
        simpa using (Bool.and_eq_true_iff.mp hcomplete).1
      refine ⟨entries, hload, n, ?_, e, by rwa [lookup, if_neg hne], rfl, rfl⟩
      exact List.mem_eraseDups.mpr (List.mem_map.mpr ⟨e, hmem, hname⟩)

theorem sidecarSees_iff {n : String} {path : FieldValue} : SidecarSees env files (.text n) path ↔
    (lastNamed n (sidecarRows (files (env.locate (env.registryReadPath files))))).map (·.path) = some path := by
  have hentries := loadRegistry_getD env files
  rw [lastNamed, ← List.find?_lastWins (oneKey_hasName n), ← hentries]
  constructor
  · rintro ⟨es, hload, e, he, hname, rfl⟩
    have hquery : e.hasName n = true := by simp [Entry.hasName, hname]
    rw [hload, Option.getD_some, (loaded_of_load env files hload).apart.find?_eq (oneKey_hasName n) he hquery,
      Option.map_some]
  · intro h
    obtain ⟨e, hfind, rfl⟩ := Option.map_eq_some_iff.mp h
    cases hload : loadRegistry env files with
    | none =>
      rw [hload] at hfind
      cases hfind
    | some es =>
      rw [hload, Option.getD_some] at hfind
      exact ⟨es, hload, e, List.mem_of_find?_eq_some hfind, by simpa [Entry.hasName] using List.find?_some hfind, rfl⟩

/-- What the sidecar sees is named by texts when its rows are. -/
theorem sidecar_named_iff : (∀ name path, SidecarSees env files name path → ∃ n, name = .text n) ↔
    ∀ row ∈ sidecarRows (files (env.locate (env.registryReadPath files))), ∀ e, row.entry = some e →
      ∃ n, e.name = .text n := by
  have hentries := loadRegistry_getD env files
  constructor
  · intro h row hrow e he
    -- an entry of the file is among those that are loaded, under its last row
    have hmem : e ∈ (sidecarRows (files (env.locate (env.registryReadPath files)))).filterMap Row.entry :=
      List.mem_filterMap.mpr ⟨row, hrow, he⟩
    obtain ⟨e', he', hname⟩ := List.exists_mem_lastWins (f := Entry.name) (fun _ _ => name_eq_of_sameName) hmem
    rw [← hentries] at he'
    cases hload : loadRegistry env files with
    | none =>
      rw [hload] at he'
      exact absurd he' List.not_mem_nil
    | some es =>
      rw [hload, Option.getD_some] at he'
      exact h _ _ ⟨es, hload, e', he', hname, rfl⟩
  · -- what is seen comes from a row of the file
    rintro h name path ⟨es, hload, e, he, rfl, -⟩
    rw [hload, Option.getD_some] at hentries
    rw [hentries] at he
    obtain ⟨row, hrow, hentry⟩ := List.mem_filterMap.mp (List.mem_of_mem_lastWins he)
    exact h row hrow e hentry

/-- **The two readers agree** exactly when, of the rows that each can read, the first one of a name on the Go side
and the last one on the sidecar's have one path. -/
theorem agree_iff : Agree env files ↔ Alike (loaderRows (files (env.locate (resolveRegistryPath env files))))
    (sidecarRows (files (env.locate (env.registryReadPath files)))) := by
  constructor
  · intro h
    refine ⟨(sidecar_named_iff env files).mp fun name path hsees => ?_, fun n => Option.ext fun path => ?_⟩
    · -- the loader sees names only, so the sidecar may have no other rows
      obtain ⟨n, hn, -⟩ := (loaderSees_iff env files).mp ((h name path).mpr hsees)
      exact ⟨n, hn⟩
    · rw [← sidecarSees_iff, ← h, loaderSees_iff]
      constructor
      · exact fun hpath => ⟨n, rfl, hpath⟩
      · rintro ⟨n', hn, hpath⟩
        rwa [FieldValue.text.inj hn]
  · intro h name path
    have hnamed := (sidecar_named_iff env files).mpr h.named
    rw [loaderSees_iff]
    constructor
    · rintro ⟨n, rfl, hpath⟩
      rwa [sidecarSees_iff, ← h.paths n]
    · intro hsees
      obtain ⟨n, rfl⟩ := hnamed name path hsees
      exact ⟨n, rfl, by rwa [h.paths n, ← sidecarSees_iff]⟩

/-- A stale row before a fresh one, in the registry of a machine without settings. -/
def staleRegistry : Files String := fun p =>
  if p = "/home/dev/.codegraph/registry.json" then
    some (.rows [.object [("name", .text "shop"), ("path", .text "/old/shop")],
      .object [("name", .text "shop"), ("path", .text "/src/shop")]])
  else none

/-- **Two rows of one name.** Go reads the first one, the sidecar opens the last one. -/
theorem staleRegistry_split : ¬ Agree plainHome staleRegistry := by
  intro h
  have hgo : LoaderSees plainHome staleRegistry (.text "shop") (.text "/old/shop") :=
    (loaderSees_iff _ _).mpr ⟨"shop", rfl, by decide⟩
  have hsidecar := (sidecarSees_iff _ _).mp ((h _ _).mp hgo)
  exact absurd hsidecar (by decide)

/-! ### What the sidecar wrote -/

/-- An entry of texts. -/
def AllText (e : Entry) : Prop := ∃ n p s i, e = ⟨.text n, .text p, .text s, .text i⟩

theorem completeEntry_row {e : Entry} (h : e.Complete) {n p s i : String}
    (he : e = ⟨.text n, .text p, .text s, .text i⟩) : completeEntry e.row = some ⟨n, p, s, i⟩ := by
  have hname : fieldOf "name" = some .name := by decide
  have hpath : fieldOf "path" = some .path := by decide
  have hstorage : fieldOf "storagePath" = some .storagePath := by decide
  have hindexed : fieldOf "indexedAt" = some .indexedAt := by decide
  have hdecode : decodeRow e.row = some ⟨n, p, s, i⟩ := by
    subst he
    simp [decodeRow, Entry.row, RegistryEntry.setMember, RegistryEntry.setField, hname, hpath, hstorage, hindexed]
  have hn : n ≠ "" := by simpa [he, FieldValue.truthy] using h.name
  have hp : p ≠ "" := by simpa [he, FieldValue.truthy] using h.path
  rw [completeEntry, hdecode]
  simp [RegistryEntry.complete, hn, hp]

/-- **A registry that the sidecar printed** is read alike. -/
theorem alike_printed {es : List Entry} (h : Loaded es) (htext : ∀ e ∈ es, AllText e) :
    Alike (es.map Entry.row) (es.map Entry.row) := by
  have hentry : ∀ e ∈ es, e.row.entry = some e := fun e he => by rw [Row.entry, (h.complete e he).read_row]; rfl
  have hentries : (es.map Entry.row).filterMap Row.entry = es := by
    rw [List.filterMap_map]
    exact List.filterMap_eq_self_iff.mpr hentry
  constructor
  · intro row hrow e he
    obtain ⟨e', he', rfl⟩ := List.mem_map.mp hrow
    obtain rfl : e' = e := Option.some.inj ((hentry e' he').symm.trans he)
    obtain ⟨n, p, s, i, rfl⟩ := htext e' he'
    exact ⟨n, rfl⟩
  · intro name
    -- no name has two rows, so the last one is the first one
    have hlast : lastNamed name (es.map Entry.row) = es.find? (Entry.hasName name) := by
      rw [lastNamed, hentries, ← List.find?_lastWins (oneKey_hasName name), h.apart.lastWins_eq]
    rw [hlast, firstNamed]
    have hcomplete := h.complete
    clear h hentry hentries hlast
    induction es with
    | nil => rfl
    | cons e es ih =>
      have hrest := ih (fun e' he' => htext e' (List.mem_cons_of_mem e he'))
        fun e' he' => hcomplete e' (List.mem_cons_of_mem e he')
      obtain ⟨n, p, s, i, he⟩ := htext e List.mem_cons_self
      rw [List.map_cons, List.filterMap_cons, completeEntry_row (hcomplete e List.mem_cons_self) he]
      by_cases hname : n = name
      · simp [he, Entry.hasName, hname]
      · have hquery : e.hasName name = false := by simp [he, Entry.hasName, hname]
        rw [List.find?_cons_of_neg (by simpa using hname), List.find?_cons_of_neg (by simp [hquery])]
        exact hrest

end Devrouter.CrossRepo
