import Devrouter.Codegraph.RegistryFile
import Devrouter.Lib.Machine

/-!
# The pool of connections

Model of `open` in `src/codegraph/lib/pool.js`, with `search` and `file` in `src/codegraph/lib/handlers.js`. A
connection is looked up by the name of its repository and stays for the life of the sidecar; a file is read under
the root that the registry has now.

The sidecar is a machine whose steps are upserts of the registry and requests. Opening a database is up to the
engine: each request says which databases open. `one_root_iff` says in which runs every request finds one root.
-/

namespace Devrouter.Codegraph.Pool

open RegistryFile

/-- A cached connection. -/
structure Handle where
  repoPath : String
  dbPath : String
  isOpen : Bool
  deriving DecidableEq

/-- What a request ends with instead of an answer. -/
inductive Fault where
  | repoNotFound
  | repoNotIndexed
  | badRequest
  | threw
  deriving DecidableEq

structure Sidecar (Loc : Type) where
  files : Files Loc
  cache : String → Option Handle

variable {Loc : Type} (env : Environment Loc) (getDatabasePath : String → String)

namespace Sidecar

/-- The connection that is used without another look at the registry. -/
def cached (s : Sidecar Loc) (repoName : String) : Option Handle := (s.cache repoName).filter (·.isOpen)

/-- A connection that is opened anew. -/
def connect (s : Sidecar Loc) (opens : String → Bool) (repoName : String) : Except Fault Handle :=
  match RegistryFile.resolve env s.files repoName with
  | none => .error .threw
  | some none => .error .repoNotFound
  | some (some entry) =>
    match entry.path with
    | .text path =>
      if opens (getDatabasePath path) then .ok ⟨path, getDatabasePath path, true⟩ else .error .repoNotIndexed
    | _ => .error .threw

/-- `open`. -/
def openRepo (s : Sidecar Loc) (opens : String → Bool) (repoName : String) : Except Fault Handle :=
  match s.cached repoName with
  | some handle => .ok handle
  | none => s.connect env getDatabasePath opens repoName

/-- `search`: the connection whose database is asked and under whose root sources are sliced. A query without
words asks none. -/
def search (s : Sidecar Loc) (opens : String → Bool) (query repo : String) : Except Fault (Option Handle) :=
  if query = "" then .ok none else (s.openRepo env getDatabasePath opens repo).map some

/-- `file`: the path that is read. -/
def file (s : Sidecar Loc) (filePath repo : String) : Except Fault String :=
  if filePath = "" then .error .badRequest
  else
    match RegistryFile.resolve env s.files repo with
    | none => .error .threw
    | some entry =>
      if SlashPath.absolute filePath.toList then .ok filePath
      else
        match (entry.map (·.path)).getD (.text "") with
        | .text root => .ok (joinPath [root, filePath])
        | _ => .error .threw

end Sidecar

/-! ### Runs -/

inductive Action where
  | upsert (now : String) (entry : NewEntry)
  | search (opens : String → Bool) (query repo : String)
  | rawDb (opens : String → Bool) (repo : String)
  | file (filePath repo : String)
  /-- The engine closes a connection. -/
  | closed (repo : String)
  | closeAll

/-- The cache after a connection was handed out. -/
def Sidecar.keep (s : Sidecar Loc) (repo : String) : Except Fault Handle → Sidecar Loc
  | .ok handle => { s with cache := Function.update s.cache repo (some handle) }
  | .error _ => s

/-- What throws changes nothing. -/
def Sidecar.next [DecidableEq Loc] (s : Sidecar Loc) : Action → Sidecar Loc
  | .upsert now entry =>
    match upsertEntry env s.files now entry with
    | some (_, files) => { s with files }
    | none => s
  | .search opens query repo => if query = "" then s else s.keep repo (s.openRepo env getDatabasePath opens repo)
  | .rawDb opens repo => s.keep repo (s.openRepo env getDatabasePath opens repo)
  | .file _ _ => s
  | .closed repo => { s with cache := Function.update s.cache repo ((s.cache repo).map fun h => { h with isOpen := false }) }
  | .closeAll => { s with cache := fun _ => none }

/-- The sidecar and the indexer, step by step. -/
def sidecarRuns [DecidableEq Loc] : Machine (Sidecar Loc) Action := ⟨fun s a => some (s.next env getDatabasePath a)⟩

/-- A request made now uses one root, that of the current entry: for the database, for the slices of sources, and
for the files. -/
def OneRoot (s : Sidecar Loc) : Prop :=
  ∀ opens query repo handle, s.search env getDatabasePath opens query repo = .ok (some handle) →
    ∃ entry, RegistryFile.resolve env s.files repo = some (some entry) ∧ entry.path = .text handle.repoPath ∧
      handle.dbPath = getDatabasePath handle.repoPath ∧
      ∀ filePath, filePath ≠ "" → SlashPath.absolute filePath.toList = false →
        s.file env filePath repo = .ok (joinPath [handle.repoPath, filePath])

/-- No upsert that is seen moves a repository whose connection is open. -/
def StaysPut (s : Sidecar Loc) : Action → Prop
  | .upsert _ entry => ∀ handle, s.cached entry.name = some handle →
      handle.repoPath = entry.path ∨ entry.path = "" ∨ Shadowed env s.files
  | _ => True

/-! ### What the pool holds -/

/-- Every cached connection is to the database of its own root. -/
def Rooted (s : Sidecar Loc) : Prop := ∀ repo handle, s.cache repo = some handle → handle.dbPath = getDatabasePath handle.repoPath

/-- Every open connection has the root of the current entry. -/
def Current (s : Sidecar Loc) : Prop :=
  ∀ repo handle, s.cached repo = some handle →
    ∃ entry, RegistryFile.resolve env s.files repo = some (some entry) ∧ entry.path = .text handle.repoPath

variable {env getDatabasePath} {s : Sidecar Loc}

theorem Sidecar.cached_eq_some {repo : String} {handle : Handle} :
    s.cached repo = some handle ↔ s.cache repo = some handle ∧ handle.isOpen = true := Option.filter_eq_some_iff

/-- A connection that is opened anew is current. -/
theorem Sidecar.connect_ok {opens : String → Bool} {repo : String} {handle : Handle}
    (h : s.connect env getDatabasePath opens repo = .ok handle) :
    handle.dbPath = getDatabasePath handle.repoPath ∧
      ∃ entry, RegistryFile.resolve env s.files repo = some (some entry) ∧ entry.path = .text handle.repoPath := by
  rw [Sidecar.connect] at h
  split at h
  · cases h
  · cases h
  next entry hresolve =>
  split at h
  next path hpath =>
    split at h
    · cases h
      exact ⟨rfl, entry, hresolve, hpath⟩
    · cases h
  · cases h

/-- What is handed out was cached or opened anew. -/
theorem Sidecar.openRepo_ok {opens : String → Bool} {repo : String} {handle : Handle}
    (h : s.openRepo env getDatabasePath opens repo = .ok handle) :
    s.cached repo = some handle ∨ s.connect env getDatabasePath opens repo = .ok handle := by
  rw [Sidecar.openRepo] at h
  split at h
  next cached hcached =>
    cases h
    exact .inl hcached
  · exact .inr h

theorem Rooted.openRepo (hrooted : Rooted getDatabasePath s) {opens : String → Bool} {repo : String} {handle : Handle}
    (h : s.openRepo env getDatabasePath opens repo = .ok handle) : handle.dbPath = getDatabasePath handle.repoPath := by
  cases Sidecar.openRepo_ok h with
  | inl hcached => exact hrooted _ _ (Sidecar.cached_eq_some.mp hcached).1
  | inr hconnect => exact (Sidecar.connect_ok hconnect).1

theorem Current.openRepo (hcurrent : Current env s) {opens : String → Bool} {repo : String} {handle : Handle}
    (h : s.openRepo env getDatabasePath opens repo = .ok handle) :
    ∃ entry, RegistryFile.resolve env s.files repo = some (some entry) ∧ entry.path = .text handle.repoPath := by
  cases Sidecar.openRepo_ok h with
  | inl hcached => exact hcurrent _ _ hcached
  | inr hconnect => exact (Sidecar.connect_ok hconnect).2

/-- Files are read under the root of the current entry. -/
theorem Sidecar.file_eq {repo root filePath : String} {entry : Entry}
    (hresolve : RegistryFile.resolve env s.files repo = some (some entry)) (hpath : entry.path = .text root)
    (hne : filePath ≠ "") (hrel : SlashPath.absolute filePath.toList = false) :
    s.file env filePath repo = .ok (joinPath [root, filePath]) := by
  rw [Sidecar.file, if_neg hne, hresolve]
  simp [hrel, hpath]

/-- **One root** is used by every request exactly when every open connection is current. -/
theorem oneRoot_iff (hrooted : Rooted getDatabasePath s) : OneRoot env getDatabasePath s ↔ Current env s := by
  constructor
  · intro h repo handle hcached
    -- the cached handle is the one that is searched
    have hsearch : s.search env getDatabasePath (fun _ => true) "q" repo = .ok (some handle) := by
      rw [Sidecar.search, if_neg (by decide), Sidecar.openRepo, hcached]
      rfl
    obtain ⟨entry, hresolve, hpath, -⟩ := h _ _ _ _ hsearch
    exact ⟨entry, hresolve, hpath⟩
  · intro h opens query repo handle hsearch
    rw [Sidecar.search] at hsearch
    split at hsearch
    · cases hsearch
    -- the search did not fail, so it was made with an open handle
    have hopen : s.openRepo env getDatabasePath opens repo = .ok handle := by
      cases hrepo : s.openRepo env getDatabasePath opens repo with
      | error fault =>
        rw [hrepo] at hsearch
        cases hsearch
      | ok found =>
        rw [hrepo] at hsearch
        exact congrArg Except.ok (Option.some.inj (Except.ok.inj hsearch))
    obtain ⟨entry, hresolve, hpath⟩ := h.openRepo hopen
    exact ⟨entry, hresolve, hpath, hrooted.openRepo hopen, fun filePath hne hrel => Sidecar.file_eq hresolve hpath hne hrel⟩

/-! ### Steps -/

theorem Rooted.keep (h : Rooted getDatabasePath s) {opens : String → Bool} (repo : String) :
    Rooted getDatabasePath (s.keep repo (s.openRepo env getDatabasePath opens repo)) := by
  cases hopen : s.openRepo env getDatabasePath opens repo with
  | error fault => exact h
  | ok handle =>
    intro name other hother
    by_cases hname : name = repo
    · subst hname
      obtain rfl : handle = other := by simpa [Sidecar.keep] using hother
      exact h.openRepo hopen
    · exact h name other (by simpa [Sidecar.keep, Function.update_of_ne hname] using hother)

theorem Current.keep (h : Current env s) {opens : String → Bool} (repo : String) :
    Current env (s.keep repo (s.openRepo env getDatabasePath opens repo)) := by
  cases hopen : s.openRepo env getDatabasePath opens repo with
  | error fault => exact h
  | ok handle =>
    intro name other hother
    obtain ⟨hcache, hisOpen⟩ := Sidecar.cached_eq_some.mp hother
    by_cases hname : name = repo
    · subst hname
      obtain rfl : handle = other := by simpa [Sidecar.keep] using hcache
      exact h.openRepo hopen
    · refine h name other (Sidecar.cached_eq_some.mpr ⟨?_, hisOpen⟩)
      simpa [Sidecar.keep, Function.update_of_ne hname] using hcache

/-- Closing leaves fewer open connections. -/
theorem Current.closed (h : Current env s) (repo : String) : Current env { s with
    cache := Function.update s.cache repo ((s.cache repo).map fun handle => { handle with isOpen := false }) } := by
  intro name other hother
  obtain ⟨hcache, hisOpen⟩ := Sidecar.cached_eq_some.mp hother
  by_cases hname : name = repo
  · subst hname
    obtain ⟨handle, -, rfl⟩ := Option.map_eq_some_iff.mp ((Function.update_self name _ s.cache).symm.trans hcache)
    cases hisOpen
  · refine h name other (Sidecar.cached_eq_some.mpr ⟨?_, hisOpen⟩)
    exact (Function.update_of_ne hname _ _).symm.trans hcache

theorem Rooted.closed (h : Rooted getDatabasePath s) (repo : String) : Rooted getDatabasePath { s with
    cache := Function.update s.cache repo ((s.cache repo).map fun handle => { handle with isOpen := false }) } := by
  intro name other hcache
  by_cases hname : name = repo
  · subst hname
    obtain ⟨handle, hhandle, rfl⟩ := Option.map_eq_some_iff.mp ((Function.update_self name _ s.cache).symm.trans hcache)
    exact h name handle hhandle
  · exact h name other ((Function.update_of_ne hname _ _).symm.trans hcache)

variable [DecidableEq Loc]

/-- Every step keeps each connection with its own database. -/
theorem Rooted.next (h : Rooted getDatabasePath s) (a : Action) : Rooted getDatabasePath (s.next env getDatabasePath a) := by
  cases a with
  | upsert now entry =>
    rw [Sidecar.next]
    split <;> exact h
  | search opens query repo =>
    rw [Sidecar.next]
    split
    · exact h
    · exact h.keep repo
  | rawDb opens repo => exact h.keep repo
  | file filePath repo => exact h
  | closed repo => exact h.closed repo
  | closeAll => exact fun _ _ hcache => absurd hcache (by simp [Sidecar.next])

/-- A name that resolves can be upserted with any path. -/
theorem upsert_of_resolve {files : Files Loc} {now : String} {entry : NewEntry} {old : Entry}
    (hresolve : RegistryFile.resolve env files entry.name = some (some old)) (hpath : entry.path ≠ "") :
    upsertEntry env files now entry ≠ none := by
  rw [RegistryFile.resolve] at hresolve
  split at hresolve
  · cases hresolve
  next hname =>
  obtain ⟨es, hload, -⟩ := Option.map_eq_some_iff.mp hresolve
  rw [upsertEntry, if_neg (by simp [hname, hpath]), hload]
  exact Option.some_ne_none _

/-- An upsert leaves the open connections current exactly when it moves none of them. -/
theorem Current.upsert (h : Current env s) (now : String) (entry : NewEntry) :
    Current env (s.next env getDatabasePath (.upsert now entry)) ↔ StaysPut env s (.upsert now entry) := by
  rw [Sidecar.next]
  cases hupsert : upsertEntry env s.files now entry with
  | none =>
    refine ⟨fun _ handle hcached => ?_, fun _ => h⟩
    obtain ⟨old, hresolve, -⟩ := h _ _ hcached
    by_contra hmoves
    rw [not_or, not_or] at hmoves
    exact upsert_of_resolve hresolve hmoves.2.1 hupsert
  | some result =>
    obtain ⟨written, after⟩ := result
    by_cases hs : Shadowed env s.files
    · refine iff_of_true (fun repo handle hcached => ?_) fun _ _ => .inr (.inr hs)
      show ∃ e, RegistryFile.resolve env after repo = some (some e) ∧ _
      rw [resolve_upsert_shadowed hupsert hs]
      exact h repo handle hcached
    have hafter := resolve_upsert hupsert hs
    obtain ⟨-, -, rfl, -⟩ := upsertEntry_spec hupsert
    constructor
    · intro hcurrent handle hcached
      obtain ⟨e, hresolve, hpath⟩ := hcurrent entry.name handle hcached
      replace hresolve : RegistryFile.resolve env after entry.name = some (some e) := hresolve
      rw [hafter, if_pos rfl] at hresolve
      rw [← Option.some.inj (Option.some.inj hresolve)] at hpath
      exact .inl (FieldValue.text.inj hpath).symm
    · intro hstays repo handle hcached
      show ∃ e, RegistryFile.resolve env after repo = some (some e) ∧ _
      rw [hafter]
      by_cases hrepo : repo = entry.name
      · subst hrepo
        refine ⟨entry.normalized now, if_pos rfl, ?_⟩
        rcases hstays handle hcached with hpath | hempty | hshadow
        · exact congrArg FieldValue.text hpath.symm
        · -- an entry without a path is not written
          rw [upsertEntry, if_pos (.inr hempty)] at hupsert
          cases hupsert
        · exact absurd hshadow hs
      · rw [if_neg hrepo]
        exact h repo handle hcached

/-- Every step keeps the open connections current exactly when it moves none of them. -/
theorem Current.next (h : Current env s) (a : Action) :
    Current env (s.next env getDatabasePath a) ↔ StaysPut env s a := by
  cases a with
  | upsert now entry => exact h.upsert now entry
  | search opens query repo =>
    refine iff_of_true ?_ trivial
    rw [Sidecar.next]
    split
    · exact h
    · exact h.keep repo
  | rawDb opens repo => exact iff_of_true (h.keep repo) trivial
  | file filePath repo => exact iff_of_true h trivial
  | closed repo => exact iff_of_true (h.closed repo) trivial
  | closeAll => exact iff_of_true (fun _ _ hcached => absurd hcached (by simp [Sidecar.next, Sidecar.cached])) trivial

/-- **One request, one root.** From a fresh sidecar, the runs in which no upsert moves a repository whose connection
is open are exactly those in which every request, at any time, uses the root of the current entry throughout. -/
theorem one_root_iff (env : Environment Loc) (getDatabasePath : String → String) (files : Files Loc)
    (run : List Action) :
    (sidecarRuns env getDatabasePath).Along (StaysPut env) ⟨files, fun _ => none⟩ run ↔
      ∀ before rest s, run = before ++ rest →
        (sidecarRuns env getDatabasePath).exec ⟨files, fun _ => none⟩ before = some s → OneRoot env getDatabasePath s := by
  have hempty : Rooted getDatabasePath (⟨files, fun _ => none⟩ : Sidecar Loc) := fun _ _ hcache => by cases hcache
  refine Machine.along_iff_reached (J := Rooted getDatabasePath) ?_ (fun s a => ⟨_, rfl⟩) hempty ?_ run
  · rintro s a s' hrooted hone hstep
    obtain rfl := Option.some.inj hstep
    have hcurrent := (oneRoot_iff hrooted).mp hone
    exact ⟨hrooted.next a, (oneRoot_iff (hrooted.next a)).trans (hcurrent.next a)⟩
  · exact (oneRoot_iff hempty).mpr fun _ _ hcached => absurd hcached (by simp [Sidecar.cached])

/-- The registry of a machine without settings, with one repository. -/
def shopRegistry : Files String := fun p =>
  if p = "/home/dev/.codegraph/registry.json" then
    some (.rows [.object [("name", .text "shop"), ("path", .text "/old/shop")]])
  else none

/-- A search, and then the repository is registered under another path. -/
def moveShop : List Action := [.search (fun _ => true) "login" "shop", .upsert "2026-03-01T09:00:00.000Z" shop]

/-- The sidecar after it. -/
def movedShop : Sidecar String :=
  moveShop.foldl (Sidecar.next plainHome fun root => joinPath [root, ".codegraph", "codegraph.db"])
    ⟨shopRegistry, fun _ => none⟩

/-- **A repository that moved.** The next search asks the index of the old checkout, and the file comes from the
new one. -/
theorem movedShop_mixed :
    ¬ ∀ before rest s, moveShop = before ++ rest →
      (sidecarRuns plainHome fun root => joinPath [root, ".codegraph", "codegraph.db"]).exec
        ⟨shopRegistry, fun _ => none⟩ before = some s →
      OneRoot plainHome (fun root => joinPath [root, ".codegraph", "codegraph.db"]) s := by
  intro h
  have hone := h moveShop [] movedShop rfl rfl
  have hsearch : movedShop.search plainHome (fun root => joinPath [root, ".codegraph", "codegraph.db"]) (fun _ => true)
      "cart" "shop" = .ok (some ⟨"/old/shop", "/old/shop/.codegraph/codegraph.db", true⟩) := by decide
  have hfile : movedShop.file plainHome "cart.go" "shop" = .ok "/src/shop/cart.go" := by decide
  obtain ⟨entry, -, -, -, hroot⟩ := hone _ _ _ _ hsearch
  have hmixed := hfile.symm.trans (hroot "cart.go" (by decide) (by decide))
  exact absurd hmixed (by decide)

end Devrouter.Codegraph.Pool
