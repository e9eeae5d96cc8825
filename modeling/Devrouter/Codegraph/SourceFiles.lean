import Devrouter.Codegraph.RegistryFile
import Devrouter.Lib.UnderRoot

/-!
# The files a sidecar serves

Model of `sliceSource`, `nodeToResult` and the handler `file` in `src/codegraph/lib/handlers.js`. Both look a path up
under the root of a repository, and both take an absolute path as it is. The texts of the machine are a function from
paths; a path without a text cannot be read.

`served_inside_iff` says for which requests no file outside of the root is served, whatever files there are.
-/

namespace Devrouter.Codegraph

open RegistryFile SlashPath

/-! ### Slices -/

def sourceCap : ℕ := 64 * 1024

/-- `slice(0, n)`. A character that would be cut in two is left out. -/
def takeUnits : ℕ → List Char → List Char
  | _, [] => []
  | n, c :: cs => if codeUnits c ≤ n then c :: takeUnits (n - codeUnits c) cs else []

def capped (text : List Char) : String :=
  if sourceCap < (text.map codeUnits).sum then String.ofList (takeUnits sourceCap text) else String.ofList text

/-- The lines of a text that `sliceSource` takes. -/
def sliceLines (text : String) (startLine endLine : ℤ) : String :=
  if startLine < 1 then capped text.toList
  else
    let lines := text.toList.splitOn '\n'
    let start := (startLine - 1).toNat
    let stop := if endLine ≠ 0 ∧ startLine ≤ endLine then min lines.length endLine.toNat else lines.length
    capped (['\n'].intercalate ((lines.take stop).drop start))

/-- The path that is read. Joining to what is no text throws. -/
def absolutePath (repoPath : FieldValue) (filePath : String) : Option String :=
  if absolute filePath.toList then some filePath
  else
    match repoPath with
    | .text root => some (joinPath [root, filePath])
    | _ => none

/-- The texts of the machine. -/
abbrev Texts := String → Option String

def sliceSource (texts : Texts) (repoPath filePath : String) (startLine endLine : ℤ) : String :=
  if filePath = "" then ""
  else
    match (absolutePath (.text repoPath) filePath).bind texts with
    | none => ""
    | some text => sliceLines text startLine endLine

/-! ### Results -/

/-- A row of the table `nodes`, with the columns that the lookups read. Only the signature may be missing. -/
structure SymbolRow where
  id : String
  kind : String
  name : String
  qualifiedName : String
  filePath : String
  startLine : ℤ
  endLine : ℤ
  signature : Option String
  deriving DecidableEq, Repr

structure SearchResult where
  nodeId : String
  id : String
  name : String
  filePath : String
  label : String
  content : String
  source : String
  score : ℚ
  startLine : ℤ
  endLine : ℤ
  deriving DecidableEq, Repr

/-- `nodeToResult`, after `rowToResult`. -/
def nodeToResult (texts : Texts) (row : SymbolRow) (repoPath : String) (score : ℚ) (includeSource : Bool) :
    SearchResult where
  nodeId := row.id
  id := row.id
  name := row.name
  filePath := row.filePath
  label := row.kind
  content := ""
  source := if includeSource then sliceSource texts repoPath row.filePath row.startLine row.endLine else ""
  score := score
  startLine := row.startLine
  endLine := row.endLine

def rowToResult (texts : Texts) (row : SymbolRow) (repoPath : String) : SearchResult :=
  nodeToResult texts row repoPath 0 true

/-! ### Requests -/

inductive HandlerError
  | http (status : ℕ) (message : String)
  /-- The request ends with what a call has thrown. -/
  | thrown
  deriving DecidableEq, Repr

/-- A parameter that is missing is the empty text. -/
structure FileRequest where
  path : String
  repo : String

structure FileReply where
  content : String
  totalLines : ℕ
  deriving DecidableEq, Repr

variable {Loc : Type}

/-- The root of an entry. An unknown repository has the empty one. -/
def repoPathOf : Option Entry → FieldValue
  | some e => e.path
  | none => .text ""

def file (env : Environment Loc) (files : Files Loc) (texts : Texts) (body : FileRequest) :
    Except HandlerError FileReply :=
  if body.path = "" then .error (.http 400 "missing path")
  else
    match RegistryFile.resolve env files body.repo with
    | none => .error .thrown
    | some entry =>
      match absolutePath (repoPathOf entry) body.path with
      | none => .error .thrown
      | some abs =>
        match texts abs with
        | none => .error (.http 404 ("file not found: " ++ body.path))
        | some content => .ok ⟨content, (content.toList.splitOn '\n').length⟩

/-! ### Staying inside -/

/-- The root that is registered for a repository. -/
def Registered (env : Environment Loc) (files : Files Loc) (repo root : String) : Prop :=
  ∃ e, RegistryFile.resolve env files repo = some (some e) ∧ e.path = .text root

/-- **Whatever is served lies inside the root.** -/
def ServesInside (env : Environment Loc) (files : Files Loc) (cwd : String) (body : FileRequest) : Prop :=
  ∀ texts reply, file env files texts body = .ok reply →
    ∃ root abs, Registered env files body.repo root ∧ texts abs = some reply.content ∧
      Inside cwd.toList root.toList abs.toList

/-- Whatever is sliced lies inside the root. -/
def SlicesInside (cwd root filePath : String) : Prop :=
  ∀ texts startLine endLine, sliceSource texts root filePath startLine endLine ≠ "" →
    ∃ abs text, texts abs = some text ∧ Inside cwd.toList root.toList abs.toList ∧
      sliceSource texts root filePath startLine endLine = sliceLines text startLine endLine

/-- **A confined path**: an absolute one lies inside the root, and a relative one goes back down through the
directories it has left. -/
def Confined (cwd root path : String) : Prop :=
  if absolute path.toList then Inside cwd.toList root.toList path.toList
  else (resolved cwd.toList root.toList).take (climbs path.toList) <:+ names path.toList

/-- Requests that fail whatever files there are: without a path, with a registry that cannot be loaded, or with a
relative path under an entry whose root is no text. -/
def Refused (env : Environment Loc) (files : Files Loc) (body : FileRequest) : Prop :=
  body.path = "" ∨ RegistryFile.resolve env files body.repo = none ∨
    ∃ e, RegistryFile.resolve env files body.repo = some (some e) ∧ (∀ root, e.path ≠ .text root) ∧ absolute body.path.toList = false

section Paths

variable {env : Environment Loc} {files : Files Loc} {body : FileRequest} {cwd root path repo : String}

theorem absolutePath_of_absolute (h : absolute path.toList = true) (repoPath : FieldValue) :
    absolutePath repoPath path = some path := if_pos h

theorem absolutePath_text (h : absolute path.toList = false) :
    absolutePath (.text root) path = some (joinPath [root, path]) := by
  unfold absolutePath
  rw [h]
  rfl

/-- The root of a registered repository is not empty. -/
theorem root_ne_empty (h : Registered env files repo root) : root ≠ "" := by
  obtain ⟨e, hresolve, hpath⟩ := h
  unfold RegistryFile.resolve at hresolve
  split_ifs at hresolve
  · exact absurd (Option.some.inj hresolve) (by simp)
  · obtain ⟨es, hload, hfind⟩ := Option.map_eq_some_iff.mp hresolve
    have htruthy := ((loaded_of_load env files hload).complete e (List.mem_of_find?_eq_some hfind)).path
    rintro rfl
    rw [hpath] at htruthy
    exact absurd htruthy (by decide)

/-- **The path that is read** lies inside the root exactly when the path that is asked for is confined. -/
theorem inside_absolutePath_iff (hroot : root ≠ "") :
    (∃ abs, absolutePath (.text root) path = some abs ∧ Inside cwd.toList root.toList abs.toList) ↔
      Confined cwd root path := by
  unfold Confined
  cases habs : absolute path.toList with
  | true =>
    rw [absolutePath_of_absolute habs, if_pos rfl]
    simp
  | false =>
    have hne : root.toList ≠ [] := by
      rw [ne_eq, String.toList_eq_nil_iff]
      exact hroot
    have hjoin : (joinPath [root, path]).toList = SlashPath.join [root.toList, path.toList] := String.toList_ofList
    rw [absolutePath_text habs, if_neg Bool.false_ne_true, ← inside_join_iff cwd.toList hne, ← hjoin]
    simp

/-- A machine with one text. -/
def onlyText (abs text : String) : Texts := fun p => if p = abs then some text else none

theorem onlyText_eq_some {abs text p t : String} (h : onlyText abs text p = some t) : p = abs ∧ t = text := by
  unfold onlyText at h
  split_ifs at h with hp
  exact ⟨hp, (Option.some.inj h).symm⟩

/-- What a request reads. -/
theorem file_eq_ok {texts : Texts} {reply : FileReply} (h : file env files texts body = .ok reply) :
    ∃ entry abs, RegistryFile.resolve env files body.repo = some entry ∧ absolutePath (repoPathOf entry) body.path = some abs ∧
      texts abs = some reply.content := by
  unfold file at h
  split_ifs at h
  cases hresolve : RegistryFile.resolve env files body.repo with
  | none => simp [hresolve] at h
  | some entry =>
    cases habs : absolutePath (repoPathOf entry) body.path with
    | none => simp [hresolve, habs] at h
    | some abs =>
      cases htext : texts abs with
      | none => simp [hresolve, habs, htext] at h
      | some content =>
        simp only [hresolve, habs, htext, Except.ok.injEq] at h
        refine ⟨entry, abs, rfl, habs, ?_⟩
        rw [htext, ← h]

/-- A file that is there is served. -/
theorem file_onlyText {entry : Option Entry} {abs : String} (hpath : body.path ≠ "")
    (hresolve : RegistryFile.resolve env files body.repo = some entry)
    (habs : absolutePath (repoPathOf entry) body.path = some abs) :
    file env files (onlyText abs "x") body = .ok ⟨"x", 1⟩ := by
  have htext : onlyText abs "x" abs = some "x" := if_pos rfl
  unfold file
  rw [if_neg hpath]
  simp only [hresolve, habs, htext]
  rfl

theorem serves_inside_iff (env : Environment Loc) (files : Files Loc) (cwd : String) (body : FileRequest) :
    ServesInside env files cwd body ↔
      Refused env files body ∨ ∃ root, Registered env files body.repo root ∧ Confined cwd root body.path := by
  constructor
  · intro h
    by_cases hpath : body.path = ""
    · exact .inl (.inl hpath)
    cases hresolve : RegistryFile.resolve env files body.repo with
    | none => exact .inl (.inr (.inl hresolve))
    | some entry =>
      cases habs : absolutePath (repoPathOf entry) body.path with
      | none =>
        -- only a root that is no text cannot be joined
        cases entry with
        | none => exact absurd habs (by unfold absolutePath repoPathOf; split_ifs <;> simp)
        | some e =>
          refine .inl (.inr (.inr ⟨e, hresolve, fun root hroot => ?_, ?_⟩))
          · rw [repoPathOf, hroot] at habs
            unfold absolutePath at habs
            split_ifs at habs
          · by_contra hcon
            rw [absolutePath_of_absolute (by simpa using hcon)] at habs
            exact absurd habs (by simp)
      | some abs =>
        obtain ⟨root, abs', hreg, htext, hinside⟩ := h _ _ (file_onlyText hpath hresolve habs)
        obtain ⟨rfl, -⟩ := onlyText_eq_some htext
        have hpathOf : repoPathOf entry = .text root := by
          obtain ⟨e, he, htextOf⟩ := hreg
          obtain rfl := Option.some.inj (hresolve.symm.trans he)
          exact htextOf
        refine .inr ⟨root, hreg, (inside_absolutePath_iff (root_ne_empty hreg)).mp ⟨abs', ?_, hinside⟩⟩
        rw [← hpathOf]
        exact habs
  · intro h texts reply hreply
    obtain ⟨entry, abs, hresolve, habs, htext⟩ := file_eq_ok hreply
    obtain (hpath | hnone | ⟨e, he, hno, hrel⟩) | ⟨root, hreg, hconf⟩ := h
    · unfold file at hreply
      rw [if_pos hpath] at hreply
      exact absurd hreply (by simp)
    · exact absurd (hnone.symm.trans hresolve) (by simp)
    · obtain rfl := Option.some.inj (hresolve.symm.trans he)
      unfold absolutePath repoPathOf at habs
      rw [hrel] at habs
      cases hp : e.path with
      | text root => exact absurd hp (hno root)
      | null => simp [hp] at habs
      | bool b => simp [hp] at habs
      | number x => simp [hp] at habs
      | composite json => simp [hp] at habs
    · obtain ⟨abs', habs', hinside⟩ := (inside_absolutePath_iff (root_ne_empty hreg)).mpr hconf
      refine ⟨root, abs, hreg, htext, ?_⟩
      obtain ⟨e, he, hroot⟩ := hreg
      obtain rfl := Option.some.inj (hresolve.symm.trans he)
      rw [repoPathOf, hroot, habs'] at habs
      rwa [← Option.some.inj habs]

theorem slices_inside_iff (hroot : root ≠ "") : SlicesInside cwd root path ↔ path = "" ∨ Confined cwd root path := by
  constructor
  · intro h
    by_cases hpath : path = ""
    · exact .inl hpath
    have hsome : ∃ abs, absolutePath (.text root) path = some abs := by
      unfold absolutePath
      split_ifs
      · exact ⟨_, rfl⟩
      · exact ⟨_, rfl⟩
    obtain ⟨abs, habs⟩ := hsome
    -- a disk that has text at this path alone, so a slice shows which path was read
    have hslice : sliceSource (onlyText abs "x") root path 0 0 = "x" := by
      have htext : onlyText abs "x" abs = some "x" := if_pos rfl
      unfold sliceSource
      rw [if_neg hpath, habs, Option.bind_some, htext]
      decide
    obtain ⟨abs', text, htext, hinside, -⟩ := h (onlyText abs "x") 0 0 (by rw [hslice]; decide)
    obtain ⟨rfl, -⟩ := onlyText_eq_some htext
    exact .inr ((inside_absolutePath_iff hroot).mp ⟨abs', habs, hinside⟩)
  · intro h texts startLine endLine hne
    obtain hpath | hconf := h
    · -- an empty path gives no text
      unfold sliceSource at hne
      rw [if_pos hpath] at hne
      exact absurd rfl hne
    · obtain ⟨abs, habs, hinside⟩ := (inside_absolutePath_iff hroot).mpr hconf
      unfold sliceSource at hne ⊢
      rw [habs, Option.bind_some] at hne ⊢
      split_ifs at hne ⊢ with hpath
      · exact absurd rfl hne
      · cases htext : texts abs with
        | none => simp [htext] at hne
        | some text => exact ⟨abs, text, htext, hinside, rfl⟩

/-- The root of a repository is one. -/
theorem Registered.unique {root' : String} (h : Registered env files repo root) (h' : Registered env files repo root') : root = root' := by
  obtain ⟨e, he, hroot⟩ := h
  obtain ⟨e', he', hroot'⟩ := h'
  obtain rfl := Option.some.inj (Option.some.inj (he.symm.trans he'))
  exact FieldValue.text.inj (hroot.symm.trans hroot')

/-- Under a registered root nothing is refused but the empty path. -/
theorem serves_inside_registered (hpath : body.path ≠ "") (hreg : Registered env files body.repo root) :
    ServesInside env files cwd body ↔ Confined cwd root body.path := by
  rw [serves_inside_iff]
  constructor
  · rintro ((h | h | ⟨e, he, hno, -⟩) | ⟨root', hreg', hconf⟩)
    · exact absurd h hpath
    · obtain ⟨e, he, -⟩ := hreg
      exact absurd (h.symm.trans he) (by simp)
    · obtain ⟨e', he', hroot⟩ := hreg
      obtain rfl := Option.some.inj (Option.some.inj (he.symm.trans he'))
      exact absurd hroot (hno root)
    · rwa [hreg.unique hreg']
  · exact fun h => .inr ⟨root, hreg, h⟩

/-- For an unknown repository anything below the working directory is served. -/
theorem serves_outside_unknown (hpath : body.path ≠ "") (hnone : RegistryFile.resolve env files body.repo = some none) :
    ¬ ServesInside env files cwd body := by
  rw [serves_inside_iff]
  rintro ((h | h | ⟨e, he, -⟩) | ⟨root, ⟨e, he, -⟩, -⟩)
  · exact hpath h
  · exact absurd (h.symm.trans hnone) (by simp)
  · exact absurd (hnone.symm.trans he) (by simp)
  · exact absurd (hnone.symm.trans he) (by simp)

end Paths

instance (cwd base p : List Char) : Decidable (Inside cwd base p) :=
  inferInstanceAs (Decidable (resolved cwd base <:+ resolved cwd p))

instance (cwd root path : String) : Decidable (Confined cwd root path) :=
  inferInstanceAs (Decidable (ite _ _ _))

/-- **The files that are served.** A request is answered from inside the root that is registered for its repository,
whatever files there are, exactly when it is refused or its path is confined to a registered root; and the source of an
indexed file is exactly when its path is empty or confined. -/
theorem served_inside_iff {Loc : Type} (env : Environment Loc) (files : Files Loc) (cwd : String) :
    (∀ body, ServesInside env files cwd body ↔
      Refused env files body ∨ ∃ root, Registered env files body.repo root ∧ Confined cwd root body.path) ∧
    ∀ repo root filePath, Registered env files repo root →
      (SlicesInside cwd root filePath ↔ filePath = "" ∨ Confined cwd root filePath) :=
  ⟨serves_inside_iff env files cwd, fun _ _ _ hreg =>
    slices_inside_iff (root_ne_empty hreg)⟩

theorem registered_api :
    Registered plainHome (apiRegistry "/home/dev/.codegraph/registry.json") "api" "/src/api" :=
  ⟨⟨.text "api", .text "/src/api", .text "/data/api", .text ""⟩, by decide, rfl⟩

/-- A path below the root, and one that leaves it and comes back. -/
theorem served_inside_api :
    ServesInside plainHome (apiRegistry "/home/dev/.codegraph/registry.json") "/srv" ⟨"lib/./db.ts", "api"⟩ ∧
      SlicesInside "/srv" "/src/api" "../api/lib/db.ts" := by
  obtain ⟨hserve, hslice⟩ := served_inside_iff plainHome (apiRegistry "/home/dev/.codegraph/registry.json") "/srv"
  exact ⟨(hserve _).mpr (.inr ⟨_, registered_api, by decide⟩),
    (hslice "api" _ _ registered_api).mpr (.inr (by decide))⟩

/-- An absolute path, a climbing path and an unknown repository: each is served from elsewhere. -/
theorem secrets_served :
    ¬ ServesInside plainHome (apiRegistry "/home/dev/.codegraph/registry.json") "/srv" ⟨"/etc/passwd", "api"⟩ ∧
    ¬ ServesInside plainHome (apiRegistry "/home/dev/.codegraph/registry.json") "/srv" ⟨"../../root/.env", "api"⟩ ∧
    ¬ ServesInside plainHome (apiRegistry "/home/dev/.codegraph/registry.json") "/srv" ⟨".env", "shop"⟩ ∧
    ¬ SlicesInside "/srv" "/src/api" "/etc/passwd" := by
  refine ⟨?_, ?_, ?_, ?_⟩
  · rw [serves_inside_registered (by decide) registered_api]
    decide
  · rw [serves_inside_registered (by decide) registered_api]
    decide
  · exact serves_outside_unknown (by decide) (by decide)
  · rw [slices_inside_iff (by decide)]
    decide

end Devrouter.Codegraph
