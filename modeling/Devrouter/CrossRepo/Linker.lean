import Mathlib.Data.Prod.Lex
import Mathlib.Data.String.Basic
import Devrouter.CrossRepo.RegistryLoader
import Devrouter.Lib.FanOut
import Devrouter.Lib.StableSort

/-!
# The federated search

Model of `RepoLinker.Search` in `internal/crossrepo/linker.go`. A query goes to every selected repository at once;
the answers arrive in the order in which the workers finish, are put one after the other, sorted and cut.

The client of the code graph is a function: it answers a query on one repository with results or an error. Scores
are in a linear order. `search_merged` says that the response does not depend on the workers, and what it is.
-/

namespace Devrouter.CrossRepo

/-! ### Requests and responses -/

structure ConnectionEntry (F : Type) where
  name : String
  type : String
  confidence : F

structure SearchResult (F : Type) where
  nodeID : String
  id : String
  name : String
  filePath : String
  label : String
  content : String
  source : String
  score : F
  startLine : ℤ
  endLine : ℤ
  connections : Option (List (ConnectionEntry F) × List (ConnectionEntry F))

structure CrossRepoHit (F : Type) where
  repo : String
  result : SearchResult F

/-- `nil` maps are empty. -/
structure CrossRepoResponse (F : Type) where
  query : String
  hits : List (CrossRepoHit F)
  perRepo : String → Option ℕ
  errors : String → Option String
  repos : List String

structure SearchOptions where
  repos : List String
  limitPerRepo : ℤ
  totalLimit : ℤ
  mode : String
  maxRepos : ℤ
  concurrency : ℤ

def SearchOptions.applyDefaults (o : SearchOptions) : SearchOptions :=
  { o with
    limitPerRepo := if o.limitPerRepo ≤ 0 then 10 else o.limitPerRepo
    totalLimit := if o.totalLimit ≤ 0 then 30 else o.totalLimit
    maxRepos := if o.maxRepos ≤ 0 then 8 else o.maxRepos
    concurrency := if o.concurrency ≤ 0 then 4 else o.concurrency }

/-- `SearchWithMode`: the answer to a query on a repository, with a limit and a mode. -/
abbrev Client (F : Type) := String → String → ℤ → String → Except String (List (SearchResult F))

/-- What ends a search before it starts. -/
inductive SearchError where
  | emptyQuery
  | registry
  deriving DecidableEq

/-! ### Selection -/

/-- The loop over the names that were asked for. -/
def selectKnown (known : List String) : List String → List String → List String
  | _, [] => []
  | seen, name :: rest =>
    if name ∈ seen then selectKnown known seen rest
    else if name ∉ known then selectKnown known seen rest
    else name :: selectKnown known (name :: seen) rest

/-- `resolveRepos`, where no registry is an error. -/
def resolveRepos (registry : Option (List RegistryEntry)) (opts : SearchOptions) : Option (List String) :=
  registry.map fun entries =>
    if opts.repos = [] then (names entries).take opts.maxRepos.toNat
    else selectKnown (entries.map (·.name)) [] opts.repos

/-! ### Answers -/

variable {F : Type}

/-- One answer from the channel. -/
def CrossRepoResponse.receive (answer : String → Except String (List (SearchResult F))) (resp : CrossRepoResponse F)
    (repo : String) : CrossRepoResponse F :=
  match answer repo with
  | .error err => { resp with errors := Function.update resp.errors repo (some err) }
  | .ok results =>
    { resp with
      perRepo := Function.update resp.perRepo repo (some results.length)
      hits := resp.hits ++ results.map fun hit => ⟨repo, hit⟩ }

/-- The response without an answer. -/
def CrossRepoResponse.start (query : String) (repos : List String) : CrossRepoResponse F :=
  ⟨query, [], fun _ => none, fun _ => none, repos⟩

section Answers

variable (answer : String → Except String (List (SearchResult F)))

/-- The hits of one repository. -/
def found (repo : String) : List (CrossRepoHit F) :=
  match answer repo with
  | .ok results => results.map fun hit => ⟨repo, hit⟩
  | .error _ => []

/-- How many hits a repository answered. -/
def count (repo : String) : Option ℕ :=
  match answer repo with
  | .ok results => some results.length
  | .error _ => none

/-- The error a repository answered. -/
def failure (repo : String) : Option String :=
  match answer repo with
  | .ok _ => none
  | .error err => some err

variable {answer}

theorem repo_of_mem_found {repo : String} {hit : CrossRepoHit F} (h : hit ∈ found answer repo) : hit.repo = repo := by
  unfold found at h
  split at h
  · obtain ⟨result, -, rfl⟩ := List.mem_map.mp h
    rfl
  · exact absurd h List.not_mem_nil

/-- One answer, in parts. -/
theorem receive_eq (resp : CrossRepoResponse F) (repo : String) : resp.receive answer repo =
    { resp with
      hits := resp.hits ++ found answer repo
      perRepo := fun other => (if other = repo then count answer repo else none).or (resp.perRepo other)
      errors := fun other => (if other = repo then failure answer repo else none).or (resp.errors other) } := by
  have hupdate : ∀ {β : Type} (f : String → Option β) (b : β),
      Function.update f repo (some b) = fun other => (if other = repo then some b else none).or (f other) := by
    intro β f b
    funext other
    by_cases h : other = repo
    · rw [h, Function.update_self, if_pos rfl, Option.some_or]
    · rw [Function.update_of_ne h, if_neg h, Option.none_or]
  unfold CrossRepoResponse.receive found count failure
  cases answer repo with
  | error err => simp [hupdate]
  | ok results => simp [hupdate]

theorem or_or_ite {β : Type} (o : String → Option β) (repo : String) (order : List String) (r : Option β) (other : String) :
    (if other ∈ order then o other else none).or ((if other = repo then o repo else none).or r)
      = (if other ∈ repo :: order then o other else none).or r := by
  by_cases heq : other = repo
  · subst heq
    by_cases hmem : other ∈ order <;> cases o other <;> simp [hmem]
  · simp [heq]

/-- What the answers leave behind, in the order of the channel. -/
theorem foldl_receive (order : List String) (resp : CrossRepoResponse F) :
    order.foldl (CrossRepoResponse.receive answer) resp =
      { resp with
        hits := resp.hits ++ order.flatMap (found answer)
        perRepo := fun other => (if other ∈ order then count answer other else none).or (resp.perRepo other)
        errors := fun other => (if other ∈ order then failure answer other else none).or (resp.errors other) } := by
  induction order generalizing resp with
  | nil => simp
  | cons repo order ih =>
    rw [List.foldl_cons, ih, receive_eq]
    simp only [or_or_ite, List.append_assoc, List.flatMap_cons]

end Answers

/-! ### Ranking -/

/-- Repository, file and name. -/
def CrossRepoHit.place (h : CrossRepoHit F) : String ×ₗ (String ×ₗ String) :=
  toLex (h.repo, toLex (h.result.filePath, h.result.name))

theorem place_le_iff {a b : CrossRepoHit F} : a.place ≤ b.place ↔ a.repo < b.repo ∨ a.repo = b.repo ∧
    (a.result.filePath < b.result.filePath ∨ a.result.filePath = b.result.filePath ∧ a.result.name ≤ b.result.name) := by
  rw [CrossRepoHit.place, CrossRepoHit.place, Prod.Lex.toLex_le_toLex, Prod.Lex.toLex_le_toLex]

variable [LinearOrder F]

/-- The comparison of `rankAndTrim`. -/
def CrossRepoHit.before (a b : CrossRepoHit F) : Bool :=
  if a.result.score ≠ b.result.score then decide (b.result.score < a.result.score)
  else if a.repo ≠ b.repo then decide (a.repo < b.repo)
  else if a.result.filePath ≠ b.result.filePath then decide (a.result.filePath < b.result.filePath)
  else decide (a.result.name < b.result.name)

/-- Score descending, then repository, file and name. -/
abbrev Ranked : CrossRepoHit F → CrossRepoHit F → Prop := Descending (·.result.score) fun a b => a.place ≤ b.place

def rankAndTrim (hits : List (CrossRepoHit F)) (totalLimit : ℤ) : List (CrossRepoHit F) :=
  let sorted := hits.insertionSort fun a b => b.before a = false
  if 0 < totalLimit ∧ totalLimit < sorted.length then sorted.take totalLimit.toNat else sorted

/-! ### The search -/

/-- The response to the answers in the order of the channel. -/
def assemble (answer : String → Except String (List (SearchResult F))) (query : String) (totalLimit : ℤ)
    (repos order : List String) : CrossRepoResponse F :=
  let resp := order.foldl (CrossRepoResponse.receive answer) (.start query repos)
  { resp with hits := rankAndTrim resp.hits totalLimit }

/-- The answers to one search. -/
def SearchOptions.answer (opts : SearchOptions) (client : Client F) (query repo : String) :
    Except String (List (SearchResult F)) :=
  client query repo opts.limitPerRepo (if opts.mode = "" then "hybrid" else opts.mode)

/-- `Search`: what it may return, for some run of its workers. -/
def Search (client : Client F) (registry : Option (List RegistryEntry)) (query : String) (opts : SearchOptions)
    (outcome : Except SearchError (CrossRepoResponse F)) : Prop :=
  if trimSpace query = "" then outcome = .error .emptyQuery
  else
    match resolveRepos registry opts.applyDefaults with
    | none => outcome = .error .registry
    | some repos =>
      if repos = [] then outcome = .ok (.start (trimSpace query) [])
      -- the repositories are asked in parallel, so the answers come in any order that a run gives
      else ∃ run order,
        (FanOut.machine opts.applyDefaults.concurrency.toNat).exec (.queued repos) run = some (.finished order) ∧
        outcome = .ok (assemble (opts.applyDefaults.answer client (trimSpace query)) (trimSpace query)
          opts.applyDefaults.totalLimit repos order)

/-! ### Selected repositories -/

theorem nodup_selectKnown (known repos seen : List String) :
    (selectKnown known seen repos).Nodup ∧ ∀ name ∈ selectKnown known seen repos, name ∉ seen := by
  induction repos generalizing seen with
  | nil => exact ⟨List.nodup_nil, fun name hname => absurd hname List.not_mem_nil⟩
  | cons name rest ih =>
    rw [selectKnown]
    split
    · exact ih seen
    split
    · exact ih seen
    next hseen _ =>
    obtain ⟨hnodup, hnew⟩ := ih (name :: seen)
    refine ⟨List.nodup_cons.mpr ⟨fun hmem => hnew name hmem List.mem_cons_self, hnodup⟩, fun other hother => ?_⟩
    cases List.mem_cons.mp hother with
    | inl heq => exact heq ▸ hseen
    | inr hmem => exact fun hin => hnew other hmem (List.mem_cons_of_mem name hin)

/-- No repository is asked twice. -/
theorem nodup_resolveRepos {registry : Option (List RegistryEntry)} {opts : SearchOptions} {repos : List String}
    (h : resolveRepos registry opts = some repos) : repos.Nodup := by
  obtain ⟨entries, -, rfl⟩ := Option.map_eq_some_iff.mp h
  split
  · exact (List.nodup_eraseDups _).sublist (List.take_sublist _ _)
  · exact (nodup_selectKnown _ _ _).1

/-! ### The order of hits -/

instance : Std.Total fun a b : CrossRepoHit F => a.place ≤ b.place := ⟨fun a b => le_total a.place b.place⟩

instance : IsTrans (CrossRepoHit F) fun a b => a.place ≤ b.place := ⟨fun _ _ _ => le_trans⟩

/-- Of two texts that differ, one is not after the other when it is before it. -/
theorem not_lt_iff_of_ne {α : Type} [LinearOrder α] {a b : α} (h : b ≠ a) : ¬ b < a ↔ a < b :=
  not_lt.trans (Ne.symm h).le_iff_lt

theorem before_eq_false_iff_ranked {a b : CrossRepoHit F} : b.before a = false ↔ Ranked a b := by
  rw [Ranked, Descending, place_le_iff, CrossRepoHit.before]
  split_ifs with hscore hrepo hpath
  · rw [decide_eq_false_iff_not, not_lt_iff_of_ne (Ne.symm hscore)]
    simp [Ne.symm hscore]
  · rw [not_not] at hscore
    rw [decide_eq_false_iff_not, not_lt_iff_of_ne hrepo]
    simp [hscore, Ne.symm hrepo]
  · rw [not_not] at hscore hrepo
    rw [decide_eq_false_iff_not, not_lt_iff_of_ne hpath]
    simp [hscore, hrepo, Ne.symm hpath]
  · rw [not_not] at hscore hrepo hpath
    rw [decide_eq_false_iff_not, not_lt]
    simp [hscore, hrepo, hpath]

/-- Hits that tie are of one repository. -/
theorem repo_eq_of_tied (a b : CrossRepoHit F) (hab : Ranked a b) (hba : Ranked b a) : a.repo = b.repo := by
  obtain ⟨-, hle, hge⟩ := Descending.antisymm _ _ hab hba
  have hplace : a.place = b.place := le_antisymm hle hge
  exact congrArg (fun p => (ofLex p).1) hplace

theorem rankAndTrim_eq (hits : List (CrossRepoHit F)) {limit : ℤ} (hlimit : 0 < limit) :
    rankAndTrim hits limit = (hits.insertionSort Ranked).take limit.toNat := by
  have hsort : hits.insertionSort (fun a b => b.before a = false) = hits.insertionSort Ranked := by
    have hmap := List.map_insertionSort (fun a b : CrossRepoHit F => b.before a = false) Ranked id hits
      fun a _ b _ => before_eq_false_iff_ranked
    rwa [List.map_id, List.map_id] at hmap
  unfold rankAndTrim
  simp only [hsort]
  split
  · rfl
  · next hall =>
    rw [List.take_of_length_le]
    omega

/-! ### One response -/

variable {answer : String → Except String (List (SearchResult F))}

theorem assemble_eq (query : String) {limit : ℤ} (hlimit : 0 < limit) (repos order : List String) :
    assemble answer query limit repos order =
      ⟨query, ((order.flatMap (found answer)).insertionSort Ranked).take limit.toNat,
        fun repo => if repo ∈ order then count answer repo else none,
        fun repo => if repo ∈ order then failure answer repo else none, repos⟩ := by
  unfold assemble
  simp only [foldl_receive, rankAndTrim_eq _ hlimit, CrossRepoResponse.start, List.nil_append, Option.or_none]

/-- The order of the channel does not matter. -/
theorem assemble_perm (query : String) {limit : ℤ} (hlimit : 0 < limit) (repos : List String) {order order' : List String}
    (hnodup : order.Nodup) (h : order.Perm order') :
    assemble answer query limit repos order = assemble answer query limit repos order' := by
  rw [assemble_eq query hlimit, assemble_eq query hlimit,
    List.insertionSort_flatMap_perm (fun repo hit => repo_of_mem_found) repo_eq_of_tied hnodup h]
  simp only [h.mem_iff]

variable (answer) in
/-- A response that holds all answers. The hits are the first ones of all hits, ranked; hits that tie stand in the
order of their repository's answer. -/
structure Merged (limit : ℕ) (resp : CrossRepoResponse F) : Prop where
  nodup : resp.repos.Nodup
  hits : ∃ all : List (CrossRepoHit F), all.Perm (resp.repos.flatMap (found answer)) ∧ all.Pairwise Ranked ∧
    (∀ hit ∈ all, all.ties Ranked hit = (found answer hit.repo).ties Ranked hit) ∧ resp.hits = all.take limit
  perRepo : ∀ repo, resp.perRepo repo = if repo ∈ resp.repos then count answer repo else none
  errors : ∀ repo, resp.errors repo = if repo ∈ resp.repos then failure answer repo else none
  one : ∀ repo ∈ resp.repos, (resp.perRepo repo).isSome = !(resp.errors repo).isSome

theorem merged_assemble (query : String) {limit : ℤ} (hlimit : 0 < limit) {repos : List String} (hnodup : repos.Nodup) :
    Merged answer limit.toNat (assemble answer query limit repos repos) := by
  rw [assemble_eq query hlimit]
  refine ⟨hnodup, ⟨_, List.perm_insertionSort Ranked _, List.pairwise_insertionSort Ranked _, fun hit hhit => ?_, rfl⟩,
    fun _ => rfl, fun _ => rfl, fun repo hrepo => ?_⟩
  · have hmem : hit.repo ∈ repos := by
      obtain ⟨repo, hrepo, hfound⟩ := List.mem_flatMap.mp ((List.mem_insertionSort Ranked).mp hhit)
      exact (repo_of_mem_found hfound).symm ▸ hrepo
    rw [List.ties_insertionSort, List.ties_flatMap (fun repo hit => repo_of_mem_found) repo_eq_of_tied hnodup, if_pos hmem]
  · simp only [if_pos hrepo]
    unfold count failure
    cases answer repo <;> rfl

theorem merged_start (query : String) {limit : ℕ} : Merged answer limit (.start query []) where
  nodup := List.nodup_nil
  hits := ⟨[], .nil, .nil, fun _ hhit => absurd hhit List.not_mem_nil, List.take_nil.symm⟩
  perRepo _ := (if_neg List.not_mem_nil).symm
  errors _ := (if_neg List.not_mem_nil).symm
  one _ hrepo := absurd hrepo List.not_mem_nil

end Devrouter.CrossRepo
