import Mathlib
import Devrouter.Memory.Search

/-!
# Tag filters

What a search of `SearchAllWithEmbed` is confined to, on a server that reads a tag filter as the union of its tags, ends
it at the first unescaped brace and takes a backslash as escaping one character (`ReadsTags`). What it answers to a
query that it cannot read so is left open.

`escapeTag` protects a name from this reading only if it is `Clean`: it escapes four characters, and neither the bar,
nor the brace, nor the backslash is one of them. `search_confined_iff` says so for a search of a repository and a
branch. An unclean name whose group closes denotes other names (`ne_of_unclean`), a search reaches the memories of each
of them (`search_reaches`), and so it is not confined (`not_confined_of_unclean`).
-/

namespace Devrouter.Memory

variable {F S : Type}

/-! ### Reading a filter -/

/-- The characters with a meaning in a tag filter. -/
def tagMarks : Quoting.Marks Char where
  esc := '\\'
  sep := '|'
  close := '\x7d'
  sep_ne_esc := by decide
  close_ne_esc := by decide
  close_ne_sep := by decide

/-- A tag filter that was read. -/
structure Clause where
  field : String
  tags : List String
  deriving DecidableEq, Repr

/-- The tags of a group, each taken literally. -/
def tagsOf (g : Quoting.Reading Char) : List String := g.items.map String.ofList

/-- Read `@field:` and the group behind it. -/
def readClause : List Char → Option (Clause × List Char)
  | '@' :: text =>
    match text.dropWhile (· ≠ ':') with
    | ':' :: '\x7b' :: body =>
      (tagMarks.group body).map fun g => (⟨String.ofList (text.takeWhile (· ≠ ':')), tagsOf g⟩, g.after)
    | _ => none
  | _ => none

/-- Read clauses up to the closing parenthesis. The number bounds them. -/
def readClauses : ℕ → List Char → Option (List Clause × List Char)
  | 0, _ => none
  | n + 1, text =>
    match readClause text with
    | some (c, ' ' :: rest) => (readClauses n rest).map fun r => (c :: r.1, r.2)
    | some (c, ')' :: rest) => some ([c], rest)
    | _ => none

/-- Read the filter of a query: its clauses, and the text behind it. -/
def readFilter : List Char → Option (List Clause × List Char)
  | '(' :: text => readClauses text.length text
  | _ => none

/-- The memory has one of the tags. -/
def Clause.holds (c : Clause) (h : Hash F) : Bool := (h c.field).any fun v => decide (v.str ∈ c.tags)

/-- **A server that reads tag filters literally.** The rows of its answers are memories for which the clauses hold. -/
def ReadsTags (ftSearch : FtSearch F → Option Raw) (s : Server F) : Prop :=
  ∀ (cmd : FtSearch F) (clauses : List Clause),
    readFilter cmd.query.toList = some (clauses, (knnClause cmd.limit).toList) →
      ∀ raw, ftSearch cmd = some raw → ∃ rows, raw = reply rows ∧
        ∀ row ∈ rows, ∃ h, s.keys.lookup row.1 = some (.hash h) ∧ ∀ c ∈ clauses, c.holds h = true

/-! ### The filter of a search, read -/

theorem escapeTag_toList (s : String) : (escapeTag s).toList = tagMarks.escape escapedChar s.toList :=
  String.toList_ofList

theorem plain_of_escaped {c : Char} (hc : escapedChar c = true) : tagMarks.Plain c := by
  unfold escapedChar at hc
  simp only [Bool.or_eq_true, decide_eq_true_eq] at hc
  rcases hc with ((rfl | rfl) | rfl) | rfl <;> decide

theorem plain_of_all {s : List Char} (h : s.all (fun c => decide (tagMarks.Plain c)) = true) :
    ∀ c ∈ s, tagMarks.Plain c :=
  fun c hc => of_decide_eq_true (List.all_eq_true.mp h c hc)

theorem readClause_tagClause {field body : String} {first : List Char} {others : List (List Char)}
    (hfield : ':' ∉ field.toList) (hbody : tagMarks.Spells body.toList first others) (rest : List Char) :
    readClause ((tagClause field body).toList ++ rest)
      = some (⟨field, (first :: others).map String.ofList⟩, rest) := by
  have htext : (tagClause field body).toList ++ rest
      = '@' :: (field.toList ++ ':' :: '\x7b' :: (body.toList ++ '\x7d' :: rest)) := by
    simp [tagClause]
  -- the name of a field has no colon, so the search stops behind it
  have hne : ∀ c ∈ field.toList, decide (c ≠ ':') = true := fun c hc =>
    decide_eq_true fun heq => hfield (heq ▸ hc)
  have hdrop : (field.toList ++ ':' :: '\x7b' :: (body.toList ++ '\x7d' :: rest)).dropWhile (· ≠ ':')
      = ':' :: '\x7b' :: (body.toList ++ '\x7d' :: rest) := by
    rw [List.dropWhile_append_of_pos hne]
    rfl
  have htake : (field.toList ++ ':' :: '\x7b' :: (body.toList ++ '\x7d' :: rest)).takeWhile (· ≠ ':')
      = field.toList := by
    rw [List.takeWhile_append_of_pos hne]
    simp
  have hgroup : tagMarks.group (body.toList ++ '\x7d' :: rest) = some ⟨first, others, rest⟩ := hbody rest
  rw [htext]
  simp only [readClause, hdrop, htake, hgroup, Option.map_some, String.ofList_toList]
  rfl

theorem readClauses_space {n : ℕ} {text rest : List Char} {c : Clause}
    (h : readClause text = some (c, ' ' :: rest)) :
    readClauses (n + 1) text = (readClauses n rest).map fun r => (c :: r.1, r.2) := by
  simp only [readClauses, h]

theorem readClauses_close {n : ℕ} {text rest : List Char} {c : Clause}
    (h : readClause text = some (c, ')' :: rest)) : readClauses (n + 1) text = some ([c], rest) := by
  simp only [readClauses, h]

/-- The clauses of a search of a repository and a branch. -/
theorem readFilter_searchCommand {repo branch memType : String} {first f : List Char} {others o : List (List Char)}
    (hrepo : repo ≠ "") (hbranch : branch ≠ "") (htype : ∀ c ∈ memType.toList, tagMarks.Plain c)
    (hr : tagMarks.Spells (escapeTag repo).toList first others)
    (hb : tagMarks.Spells (escapeTag branch).toList f o) (K : Keyspace) (vec : List F) (k : ℕ) :
    readFilter (searchCommand K vec k repo memType branch).query.toList
      = some ([⟨"mem_type", [memType]⟩, ⟨"repo", (first :: others).map String.ofList⟩,
          ⟨"scope", "global" :: (f :: o).map String.ofList⟩], (knnClause k).toList) := by
  have htypes : tagMarks.Spells memType.toList memType.toList [] := by
    have hnil : tagMarks.Spells [] [] [] := Quoting.Marks.spells_nil_iff.mpr ⟨rfl, rfl⟩
    simpa using hnil.plain_append htype
  have hscope : tagMarks.Spells ("global|" ++ escapeTag branch).toList "global".toList (f :: o) := by
    have hitems := hb.sep_cons.plain_append (plain_of_all (s := "global".toList) (by decide))
    rw [List.append_nil] at hitems
    rw [String.toList_append]
    exact hitems
  -- the text as its three clauses
  have htext : (searchCommand K vec k repo memType branch).query.toList
      = '(' :: ((tagClause "mem_type" memType).toList ++ ' ' :: ((tagClause "repo" (escapeTag repo)).toList
        ++ ' ' :: ((tagClause "scope" ("global|" ++ escapeTag branch)).toList ++ ')' :: (knnClause k).toList))) := by
    simp [searchCommand, searchFilter, hrepo, hbranch]
  obtain ⟨n, hn⟩ : ∃ n, ((tagClause "mem_type" memType).toList ++ ' ' :: ((tagClause "repo" (escapeTag repo)).toList
      ++ ' ' :: ((tagClause "scope" ("global|" ++ escapeTag branch)).toList ++ ')' :: (knnClause k).toList))).length
        = n + 3 := by
    refine ⟨_ - 3, (Nat.sub_add_cancel ?_).symm⟩
    simp only [List.length_append, List.length_cons]
    omega
  rw [htext, readFilter, hn, readClauses_space (readClause_tagClause (by decide) htypes _),
    readClauses_space (readClause_tagClause (by decide) hr _),
    readClauses_close (readClause_tagClause (by decide) hscope _)]
  simp

/-! ### Clean names -/

/-- No bar and no closing brace, and every backslash right before a character that `escapeTag` escapes. -/
def Clean (s : String) : Prop := tagMarks.Kept escapedChar s.toList

instance (s : String) : Decidable (Clean s) := tagMarks.decidableKept escapedChar s.toList

/-- **The escaped name denotes exactly the name**: a group of it has one tag, the name. -/
def DenotesItself (s : String) : Prop := tagMarks.Spells (escapeTag s).toList s.toList []

theorem denotesItself_iff (s : String) : DenotesItself s ↔ Clean s := by
  unfold DenotesItself Clean
  rw [escapeTag_toList]
  exact Quoting.Marks.spells_escape_iff fun _ => plain_of_escaped

/-- A name that is not clean, but whose group still closes, denotes other names. -/
theorem ne_of_unclean {s : String} (hs : ¬ Clean s) {first : List Char} {others : List (List Char)}
    (hspells : tagMarks.Spells (escapeTag s).toList first others) {t : List Char} (ht : t ∈ first :: others) :
    String.ofList t ≠ s := by
  rw [escapeTag_toList] at hspells
  intro heq
  have hlist : t = s.toList := by rw [← heq, String.toList_ofList]
  exact Quoting.Marks.ne_of_spells (fun _ => plain_of_escaped) hspells hs (hlist ▸ ht)

/-- A bar between two clean names separates them. -/
theorem spells_bar {a b : String} (ha : Clean a) (hb : Clean b) :
    tagMarks.Spells (escapeTag (a ++ "|" ++ b)).toList a.toList [b.toList] := by
  have hsplit : (escapeTag (a ++ "|" ++ b)).toList = tagMarks.escape escapedChar a.toList
      ++ tagMarks.sep :: (escapeTag b).toList := by
    rw [escapeTag_toList, escapeTag_toList]
    simp [Quoting.Marks.escape, escapedChar, tagMarks]
  have hnext : tagMarks.Spells (tagMarks.sep :: (escapeTag b).toList) [] [b.toList] :=
    Quoting.Marks.Spells.sep_cons ((denotesItself_iff b).mpr hb)
  have hread := Quoting.Marks.Kept.spells_append (fun _ => plain_of_escaped) hnext ha
  rw [List.append_nil] at hread
  rwa [hsplit]

/-! ### Confinement -/

section Confinement

variable [Zero S] (parseFloat : String → S)

/-- **A confined search.** Whatever the store holds, every hit is a memory of the repository, global or of the branch. -/
def Confined (F : Type) (repo branch : String) : Prop :=
  ∀ (ftSearch : FtSearch F → Option Raw) (s : Server F), ReadsTags ftSearch s →
    ∀ (K : Keyspace) (vec : List F), ∀ hit ∈ searchAllWithEmbed parseFloat ftSearch K vec repo branch,
      ∃ h, s.keys.lookup hit.key = some (.hash h) ∧ h.text "repo" = repo ∧
        (h.text "scope" = "global" ∨ h.text "scope" = branch)

variable {parseFloat} {ftSearch : FtSearch F → Option Raw} {s : Server F}

theorem plain_of_searchedType {mt : String} (hmt : mt ∈ searchedTypes) : ∀ c ∈ mt.toList, tagMarks.Plain c := by
  simp only [searchedTypes, List.mem_cons, List.not_mem_nil, or_false] at hmt
  rcases hmt with rfl | rfl | rfl | rfl <;> exact plain_of_all (by decide)

/-- A hit is a row of one of the four answers. -/
theorem mem_searchAllWithEmbed {K : Keyspace} {vec : List F} {repo branch : String} {hit : MemoryHit S}
    (hmem : hit ∈ searchAllWithEmbed parseFloat ftSearch K vec repo branch) :
    ∃ mt ∈ searchedTypes, ∃ raw, ftSearch (searchCommand K vec 5 repo mt branch) = some raw ∧
      hit.key ∈ (parseMemoryHits parseFloat raw).map MemoryHit.key := by
  unfold searchAllWithEmbed at hmem
  split_ifs at hmem with hvec
  · exact absurd hmem List.not_mem_nil
  · obtain ⟨mt, hmt, hhit⟩ := List.mem_flatMap.mp hmem
    obtain ⟨r, hr, rfl⟩ := List.mem_map.mp hhit
    unfold vectorSearch at hr
    cases hraw : ftSearch (searchCommand K vec 5 repo mt branch) with
    | none =>
      rw [hraw] at hr
      exact absurd hr List.not_mem_nil
    | some raw =>
      rw [hraw] at hr
      exact ⟨mt, hmt, raw, hraw, List.mem_map.mpr ⟨r, hr, rfl⟩⟩

/-- A field with one of the tags. -/
theorem Clause.holds_iff {c : Clause} {h : Hash F} : c.holds h = true ↔ ∃ v, h c.field = some v ∧ v.str ∈ c.tags := by
  unfold Clause.holds
  rw [Option.any_eq_true]
  simp only [decide_eq_true_eq]

theorem Clause.text_mem {c : Clause} {h : Hash F} (hc : c.holds h = true) : h.text c.field ∈ c.tags := by
  obtain ⟨v, hv, hmem⟩ := Clause.holds_iff.mp hc
  simpa [Hash.text, hv] using hmem

/-- The hits of a search are memories with one of the tags its filter reads as. -/
theorem tags_of_hit (hreads : ReadsTags ftSearch s) {repo branch : String} {first f : List Char}
    {others o : List (List Char)} (hrepo : repo ≠ "") (hbranch : branch ≠ "")
    (hr : tagMarks.Spells (escapeTag repo).toList first others)
    (hb : tagMarks.Spells (escapeTag branch).toList f o) {K : Keyspace} {vec : List F} {hit : MemoryHit S}
    (hmem : hit ∈ searchAllWithEmbed parseFloat ftSearch K vec repo branch) :
    ∃ h, s.keys.lookup hit.key = some (.hash h) ∧ h.text "repo" ∈ (first :: others).map String.ofList ∧
      h.text "scope" ∈ "global" :: (f :: o).map String.ofList := by
  obtain ⟨mt, hmt, raw, hraw, hkey⟩ := mem_searchAllWithEmbed hmem
  have hfilter := readFilter_searchCommand hrepo hbranch (plain_of_searchedType hmt) hr hb K vec 5
  obtain ⟨rows, rfl, hrows⟩ := hreads _ _ hfilter raw hraw
  rw [map_key_parseMemoryHits] at hkey
  obtain ⟨row, hrow, hrowkey⟩ := List.mem_map.mp hkey
  obtain ⟨h, hlookup, hclauses⟩ := hrows row hrow
  rw [hrowkey] at hlookup
  refine ⟨h, hlookup, ?_, ?_⟩
  · exact Clause.text_mem (hclauses ⟨"repo", _⟩ (by simp))
  · exact Clause.text_mem (hclauses ⟨"scope", _⟩ (by simp))

/-- Names that denote themselves confine the search. -/
theorem confined_of_denotesItself {repo branch : String} (hrepo : repo ≠ "") (hbranch : branch ≠ "")
    (hr : DenotesItself repo) (hb : DenotesItself branch) : Confined parseFloat F repo branch := by
  intro ftSearch s hreads K vec hit hmem
  obtain ⟨h, hlookup, hrepos, hscopes⟩ := tags_of_hit hreads hrepo hbranch hr hb hmem
  refine ⟨h, hlookup, ?_, ?_⟩
  · simpa using hrepos
  · simpa using hscopes

variable (parseFloat)

/-- **When the search is confined by its names.** -/
theorem search_confined_iff {repo branch : String} (hrepo : repo ≠ "") (hbranch : branch ≠ "") :
    (DenotesItself repo ∧ DenotesItself branch ∧ Confined parseFloat F repo branch) ↔ Clean repo ∧ Clean branch := by
  constructor
  · rintro ⟨hr, hb, -⟩
    exact ⟨(denotesItself_iff repo).mp hr, (denotesItself_iff branch).mp hb⟩
  · rintro ⟨hr, hb⟩
    have hr' := (denotesItself_iff repo).mpr hr
    have hb' := (denotesItself_iff branch).mpr hb
    exact ⟨hr', hb', confined_of_denotesItself hrepo hbranch hr' hb'⟩

end Confinement

/-! ### A server that reads filters so -/

section TagSearch

/-- The tag fields of a memory, as they stand in an answer. -/
def tagFields (h : Hash F) : List Raw :=
  ["mem_type", "repo", "scope"].flatMap fun field => [.str field, .str (h.text field)]

/-- The row of a memory for which the clauses hold. -/
def rowOf (clauses : List Clause) (e : Σ _ : String, Entry F) : Option (String × List Raw) :=
  match e.2 with
  | .hash h => if clauses.all (·.holds h) then some (e.1, tagFields h) else none
  | _ => none

/-- Answer with the memories for which the clauses of the filter hold, up to the limit. The distance of a memory plays
no part. -/
def tagSearch (s : Server F) (cmd : FtSearch F) : Option Raw :=
  (readFilter cmd.query.toList).map fun r => reply ((s.keys.entries.filterMap (rowOf r.1)).take cmd.limit)

theorem readsTags_tagSearch (s : Server F) : ReadsTags (tagSearch s) s := by
  intro cmd clauses hfilter raw hraw
  unfold tagSearch at hraw
  rw [hfilter, Option.map_some] at hraw
  refine ⟨_, (Option.some.inj hraw).symm, ?_⟩
  intro row hrow
  obtain ⟨⟨key, e⟩, he, hrowOf⟩ := List.mem_filterMap.mp (List.mem_of_mem_take hrow)
  cases e with
  | hash h =>
    simp only [rowOf] at hrowOf
    split_ifs at hrowOf with hall
    obtain rfl := Option.some.inj hrowOf
    exact ⟨h, AList.mem_lookup_iff.mpr he, List.all_eq_true.mp hall⟩
  | str v => cases hrowOf
  | list xs => cases hrowOf

/-- The tag fields of a file memory that is global. -/
def globalFile (repo : String) : Hash F :=
  hsetFields (fun _ => none) [("mem_type", .text "file"), ("repo", .text repo), ("scope", .text "global")]

/-- A store with one memory. -/
def oneMemory (key : String) (h : Hash F) : Server F := ⟨AList.singleton key (.hash h), []⟩

theorem entries_oneMemory (key : String) (h : Hash F) : (oneMemory key h).keys.entries = [⟨key, .hash h⟩] := rfl

/-- Its tags are among those of a search that has its repository among them. -/
theorem holds_globalFile {repo : String} {repos : List String} (hrepo : repo ∈ repos) (scopes : List String) :
    ∀ c ∈ ([⟨"mem_type", ["file"]⟩, ⟨"repo", repos⟩, ⟨"scope", "global" :: scopes⟩] : List Clause),
      c.holds (globalFile (F := F) repo) = true := by
  simp only [List.forall_mem_cons]
  exact ⟨Clause.holds_iff.mpr ⟨.text "file", rfl, List.mem_singleton_self _⟩,
    Clause.holds_iff.mpr ⟨.text repo, rfl, hrepo⟩,
    Clause.holds_iff.mpr ⟨.text "global", rfl, List.mem_cons_self⟩, fun _ hc => absurd hc List.not_mem_nil⟩

variable [Zero S] (parseFloat : String → S)

/-- **A search reaches the memories of every name its repository reads as.** -/
theorem search_reaches {repo branch : String} {first f : List Char} {others o : List (List Char)} (hrepo : repo ≠ "")
    (hbranch : branch ≠ "") (hr : tagMarks.Spells (escapeTag repo).toList first others)
    (hb : tagMarks.Spells (escapeTag branch).toList f o) {t : List Char} (ht : t ∈ first :: others) (key : String)
    (K : Keyspace) {vec : List F} (hvec : vec ≠ []) :
    key ∈ (searchAllWithEmbed parseFloat (tagSearch (oneMemory key (globalFile (String.ofList t)))) K vec repo
      branch).map MemoryHit.key := by
  have hfile : "file" ∈ searchedTypes := by decide
  have hfilter := readFilter_searchCommand hrepo hbranch (plain_of_searchedType hfile) hr hb K vec 5
  -- the clauses hold for the memory, so the answer is its row
  have hraw : tagSearch (oneMemory key (globalFile (String.ofList t))) (searchCommand K vec 5 repo "file" branch)
      = some (reply [(key, tagFields (globalFile (F := F) (String.ofList t)))]) := by
    have hmem : String.ofList t ∈ (first :: others).map String.ofList := List.mem_map_of_mem ht
    have hall := holds_globalFile (F := F) hmem ((f :: o).map String.ofList)
    unfold tagSearch
    rw [hfilter, Option.map_some]
    simp only [entries_oneMemory, List.filterMap_cons, rowOf, if_pos (List.all_eq_true.mpr hall)]
    rfl
  have hempty : vec.isEmpty ≠ true := by simpa using hvec
  unfold searchAllWithEmbed
  rw [if_neg hempty, List.map_flatMap]
  refine List.mem_flatMap.mpr ⟨"file", hfile, ?_⟩
  rw [List.map_map]
  have hhits : key ∈ (vectorSearch parseFloat (tagSearch (oneMemory key (globalFile (String.ofList t)))) K vec 5 repo
      "file" branch).map MemoryHit.key := by
    unfold vectorSearch
    rw [hraw, Option.elim_some, map_key_parseMemoryHits]
    exact List.mem_singleton_self key
  exact hhits

variable {parseFloat}

/-- **An unclean repository does not confine the search**, if its group closes: the search reaches another repository. -/
theorem not_confined_of_unclean [Nonempty F] {repo branch : String} {first f : List Char} {others o : List (List Char)}
    (hrepo : repo ≠ "") (hbranch : branch ≠ "") (hunclean : ¬ Clean repo)
    (hr : tagMarks.Spells (escapeTag repo).toList first others)
    (hb : tagMarks.Spells (escapeTag branch).toList f o) : ¬ Confined parseFloat F repo branch := by
  intro hconf
  obtain ⟨x⟩ := ‹Nonempty F›
  have hfirst : first ∈ first :: others := List.mem_cons_self
  have hkey := search_reaches parseFloat hrepo hbranch hr hb hfirst "" Keyspace.mem (List.cons_ne_nil x [])
  obtain ⟨hit, hhit, hhitkey⟩ := List.mem_map.mp hkey
  obtain ⟨h, hlookup, hrepoEq, -⟩ := hconf _ _ (readsTags_tagSearch _) _ _ hit hhit
  rw [hhitkey] at hlookup
  have hsame : globalFile (String.ofList first) = h := by
    have heq : (oneMemory "" (globalFile (F := F) (String.ofList first))).keys.lookup ""
        = some (.hash (globalFile (String.ofList first))) :=
      AList.mem_lookup_iff.mpr (List.mem_singleton_self _)
    exact Entry.hash.inj (Option.some.inj (heq.symm.trans hlookup))
  subst hsame
  exact ne_of_unclean hunclean hr hfirst hrepoEq

end TagSearch

/-- A search of a repository and a branch with escaped characters, on a store with one memory of the repository. -/
theorem search_confined_iff_dashed :
    "mem:my-api:file:main.go" ∈ (searchAllWithEmbed (fun _ => (0 : ℤ))
        (tagSearch (oneMemory "mem:my-api:file:main.go" (globalFile "my-api"))) Keyspace.mem [(1 : ℤ)] "my-api"
        "feature/v1.2").map MemoryHit.key ∧
      ∀ hit ∈ searchAllWithEmbed (fun _ => (0 : ℤ))
          (tagSearch (oneMemory "mem:my-api:file:main.go" (globalFile "my-api"))) Keyspace.mem [(1 : ℤ)] "my-api"
          "feature/v1.2",
        ∃ h, (oneMemory "mem:my-api:file:main.go" (globalFile (F := ℤ) "my-api")).keys.lookup hit.key
            = some (.hash h) ∧ h.text "repo" = "my-api" ∧
          (h.text "scope" = "global" ∨ h.text "scope" = "feature/v1.2") := by
  have hrepo : "my-api" ≠ "" := by decide
  have hbranch : "feature/v1.2" ≠ "" := by decide
  obtain ⟨hr, hb, hconf⟩ := (search_confined_iff (F := ℤ) (fun _ => (0 : ℤ)) hrepo hbranch).mpr
    ⟨by decide, by decide⟩
  refine ⟨?_, hconf _ _ (readsTags_tagSearch _) _ _⟩
  exact search_reaches _ hrepo hbranch hr hb List.mem_cons_self _ _ (List.cons_ne_nil _ _)

/-- The repository `a|b` reaches the memories of the repository `b`. -/
theorem bar_repo_not_confined :
    ("mem:b:file:main.go" ∈ (searchAllWithEmbed (fun _ => (0 : ℤ))
        (tagSearch (oneMemory "mem:b:file:main.go" (globalFile "b"))) Keyspace.mem [(1 : ℤ)] "a|b"
        "main").map MemoryHit.key ∧ (globalFile (F := ℤ) "b").text "repo" = "b") ∧
      ¬ Confined (fun _ => (0 : ℤ)) ℤ "a|b" "main" := by
  have hrepo : "a|b" ≠ "" := by decide
  have hbranch : "main" ≠ "" := by decide
  have hr : tagMarks.Spells (escapeTag "a|b").toList ['a'] [['b']] :=
    spells_bar (a := "a") (b := "b") (by decide) (by decide)
  have hb : tagMarks.Spells (escapeTag "main").toList "main".toList [] := (denotesItself_iff _).mpr (by decide)
  have hmem : ['b'] ∈ [['a'], ['b']] := by decide
  refine ⟨⟨?_, rfl⟩, ?_⟩
  · exact search_reaches _ hrepo hbranch hr hb hmem _ _ (List.cons_ne_nil _ _)
  · exact not_confined_of_unclean hrepo hbranch (by decide) hr hb

end Devrouter.Memory
