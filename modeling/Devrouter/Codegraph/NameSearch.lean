import Mathlib.Algebra.Order.Field.Rat
import Devrouter.Codegraph.Lookup
import Devrouter.Router.Excludes

/-!
# Searching by name

Model of `searchByName` and `filesMatchingAnyTerm` in `src/codegraph/lib/handlers.js`. The words of a query gather
candidates from the table, conventions exclude some, and the must terms filter the rest: a candidate stays when its file
is among the files that some row of the table matches. These come from a query of their own, which stops at 500 files a
term. Its order has nothing to do with that of the first query, so it scans the table in an order of its own.

Scores are rational, and the logarithm is a parameter.

`must_filter_iff` says when the filter drops no candidate with a must term and keeps none without.
-/

namespace Devrouter.Codegraph

/-! ### Maps -/

section Map

variable {κ β : Type} [DecidableEq κ]

/-- `Map.set`: in place when the key is there. -/
def setEntry (m : List (κ × β)) (k : κ) (v : β) : List (κ × β) :=
  if m.any (·.1 = k) then m.map fun e => if e.1 = k then (k, v) else e else m ++ [(k, v)]

theorem mem_setEntry {m : List (κ × β)} {k : κ} {v : β} {e : κ × β} (h : e ∈ setEntry m k v) : e ∈ m ∨ e = (k, v) := by
  unfold setEntry at h
  split_ifs at h
  · obtain ⟨e', he', rfl⟩ := List.mem_map.mp h
    split_ifs
    · exact .inr rfl
    · exact .inl he'
  · obtain h | h := List.mem_append.mp h
    · exact .inl h
    · exact .inr (List.mem_singleton.mp h)

theorem mem_of_lookup {m : List (κ × β)} {k : κ} {v : β} (h : m.lookup k = some v) : ∃ k', (k', v) ∈ m := by
  induction m with
  | nil => exact absurd h (by simp)
  | cons e m ih =>
    rw [List.lookup_cons] at h
    split at h
    · exact ⟨e.1, by rw [← Option.some.inj h]; exact List.mem_cons_self⟩
    · obtain ⟨k', hk'⟩ := ih h
      exact ⟨k', List.mem_cons_of_mem _ hk'⟩

end Map

/-! ### Candidates -/

inductive Surface
  | name
  | filePath
  | content
  deriving DecidableEq, Repr

def surfaceWeight : Surface → ℚ
  | .name => 1
  | .filePath => 7 / 10
  | .content => 4 / 10

structure NameHit where
  row : SymbolRow
  /-- The strongest surface of each term. -/
  surfaces : List (String × Surface)
  deriving DecidableEq, Repr

/-- The maps that are filled: candidates by name and file, and how often each term was hit. -/
structure Gathered where
  hits : List (String × NameHit)
  hitCounts : List (String × ℕ)

def noteSurface (surfaces : List (String × Surface)) (term : String) (surface : Surface) : List (String × Surface) :=
  match surfaces.lookup term with
  | none => setEntry surfaces term surface
  | some cur => if surfaceWeight surface > surfaceWeight cur then setEntry surfaces term surface else surfaces

/-- One round of the loop of `collect`. -/
def collectRow (term : String) (surface : Surface) (g : Gathered) (row : SymbolRow) : Gathered :=
  if row.name = "" ∨ row.filePath = "" then g
  else
    let key := row.name ++ "|" ++ row.filePath
    let h := (g.hits.lookup key).getD ⟨row, []⟩
    { hits := setEntry g.hits key { h with surfaces := noteSurface h.surfaces term surface }
      hitCounts := setEntry g.hitCounts term ((g.hitCounts.lookup term).getD 0 + 1) }

def collect (rows : List SymbolRow) (term : String) (surface : Surface) (g : Gathered) : Gathered :=
  rows.foldl (collectRow term surface) g

/-- `SELECT ... LIMIT`. -/
def selectNodes (rows : List SymbolRow) (cond : SymbolRow → Bool) (limit : ℕ) : List SymbolRow :=
  (rows.filter cond).take limit

/-- The term with the fewest hits, of those that have any; the first of several. -/
def rarestSeen (count : String → ℕ) : Option (String × ℕ) → List String → Option String
  | best, [] => best.map Prod.fst
  | best, w :: ws =>
    if count w = 0 then rarestSeen count best ws
    else
      match best with
      | none => rarestSeen count (some (w, count w)) ws
      | some (b, c) => rarestSeen count (if count w < c then some (w, count w) else some (b, c)) ws

structure NameRequest where
  query : String
  limit : ℤ
  mustTerms : List String
  excludeTerms : List String
  contextHints : List String

def NameRequest.lim (body : NameRequest) : ℕ := limitOr body.limit 10

section Search

variable (T : CaseTables)

/-- Names that contain a word. -/
def gatherNames (rows : List SymbolRow) (lim : ℕ) (words : List String) : Gathered :=
  words.foldl (fun g w =>
    collect (selectNodes rows (fun r => like (sqlLower r.name) ("%" ++ w ++ "%")) (lim * 3)) w .name g) ⟨[], []⟩

/-- Signatures and qualified names, for the rarest word, when there are few candidates. -/
def gather (rows : List SymbolRow) (lim : ℕ) (words : List String) : Gathered :=
  let g := gatherNames rows lim words
  if g.hits.length < lim then
    match rarestSeen (fun w => (g.hitCounts.lookup w).getD 0) none words with
    | none => g
    | some rarest =>
      let p := "%" ++ rarest ++ "%"
      collect (selectNodes rows (fun r => (r.signature.any fun s => like (sqlLower s) p) || like (sqlLower r.qualifiedName) p)
        (lim * 2)) rarest .content g
  else g

/-- **The candidates** of a request, without those the conventions exclude. -/
def candidates (rows : List SymbolRow) (body : NameRequest) : List NameHit :=
  ((gather rows body.lim (jsSplitQueryWords T body.query)).hits.map Prod.snd).filter fun h =>
    !shouldExclude T h.row.filePath h.row.name body.excludeTerms

/-- The condition of the query for files: any of four columns. -/
def rowMatches (term : String) (r : SymbolRow) : Bool :=
  let p := "%" ++ T.toLowerCase term ++ "%"
  like (sqlLower r.filePath) p || like (sqlLower r.name) p || (r.signature.any fun s => like (sqlLower s) p) ||
    like (sqlLower r.qualifiedName) p

/-- The files with a row that matches. -/
def matchingFiles (rows : List SymbolRow) (term : String) : List String :=
  ((rows.filter (rowMatches T term)).map (·.filePath)).eraseDups

def fileLimit : ℕ := 500

def filesMatchingAnyTerm (scan : List SymbolRow) (terms : List String) : List String :=
  (terms.filter (· ≠ "")).flatMap fun t => ((matchingFiles T scan t).take fileLimit).filter (· ≠ "")

/-- The must terms' filter. -/
def mustFilter (scan : List SymbolRow) (terms : List String) (hits : List NameHit) : List NameHit :=
  if terms = [] then hits
  else
    let mustFiles := filesMatchingAnyTerm T scan terms
    if mustFiles ≠ [] then hits.filter fun h => h.row.filePath ∈ mustFiles else hits

def termIDF (log : ℚ → ℚ) (hitCount : ℕ) : ℚ :=
  if hitCount = 0 then 0 else if log (1 + 1000 / (hitCount + 1)) > 8 then 8 else log (1 + 1000 / (hitCount + 1))

def contextBoost (filePath : String) (hints : List String) : ℚ :=
  if hints = [] ∨ filePath = "" then 1
  else
    let found := hints.countP fun h => decide (h ≠ "") && Memory.contains (T.toLowerCase filePath) (T.toLowerCase h)
    if found = 0 then 1 else if found = 1 then 2 else 3

def hitScore (log : ℚ → ℚ) (counts : List (String × ℕ)) (hints : List String) (h : NameHit) : ℚ :=
  (h.surfaces.map fun s => termIDF log ((counts.lookup s.1).getD 0) * surfaceWeight s.2).sum *
    contextBoost T h.row.filePath hints

/-- `searchByName`, where the query for files scans the table in the order of `scan`. -/
def searchByName (log : ℚ → ℚ) (texts : Texts) (repoPath : String) (rows scan : List SymbolRow) (body : NameRequest) :
    List SearchResult :=
  if jsSplitQueryWords T body.query = [] then []
  else
    let counts := (gather rows body.lim (jsSplitQueryWords T body.query)).hitCounts
    let kept := mustFilter T scan body.mustTerms (candidates T rows body)
    let score := hitScore T log counts body.contextHints
    ((kept.insertionSort fun a b => score b ≤ score a).take body.lim).map fun h =>
      { rowToResult texts h.row repoPath with score := score h }

/-! ### Must terms -/

/-- Its path, its name, its signature or its qualified name contains the term. -/
def ContainsTerm (term : String) (r : SymbolRow) : Prop :=
  Contains (T.toLowerCase term) (sqlLower r.filePath) ∨ Contains (T.toLowerCase term) (sqlLower r.name) ∨
    (∃ s, r.signature = some s ∧ Contains (T.toLowerCase term) (sqlLower s)) ∨
      Contains (T.toLowerCase term) (sqlLower r.qualifiedName)

/-- A matching symbol contains one of the terms. -/
def ContainsAny (terms : List String) (r : SymbolRow) : Prop := ∃ t ∈ terms, ContainsTerm T t r

/-- **The file is kept**: no term matches any file, or one matches it together with no more files than the limit. -/
def SurelyKept (rows : List SymbolRow) (terms : List String) (f : String) : Prop :=
  (∀ t ∈ terms, t ≠ "" → ∀ g ∈ matchingFiles T rows t, g = "") ∨
    ∃ t ∈ terms, t ≠ "" ∧ f ∈ matchingFiles T rows t ∧ (matchingFiles T rows t).length ≤ fileLimit

/-- **No candidate is dropped** that contains a must term, whatever order the files come in. -/
def DropsNoMatch (rows : List SymbolRow) (body : NameRequest) : Prop :=
  ∀ scan : List SymbolRow, scan.Perm rows → ∀ h ∈ candidates T rows body, ContainsAny T body.mustTerms h.row →
    h ∈ mustFilter T scan body.mustTerms (candidates T rows body)

/-- **Only matching files are left**, when there is one. -/
def LeavesMatches (rows : List SymbolRow) (body : NameRequest) : Prop :=
  (∃ r ∈ rows, r.filePath ≠ "" ∧ ContainsAny T body.mustTerms r) →
    ∀ scan : List SymbolRow, scan.Perm rows → ∀ h ∈ mustFilter T scan body.mustTerms (candidates T rows body),
      ∃ r ∈ rows, r.filePath = h.row.filePath ∧ ContainsAny T body.mustTerms r

end Search

/-! ### What is gathered -/

section Gather

variable {rows : List SymbolRow} {g : Gathered}

/-- Every candidate is a row with a name and a file. -/
def FromRows (rows : List SymbolRow) (g : Gathered) : Prop :=
  ∀ e ∈ g.hits, e.2.row ∈ rows ∧ e.2.row.filePath ≠ ""

theorem fromRows_collectRow {term : String} {surface : Surface} {row : SymbolRow} (hg : FromRows rows g)
    (hrow : row ∈ rows) : FromRows rows (collectRow term surface g row) := by
  unfold collectRow
  split_ifs with hempty
  · exact hg
  · intro e he
    obtain he | rfl := mem_setEntry he
    · exact hg e he
    · cases hlookup : g.hits.lookup (row.name ++ "|" ++ row.filePath) with
      | none => exact ⟨hrow, fun h => hempty (.inr h)⟩
      | some h =>
        obtain ⟨k, hk⟩ := mem_of_lookup hlookup
        exact hg (k, h) hk

theorem fromRows_collect {term : String} {surface : Surface} {found : List SymbolRow} (hg : FromRows rows g)
    (hfound : ∀ r ∈ found, r ∈ rows) : FromRows rows (collect found term surface g) := by
  unfold collect
  induction found generalizing g with
  | nil => exact hg
  | cons r found ih =>
    exact ih (fromRows_collectRow hg (hfound r List.mem_cons_self)) fun r' h => hfound r' (List.mem_cons_of_mem _ h)

theorem mem_of_selectNodes {cond : SymbolRow → Bool} {limit : ℕ} :
    ∀ r ∈ selectNodes rows cond limit, r ∈ rows :=
  fun _ hr => (List.mem_filter.mp (List.mem_of_mem_take hr)).1

theorem fromRows_gather (rows : List SymbolRow) (lim : ℕ) (words : List String) : FromRows rows (gather rows lim words) := by
  have hnames : ∀ (ws : List String) (g : Gathered), FromRows rows g →
      FromRows rows (ws.foldl (fun g w =>
        collect (selectNodes rows (fun r => like (sqlLower r.name) ("%" ++ w ++ "%")) (lim * 3)) w .name g) g) := by
    intro ws
    induction ws with
    | nil => exact fun _ hg => hg
    | cons w ws ih => exact fun g hg => ih _ (fromRows_collect hg mem_of_selectNodes)
  have hstart : FromRows rows (gatherNames rows lim words) :=
    hnames words ⟨[], []⟩ fun e he => absurd he List.not_mem_nil
  unfold gather
  dsimp only
  split_ifs
  · split
    · exact hstart
    · exact fromRows_collect hstart mem_of_selectNodes
  · exact hstart

theorem mem_candidates {T : CaseTables} {body : NameRequest} {h : NameHit} (hh : h ∈ candidates T rows body) :
    h.row ∈ rows ∧ h.row.filePath ≠ "" := by
  obtain ⟨e, he, rfl⟩ := List.mem_map.mp (List.mem_filter.mp hh).1
  exact fromRows_gather rows _ _ e he

end Gather

/-! ### The filter -/

section Filter

variable {T : CaseTables} {rows scan : List SymbolRow} {terms : List String} {t f : String}

theorem mem_matchingFiles : f ∈ matchingFiles T rows t ↔ ∃ r ∈ rows, rowMatches T t r = true ∧ r.filePath = f := by
  unfold matchingFiles
  rw [List.mem_eraseDups, List.mem_map]
  simp only [List.mem_filter, and_assoc]

/-- What contains the term is matched. -/
theorem rowMatches_of_contains {r : SymbolRow} (h : ContainsTerm T t r) : rowMatches T t r = true := by
  unfold rowMatches
  dsimp only
  simp only [Bool.or_eq_true]
  obtain hpath | hname | ⟨s, hs, hsig⟩ | hqual := h
  · exact .inl (.inl (.inl (like_of_contains hpath)))
  · exact .inl (.inl (.inr (like_of_contains hname)))
  · refine .inl (.inr ?_)
    rw [hs]
    exact like_of_contains hsig
  · exact .inr (like_of_contains hqual)

theorem mem_filesMatchingAnyTerm : f ∈ filesMatchingAnyTerm T scan terms ↔
    ∃ t ∈ terms, t ≠ "" ∧ f ∈ (matchingFiles T scan t).take fileLimit ∧ f ≠ "" := by
  unfold filesMatchingAnyTerm
  simp only [List.mem_flatMap, List.mem_filter, decide_eq_true_eq, and_assoc]

/-- The first places of a list without repetitions hold something else than one given element. -/
theorem exists_mem_take_ne {l : List String} (hl : l.Nodup) (hf : f ∈ l) (hne : f ≠ "") {n : ℕ} (hn : 2 ≤ n) :
    ∃ g ∈ l.take n, g ≠ "" := by
  obtain ⟨m, rfl⟩ : ∃ m, n = m + 2 := ⟨n - 2, by omega⟩
  cases l with
  | nil => exact absurd hf List.not_mem_nil
  | cons a l =>
    by_cases ha : a = ""
    · cases l with
      | nil =>
        rw [List.mem_singleton.mp hf, ha] at hne
        exact absurd rfl hne
      | cons b l =>
        refine ⟨b, by simp, ?_⟩
        rintro rfl
        rw [ha] at hl
        exact (List.nodup_cons.mp hl).1 List.mem_cons_self
    · exact ⟨a, by simp, ha⟩

/-- A matching file leaves the filter something to go by. -/
theorem filesMatchingAnyTerm_ne_nil (ht : t ∈ terms) (hne : t ≠ "") (hf : f ∈ matchingFiles T scan t) (hf' : f ≠ "") :
    filesMatchingAnyTerm T scan terms ≠ [] := by
  obtain ⟨g, hg, hgne⟩ := exists_mem_take_ne (List.nodup_eraseDups _) hf hf' (by decide : 2 ≤ fileLimit)
  exact List.ne_nil_of_mem (mem_filesMatchingAnyTerm.mpr ⟨t, ht, hne, hg, hgne⟩)

theorem mem_mustFilter {hits : List NameHit} {h : NameHit} : h ∈ mustFilter T scan terms hits ↔
    h ∈ hits ∧ (terms = [] ∨ filesMatchingAnyTerm T scan terms = [] ∨
      h.row.filePath ∈ filesMatchingAnyTerm T scan terms) := by
  unfold mustFilter
  dsimp only
  split_ifs with hterms hfiles
  · simp [hterms]
  · simp [hterms, hfiles]
  · rw [not_not] at hfiles
    simp [hfiles]

theorem mem_matchingFiles_perm (h : scan.Perm rows) : f ∈ matchingFiles T scan t ↔ f ∈ matchingFiles T rows t := by
  rw [mem_matchingFiles, mem_matchingFiles]
  simp only [h.mem_iff]

/-- The order of the table does not change how many files match. -/
theorem length_matchingFiles_perm (h : scan.Perm rows) :
    (matchingFiles T scan t).length = (matchingFiles T rows t).length := by
  refine List.Perm.length_eq ?_
  exact (List.perm_ext_iff_of_nodup (List.nodup_eraseDups _) (List.nodup_eraseDups _)).mpr fun f =>
    mem_matchingFiles_perm h

/-- The table with the rows of one file at its end. -/
def fileLast (rows : List SymbolRow) (f : String) : List SymbolRow :=
  rows.filter (fun r => decide (r.filePath ≠ f)) ++ rows.filter fun r => !decide (r.filePath ≠ f)

theorem fileLast_perm (rows : List SymbolRow) (f : String) : (fileLast rows f).Perm rows :=
  List.filter_append_perm _ rows

/-- **Cut off.** A file whose rows come last is not among the files when more than the limit match. -/
theorem notMem_take_fileLast (h : fileLimit < (matchingFiles T rows t).length) :
    f ∉ (matchingFiles T (fileLast rows f) t).take fileLimit := by
  have hlength := length_matchingFiles_perm (T := T) (t := t) (fileLast_perm rows f)
  obtain ⟨others, hothers⟩ : ∃ others, others =
      ((rows.filter fun r => decide (r.filePath ≠ f)).filter (rowMatches T t)).map (·.filePath) := ⟨_, rfl⟩
  obtain ⟨own, hown⟩ : ∃ own, own =
      ((rows.filter fun r => !decide (r.filePath ≠ f)).filter (rowMatches T t)).map (·.filePath) := ⟨_, rfl⟩
  have hsplit : matchingFiles T (fileLast rows f) t = others.eraseDups ++ (own.removeAll others).eraseDups := by
    unfold matchingFiles fileLast
    rw [List.filter_append, List.map_append, List.eraseDups_append, hothers, hown]
  have hnot : f ∉ others.eraseDups := by
    rw [List.mem_eraseDups, hothers]
    intro hmem
    obtain ⟨r, hr, heq⟩ := List.mem_map.mp hmem
    exact of_decide_eq_true (List.mem_filter.mp (List.mem_filter.mp hr).1).2 heq
  -- behind the other files there is at most the one
  have hone : ((own.removeAll others).eraseDups).length ≤ 1 := by
    have hall : ∀ x ∈ (own.removeAll others).eraseDups, x = f := by
      intro x hx
      have hx := (List.mem_filter.mp (List.mem_eraseDups.mp hx)).1
      rw [hown] at hx
      obtain ⟨r, hr, rfl⟩ := List.mem_map.mp hx
      simpa using (List.mem_filter.mp (List.mem_filter.mp hr).1).2
    have hrep := List.eq_replicate_iff.mpr ⟨rfl, hall⟩
    have hnodup : ((own.removeAll others).eraseDups).Nodup := List.nodup_eraseDups _
    rw [hrep] at hnodup
    exact List.nodup_replicate.mp hnodup
  rw [hsplit, List.length_append] at hlength
  rw [hsplit, List.take_append_of_le_length (by omega)]
  exact fun hmem => hnot (List.mem_of_mem_take hmem)

/-- **Who is kept** in every order of the table. -/
theorem kept_iff {hits : List NameHit} {h : NameHit} (hh : h ∈ hits) (hfile : h.row.filePath ≠ "") (hterms : terms ≠ []) :
    (∀ scan : List SymbolRow, scan.Perm rows → h ∈ mustFilter T scan terms hits) ↔
      SurelyKept T rows terms h.row.filePath := by
  constructor
  · intro hall
    by_contra hcon
    obtain ⟨hsome, hmany⟩ := not_or.mp hcon
    -- some term matches a file, and every term that matches this one matches too many
    push Not at hsome hmany
    obtain ⟨t, ht, hne, g, hg, hgne⟩ := hsome
    have hkept := (mem_mustFilter.mp (hall _ (fileLast_perm rows h.row.filePath))).2
    obtain hnil | hnil | hmem := hkept
    · exact hterms hnil
    · exact filesMatchingAnyTerm_ne_nil ht hne ((mem_matchingFiles_perm (fileLast_perm rows _)).mpr hg) hgne hnil
    · obtain ⟨t', ht', hne', hmem, -⟩ := mem_filesMatchingAnyTerm.mp hmem
      have hmatch := (mem_matchingFiles_perm (fileLast_perm rows _)).mp (List.mem_of_mem_take hmem)
      exact notMem_take_fileLast (hmany t' ht' hne' hmatch) hmem
  · intro hsure scan hscan
    refine mem_mustFilter.mpr ⟨hh, .inr ?_⟩
    obtain hnone | ⟨t, ht, hne, hf, hfew⟩ := hsure
    · refine .inl (List.eq_nil_iff_forall_not_mem.mpr fun g hg => ?_)
      obtain ⟨t, ht, hne, hmem, hgne⟩ := mem_filesMatchingAnyTerm.mp hg
      exact hgne (hnone t ht hne g ((mem_matchingFiles_perm hscan).mp (List.mem_of_mem_take hmem)))
    · refine .inr (mem_filesMatchingAnyTerm.mpr ⟨t, ht, hne, ?_, hfile⟩)
      rw [List.take_of_length_le (by rwa [length_matchingFiles_perm hscan])]
      exact (mem_matchingFiles_perm hscan).mpr hf

theorem drops_no_match_iff (body : NameRequest) : DropsNoMatch T rows body ↔
    ∀ h ∈ candidates T rows body, ContainsAny T body.mustTerms h.row →
      SurelyKept T rows body.mustTerms h.row.filePath := by
  have hkept : ∀ h ∈ candidates T rows body, ContainsAny T body.mustTerms h.row →
      ((∀ scan : List SymbolRow, scan.Perm rows → h ∈ mustFilter T scan body.mustTerms (candidates T rows body)) ↔
        SurelyKept T rows body.mustTerms h.row.filePath) := by
    rintro h hh ⟨t, ht, -⟩
    exact kept_iff hh (mem_candidates hh).2 (List.ne_nil_of_mem ht)
  constructor
  · exact fun hall h hh hc => (hkept h hh hc).mp fun scan hscan => hall scan hscan h hh hc
  · exact fun hall scan hscan h hh hc => (hkept h hh hc).mpr (hall h hh hc) scan hscan

theorem leaves_matches_iff (body : NameRequest) : LeavesMatches T rows body ↔
    ((∃ r ∈ rows, r.filePath ≠ "" ∧ ContainsAny T body.mustTerms r) →
      ∀ h ∈ candidates T rows body, (∃ t ∈ body.mustTerms, t ≠ "" ∧ h.row.filePath ∈ matchingFiles T rows t) →
        ∃ r ∈ rows, r.filePath = h.row.filePath ∧ ContainsAny T body.mustTerms r) := by
  refine imp_congr_right ?_
  rintro ⟨r₀, hr₀, hfile₀, t₀, ht₀, hcontains₀⟩
  constructor
  · rintro hall h hh ⟨t, ht, hne, hmatch⟩
    obtain ⟨r, hr, hrow, hpath⟩ := mem_matchingFiles.mp hmatch
    obtain ⟨u, v, rfl⟩ := List.append_of_mem hr
    -- when the table is scanned from that row on, its file comes first
    refine hall (r :: (u ++ v)) List.perm_middle.symm h (mem_mustFilter.mpr ⟨hh, .inr (.inr ?_)⟩)
    refine mem_filesMatchingAnyTerm.mpr ⟨t, ht, hne, ?_, (mem_candidates hh).2⟩
    unfold matchingFiles fileLimit
    rw [List.filter_cons_of_pos hrow, List.map_cons, List.eraseDups_cons, hpath, List.take_succ_cons]
    exact List.mem_cons_self
  · intro hall scan hscan h hkept
    obtain ⟨hh, hterms | hnil | hmem⟩ := mem_mustFilter.mp hkept
    · rw [hterms] at ht₀
      exact absurd ht₀ List.not_mem_nil
    · -- without a file to go by the matching row can only contain the empty term
      by_cases hne : t₀ = ""
      · subst hne
        have hempty : T.toLowerCase "" = "" := rfl
        refine ⟨h.row, (mem_candidates hh).1, rfl, "", ht₀, .inl ?_⟩
        rw [hempty]
        exact List.nil_infix
      · have hfile : r₀.filePath ∈ matchingFiles T scan t₀ :=
          (mem_matchingFiles_perm hscan).mpr (mem_matchingFiles.mpr ⟨r₀, hr₀, rowMatches_of_contains hcontains₀, rfl⟩)
        exact absurd hnil (filesMatchingAnyTerm_ne_nil ht₀ hne hfile hfile₀)
    · obtain ⟨t, ht, hne, hmem, -⟩ := mem_filesMatchingAnyTerm.mp hmem
      exact hall h hh ⟨t, ht, hne, (mem_matchingFiles_perm hscan).mp (List.mem_of_mem_take hmem)⟩

end Filter

/-- **The must terms' filter.** It drops no candidate that contains a must term exactly when each of these lies in a
file that some must term matches together with at most 500 files in all; it leaves only files with a matching symbol
exactly when no candidate's file is matched through a wildcard alone; and what is returned is what it has left. -/
theorem must_filter_iff (T : CaseTables) (rows : List SymbolRow) (body : NameRequest) :
    (DropsNoMatch T rows body ↔
      ∀ h ∈ candidates T rows body, ContainsAny T body.mustTerms h.row →
        SurelyKept T rows body.mustTerms h.row.filePath) ∧
    (LeavesMatches T rows body ↔
      ((∃ r ∈ rows, r.filePath ≠ "" ∧ ContainsAny T body.mustTerms r) →
        ∀ h ∈ candidates T rows body, (∃ t ∈ body.mustTerms, t ≠ "" ∧ h.row.filePath ∈ matchingFiles T rows t) →
          ∃ r ∈ rows, r.filePath = h.row.filePath ∧ ContainsAny T body.mustTerms r)) ∧
    ∀ log texts repoPath scan, ∀ res ∈ searchByName T log texts repoPath rows scan body,
      ∃ h ∈ mustFilter T scan body.mustTerms (candidates T rows body), res.filePath = h.row.filePath := by
  refine ⟨drops_no_match_iff body, leaves_matches_iff body, fun log texts repoPath scan res hres => ?_⟩
  unfold searchByName at hres
  split_ifs at hres
  · exact absurd hres List.not_mem_nil
  · obtain ⟨h, hh, rfl⟩ := List.mem_map.mp hres
    exact ⟨h, (List.mem_insertionSort _).mp (List.mem_of_mem_take hh), rfl⟩

/-- The path of a page, one longer than the page before. -/
def pagePath (n : ℕ) : String := "web/" ++ String.ofList (List.replicate n 'x') ++ ".ts"

/-- A function of one name on each of 501 pages. -/
def loginRows : List SymbolRow :=
  (List.range 501).map fun n => ⟨pagePath n, "function", "login", "login", pagePath n, 1, 2, none⟩

theorem pagePath_inj : Function.Injective pagePath := by
  intro n m h
  have hlength := congrArg (List.length ∘ String.toList) h
  simp only [pagePath, Function.comp_apply, String.toList_append, String.toList_ofList, List.length_append,
    List.length_replicate] at hlength
  omega

/-- All pages match. -/
theorem matchingFiles_login : matchingFiles latinTables loginRows "login" = (List.range 501).map pagePath := by
  have hall : ∀ r ∈ loginRows, rowMatches latinTables "login" r = true := by
    intro r hr
    obtain ⟨n, -, rfl⟩ := List.mem_map.mp hr
    have hname : Contains (latinTables.toLowerCase "login") (sqlLower "login") := by decide +kernel
    exact rowMatches_of_contains (.inr (.inl hname))
  have hpaths : loginRows.map (·.filePath) = (List.range 501).map pagePath := by
    unfold loginRows
    rw [List.map_map]
    rfl
  unfold matchingFiles
  rw [List.filter_eq_self.mpr hall, hpaths, (List.nodup_range.map pagePath_inj).eraseDups_eq]

/-- **One file too many.** With 501 matching files a candidate that contains the must term can be dropped; and a
must term with an underscore leaves a file without it. -/
theorem loginRows_dropped :
    ¬ DropsNoMatch latinTables loginRows ⟨"login", 1, ["login"], [], []⟩ ∧
      ¬ LeavesMatches latinTables userRows ⟨"user", 10, ["get_user"], [], []⟩ := by
  constructor
  · rw [drops_no_match_iff]
    intro h
    have hcandidates : ⟨⟨pagePath 0, "function", "login", "login", pagePath 0, 1, 2, none⟩, [("login", .name)]⟩ ∈
        candidates latinTables loginRows ⟨"login", 1, ["login"], [], []⟩ := by decide +kernel
    obtain hnone | ⟨t, ht, -, -, hfew⟩ := h _ hcandidates ⟨"login", by simp, .inr (.inl (by decide +kernel))⟩
    · -- the page is among the files that match, but not among those that are kept
      have hfirst : pagePath 0 ∈ matchingFiles latinTables loginRows "login" := by
        rw [matchingFiles_login]
        exact List.mem_map_of_mem (by simp)
      exact absurd (hnone "login" (by simp) (by decide) _ hfirst) (by decide)
    · obtain rfl := List.mem_singleton.mp ht
      rw [matchingFiles_login, List.length_map, List.length_range] at hfew
      exact absurd hfew (by decide)
  · rw [leaves_matches_iff]
    intro h
    have hcandidates : ⟨⟨"n2", "function", "getXuser", "getXuser", "src/apiXv1/getXuser.go", 3, 9, none⟩,
        [("user", .name)]⟩ ∈ candidates latinTables userRows ⟨"user", 10, ["get_user"], [], []⟩ := by decide +kernel
    have hmatch : "src/apiXv1/getXuser.go" ∈ matchingFiles latinTables userRows "get_user" := by decide +kernel
    have hfirst : ContainsAny latinTables ["get_user"]
        ⟨"n1", "function", "get_user", "get_user", "src/api_v1/get_user.go", 3, 9, none⟩ :=
      ⟨"get_user", by simp, .inr (.inl (by decide +kernel))⟩
    -- the file matches its pattern through the wildcard, and the word is in none of its rows
    obtain ⟨r, hr, hpath, t, ht, hcontains⟩ :=
      h ⟨_, List.mem_cons_self, by decide, hfirst⟩ _ hcandidates ⟨"get_user", by simp, by decide, hmatch⟩
    obtain rfl := List.mem_singleton.mp ht
    -- the row of that file has the word in none of its four columns
    have hnot : ∀ r ∈ userRows, r.filePath = "src/apiXv1/getXuser.go" →
        ¬ Contains (latinTables.toLowerCase "get_user") (sqlLower r.filePath) ∧
          ¬ Contains (latinTables.toLowerCase "get_user") (sqlLower r.name) ∧ r.signature = none ∧
          ¬ Contains (latinTables.toLowerCase "get_user") (sqlLower r.qualifiedName) := by decide +kernel
    obtain ⟨hno₁, hno₂, hno₃, hno₄⟩ := hnot r hr hpath
    obtain hc | hc | ⟨s, hs, -⟩ | hc := hcontains
    · exact hno₁ hc
    · exact hno₂ hc
    · exact absurd (hno₃.symm.trans hs) (by simp)
    · exact hno₄ hc

end Devrouter.Codegraph
