import Devrouter.Codegraph.SourceFiles
import Devrouter.Lib.Fields
import Devrouter.Lib.StableSort
import Devrouter.Lib.Wildcard

/-!
# Looking names and paths up

Model of `siblings`, `relatedFiles`, `nameHits` and `searchByPath` in `src/codegraph/lib/handlers.js`. Each puts a text
of its caller into a pattern of `LIKE`, where `%` stands for any text and `_` for any character, and none escapes them.
`LIKE` does not tell the ASCII letters from their capitals.

A query without an order returns its rows in the order in which the table is scanned, and ties in the order of a query
that has one come in that order too. So a law of an answer is a law for every order of the rows, and a row breaks it
when some order lets it through.

`lookups_literal_iff` says for which texts and tables the four are literal.
-/

namespace Devrouter.Codegraph

open Wildcard

/-! ### SQL -/

/-- The characters of a pattern. -/
def likeElems (s : List Char) : List (Elem Char) :=
  s.map fun c => if c = '%' then .many else if c = '_' then .one else .lit c

/-- The ASCII letters and their capitals are the same. -/
def sameLetter (a b : Char) : Bool := a.toLower = b.toLower

def like (text pattern : String) : Bool := accepts sameLetter (likeElems pattern.toList) text.toList

/-- `lower`. -/
def sqlLower (s : String) : String := String.ofList (s.toList.map Char.toLower)

/-- `limit && limit > 0 ? limit : d`. -/
def limitOr (limit : ℤ) (d : ℕ) : ℕ := if 0 < limit then limit.toNat else d

/-- `SELECT DISTINCT file_path ... LIMIT`, and the paths that are not empty. -/
def distinctPaths (rows : List SymbolRow) (cond : String → Bool) (limit : ℕ) : List String :=
  (((rows.map (·.filePath)).filter cond).eraseDups.take limit).filter (· ≠ "")

/-- `SELECT ... ORDER BY start_line LIMIT`. -/
def selectByLine (rows : List SymbolRow) (cond : SymbolRow → Bool) (limit : ℕ) : List SymbolRow :=
  ((rows.filter cond).insertionSort fun r r' => r.startLine ≤ r'.startLine).take limit

/-! ### Handlers -/

/-- `slice(0, lastIndexOf('/'))`. -/
def dirOf (filePath : String) : String := String.ofList (filePath.toList.reverse.dropWhile (· ≠ '/')).tail.reverse

def siblings (rows : List SymbolRow) (filePath : String) (limit : ℤ) : List String :=
  if '/' ∈ filePath.toList then
    distinctPaths rows (fun p => like p (dirOf filePath ++ "/%") && !like p (dirOf filePath ++ "/%/%")) (limitOr limit 20)
  else []

section Lookups

variable (T : CaseTables)

def relatedFiles (rows : List SymbolRow) (keyword : String) (limit : ℤ) : List String :=
  if keyword = "" then []
  else distinctPaths rows (fun p => like (sqlLower p) ("%" ++ T.toLowerCase keyword ++ "%")) (limitOr limit 100)

def nameHits (rows : List SymbolRow) (term : String) : ℕ :=
  if term = "" then 0 else rows.countP fun r => like (sqlLower r.name) ("%" ++ T.toLowerCase term ++ "%")

end Lookups

/-- Exact, then suffix, then contains. -/
def pathAttempts (filePath : String) : List (SymbolRow → Bool) :=
  [fun r => r.filePath = filePath, fun r => like r.filePath ("%" ++ filePath),
    fun r => like r.filePath ("%" ++ filePath ++ "%")]

/-- The loop over the attempts. -/
def firstAnswer (rows : List SymbolRow) (limit : ℕ) : List (SymbolRow → Bool) → List SymbolRow
  | [] => []
  | cond :: conds =>
    let found := selectByLine rows cond limit
    if found.length > 0 then found else firstAnswer rows limit conds

def searchByPath (texts : Texts) (repoPath : String) (rows : List SymbolRow) (filePath : String) (limit : ℤ) :
    List SearchResult :=
  if filePath = "" then []
  else (firstAnswer rows (limitOr limit 20) (pathAttempts filePath)).map fun r => rowToResult texts r repoPath

/-! ### Literal texts -/

/-- A text contains another. -/
def Contains (part text : String) : Prop := part.toList <:+: text.toList

instance (part text : String) : Decidable (Contains part text) := inferInstanceAs (Decidable (_ <:+: _))

/-- **Nothing strays**: a text with a part that comes out of `part` by filling its wildcards contains `part` as it is. -/
def NoStray (part text : String) : Prop :=
  ∀ v, v <:+: text.toList → Fills sameLetter (likeElems part.toList) v → Contains part text

/-- Directly in a directory. -/
def DirectlyIn (dir path : String) : Prop := ∃ name, '/' ∉ name ∧ path.toList = dir.toList ++ '/' :: name

/-- The directory comes out of `dir` by filling its wildcards, and no directory further up does. -/
structure FillsDir (dir : String) (v name : List Char) : Prop where
  last : '/' ∉ name
  fills : Fills sameLetter (likeElems dir.toList) v
  no_upper : ∀ v' a b, v ++ '/' :: name = v' ++ '/' :: a ++ '/' :: b → ¬Fills sameLetter (likeElems dir.toList) v'

/-- The first attempt that some row meets. -/
def metAttempt (rows : List SymbolRow) (filePath : String) : Option (SymbolRow → Bool) :=
  (pathAttempts filePath).find? fun cond => rows.any cond

/-- A row that some order of the table brings into the answer. -/
structure CanShow (rows : List SymbolRow) (filePath : String) (limit : ℕ) (r : SymbolRow) : Prop where
  mem : r ∈ rows
  met : ∃ cond, metAttempt rows filePath = some cond ∧ cond r = true ∧
    (rows.filter cond).countP (fun r' => r'.startLine < r.startLine) < limit

/-! ### Patterns -/

section Like

variable {s t part text dir path : String} {v name : List Char}

theorem limitOr_pos (limit : ℤ) {d : ℕ} (hd : 0 < d) : 0 < limitOr limit d := by
  unfold limitOr
  split_ifs
  · omega
  · exact hd

theorem likeElems_append (a b : List Char) : likeElems (a ++ b) = likeElems a ++ likeElems b := List.map_append

theorem like_iff : like text part = true ↔ Fills sameLetter (likeElems part.toList) text.toList := accepts_iff

/-- A text comes out of itself. -/
theorem fills_self (l : List Char) : Fills sameLetter (likeElems l) l := by
  induction l with
  | nil => exact .nil
  | cons c l ih =>
    unfold likeElems
    rw [List.map_cons]
    split_ifs
    · exact .many [c] ih
    · exact .one c ih
    · exact .lit (by simp [sameLetter]) ih

theorem like_contains_iff : like text ("%" ++ part ++ "%") = true ↔
    ∃ v, v <:+: text.toList ∧ Fills sameLetter (likeElems part.toList) v := by
  have helems : likeElems ("%" ++ part ++ "%").toList = .many :: (likeElems part.toList ++ [.many]) := by
    rw [String.toList_append, String.toList_append, likeElems_append, likeElems_append]
    rfl
  rw [like_iff, helems, fills_surrounded_iff]

/-- What contains the text is matched. -/
theorem like_of_contains (h : Contains part text) : like text ("%" ++ part ++ "%") = true :=
  like_contains_iff.mpr ⟨_, h, fills_self _⟩

theorem noStray_iff : NoStray part text ↔ (like text ("%" ++ part ++ "%") = true → Contains part text) := by
  rw [like_contains_iff]
  exact ⟨fun h ⟨v, hv, hfills⟩ => h v hv hfills, fun h v hv hfills => h ⟨v, hv, hfills⟩⟩

/-- A slash is its own lower case and no other's. -/
theorem sameLetter_slash {c : Char} : sameLetter '/' c = true ↔ c = '/' := by
  have hslash : ('/' : Char).toLower = '/' := by decide
  unfold sameLetter
  rw [hslash, decide_eq_true_iff, eq_comm]
  exact asciiRunes.caseless c '/' (.inr (by decide))

theorem like_dir_iff : like path (dir ++ "/%") = true ↔
    ∃ v rest, path.toList = v ++ '/' :: rest ∧ Fills sameLetter (likeElems dir.toList) v := by
  have helems : likeElems (dir ++ "/%").toList = likeElems dir.toList ++ [.lit '/', .many] := by
    rw [String.toList_append, likeElems_append]
    rfl
  rw [like_iff, helems, fills_append_iff]
  simp only [fills_lit_iff, sameLetter_slash]
  constructor
  · rintro ⟨v, rest, hpath, hv, c, rest', rfl, rfl, -⟩
    exact ⟨v, rest', hpath, hv⟩
  · rintro ⟨v, rest, hpath, hv⟩
    exact ⟨v, _, hpath, hv, '/', rest, rfl, rfl, fills_many_iff.mpr ⟨[], List.nil_suffix, .nil⟩⟩

theorem like_below_iff : like path (dir ++ "/%/%") = true ↔
    ∃ v a b, path.toList = v ++ '/' :: a ++ '/' :: b ∧ Fills sameLetter (likeElems dir.toList) v := by
  -- the pattern is that of the directory with two wildcards behind slashes
  have helems : likeElems (dir ++ "/%/%").toList =
      likeElems dir.toList ++ ([.lit '/', .many] ++ [.lit '/', .many]) := by
    rw [String.toList_append, likeElems_append]
    rfl
  have hdir : ∀ l : List Char, Fills sameLetter [.lit '/', .many] l ↔ ∃ rest, l = '/' :: rest := by
    intro l
    simp only [fills_lit_iff, sameLetter_slash]
    constructor
    · rintro ⟨c, rest, rfl, rfl, -⟩
      exact ⟨rest, rfl⟩
    · rintro ⟨rest, rfl⟩
      exact ⟨'/', rest, rfl, rfl, fills_many_iff.mpr ⟨[], List.nil_suffix, .nil⟩⟩
  rw [like_iff, helems, fills_append_iff]
  simp only [fills_append_iff (q := [.lit '/', .many]), hdir]
  constructor
  · rintro ⟨v, rest, hpath, hv, u, w, rfl, ⟨a, rfl⟩, b, rfl⟩
    exact ⟨v, a, b, by rw [hpath, List.append_assoc], hv⟩
  · rintro ⟨v, a, b, hpath, hv⟩
    exact ⟨v, _, by rw [hpath, List.append_assoc], hv, '/' :: a, '/' :: b, rfl, ⟨a, rfl⟩, b, rfl⟩

/-- **The paths `siblings` takes** are those whose directory comes out of the one that is asked for. -/
theorem sibling_iff : (like path (dir ++ "/%") && !like path (dir ++ "/%/%")) = true ↔
    ∃ v name, path.toList = v ++ '/' :: name ∧ FillsDir dir v name := by
  rw [Bool.and_eq_true, Bool.not_eq_true', ← Bool.not_eq_true, like_dir_iff, like_below_iff]
  constructor
  · rintro ⟨⟨v, name, hpath, hv⟩, hbelow⟩
    refine ⟨v, name, hpath, fun hslash => ?_, hv, fun v' a b heq hv' => hbelow ⟨v', a, b, hpath.trans heq, hv'⟩⟩
    obtain ⟨a, b, rfl⟩ := List.append_of_mem hslash
    exact hbelow ⟨v, a, b, by rw [hpath, List.append_assoc]; rfl, hv⟩
  · rintro ⟨v, name, hpath, hfills⟩
    refine ⟨⟨v, name, hpath, hfills.fills⟩, ?_⟩
    rintro ⟨v', a, b, heq, hv'⟩
    exact hfills.no_upper v' a b (hpath.symm.trans heq) hv'

/-- The directory of a path is what stands before its last slash. -/
theorem directlyIn_iff (hpath : path.toList = v ++ '/' :: name) (hname : '/' ∉ name) :
    DirectlyIn dir path ↔ v = dir.toList := by
  constructor
  · rintro ⟨name', hname', hpath'⟩
    exact ((List.append_sep_inj_right hname hname').mp (hpath.symm.trans hpath')).1
  · rintro rfl
    exact ⟨name, hname, hpath⟩

end Like

/-! ### Answers in every order -/

section Orders

variable {rows scan : List SymbolRow} {cond : String → Bool} {n : ℕ} {p : String}

theorem mem_distinctPaths (h : p ∈ distinctPaths rows cond n) :
    ∃ r ∈ rows, r.filePath = p ∧ cond p = true ∧ p ≠ "" := by
  obtain ⟨hmem, hne⟩ := List.mem_filter.mp h
  obtain ⟨hmem, hcond⟩ := List.mem_filter.mp (List.mem_eraseDups.mp (List.mem_of_mem_take hmem))
  obtain ⟨r, hr, rfl⟩ := List.mem_map.mp hmem
  exact ⟨r, hr, rfl, hcond, by simpa using hne⟩

/-- A row that comes first in the table is in the answer. -/
theorem distinctPaths_cons {r : SymbolRow} (hn : 0 < n) (hcond : cond r.filePath = true) (hne : r.filePath ≠ "") :
    r.filePath ∈ distinctPaths (r :: rows) cond n := by
  obtain ⟨m, rfl⟩ : ∃ m, n = m + 1 := ⟨n - 1, by omega⟩
  unfold distinctPaths
  rw [List.map_cons, List.filter_cons_of_pos hcond, List.eraseDups_cons, List.take_succ_cons,
    List.filter_cons_of_pos (by simpa using hne)]
  exact List.mem_cons_self

/-- **A law of distinct paths** holds in every order of the table exactly when every matching row obeys it. -/
theorem distinctPaths_law_iff (law : String → Prop) (hn : 0 < n) :
    (∀ scan : List SymbolRow, scan.Perm rows → ∀ p ∈ distinctPaths scan cond n, law p) ↔
      ∀ r ∈ rows, r.filePath ≠ "" → cond r.filePath = true → law r.filePath := by
  constructor
  · intro h r hr hne hcond
    obtain ⟨u, v, rfl⟩ := List.append_of_mem hr
    exact h (r :: (u ++ v)) List.perm_middle.symm _ (distinctPaths_cons hn hcond hne)
  · intro h scan hscan p hp
    obtain ⟨r, hr, rfl, hcond, hne⟩ := mem_distinctPaths hp
    exact h r (hscan.subset hr) hne hcond

/-- **The loop** returns the answer of the first attempt that some row meets. -/
theorem firstAnswer_eq (hn : 0 < n) (conds : List (SymbolRow → Bool)) :
    firstAnswer rows n conds =
      ((conds.find? fun cond => rows.any cond).map fun cond => selectByLine rows cond n).getD [] := by
  induction conds with
  | nil => rfl
  | cons cond conds ih =>
    have hlength : (selectByLine rows cond n).length > 0 ↔ rows.any cond = true := by
      unfold selectByLine
      rw [gt_iff_lt, List.length_take, List.length_insertionSort, lt_min_iff, and_iff_right hn, List.length_filter_pos_iff,
        List.any_eq_true]
    unfold firstAnswer
    dsimp only
    cases hany : rows.any cond with
    | true =>
      rw [if_pos (hlength.mpr hany), List.find?_cons_of_pos (by exact hany)]
      rfl
    | false =>
      rw [if_neg fun h => by rw [hlength, hany] at h; exact absurd h (by simp), List.find?_cons_of_neg (by simp [hany]), ih]

theorem metAttempt_perm (h : scan.Perm rows) (filePath : String) : metAttempt scan filePath = metAttempt rows filePath := by
  unfold metAttempt
  congr 1
  funext cond
  exact h.any_eq

/-- **What the loop can return**, over all orders of the table. -/
theorem canShow_iff {filePath : String} {r : SymbolRow} (hn : 0 < n) :
    (∃ scan : List SymbolRow, scan.Perm rows ∧ r ∈ firstAnswer scan n (pathAttempts filePath)) ↔
      CanShow rows filePath n r := by
  have hanswer : ∀ scan : List SymbolRow, scan.Perm rows → firstAnswer scan n (pathAttempts filePath) =
      ((metAttempt rows filePath).map fun cond => selectByLine scan cond n).getD [] := by
    intro scan hscan
    rw [firstAnswer_eq hn, ← metAttempt_perm hscan]
    rfl
  cases hmet : metAttempt rows filePath with
  | none =>
    refine iff_of_false ?_ ?_
    · rintro ⟨scan, hscan, hr⟩
      rw [hanswer scan hscan, hmet] at hr
      exact absurd hr List.not_mem_nil
    · rintro ⟨-, cond, hcond, -⟩
      rw [hmet] at hcond
      exact absurd hcond (by simp)
  | some cond =>
    have hkept : (∃ m : List SymbolRow, m.Perm (rows.filter cond) ∧
        r ∈ (m.insertionSort fun a b => a.startLine ≤ b.startLine).take n) ↔
          r ∈ rows.filter cond ∧ (rows.filter cond).countP (fun r' => r'.startLine < r.startLine) < n :=
      List.exists_perm_kept_iff
    constructor
    · rintro ⟨scan, hscan, hr⟩
      rw [hanswer scan hscan, hmet] at hr
      obtain ⟨hmem, hfew⟩ := hkept.mp ⟨scan.filter cond, hscan.filter cond, hr⟩
      obtain ⟨hmem, hcond⟩ := List.mem_filter.mp hmem
      exact ⟨hmem, cond, hmet, hcond, hfew⟩
    · rintro ⟨hmem, cond', hcond', hr, hfew⟩
      obtain rfl := Option.some.inj (hmet.symm.trans hcond')
      obtain ⟨m, hm, hr⟩ := hkept.mpr ⟨List.mem_filter.mpr ⟨hmem, hr⟩, hfew⟩
      -- the rows that do not match may stay where they are
      have hscan : (m ++ rows.filter fun r => !cond r).Perm rows :=
        (hm.append_right _).trans (List.filter_append_perm cond rows)
      refine ⟨m ++ rows.filter fun r => !cond r, hscan, ?_⟩
      have hselect : (m ++ rows.filter fun r => !cond r).filter cond = m := by
        rw [List.filter_append, List.filter_eq_self.mpr fun x hx => (List.mem_filter.mp (hm.subset hx)).2,
          List.filter_eq_nil_iff.mpr (fun x hx => by simpa using (List.mem_filter.mp hx).2), List.append_nil]
      rw [hanswer _ hscan, hmet]
      change r ∈ selectByLine _ cond n
      unfold selectByLine
      rwa [hselect]

end Orders

/-! ### Literal answers -/

section Literal

variable {T : CaseTables} {rows : List SymbolRow}

/-- A wider test counts as much as a narrower one when it finds nothing else. -/
theorem countP_eq_iff {α : Type} {wide narrow : α → Bool} {l : List α} (h : ∀ x, narrow x = true → wide x = true) :
    l.countP wide = l.countP narrow ↔ ∀ x ∈ l, wide x = true → narrow x = true := by
  have hsub : (l.filter narrow).Sublist (l.filter wide) := List.monotone_filter_right l h
  rw [List.countP_eq_length_filter, List.countP_eq_length_filter]
  constructor
  · intro heq x hx hwide
    have hmem : x ∈ l.filter wide := List.mem_filter.mpr ⟨hx, hwide⟩
    rw [← hsub.eq_of_length heq.symm] at hmem
    exact (List.mem_filter.mp hmem).2
  · intro hall
    refine congrArg List.length (List.filter_congr fun x hx => Bool.eq_iff_iff.mpr ?_)
    exact ⟨hall x hx, h x⟩

theorem nameHits_iff (term : String) :
    nameHits T rows term = rows.countP (fun r => decide (Contains (T.toLowerCase term) (sqlLower r.name))) ↔
      (term = "" → rows = []) ∧ ∀ r ∈ rows, NoStray (T.toLowerCase term) (sqlLower r.name) := by
  unfold nameHits
  split_ifs with hterm
  · subst hterm
    have hall : ∀ text, Contains (T.toLowerCase "") text := fun text => List.nil_infix
    have hcount : rows.countP (fun r => decide (Contains (T.toLowerCase "") (sqlLower r.name))) = rows.length :=
      List.countP_eq_length.mpr fun r _ => decide_eq_true (hall _)
    have hstray : ∀ r ∈ rows, NoStray (T.toLowerCase "") (sqlLower r.name) := fun r _ v _ _ => hall _
    rw [hcount, and_iff_left hstray, imp_iff_right rfl, eq_comm, List.length_eq_zero_iff]
  · rw [and_iff_right fun h => absurd h hterm, countP_eq_iff fun r h => like_of_contains (of_decide_eq_true h)]
    simp only [noStray_iff, decide_eq_true_eq]

theorem relatedFiles_iff (keyword : String) (limit : ℤ) :
    (∀ scan : List SymbolRow, scan.Perm rows → ∀ p ∈ relatedFiles T scan keyword limit,
        Contains (T.toLowerCase keyword) (sqlLower p)) ↔
      ∀ r ∈ rows, r.filePath ≠ "" → NoStray (T.toLowerCase keyword) (sqlLower r.filePath) := by
  unfold relatedFiles
  split_ifs with hkey
  · subst hkey
    exact iff_of_true (fun scan _ p hp => absurd hp List.not_mem_nil) fun r _ _ v _ _ => List.nil_infix
  · rw [distinctPaths_law_iff (fun p => Contains (T.toLowerCase keyword) (sqlLower p)) (limitOr_pos limit (by decide))]
    simp only [noStray_iff]

theorem siblings_iff (filePath : String) (limit : ℤ) :
    (∀ scan : List SymbolRow, scan.Perm rows → ∀ p ∈ siblings scan filePath limit, DirectlyIn (dirOf filePath) p) ↔
      ('/' ∈ filePath.toList → ∀ r ∈ rows, ∀ v name, r.filePath.toList = v ++ '/' :: name →
        FillsDir (dirOf filePath) v name → v = (dirOf filePath).toList) := by
  unfold siblings
  split_ifs with hslash
  · rw [distinctPaths_law_iff (DirectlyIn (dirOf filePath)) (limitOr_pos limit (by decide)), imp_iff_right hslash]
    refine forall₂_congr fun r _ => ?_
    constructor
    · intro h v name hpath hfills
      have hne : r.filePath ≠ "" := by
        intro hempty
        rw [hempty] at hpath
        exact absurd hpath (by simp)
      exact (directlyIn_iff hpath hfills.last).mp (h hne (sibling_iff.mpr ⟨v, name, hpath, hfills⟩))
    · intro h _ hlike
      obtain ⟨v, name, hpath, hfills⟩ := sibling_iff.mp hlike
      exact (directlyIn_iff hpath hfills.last).mpr (h v name hpath hfills)
  · exact iff_of_true (fun scan _ p hp => absurd hp List.not_mem_nil) fun h => absurd h hslash

theorem searchByPath_iff (texts : Texts) (repoPath filePath : String) (limit : ℤ) :
    (∀ scan : List SymbolRow, scan.Perm rows → ∀ res ∈ searchByPath texts repoPath scan filePath limit,
        Contains filePath res.filePath) ↔
      ∀ r, CanShow rows filePath (limitOr limit 20) r → Contains filePath r.filePath := by
  have hlimit : 0 < limitOr limit 20 := limitOr_pos limit (by decide)
  unfold searchByPath
  split_ifs with hempty
  · subst hempty
    exact iff_of_true (fun scan _ p hp => absurd hp List.not_mem_nil) fun r _ => List.nil_infix
  · constructor
    · intro h r hr
      obtain ⟨scan, hscan, hmem⟩ := (canShow_iff hlimit).mpr hr
      exact h scan hscan _ (List.mem_map_of_mem hmem)
    · intro h scan hscan res hres
      obtain ⟨r, hr, rfl⟩ := List.mem_map.mp hres
      exact h r ((canShow_iff hlimit).mp ⟨scan, hscan, hr⟩)

end Literal

/-- **Literal lookups.** A name is counted by what it contains exactly when the term is not empty and no name strays;
and, in every order of the table, the related files contain the keyword exactly when no path strays, the siblings lie in
the directory exactly when no other directory comes out of it, and a path search finds what contains the path exactly
when each row that it can show does. -/
theorem lookups_literal_iff (T : CaseTables) (rows : List SymbolRow) :
    (∀ term, nameHits T rows term =
        rows.countP (fun r => decide (Contains (T.toLowerCase term) (sqlLower r.name))) ↔
      (term = "" → rows = []) ∧ ∀ r ∈ rows, NoStray (T.toLowerCase term) (sqlLower r.name)) ∧
    (∀ keyword limit, (∀ scan : List SymbolRow, scan.Perm rows → ∀ p ∈ relatedFiles T scan keyword limit,
        Contains (T.toLowerCase keyword) (sqlLower p)) ↔
      ∀ r ∈ rows, r.filePath ≠ "" → NoStray (T.toLowerCase keyword) (sqlLower r.filePath)) ∧
    (∀ filePath limit, (∀ scan : List SymbolRow, scan.Perm rows → ∀ p ∈ siblings scan filePath limit,
        DirectlyIn (dirOf filePath) p) ↔
      ('/' ∈ filePath.toList → ∀ r ∈ rows, ∀ v name, r.filePath.toList = v ++ '/' :: name →
        FillsDir (dirOf filePath) v name → v = (dirOf filePath).toList)) ∧
    ∀ texts repoPath filePath limit, (∀ scan : List SymbolRow, scan.Perm rows →
        ∀ res ∈ searchByPath texts repoPath scan filePath limit, Contains filePath res.filePath) ↔
      ∀ r, CanShow rows filePath (limitOr limit 20) r → Contains filePath r.filePath :=
  ⟨nameHits_iff, relatedFiles_iff, siblings_iff, searchByPath_iff⟩

/-- Two functions whose names and files differ in one character. -/
def userRows : List SymbolRow :=
  [⟨"n1", "function", "get_user", "get_user", "src/api_v1/get_user.go", 3, 9, none⟩,
    ⟨"n2", "function", "getXuser", "getXuser", "src/apiXv1/getXuser.go", 3, 9, none⟩]

/-- **An underscore is any character**: the name is counted twice, and the files of the other directory are answered. -/
theorem userRows_stray :
    nameHits latinTables userRows "get_user" = 2 ∧
    userRows.countP (fun r => decide (Contains "get_user" (sqlLower r.name))) = 1 ∧
    relatedFiles latinTables userRows "get_user" 0 = ["src/api_v1/get_user.go", "src/apiXv1/getXuser.go"] ∧
    siblings userRows "src/api_v1/list.go" 0 = ["src/api_v1/get_user.go", "src/apiXv1/getXuser.go"] ∧
    (searchByPath (fun _ => none) "/src" userRows "t_user.go" 0).map (·.filePath) =
      ["src/api_v1/get_user.go", "src/apiXv1/getXuser.go"] := by
  decide +kernel

end Devrouter.Codegraph
