import Mathlib.Algebra.BigOperators.Group.List.Basic
import Devrouter.Router.Plan

/-!
# The words of a query on both sides

Model of `splitQueryWords` and `stemTerm` in `src/codegraph/lib/handlers.js`, the sidecar's port of
`SplitQueryWords` in `internal/codegraph/client.go`. Go measures words in bytes and JavaScript in UTF-16 code
units; the two have different white space, and `toLowerCase` maps two letters by their context or to two
characters.

A query is a text of Unicode characters. `terms_eq_iff` says for which queries the two read the same terms.
-/

namespace Devrouter.Codegraph

/-! ### Text in JavaScript -/

/-- `\s` in a regular expression. -/
def jsIsSpace (c : Char) : Bool :=
  c.toNat ∈ [0x9, 0xa, 0xb, 0xc, 0xd, 0x20, 0xa0, 0x1680, 0x2028, 0x2029, 0x202f, 0x205f, 0x3000, 0xfeff] ||
    decide (0x2000 ≤ c.toNat ∧ c.toNat ≤ 0x200a)

/-- UTF-16 code units. -/
def codeUnits (c : Char) : ℕ := if c.toNat < 0x10000 then 1 else 2

/-- The size of a text, by the sizes of its characters. -/
def textSize (size : Char → ℕ) (s : String) : ℕ := (s.toList.map size).sum

/-- `length`. -/
def utf16Len (s : String) : ℕ := textSize codeUnits s

/-- Next line, which is white space for Go. -/
def nextLine : Char := '\u0085'

/-- The byte order mark, which is white space for JavaScript. -/
def byteOrderMark : Char := '\uFEFF'

/-- The case tables of Unicode: the simple mapping that both languages use, and the two properties that
`toLowerCase` looks at around a capital sigma. -/
structure CaseTables extends RuneLower where
  cased : Char → Bool
  caseIgnorable : Char → Bool
  dotted : toLower 'İ' = 'i'
  sigma : toLower 'Σ' = 'σ'
  mark : ∀ c, toLower c = byteOrderMark ↔ c = byteOrderMark
  units : ∀ c, codeUnits (toLower c) = codeUnits c

namespace CaseTables

variable (T : CaseTables)

/-- A sigma is final after a cased letter and before none; `before` is reversed. -/
def finalSigma (before after : List Char) : Bool :=
  (before.dropWhile T.caseIgnorable).head?.any T.cased && !(after.dropWhile T.caseIgnorable).head?.any T.cased

/-- `toLowerCase`, after the characters `before`. -/
def lowerFrom : List Char → List Char → List Char
  | _, [] => []
  | before, c :: after =>
    (if c = 'İ' then ['i', '\u0307']
      else if c = 'Σ' ∧ T.finalSigma before after = true then ['ς']
      else [T.toLower c]) ++ lowerFrom (c :: before) after

/-- `toLowerCase`. -/
def toLowerCase (s : String) : String := String.ofList (T.lowerFrom [] s.toList)

end CaseTables

/-! ### The sidecar's words -/

/-- The loop of `stemTerm`. -/
def stripStemBy (size : Char → ℕ) (w : String) : List String → String
  | [] => w
  | suf :: sufs =>
    match stripSuffix w suf with
    | none => stripStemBy size w sufs
    | some stripped =>
      let stripped :=
        if 6 ≤ textSize size stripped ∧ "ll".toList.isSuffixOf stripped.toList then
          String.ofList stripped.toList.dropLast
        else stripped
      if 4 ≤ textSize size stripped then stripped else stripStemBy size w sufs

/-- `stemTerm`, where texts are measured by `size`. -/
def stemBy (size : Char → ℕ) (w : String) : String :=
  if textSize size w ≤ 6 then w else stripStemBy size w stemSuffixes

def jsStemTerm (w : String) : String := stemBy codeUnits w

/-- `split(/\s+/)`; the empty texts at the ends are dropped by the loop. -/
def jsFields (q : String) : List String := ((q.toList.splitOnP jsIsSpace).filter (· ≠ [])).map String.ofList

/-- One round of the loop of `splitQueryWords`. -/
def jsQueryWord (T : CaseTables) (raw : String) : Option String :=
  let raw := trimCut termCut raw
  if utf16Len raw < 2 then none
  else if stopWords.contains (T.toLowerCase raw) then none
  else some (jsStemTerm (T.toLowerCase raw))

/-- The terms of the sidecar, before repetitions are dropped. -/
def jsTerms (T : CaseTables) (q : String) : List String := (jsFields q).filterMap (jsQueryWord T)

def jsSplitQueryWords (T : CaseTables) (q : String) : List String := (jsTerms T q).eraseDups

/-- The terms of Go, before repetitions are dropped. -/
def goTerms (L : RuneLower) (q : String) : List String := (textFields q).filterMap (queryWord L)

/-! ### Words that are read alike -/

/-- `toLowerCase` maps a character by its context, or to two. -/
def CaseTables.special (T : CaseTables) : List Char → List Char → Bool
  | _, [] => false
  | before, c :: after =>
    decide (c = 'İ') || (decide (c = 'Σ') && T.finalSigma before after) || special T (c :: before) after

/-- The suffix that is tried first. -/
def firstSuffix (w : String) : Option String := stemSuffixes.find? fun suf => suf.toList.isSuffixOf w.toList

/-- A word without its suffix. -/
def withoutSuffix (w suf : String) : String := String.ofList (w.toList.take (w.toList.length - suf.toList.length))

/-- Where a word ends in a suffix, its two lengths are on one side of the bounds `stemTerm` checks. -/
def StemsAlike (w : String) : Prop :=
  ∀ suf, firstSuffix w = some suf →
    (byteLen w ≤ 6 ∨ 6 < utf16Len w) ∧
    ¬ (suf = "ings" ∧ utf16Len w = 7 ∧ 7 < byteLen w) ∧
    ¬ ("ll".toList.isSuffixOf (withoutSuffix w suf).toList = true ∧ 6 < utf16Len w ∧
      utf16Len (withoutSuffix w suf) < 6 ∧ 6 ≤ byteLen (withoutSuffix w suf))

/-- A single character is ASCII or becomes a stop word; a longer word is mapped by the simple tables, and is
a stop word or has one stem. -/
def WordAlike (T : CaseTables) (raw : String) : Prop :=
  let t := trimCut termCut raw
  (utf16Len t < 2 ∧ (byteLen t < 2 ∨ stopWords.contains (T.lower t) = true)) ∨
    (2 ≤ utf16Len t ∧ T.special [] t.toList = false ∧
      (stopWords.contains (T.lower t) = true ∨ StemsAlike (T.lower t)))

/-- A field with a next line, which Go takes apart, has nothing else but punctuation. -/
def FieldAlike (T : CaseTables) (f : String) : Prop :=
  if nextLine ∈ f.toList then (trimCut termCut f).toList = [nextLine] else WordAlike T f

/-- No byte order mark, and the fields of JavaScript are read alike. -/
def QueryAlike (T : CaseTables) (q : String) : Prop :=
  byteOrderMark ∉ q.toList ∧ ∀ f ∈ jsFields q, FieldAlike T f

/-! ### Sizes -/

theorem textSize_append (size : Char → ℕ) (s t : String) : textSize size (s ++ t) = textSize size s + textSize size t := by
  unfold textSize
  rw [String.toList_append, List.map_append, List.sum_append]

theorem codeUnits_pos (c : Char) : 1 ≤ codeUnits c := by
  unfold codeUnits
  split_ifs <;> omega

/-- A character has no more code units than bytes. -/
theorem codeUnits_le_utf8Size (c : Char) : codeUnits c ≤ c.utf8Size := by
  have hval : c.toNat = c.val.toNat := rfl
  unfold codeUnits Char.utf8Size
  simp only [UInt32.le_iff_toNat_le, hval]
  split_ifs <;> simp_all
  omega

theorem utf16Len_le_byteLen (s : String) : utf16Len s ≤ byteLen s :=
  List.sum_le_sum fun c _ => codeUnits_le_utf8Size c

/-- The letters `stemTerm` takes away. -/
def stemLetters : List Char := ['s', 'i', 'n', 'g', 'e', 'r', 'd', 'l']

/-- A size by which each of those letters is one. -/
structure CountsLetters (size : Char → ℕ) : Prop where
  pos : ∀ c, 1 ≤ size c
  letters : stemLetters.all (fun c => size c == 1) = true

theorem countsLetters_codeUnits : CountsLetters codeUnits := ⟨codeUnits_pos, by decide⟩

theorem countsLetters_utf8Size : CountsLetters Char.utf8Size := ⟨fun c => c.utf8Size_pos, by decide⟩

variable {size : Char → ℕ}

theorem CountsLetters.length_le (h : CountsLetters size) (s : String) : s.toList.length ≤ textSize size s := by
  unfold textSize
  induction s.toList with
  | nil => exact Nat.zero_le _
  | cons c cs ih =>
    have hc := h.pos c
    rw [List.length_cons, List.map_cons, List.sum_cons]
    omega

/-! ### Stems -/

/-- A word that ends in a suffix. -/
theorem withoutSuffix_append {w suf : String} (h : suf.toList.isSuffixOf w.toList = true) :
    withoutSuffix w suf ++ suf = w := by
  obtain ⟨v, hv⟩ := List.isSuffixOf_iff_suffix.mp h
  rw [← String.toList_inj, String.toList_append, withoutSuffix, String.toList_ofList, ← hv, List.length_append,
    Nat.add_sub_cancel, List.take_left]

/-- Without a doubled `l` at its end. -/
def dropDoubled (size : Char → ℕ) (v : String) : String :=
  if 6 ≤ textSize size v ∧ "ll".toList.isSuffixOf v.toList then String.ofList v.toList.dropLast else v

theorem stripStemBy_cons (size : Char → ℕ) (w suf : String) (sufs : List String) :
    stripStemBy size w (suf :: sufs) =
      if suf.toList.isSuffixOf w.toList ∧ 4 ≤ textSize size (dropDoubled size (withoutSuffix w suf)) then
        dropDoubled size (withoutSuffix w suf)
      else stripStemBy size w sufs := by
  unfold dropDoubled withoutSuffix
  rw [stripStemBy]
  unfold stripSuffix
  by_cases hsuf : suf.toList.isSuffixOf w.toList = true
  · simp only [hsuf, true_and]
    rfl
  · simp only [hsuf]
    rfl

/-- What `stemTerm` takes away. -/
theorem dropDoubled_append (size : Char → ℕ) (v : String) :
    ∃ r, v = dropDoubled size v ++ r ∧ ∀ c ∈ r.toList, c = 'l' := by
  unfold dropDoubled
  split_ifs with h
  · obtain ⟨u, hu⟩ := List.isSuffixOf_iff_suffix.mp h.2
    refine ⟨"l", ?_, fun c hc => List.mem_singleton.mp hc⟩
    rw [← String.toList_inj, String.toList_append, String.toList_ofList, ← hu]
    simp
  · exact ⟨"", (String.append_empty).symm, fun c hc => absurd hc List.not_mem_nil⟩

theorem CountsLetters.textSize_eq (h : CountsLetters size) {s : String}
    (hs : s.toList.all stemLetters.contains = true) : textSize size s = s.toList.length := by
  unfold textSize
  have hone : s.toList.map size = List.replicate s.toList.length 1 := by
    refine List.eq_replicate_iff.mpr ⟨List.length_map .., fun n hn => ?_⟩
    obtain ⟨c, hc, rfl⟩ := List.mem_map.mp hn
    have hletter : c ∈ stemLetters := List.contains_iff_mem.mp (List.all_eq_true.mp hs c hc)
    exact eq_of_beq (List.all_eq_true.mp h.letters c hletter)
  rw [hone, List.sum_replicate_nat, Nat.mul_one]

/-- The suffixes are made of those letters, and are no longer than four. -/
theorem mem_stemSuffixes {suf : String} (h : suf ∈ stemSuffixes) :
    suf.toList.all stemLetters.contains = true ∧ 1 ≤ suf.toList.length ∧ suf.toList.length ≤ 4 ∧
      (suf ≠ "ings" → suf.toList.length ≤ 3) := by
  have hall : ∀ suf ∈ stemSuffixes, suf.toList.all stemLetters.contains = true ∧ 1 ≤ suf.toList.length ∧
      suf.toList.length ≤ 4 ∧ (suf ≠ "ings" → suf.toList.length ≤ 3) := by decide
  exact hall suf h

theorem firstSuffix_eq_some {w suf : String} (h : firstSuffix w = some suf) :
    suf ∈ stemSuffixes ∧ suf.toList.isSuffixOf w.toList = true :=
  ⟨List.mem_of_find?_eq_some h, List.find?_some (p := fun suf : String => suf.toList.isSuffixOf w.toList) h⟩

theorem CountsLetters.textSize_withoutSuffix (h : CountsLetters size) {w suf : String}
    (hsuf : firstSuffix w = some suf) :
    textSize size (withoutSuffix w suf) + suf.toList.length = textSize size w := by
  obtain ⟨hmem, hends⟩ := firstSuffix_eq_some hsuf
  have hsplit := textSize_append size (withoutSuffix w suf) suf
  rw [withoutSuffix_append hends, h.textSize_eq (mem_stemSuffixes hmem).1] at hsplit
  exact hsplit.symm

theorem CountsLetters.textSize_dropDoubled (h : CountsLetters size) {v : String} (hv : 4 ≤ textSize size v) :
    4 ≤ textSize size (dropDoubled size v) := by
  by_cases hll : 6 ≤ textSize size v ∧ "ll".toList.isSuffixOf v.toList
  · have hsplit : dropDoubled size v ++ "l" = v := by
      unfold dropDoubled
      rw [if_pos hll]
      obtain ⟨u, hu⟩ := List.isSuffixOf_iff_suffix.mp hll.2
      rw [← String.toList_inj, String.toList_append, String.toList_ofList, ← hu]
      simp
    have hsize := textSize_append size (dropDoubled size v) "l"
    have hone : textSize size "l" = 1 := h.textSize_eq (by decide)
    rw [hsplit, hone] at hsize
    omega
  · unfold dropDoubled
    rwa [if_neg hll]

/-! ### What the stem is -/

theorem stripStemBy_of_find {w suf : String} {sufs : List String}
    (hfind : (sufs.find? fun suf => suf.toList.isSuffixOf w.toList) = some suf)
    (h : 4 ≤ textSize size (dropDoubled size (withoutSuffix w suf))) :
    stripStemBy size w sufs = dropDoubled size (withoutSuffix w suf) := by
  induction sufs with
  | nil => exact absurd hfind (by simp)
  | cons suf' sufs ih =>
    rw [stripStemBy_cons]
    by_cases hsuf : suf'.toList.isSuffixOf w.toList = true
    · rw [List.find?_cons_of_pos (by exact hsuf)] at hfind
      obtain rfl := Option.some.inj hfind
      rw [if_pos ⟨hsuf, h⟩]
    · rw [List.find?_cons_of_neg (by exact hsuf)] at hfind
      rw [if_neg fun hand => hsuf hand.1]
      exact ih hfind

theorem stripStemBy_of_none {w : String} {sufs : List String}
    (hfind : (sufs.find? fun suf => suf.toList.isSuffixOf w.toList) = none) : stripStemBy size w sufs = w := by
  induction sufs with
  | nil => rfl
  | cons suf sufs ih =>
    rw [List.find?_eq_none] at hfind
    rw [stripStemBy_cons, if_neg fun hand => hfind suf List.mem_cons_self hand.1]
    exact ih (List.find?_eq_none.mpr fun suf' h => hfind suf' (List.mem_cons_of_mem _ h))

theorem stemBy_of_le {w : String} (h : textSize size w ≤ 6) : stemBy size w = w := if_pos h

theorem stemBy_of_none {w : String} (h : firstSuffix w = none) : stemBy size w = w := by
  unfold stemBy
  rw [stripStemBy_of_none h, ite_self]

/-- The first suffix is stripped. -/
theorem CountsLetters.stemBy_of_some (h : CountsLetters size) {w suf : String} (hw : 6 < textSize size w)
    (hsuf : firstSuffix w = some suf) (hlong : ¬ (suf = "ings" ∧ textSize size w = 7)) :
    stemBy size w = dropDoubled size (withoutSuffix w suf) := by
  have hsize := h.textSize_withoutSuffix hsuf
  obtain ⟨-, -, hfour, hthree⟩ := mem_stemSuffixes (firstSuffix_eq_some hsuf).1
  unfold stemBy
  rw [if_neg (not_le.mpr hw)]
  refine stripStemBy_of_find hsuf (h.textSize_dropDoubled ?_)
  by_cases hings : suf = "ings"
  · have hne : textSize size w ≠ 7 := fun heq => hlong ⟨hings, heq⟩
    omega
  · have := hthree hings
    omega

/-- Of a word of seven with `ings`, only the `s` is stripped. -/
theorem CountsLetters.stemBy_ings (h : CountsLetters size) {w : String} (hw : textSize size w = 7)
    (hsuf : firstSuffix w = some "ings") : stemBy size w = withoutSuffix w "s" := by
  have hsize := h.textSize_withoutSuffix hsuf
  have hends := (firstSuffix_eq_some hsuf).2
  have hfour : "ings".toList.length = 4 := by decide
  have hdrop : dropDoubled size (withoutSuffix w "ings") = withoutSuffix w "ings" := by
    unfold dropDoubled
    rw [if_neg (by omega)]
  obtain ⟨v, hv⟩ := List.isSuffixOf_iff_suffix.mp hends
  have hrev : w.toList.reverse = 's' :: 'g' :: 'n' :: 'i' :: v.reverse := by
    rw [← hv]
    simp
  have hs : (withoutSuffix w "s").toList = v ++ ['i', 'n', 'g'] := by
    have hw' : w.toList = (v ++ ['i', 'n', 'g']) ++ ['s'] := by
      rw [← hv, List.append_assoc]
      rfl
    have hone : "s".toList.length = ['s'].length := rfl
    rw [withoutSuffix, String.toList_ofList, hw', hone, List.length_append, Nat.add_sub_cancel, List.take_left]
  have hends' : "s".toList.isSuffixOf w.toList = true := by
    rw [List.isSuffixOf, hrev]
    rfl
  have hsize' : textSize size (withoutSuffix w "s") = 6 := by
    have hsplit := textSize_append size (withoutSuffix w "s") "s"
    have hone : textSize size "s" = 1 := h.textSize_eq (by decide)
    rw [withoutSuffix_append hends', hone] at hsplit
    omega
  -- it ends in a `g`, so nothing is doubled
  have hplain : dropDoubled size (withoutSuffix w "s") = withoutSuffix w "s" := by
    unfold dropDoubled
    rw [if_neg]
    rintro ⟨-, hll⟩
    rw [hs, List.isSuffixOf, List.reverse_append] at hll
    exact absurd hll (by simp)
  have hfind : (["ing", "ers", "ed", "es", "s"].find? fun suf => suf.toList.isSuffixOf w.toList) = some "s" := by
    simp only [List.isSuffixOf, hrev]
    rfl
  unfold stemBy stemSuffixes
  rw [if_neg (by omega), stripStemBy_cons, hdrop, if_neg (by omega), stripStemBy_of_find hfind (by rw [hplain]; omega),
    hplain]

/-! ### The two stems -/

theorem stemTerm_eq_stemBy (w : String) : stemTerm w = stemBy Char.utf8Size w := by
  have hloop : ∀ sufs, stripStem w sufs = stripStemBy Char.utf8Size w sufs := by
    intro sufs
    induction sufs with
    | nil => rfl
    | cons suf sufs ih =>
      unfold stripStem stripStemBy
      rw [ih]
      rfl
  unfold stemTerm stemBy
  rw [hloop]
  rfl

theorem length_withoutSuffix {w suf : String} (h : suf.toList.isSuffixOf w.toList = true) :
    (withoutSuffix w suf).toList.length + suf.toList.length = w.toList.length := by
  rw [← List.length_append, ← String.toList_append, withoutSuffix_append h]

theorem length_dropDoubled_le (size : Char → ℕ) (v : String) :
    (dropDoubled size v).toList.length ≤ v.toList.length := by
  unfold dropDoubled
  split_ifs
  · rw [String.toList_ofList, List.length_dropLast]
    exact Nat.sub_le _ _
  · exact le_rfl

/-- A long word with a suffix is shortened. -/
theorem CountsLetters.length_stemBy_lt (h : CountsLetters size) {w suf : String} (hw : 6 < textSize size w)
    (hsuf : firstSuffix w = some suf) : (stemBy size w).toList.length < w.toList.length := by
  obtain ⟨hmem, hends⟩ := firstSuffix_eq_some hsuf
  by_cases hings : suf = "ings" ∧ textSize size w = 7
  · obtain ⟨rfl, hseven⟩ := hings
    rw [h.stemBy_ings hseven hsuf]
    unfold withoutSuffix
    rw [String.toList_ofList, List.length_take]
    have hlength := length_withoutSuffix hends
    have hfour : "ings".toList.length = 4 := by decide
    have hone : "s".toList.length = 1 := by decide
    omega
  · rw [h.stemBy_of_some hw hsuf hings]
    have hle := length_dropDoubled_le size (withoutSuffix w suf)
    have hlength := length_withoutSuffix hends
    have hpos := (mem_stemSuffixes hmem).2.1
    omega

/-- A doubled `l` is dropped by both sizes or by none. -/
theorem dropDoubled_eq_iff {size' : Char → ℕ} {v : String} (hle : textSize size v ≤ textSize size' v) :
    dropDoubled size v = dropDoubled size' v ↔
      ¬ ("ll".toList.isSuffixOf v.toList = true ∧ textSize size v < 6 ∧ 6 ≤ textSize size' v) := by
  unfold dropDoubled
  by_cases hll : "ll".toList.isSuffixOf v.toList = true
  · -- a doubled letter that is dropped makes the word shorter
    have hne : v ≠ String.ofList v.toList.dropLast := by
      intro heq
      obtain ⟨u, hu⟩ := List.isSuffixOf_iff_suffix.mp hll
      have hlength := congrArg (List.length ∘ String.toList) heq
      simp only [Function.comp_apply, String.toList_ofList, List.length_dropLast, ← hu, List.length_append] at hlength
      have htwo : "ll".toList.length = 2 := by decide
      omega
    simp only [hll, and_true, true_and]
    split_ifs with h h'
    · exact iff_of_true rfl (by omega)
    · omega
    · exact iff_of_false hne (by omega)
    · exact iff_of_true rfl (by omega)
  · rw [if_neg fun h => hll h.2, if_neg fun h => hll h.2]
    exact iff_of_true rfl fun h => hll h.1

/-- **Stems.** A word has one stem on both sides exactly when its two lengths do not separate it. -/
theorem jsStemTerm_eq_iff (w : String) : jsStemTerm w = stemTerm w ↔ StemsAlike w := by
  have hjs := countsLetters_codeUnits
  have hgo := countsLetters_utf8Size
  have hle : utf16Len w ≤ byteLen w := utf16Len_le_byteLen w
  rw [stemTerm_eq_stemBy]
  unfold jsStemTerm
  cases hsuf : firstSuffix w with
  | none =>
    refine iff_of_true ?_ fun suf h => absurd (hsuf.symm.trans h) (by simp)
    rw [stemBy_of_none hsuf, stemBy_of_none hsuf]
  | some suf =>
    have halike : StemsAlike w ↔ (byteLen w ≤ 6 ∨ 6 < utf16Len w) ∧
        ¬ (suf = "ings" ∧ utf16Len w = 7 ∧ 7 < byteLen w) ∧
        ¬ ("ll".toList.isSuffixOf (withoutSuffix w suf).toList = true ∧ 6 < utf16Len w ∧
          utf16Len (withoutSuffix w suf) < 6 ∧ 6 ≤ byteLen (withoutSuffix w suf)) := by
      refine ⟨fun h => h suf hsuf, fun h suf' hsuf' => ?_⟩
      obtain rfl := Option.some.inj (hsuf.symm.trans hsuf')
      exact h
    rw [halike]
    have hjsSize : utf16Len (withoutSuffix w suf) + suf.toList.length = utf16Len w := hjs.textSize_withoutSuffix hsuf
    have hgoSize : byteLen (withoutSuffix w suf) + suf.toList.length = byteLen w := hgo.textSize_withoutSuffix hsuf
    by_cases hbyte : byteLen w ≤ 6
    · -- short by both
      rw [stemBy_of_le (hle.trans hbyte), stemBy_of_le hbyte]
      exact iff_of_true rfl ⟨.inl hbyte, by omega, by omega⟩
    by_cases hunit : utf16Len w ≤ 6
    · -- long in bytes only
      rw [stemBy_of_le hunit]
      refine iff_of_false (fun heq => ?_) (by omega)
      have hlt := hgo.length_stemBy_lt (not_le.mp hbyte) hsuf
      rw [← heq] at hlt
      exact lt_irrefl _ hlt
    rw [not_le] at hbyte hunit
    by_cases hings : suf = "ings" ∧ utf16Len w = 7
    · obtain ⟨rfl, hseven⟩ := hings
      have hfour : "ings".toList.length = 4 := by decide
      rw [hjs.stemBy_ings hseven hsuf]
      by_cases hbyte' : byteLen w = 7
      · rw [hgo.stemBy_ings hbyte' hsuf]
        exact iff_of_true rfl ⟨.inr hunit, by omega, by omega⟩
      · -- `ings` is too much for the units and not for the bytes
        rw [hgo.stemBy_of_some hbyte hsuf fun h => hbyte' h.2]
        refine iff_of_false (fun heq => ?_) fun h => h.2.1 ⟨rfl, hseven, by omega⟩
        have hlength := length_withoutSuffix (firstSuffix_eq_some hsuf).2
        have hshort := length_dropDoubled_le Char.utf8Size (withoutSuffix w "ings")
        have hlong : (withoutSuffix w "s").toList.length = w.toList.length - 1 := by
          unfold withoutSuffix
          rw [String.toList_ofList, List.length_take]
          exact min_eq_left (Nat.sub_le _ _)
        rw [← heq, hlong] at hshort
        omega
    · have hings' : ¬ (suf = "ings" ∧ byteLen w = 7) := fun h => hings ⟨h.1, by omega⟩
      rw [hjs.stemBy_of_some hunit hsuf hings, hgo.stemBy_of_some hbyte hsuf hings',
        dropDoubled_eq_iff (utf16Len_le_byteLen _)]
      constructor
      · intro h
        exact ⟨.inr hunit, fun h' => hings ⟨h'.1, h'.2.1⟩, fun h' => h ⟨h'.1, h'.2.2⟩⟩
      · intro h h'
        exact h.2.2 ⟨h'.1, hunit, h'.2⟩

/-! ### What a stem keeps -/

/-- A stem is the word without some of the letters at its end. -/
theorem stemBy_append (size : Char → ℕ) (w : String) :
    ∃ r, w = stemBy size w ++ r ∧ r.toList.all stemLetters.contains = true := by
  have hself : ∃ r, w = w ++ r ∧ r.toList.all stemLetters.contains = true := ⟨"", String.append_empty.symm, rfl⟩
  -- each suffix is made of letters, so what is stripped is
  have hloop : ∀ sufs : List String, (∀ suf ∈ sufs, suf.toList.all stemLetters.contains = true) →
      ∃ r, w = stripStemBy size w sufs ++ r ∧ r.toList.all stemLetters.contains = true := by
    intro sufs hsufs
    induction sufs with
    | nil => exact hself
    | cons suf sufs ih =>
      rw [stripStemBy_cons]
      split_ifs with h
      · obtain ⟨r, hr, hl⟩ := dropDoubled_append size (withoutSuffix w suf)
        refine ⟨r ++ suf, ?_, ?_⟩
        · rw [← String.append_assoc, ← hr, withoutSuffix_append h.1]
        · rw [String.toList_append, List.all_append, hsufs suf List.mem_cons_self, Bool.and_true, List.all_eq_true]
          intro c hc
          rw [hl c hc]
          rfl
      · exact ih fun suf' h' => hsufs suf' (List.mem_cons_of_mem _ h')
  unfold stemBy
  split_ifs
  · exact hself
  · exact hloop stemSuffixes fun suf h => (mem_stemSuffixes h).1

/-- Other characters stay. -/
theorem countP_stemBy {p : Char → Bool} (hp : stemLetters.all (fun c => !p c) = true) (size : Char → ℕ) (w : String) :
    (stemBy size w).toList.countP p = w.toList.countP p := by
  obtain ⟨r, hr, hletters⟩ := stemBy_append size w
  have hnone : r.toList.countP p = 0 := by
    rw [List.countP_eq_zero]
    intro c hc
    have hletter : c ∈ stemLetters := List.contains_iff_mem.mp (List.all_eq_true.mp hletters c hc)
    simpa using List.all_eq_true.mp hp c hletter
  conv_rhs => rw [hr]
  rw [String.toList_append, List.countP_append, hnone, Nat.add_zero]

theorem mem_stemBy_iff {c : Char} (hc : c ∉ stemLetters) (size : Char → ℕ) (w : String) :
    c ∈ (stemBy size w).toList ↔ c ∈ w.toList := by
  obtain ⟨r, hr, hletters⟩ := stemBy_append size w
  have hrest : c ∉ r.toList := fun h => hc (List.contains_iff_mem.mp (List.all_eq_true.mp hletters c h))
  conv_rhs => rw [hr]
  rw [String.toList_append, List.mem_append, or_iff_left hrest]

/-- A stem is the word, or it is of size four. -/
theorem stemBy_eq_or (size : Char → ℕ) (w : String) : stemBy size w = w ∨ 4 ≤ textSize size (stemBy size w) := by
  have hloop : ∀ sufs, stripStemBy size w sufs = w ∨ 4 ≤ textSize size (stripStemBy size w sufs) := by
    intro sufs
    induction sufs with
    | nil => exact .inl rfl
    | cons suf sufs ih =>
      rw [stripStemBy_cons]
      split_ifs with h
      · exact .inr h.2
      · exact ih
  unfold stemBy
  split_ifs
  · exact .inl rfl
  · exact hloop stemSuffixes

/-! ### Lower case -/

section Lower

variable {T : CaseTables}

/-- The characters that only `toLowerCase` makes. -/
def isMark (c : Char) : Bool := c == '̇' || c == 'ς'

/-- Where nothing is special, `toLowerCase` maps each character. -/
theorem lowerFrom_of_plain {before cs : List Char} (h : T.special before cs = false) :
    T.lowerFrom before cs = cs.map T.toLower := by
  induction cs generalizing before with
  | nil => rfl
  | cons c cs ih =>
    rw [CaseTables.special, Bool.or_eq_false_iff, Bool.or_eq_false_iff, Bool.and_eq_false_iff] at h
    obtain ⟨⟨hdotted, hsigma⟩, hrest⟩ := h
    have hnot : ¬ (c = 'Σ' ∧ T.finalSigma before cs = true) := by
      rintro ⟨rfl, hfinal⟩
      obtain hsigma | hsigma := hsigma
      · exact absurd rfl (of_decide_eq_false hsigma)
      · exact absurd (hfinal.symm.trans hsigma) (by simp)
    rw [CaseTables.lowerFrom, if_neg (of_decide_eq_false hdotted), if_neg hnot, ih hrest]
    rfl

/-- It makes no fewer marks, and more where something is special. -/
theorem countP_lowerFrom (before cs : List Char) :
    (cs.map T.toLower).countP isMark ≤ (T.lowerFrom before cs).countP isMark ∧
      (T.special before cs = true → (cs.map T.toLower).countP isMark < (T.lowerFrom before cs).countP isMark) := by
  induction cs generalizing before with
  | nil => exact ⟨le_rfl, fun h => absurd h (by simp [CaseTables.special])⟩
  | cons c cs ih =>
    obtain ⟨hle, hlt⟩ := ih (c :: before)
    rw [CaseTables.lowerFrom, List.countP_append, List.map_cons, List.countP_cons, CaseTables.special]
    by_cases hdotted : c = 'İ'
    · -- a dotted capital gains a mark
      subst hdotted
      have hmarks : ['i', '̇'].countP isMark = 1 := by decide
      have hnone : isMark 'i' = false := by decide
      rw [if_pos rfl, T.dotted, hmarks, hnone]
      simp only [Bool.false_eq_true, if_false]
      omega
    · rw [if_neg hdotted]
      by_cases hsigma : c = 'Σ' ∧ T.finalSigma before cs = true
      · -- and a final sigma becomes one
        obtain ⟨rfl, hfinal⟩ := hsigma
        have hmarks : ['ς'].countP isMark = 1 := by decide
        have hnone : isMark 'σ' = false := by decide
        rw [T.sigma, hnone, if_pos (⟨rfl, hfinal⟩ : 'Σ' = 'Σ' ∧ T.finalSigma before cs = true), hmarks]
        simp only [Bool.false_eq_true, if_false]
        omega
      · rw [if_neg hsigma, List.countP_singleton]
        have hplain : (decide (c = 'İ') || (decide (c = 'Σ') && T.finalSigma before cs)) = false := by
          simpa [hdotted] using hsigma
        rw [hplain, Bool.false_or]
        exact ⟨by omega, fun h => by have := hlt h; omega⟩

theorem toLowerCase_of_plain {w : String} (h : T.special [] w.toList = false) : T.toLowerCase w = T.lower w := by
  unfold CaseTables.toLowerCase RuneLower.lower
  rw [lowerFrom_of_plain h]

theorem countP_lower_lt {w : String} (h : T.special [] w.toList = true) :
    (T.lower w).toList.countP isMark < (T.toLowerCase w).toList.countP isMark := by
  unfold CaseTables.toLowerCase RuneLower.lower
  rw [String.toList_ofList, String.toList_ofList]
  exact (countP_lowerFrom [] w.toList).2 h

/-- `toLowerCase` does not make a text shorter. -/
theorem utf16Len_le_toLowerCase (w : String) : utf16Len w ≤ utf16Len (T.toLowerCase w) := by
  have hfrom : ∀ before cs : List Char, (cs.map codeUnits).sum ≤ ((T.lowerFrom before cs).map codeUnits).sum := by
    intro before cs
    induction cs generalizing before with
    | nil => exact le_rfl
    | cons c cs ih =>
      have hrest := ih (c :: before)
      rw [CaseTables.lowerFrom, List.map_append, List.sum_append, List.map_cons, List.sum_cons]
      split_ifs with hdotted hsigma
      · -- one rune may become two, and none becomes none
        have htwo : (['i', '̇'].map codeUnits).sum = 2 := by decide
        have hone : codeUnits c ≤ 2 := by
          unfold codeUnits
          split_ifs <;> omega
        omega
      · have hone : (['ς'].map codeUnits).sum = codeUnits c := by
          rw [hsigma.1]
          decide
        omega
      · have hsame : ([T.toLower c].map codeUnits).sum = codeUnits c := by
          rw [List.map_singleton, List.sum_singleton, T.units]
        omega
  unfold CaseTables.toLowerCase utf16Len textSize
  rw [String.toList_ofList]
  exact hfrom [] w.toList

/-- No stop word has a mark. -/
theorem countP_stopWords {w : String} (h : stopWords.contains w = true) : w.toList.countP isMark = 0 := by
  have hall : ∀ w ∈ stopWords, w.toList.countP isMark = 0 := by decide
  exact hall w (List.contains_iff_mem.mp h)

theorem countP_stem (size : Char → ℕ) (w : String) : (stemBy size w).toList.countP isMark = w.toList.countP isMark :=
  countP_stemBy (by decide) size w

/-- **A word** gives the same term, or none, on both sides exactly when it is read alike. -/
theorem word_eq_iff (raw : String) : queryWord T.toRuneLower raw = jsQueryWord T raw ↔ WordAlike T raw := by
  unfold queryWord jsQueryWord WordAlike
  dsimp only
  set t := trimCut termCut raw with ht
  have hle : utf16Len t ≤ byteLen t := utf16Len_le_byteLen t
  by_cases hunit : utf16Len t < 2
  · -- the sidecar drops it for its length
    rw [if_pos hunit]
    have hgo : (if byteLen t < 2 then none
        else if stopWords.contains (T.lower t) = true then none else some (stemTerm (T.lower t))) = none ↔
        byteLen t < 2 ∨ stopWords.contains (T.lower t) = true := by
      split_ifs <;> simp_all
    rw [hgo]
    constructor
    · exact fun h => .inl ⟨hunit, h⟩
    · rintro (h | h)
      · exact h.2
      · exact absurd h.1 (by omega)
  · rw [if_neg hunit, if_neg (by omega : ¬ byteLen t < 2)]
    by_cases hspecial : T.special [] t.toList = true
    · -- the marks tell the two terms apart
      have hmarks := countP_lower_lt hspecial
      have hnotStop : ¬ stopWords.contains (T.toLowerCase t) = true := by
        intro h
        have hzero := countP_stopWords h
        omega
      rw [if_neg hnotStop]
      refine iff_of_false (fun heq => ?_) ?_
      · split_ifs at heq
        have hstems := congrArg (fun w : String => w.toList.countP isMark) (Option.some.inj heq)
        rw [stemTerm_eq_stemBy, jsStemTerm, countP_stem, countP_stem] at hstems
        omega
      · rintro (h | h)
        · exact hunit h.1
        · exact absurd (hspecial.symm.trans h.2.1) (by simp)
    · rw [Bool.not_eq_true] at hspecial
      rw [toLowerCase_of_plain hspecial]
      by_cases hstop : stopWords.contains (T.lower t) = true
      · rw [if_pos hstop, if_pos hstop]
        exact iff_of_true rfl (.inr ⟨by omega, hspecial, .inl hstop⟩)
      · rw [if_neg hstop, if_neg hstop, Option.some_inj, eq_comm, jsStemTerm_eq_iff]
        constructor
        · exact fun h => .inr ⟨by omega, hspecial, .inr h⟩
        · rintro (h | h)
          · exact absurd h.1 hunit
          · exact h.2.2.resolve_left hstop

/-- A term of the sidecar has two code units. -/
theorem two_le_of_jsQueryWord {raw t : String} (h : jsQueryWord T raw = some t) : 2 ≤ utf16Len t := by
  unfold jsQueryWord at h
  dsimp only at h
  split_ifs at h with hunit
  obtain rfl := Option.some.inj h
  have hlower := utf16Len_le_toLowerCase (T := T) (trimCut termCut raw)
  obtain heq | hfour := stemBy_eq_or codeUnits (T.toLowerCase (trimCut termCut raw))
  · rw [jsStemTerm, heq]
    omega
  · have hfour' : 4 ≤ utf16Len (jsStemTerm (T.toLowerCase (trimCut termCut raw))) := hfour
    omega

/-- A word that only Go keeps is a single character. -/
theorem utf16Len_of_goOnly {raw t : String} (h : queryWord T.toRuneLower raw = some t) (hjs : jsQueryWord T raw = none) :
    utf16Len t < 2 := by
  unfold queryWord at h
  unfold jsQueryWord at hjs
  dsimp only at h hjs
  split_ifs at h with hbyte hstop
  obtain rfl := Option.some.inj h
  split_ifs at hjs with hunit hstop'
  · -- lowering keeps the length, and a stem is not longer
    have hlower : utf16Len (T.lower (trimCut termCut raw)) = utf16Len (trimCut termCut raw) := by
      unfold utf16Len textSize
      rw [T.lower_toList, List.map_map]
      exact congrArg List.sum (List.map_congr_left fun c _ => T.units c)
    obtain ⟨r, hr, -⟩ := stemBy_append Char.utf8Size (T.lower (trimCut termCut raw))
    have hsplit := textSize_append codeUnits (stemBy Char.utf8Size (T.lower (trimCut termCut raw))) r
    rw [← hr] at hsplit
    rw [stemTerm_eq_stemBy]
    unfold utf16Len at hlower hunit ⊢
    omega
  · have hzero := countP_stopWords hstop'
    have hplain : T.special [] (trimCut termCut raw).toList = false := by
      rw [← Bool.not_eq_true]
      intro hspecial
      have hlt := countP_lower_lt hspecial
      omega
    rw [toLowerCase_of_plain hplain] at hstop'
    exact absurd hstop' hstop

/-! ### What the terms are made of -/

theorem mem_lowerFrom {before cs : List Char} {d : Char} (h : d ∈ T.lowerFrom before cs) :
    d = 'i' ∨ isMark d = true ∨ ∃ c ∈ cs, d = T.toLower c := by
  induction cs generalizing before with
  | nil => exact absurd h List.not_mem_nil
  | cons c cs ih =>
    rw [CaseTables.lowerFrom, List.mem_append] at h
    obtain h | h := h
    · split_ifs at h
      · obtain rfl | h := List.mem_cons.mp h
        · exact .inl rfl
        · rw [List.mem_singleton.mp h]
          exact .inr (.inl rfl)
      · rw [List.mem_singleton.mp h]
        exact .inr (.inl rfl)
      · exact .inr (.inr ⟨c, List.mem_cons_self, List.mem_singleton.mp h⟩)
    · obtain h | h | ⟨c', hc', h⟩ := ih h
      · exact .inl h
      · exact .inr (.inl h)
      · exact .inr (.inr ⟨c', List.mem_cons_of_mem _ hc', h⟩)

/-- A character that is not special is mapped. -/
theorem toLower_mem_lowerFrom {before cs : List Char} {c : Char} (hc : c ∈ cs) (hdotted : c ≠ 'İ') (hsigma : c ≠ 'Σ') :
    T.toLower c ∈ T.lowerFrom before cs := by
  induction cs generalizing before with
  | nil => exact absurd hc List.not_mem_nil
  | cons c' cs ih =>
    rw [CaseTables.lowerFrom, List.mem_append]
    obtain rfl | hc := List.mem_cons.mp hc
    · rw [if_neg hdotted, if_neg fun h => hsigma h.1]
      exact .inl (List.mem_singleton_self _)
    · exact .inr (ih hc)

/-- The two characters that are white space on one side only. -/
def Foreign (c : Char) : Prop := c = nextLine ∨ c = byteOrderMark

theorem toLower_foreign {c d : Char} (hd : Foreign d) : T.toLower c = d ↔ c = d := by
  obtain rfl | rfl := hd
  · exact T.caseless c nextLine (.inl (by decide))
  · exact T.mark c

/-- Nothing else is made of one of them, and none of them is lost. -/
theorem foreign_facts {d : Char} (hd : Foreign d) :
    d ≠ 'i' ∧ isMark d = false ∧ d ≠ 'İ' ∧ d ≠ 'Σ' ∧ d ∉ stemLetters ∧ termCut.contains d = false ∧
      stopWords.all (fun w => !w.toList.contains d) = true := by
  obtain rfl | rfl := hd
  · decide
  · decide

theorem foreign_mem_trim {d : Char} (hd : Foreign d) {raw : String} :
    d ∈ (trimCut termCut raw).toList ↔ d ∈ raw.toList := by
  rw [trimCut_toList]
  constructor
  · exact List.mem_of_mem_trimWhile
  · intro h
    refine (List.mem_trimWhile_or h).resolve_right ?_
    rw [(foreign_facts hd).2.2.2.2.2.1]
    simp

theorem not_stop_of_foreign {d : Char} (hd : Foreign d) {w : String} (hw : d ∈ w.toList) :
    ¬ stopWords.contains w = true := by
  intro hstop
  have hall := List.all_eq_true.mp (foreign_facts hd).2.2.2.2.2.2 w (List.contains_iff_mem.mp hstop)
  simp [hw] at hall

theorem foreign_mem_toLowerCase {d : Char} (hd : Foreign d) {w : String} :
    d ∈ (T.toLowerCase w).toList ↔ d ∈ w.toList := by
  obtain ⟨hi, hmark, hdotted, hsigma, -⟩ := foreign_facts hd
  unfold CaseTables.toLowerCase
  rw [String.toList_ofList]
  constructor
  · intro h
    obtain h | h | ⟨c, hc, h⟩ := mem_lowerFrom h
    · exact absurd h hi
    · exact absurd (hmark.symm.trans h) (by simp)
    · rwa [← (toLower_foreign hd).mp h.symm]
  · intro h
    have hmem : T.toLower d ∈ T.lowerFrom [] w.toList := toLower_mem_lowerFrom h hdotted hsigma
    rwa [(toLower_foreign hd).mpr rfl] at hmem

theorem foreign_mem_lower {d : Char} (hd : Foreign d) {w : String} : d ∈ (T.lower w).toList ↔ d ∈ w.toList := by
  rw [T.lower_toList, List.mem_map]
  constructor
  · rintro ⟨c, hc, h⟩
    rwa [← (toLower_foreign hd).mp h]
  · exact fun h => ⟨d, h, (toLower_foreign hd).mpr rfl⟩

/-- A term has one of them exactly when its word has. -/
theorem foreign_mem_jsQueryWord {d : Char} (hd : Foreign d) {raw t : String} (h : jsQueryWord T raw = some t) :
    d ∈ t.toList ↔ d ∈ raw.toList := by
  unfold jsQueryWord at h
  dsimp only at h
  split_ifs at h
  obtain rfl := Option.some.inj h
  rw [jsStemTerm, mem_stemBy_iff (foreign_facts hd).2.2.2.2.1, foreign_mem_toLowerCase hd, foreign_mem_trim hd]

theorem foreign_mem_queryWord {d : Char} (hd : Foreign d) {raw t : String} (h : queryWord T.toRuneLower raw = some t) :
    d ∈ t.toList ↔ d ∈ raw.toList := by
  unfold queryWord at h
  dsimp only at h
  split_ifs at h
  obtain rfl := Option.some.inj h
  rw [stemTerm_eq_stemBy, mem_stemBy_iff (foreign_facts hd).2.2.2.2.1, foreign_mem_lower hd, foreign_mem_trim hd]

/-! ### Fields -/

/-- The two notions of white space, but for the byte order mark. -/
theorem goIsSpace_eq {c : Char} (hc : c ≠ byteOrderMark) : goIsSpace c = (jsIsSpace c || c == nextLine) := by
  have hmark : c.toNat ≠ 0xfeff := by
    intro h
    exact hc (Char.ext (UInt32.toNat_inj.mp h))
  have hnext : (c == nextLine) = decide (c.toNat = 0x85) := by
    rw [Bool.eq_iff_iff, beq_iff_eq, decide_eq_true_eq]
    exact ⟨fun h => h ▸ rfl, fun h => Char.ext (UInt32.toNat_inj.mp h)⟩
  unfold goIsSpace jsIsSpace
  rw [hnext, Bool.eq_iff_iff]
  simp only [List.mem_cons, List.not_mem_nil, or_false, Bool.or_eq_true, decide_eq_true_eq]
  omega

/-- What Go makes of a field of the sidecar. -/
def goParts (f : String) : List String :=
  ((f.toList.splitOnP (· == nextLine)).filter (· ≠ [])).map String.ofList

/-- Without byte order marks, Go takes the fields of the sidecar apart at next lines. -/
theorem textFields_eq {q : String} (h : byteOrderMark ∉ q.toList) : textFields q = (jsFields q).flatMap goParts := by
  have hsplit : q.toList.splitOnP goIsSpace = (q.toList.splitOnP jsIsSpace).flatMap (List.splitOnP (· == nextLine)) := by
    rw [← List.splitOnP_or]
    exact List.splitOnP_congr fun c hc => goIsSpace_eq fun heq => h (heq ▸ hc)
  have hfilter : ∀ fs : List (List Char),
      ((fs.flatMap (List.splitOnP (· == nextLine))).filter (· ≠ [])).map String.ofList =
        ((fs.filter (· ≠ [])).map String.ofList).flatMap goParts := by
    intro fs
    induction fs with
    | nil => rfl
    | cons f fs ih =>
      rw [List.flatMap_cons, List.filter_append, List.map_append, ih]
      cases f with
      | nil => rfl
      | cons c cs =>
        rw [List.filter_cons_of_pos (by simp), List.map_cons, List.flatMap_cons, goParts, String.toList_ofList]
  unfold textFields jsFields
  rw [hsplit, hfilter]

theorem ne_nil_of_mem_jsFields {q f : String} (h : f ∈ jsFields q) : f.toList ≠ [] := by
  obtain ⟨cs, hcs, rfl⟩ := List.mem_map.mp h
  rw [String.toList_ofList]
  simpa using (List.mem_filter.mp hcs).2

theorem byteOrderMark_notMem_jsFields {q f : String} (h : f ∈ jsFields q) : byteOrderMark ∉ f.toList := by
  obtain ⟨cs, hcs, rfl⟩ := List.mem_map.mp h
  rw [String.toList_ofList]
  intro hmem
  exact absurd (List.not_of_mem_splitOnP (List.mem_filter.mp hcs).1 byteOrderMark hmem) (by decide)

/-- A field without next lines is one for Go. -/
theorem goParts_of_notMem {f : String} (hne : f.toList ≠ []) (h : nextLine ∉ f.toList) : goParts f = [f] := by
  have hsplit : f.toList.splitOnP (· == nextLine) = [f.toList] := by
    refine List.splitOnP_eq_singleton fun c hc => ?_
    rw [beq_eq_false_iff_ne]
    rintro rfl
    exact h hc
  unfold goParts
  rw [hsplit, List.filter_cons_of_pos (by simpa using hne)]
  simp

/-- A next line among punctuation is dropped by both. -/
theorem nextLine_dropped {f : String} (h : (trimCut termCut f).toList = [nextLine]) :
    (goParts f).filterMap (queryWord T.toRuneLower) = [] ∧ jsQueryWord T f = none := by
  -- whatever is not a next line is trimmed as punctuation
  have hcut : ∀ c ∈ f.toList, c = nextLine ∨ termCut.contains c = true := by
    intro c hc
    rw [trimCut_toList] at h
    exact (List.mem_trimWhile_or hc).imp_left fun hmem => List.mem_singleton.mp (h ▸ hmem)
  constructor
  · rw [List.filterMap_eq_nil_iff]
    intro part hpart
    obtain ⟨cs, hcs, rfl⟩ := List.mem_map.mp hpart
    -- Go splits at the next line, and nothing of the parts is left
    have hall : ∀ c ∈ cs, termCut.contains c = true := by
      intro c hc
      have hmem : c ∈ f.toList := List.mem_of_mem_splitOnP (List.mem_filter.mp hcs).1 hc
      refine (hcut c hmem).resolve_left ?_
      rintro rfl
      exact absurd (List.not_of_mem_splitOnP (List.mem_filter.mp hcs).1 nextLine hc) (by decide)
    have htrim : trimCut termCut (String.ofList cs) = "" := by
      rw [← String.toList_inj, trimCut_toList, String.toList_ofList, List.trimWhile_eq_nil hall]
      rfl
    unfold queryWord
    rw [htrim]
    rfl
  · -- JavaScript does not split there, but a single rune is too short for a word
    have hlen : utf16Len (trimCut termCut f) < 2 := by
      unfold utf16Len textSize
      rw [h]
      decide
    unfold jsQueryWord
    exact if_pos hlen

/-- Any other field with a next line is a term of the sidecar that has one. -/
theorem nextLine_kept {f : String} (hmem : nextLine ∈ f.toList) (h : (trimCut termCut f).toList ≠ [nextLine]) :
    ∃ t, jsQueryWord T f = some t ∧ nextLine ∈ t.toList := by
  have hforeign : Foreign nextLine := .inl rfl
  have htrim : nextLine ∈ (trimCut termCut f).toList := (foreign_mem_trim hforeign).mpr hmem
  -- something stands beside the next line, so the word is long enough
  have hlength : 2 ≤ (trimCut termCut f).toList.length := by
    by_contra hcon
    have hone : (trimCut termCut f).toList.length = 1 := by
      have hpos := List.length_pos_of_mem htrim
      omega
    obtain ⟨c, hc⟩ := List.length_eq_one_iff.mp hone
    rw [hc] at htrim h
    rw [List.mem_singleton.mp htrim] at h
    exact h rfl
  have hunit : ¬ utf16Len (trimCut termCut f) < 2 := by
    have hle : (trimCut termCut f).toList.length ≤ utf16Len (trimCut termCut f) :=
      countsLetters_codeUnits.length_le _
    omega
  have hstop : ¬ stopWords.contains (T.toLowerCase (trimCut termCut f)) = true :=
    not_stop_of_foreign hforeign ((foreign_mem_toLowerCase hforeign).mpr htrim)
  have hword : jsQueryWord T f = some (jsStemTerm (T.toLowerCase (trimCut termCut f))) := by
    unfold jsQueryWord
    dsimp only
    rw [if_neg hunit, if_neg hstop]
  exact ⟨_, hword, (foreign_mem_jsQueryWord hforeign hword).mpr hmem⟩

/-- A field of Go with a byte order mark is a term that has one. -/
theorem byteOrderMark_kept {f : String} (hmem : byteOrderMark ∈ f.toList) :
    ∃ t, queryWord T.toRuneLower f = some t ∧ byteOrderMark ∈ t.toList := by
  have hforeign : Foreign byteOrderMark := .inr rfl
  have htrim : byteOrderMark ∈ (trimCut termCut f).toList := (foreign_mem_trim hforeign).mpr hmem
  have hbyte : ¬ byteLen (trimCut termCut f) < 2 := by
    have hle : Char.utf8Size byteOrderMark ≤ byteLen (trimCut termCut f) :=
      List.single_le_sum (by simp) _ (List.mem_map_of_mem htrim)
    have hthree : Char.utf8Size byteOrderMark = 3 := by decide
    omega
  have hstop : ¬ stopWords.contains (T.lower (trimCut termCut f)) = true :=
    not_stop_of_foreign hforeign ((foreign_mem_lower hforeign).mpr htrim)
  have hword : queryWord T.toRuneLower f = some (stemTerm (T.lower (trimCut termCut f))) := by
    unfold queryWord
    dsimp only
    rw [if_neg hbyte, if_neg hstop]
  exact ⟨_, hword, (foreign_mem_queryWord hforeign hword).mpr hmem⟩

/-! ### Queries -/

/-- No term of Go has a next line. -/
theorem nextLine_notMem_goTerms {q t : String} (h : t ∈ goTerms T.toRuneLower q) : nextLine ∉ t.toList := by
  obtain ⟨f, hf, hword⟩ := List.mem_filterMap.mp h
  rw [foreign_mem_queryWord (.inl rfl) hword]
  obtain ⟨cs, hcs, rfl⟩ := List.mem_map.mp hf
  rw [String.toList_ofList]
  intro hmem
  exact absurd (List.not_of_mem_splitOnP (List.mem_filter.mp hcs).1 nextLine hmem) (by decide)

/-- No term of the sidecar has a byte order mark. -/
theorem byteOrderMark_notMem_jsTerms {q t : String} (h : t ∈ jsTerms T q) : byteOrderMark ∉ t.toList := by
  obtain ⟨f, hf, hword⟩ := List.mem_filterMap.mp h
  rw [foreign_mem_jsQueryWord (.inr rfl) hword]
  exact byteOrderMark_notMem_jsFields hf

/-- Equal terms leave no byte order mark in the query. -/
theorem byteOrderMark_notMem_of_eq {q : String} (h : goTerms T.toRuneLower q = jsTerms T q) :
    byteOrderMark ∉ q.toList := by
  intro hmem
  obtain ⟨cs, hcs, hmem⟩ := List.exists_mem_splitOnP hmem (q := goIsSpace) (by decide)
  obtain ⟨t, hword, ht⟩ := byteOrderMark_kept (T := T) (f := String.ofList cs) (by rwa [String.toList_ofList])
  have hfield : String.ofList cs ∈ textFields q := by
    refine List.mem_map_of_mem (List.mem_filter.mpr ⟨hcs, ?_⟩)
    simpa using List.ne_nil_of_mem hmem
  have hterm : t ∈ goTerms T.toRuneLower q := List.mem_filterMap.mpr ⟨_, hfield, hword⟩
  exact byteOrderMark_notMem_jsTerms (h ▸ hterm) ht

/-- Two ways to read a list agree when one reads something wherever the other does and they read as much. -/
theorem filterMap_eq_iff {β γ : Type} {a b : β → Option γ} {l : List β} (h : ∀ x ∈ l, b x = none → a x = none) :
    l.filterMap a = l.filterMap b ↔ ∀ x ∈ l, a x = b x := by
  have hle : ∀ {l : List β}, (∀ x ∈ l, b x = none → a x = none) → (l.filterMap a).length ≤ (l.filterMap b).length := by
    intro l h
    induction l with
    | nil => exact le_rfl
    | cons x l ih =>
      have hrest := ih fun y hy => h y (List.mem_cons_of_mem _ hy)
      cases hb : b x with
      | none =>
        rw [List.filterMap_cons_none (h x List.mem_cons_self hb), List.filterMap_cons_none hb]
        exact hrest
      | some t =>
        rw [List.filterMap_cons_some hb, List.length_cons]
        cases ha : a x with
        | none =>
          rw [List.filterMap_cons_none ha]
          exact Nat.le_succ_of_le hrest
        | some s =>
          rw [List.filterMap_cons_some ha, List.length_cons]
          exact Nat.succ_le_succ hrest
  constructor
  · intro heq
    induction l with
    | nil => exact fun x hx => absurd hx List.not_mem_nil
    | cons x l ih =>
      have htail : ∀ y ∈ l, b y = none → a y = none := fun y hy => h y (List.mem_cons_of_mem _ hy)
      refine List.forall_mem_cons.mpr ?_
      cases hb : b x with
      | none =>
        have ha := h x List.mem_cons_self hb
        rw [List.filterMap_cons_none ha, List.filterMap_cons_none hb] at heq
        exact ⟨ha, ih htail heq⟩
      | some t =>
        rw [List.filterMap_cons_some hb] at heq
        cases ha : a x with
        | none =>
          -- one term is missing, and the rest cannot make up for it
          rw [List.filterMap_cons_none ha] at heq
          have hlength := hle htail
          rw [heq, List.length_cons] at hlength
          omega
        | some s =>
          rw [List.filterMap_cons_some ha] at heq
          obtain ⟨rfl, hrest⟩ := List.cons.inj heq
          exact ⟨rfl, ih htail hrest⟩
  · exact List.filterMap_congr

/-- What Go reads of a field of the sidecar, when next lines stand among punctuation only. -/
def goField (T : CaseTables) (f : String) : Option String :=
  if nextLine ∈ f.toList then none else queryWord T.toRuneLower f

theorem goTerms_eq {q : String} (hmark : byteOrderMark ∉ q.toList)
    (hnext : ∀ f ∈ jsFields q, nextLine ∈ f.toList → (trimCut termCut f).toList = [nextLine]) :
    goTerms T.toRuneLower q = (jsFields q).filterMap (goField T) := by
  have hfield : ∀ f ∈ jsFields q, (goParts f).filterMap (queryWord T.toRuneLower) = (goField T f).toList := by
    intro f hf
    unfold goField
    by_cases hmem : nextLine ∈ f.toList
    · rw [if_pos hmem, (nextLine_dropped (hnext f hf hmem)).1]
      rfl
    · rw [if_neg hmem, goParts_of_notMem (ne_nil_of_mem_jsFields hf) hmem]
      cases hword : queryWord T.toRuneLower f with
      | none => rw [List.filterMap_cons_none hword]; rfl
      | some t => rw [List.filterMap_cons_some hword]; rfl
  unfold goTerms
  rw [textFields_eq hmark, List.filterMap_flatMap, List.flatMap_congr hfield, ← List.filterMap_eq_flatMap_toList]

/-- **The terms** of a query are the same on both sides exactly when it is read alike. -/
theorem terms_eq_iff (T : CaseTables) (q : String) : goTerms T.toRuneLower q = jsTerms T q ↔ QueryAlike T q := by
  constructor
  · intro heq
    have hmark := byteOrderMark_notMem_of_eq heq
    have hnext : ∀ f ∈ jsFields q, nextLine ∈ f.toList → (trimCut termCut f).toList = [nextLine] := by
      intro f hf hmem
      by_contra hcon
      obtain ⟨t, hword, ht⟩ := nextLine_kept (T := T) hmem hcon
      have hterm : t ∈ jsTerms T q := List.mem_filterMap.mpr ⟨f, hf, hword⟩
      exact nextLine_notMem_goTerms (heq ▸ hterm) ht
    have hnone : ∀ f ∈ jsFields q, jsQueryWord T f = none → goField T f = none := by
      intro f hf hjs
      by_contra hgo
      obtain ⟨t, ht⟩ := Option.ne_none_iff_exists'.mp hgo
      have hterm : t ∈ jsTerms T q := by
        rw [← heq, goTerms_eq hmark hnext]
        exact List.mem_filterMap.mpr ⟨f, hf, ht⟩
      -- a term of the sidecar has two code units, one that only Go keeps has not
      obtain ⟨f', -, hword'⟩ := List.mem_filterMap.mp hterm
      have htwo := two_le_of_jsQueryWord hword'
      unfold goField at ht
      split_ifs at ht
      have hone := utf16Len_of_goOnly ht hjs
      omega
    rw [goTerms_eq hmark hnext] at heq
    have hwords := (filterMap_eq_iff hnone).mp heq
    refine ⟨hmark, fun f hf => ?_⟩
    unfold FieldAlike
    split_ifs with hmem
    · exact hnext f hf hmem
    · have hword := hwords f hf
      unfold goField at hword
      rw [if_neg hmem] at hword
      exact (word_eq_iff f).mp hword
  · rintro ⟨hmark, halike⟩
    have hnext : ∀ f ∈ jsFields q, nextLine ∈ f.toList → (trimCut termCut f).toList = [nextLine] := by
      intro f hf hmem
      have hfield := halike f hf
      unfold FieldAlike at hfield
      rwa [if_pos hmem] at hfield
    rw [goTerms_eq hmark hnext]
    refine List.filterMap_congr fun f hf => ?_
    have hfield := halike f hf
    unfold FieldAlike at hfield
    unfold goField
    split_ifs with hmem
    · exact (nextLine_dropped (hnext f hf hmem)).2.symm
    · rw [if_neg hmem] at hfield
      exact (word_eq_iff f).mpr hfield

/-- **Tokenising alike.** Queries that are read alike are tokenised alike, and no others are, unless a
repetition hides what was read differently. -/
theorem splitQueryWords_alike (T : CaseTables) (q : String) :
    (QueryAlike T q → splitQueryWords T.toRuneLower q = jsSplitQueryWords T q) ∧
      ((goTerms T.toRuneLower q).Nodup ∧ (jsTerms T q).Nodup →
        splitQueryWords T.toRuneLower q = jsSplitQueryWords T q → QueryAlike T q) := by
  have hsplit : splitQueryWords T.toRuneLower q = (goTerms T.toRuneLower q).eraseDups := rfl
  constructor
  · intro h
    rw [hsplit, (terms_eq_iff T q).mpr h]
    rfl
  · rintro ⟨hgo, hjs⟩ heq
    unfold jsSplitQueryWords at heq
    rw [hsplit, hgo.eraseDups_eq, hjs.eraseDups_eq] at heq
    exact (terms_eq_iff T q).mp heq

end Lower

/-! ### A word that is read differently -/

/-- The simple mapping, as far as ASCII, the dotted capital and the capital sigma go. -/
def simpleLower (c : Char) : Char := if c = 'İ' then 'i' else if c = 'Σ' then 'σ' else c.toLower

theorem simpleLower_cases (c : Char) :
    (c = 'İ' ∧ simpleLower c = 'i') ∨ (c = 'Σ' ∧ simpleLower c = 'σ') ∨
      (∃ n < 26, c = Char.ofNat (65 + n) ∧ simpleLower c = Char.ofNat (97 + n)) ∨ simpleLower c = c := by
  unfold simpleLower
  by_cases hdotted : c = 'İ'
  · exact .inl ⟨hdotted, if_pos hdotted⟩
  · rw [if_neg hdotted]
    by_cases hsigma : c = 'Σ'
    · exact .inr (.inl ⟨hsigma, if_pos hsigma⟩)
    · rw [if_neg hsigma]
      by_cases hcapital : ∃ n < 26, c = Char.ofNat (65 + n)
      · obtain ⟨n, hn, rfl⟩ := hcapital
        exact .inr (.inr (.inl ⟨n, hn, rfl, (toLower_capital n hn).1⟩))
      · exact .inr (.inr (.inr (toLower_of_not_capital hcapital)))

/-- What is known of the letters and their capitals. -/
theorem simpleLower_letter : ∀ n < 26, simpleLower (Char.ofNat (97 + n)) = Char.ofNat (97 + n) ∧
    Char.ofNat (65 + n) ≠ byteOrderMark ∧ Char.ofNat (97 + n) ≠ byteOrderMark ∧
      codeUnits (Char.ofNat (97 + n)) = codeUnits (Char.ofNat (65 + n)) := by decide

/-- Tables for texts in Latin letters and sigmas. -/
def latinTables : CaseTables where
  toLower := simpleLower
  idem c := by
    obtain ⟨-, h⟩ | ⟨-, h⟩ | ⟨n, hn, -, h⟩ | h := simpleLower_cases c
    · rw [h]; decide
    · rw [h]; decide
    · rw [h, (simpleLower_letter n hn).1]
    · rw [h, h]
  caseless c d hd := by
    obtain ⟨rfl, h⟩ | ⟨rfl, h⟩ | ⟨n, hn, rfl, -⟩ | h := simpleLower_cases c
    · rw [h]
      refine iff_of_false ?_ ?_
      · rintro rfl
        exact absurd hd (by decide)
      · rintro rfl
        exact absurd hd (by decide)
    · rw [h]
      refine iff_of_false ?_ ?_
      · rintro rfl
        exact absurd hd (by decide)
      · rintro rfl
        exact absurd hd (by decide)
    · have hascii : simpleLower (Char.ofNat (65 + n)) = asciiRunes.toLower (Char.ofNat (65 + n)) := by
        have hnot : ∀ n < 26, Char.ofNat (65 + n) ≠ 'İ' ∧ Char.ofNat (65 + n) ≠ 'Σ' := by decide
        unfold simpleLower
        rw [if_neg (hnot n hn).1, if_neg (hnot n hn).2]
        rfl
      rw [hascii]
      exact asciiRunes.caseless _ d hd
    · rw [h]
  cased c := c.isAlpha || c == 'Σ' || c == 'σ' || c == 'ς'
  caseIgnorable c := c == '\x27' || c == '.' || c == ':'
  dotted := by decide
  sigma := by decide
  mark c := by
    obtain ⟨rfl, h⟩ | ⟨rfl, h⟩ | ⟨n, hn, rfl, h⟩ | h := simpleLower_cases c
    · rw [h]; decide
    · rw [h]; decide
    · rw [h]
      exact iff_of_false (simpleLower_letter n hn).2.2.1 (simpleLower_letter n hn).2.1
    · rw [h]
  units c := by
    obtain ⟨rfl, h⟩ | ⟨rfl, h⟩ | ⟨n, hn, rfl, h⟩ | h := simpleLower_cases c
    · rw [h]; decide
    · rw [h]; decide
    · rw [h]
      exact (simpleLower_letter n hn).2.2.2
    · rw [h]

/-- Six letters, one of which is two bytes: Go strips a suffix, the sidecar does not. -/
theorem naives_tokens :
    splitQueryWords latinTables.toRuneLower "naïves" = ["naïv"] ∧ jsSplitQueryWords latinTables "naïves" = ["naïves"] ∧
      ¬ QueryAlike latinTables "naïves" := by
  have hgo : splitQueryWords latinTables.toRuneLower "naïves" = ["naïv"] := by decide +kernel
  have hjs : jsSplitQueryWords latinTables "naïves" = ["naïves"] := by decide +kernel
  refine ⟨hgo, hjs, fun h => ?_⟩
  have heq := (terms_eq_iff latinTables "naïves").mpr h
  have hsplit : splitQueryWords latinTables.toRuneLower "naïves" = jsSplitQueryWords latinTables "naïves" :=
    congrArg List.eraseDups heq
  rw [hgo, hjs] at hsplit
  exact absurd hsplit (by decide)

end Devrouter.Codegraph
