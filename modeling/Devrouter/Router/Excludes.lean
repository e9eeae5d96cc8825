import Devrouter.Codegraph.Tokens
import Devrouter.Router.FlowSnapshot

/-!
# Exclude terms at the three gates

Model of `shouldExclude` in `src/codegraph/lib/handlers.js`, the gate of the search, beside the two gates of
`internal/router/router.go`: `shouldExcludeGraphTarget` for edges and `shouldExcludeMemory` for memories.

The search knows three rules and applies them to any term: a file `_<term>.go`, a directory of the term or of
its plural, a name in which the term is a word of its own. The gates of the router know the terms `test`,
`mock` and `fixture` by their conventions and nothing of any other term. `exclude_gates` compares them for the
terms that `SanitizePlan` lets through: the router's gates are one gate but for `testdata`, they drop what the
search drops by a rule that is a convention of the term, and what they drop beyond the search has a longer word
as its name or a wider mark in its path.

JavaScript counts the name in UTF-16 code units and lowers two letters in its own way (`toLowerCase`); the terms
the router knows have neither of what these are lowered to. Punctuation can keep white space at the ends of a term
that survives; the router trims it, the search does not.
-/

namespace Devrouter

open Memory (contains)

namespace Codegraph

/-! ### The gate of the search -/

/-- The UTF-16 code units of a character. -/
def utf16Of (c : Char) : List ℕ :=
  if c.toNat < 0x10000 then [c.toNat]
  else [0xd800 + (c.toNat - 0x10000) / 0x400, 0xdc00 + (c.toNat - 0x10000) % 0x400]

/-- The UTF-16 code units of a text. -/
def utf16 (s : String) : List ℕ := s.toList.flatMap utf16Of

/-- `endsWith`. -/
def hasSuffix (s suf : String) : Bool := suf.toList.isSuffixOf s.toList

section Search

variable (T : CaseTables)

/-- The path ends in `_<term>.go`. -/
def suffixRule (filePath ex : String) : Bool := hasSuffix (T.toLowerCase filePath) ("_" ++ T.toLowerCase ex ++ ".go")

/-- The path has a directory of the term or of its plural. -/
def directoryRule (filePath ex : String) : Bool :=
  contains (T.toLowerCase filePath) ("/" ++ T.toLowerCase ex ++ "/") ||
    contains (T.toLowerCase filePath) ("/" ++ T.toLowerCase ex ++ "s/")

/-- The name begins with the term; it ends there, or goes on with a capital letter. -/
def nameRule (name ex : String) : Bool :=
  hasPrefix (T.toLowerCase name) (T.toLowerCase ex) &&
    match (utf16 name).drop (utf16Len (T.toLowerCase ex)) with
    | [] => true
    | first :: _ => decide (65 ≤ first ∧ first ≤ 90)

/-- `shouldExclude`. -/
def shouldExclude (filePath name : String) (excludes : List String) : Bool :=
  excludes.any fun ex =>
    decide (ex ≠ "") && (suffixRule T filePath ex || directoryRule T filePath ex || nameRule T name ex)

end Search

/-! ### Code units -/

theorem length_utf16Of (c : Char) : (utf16Of c).length = codeUnits c := by
  unfold utf16Of codeUnits
  split_ifs
  · rfl
  · rfl

theorem length_flatMap_utf16Of (cs : List Char) : (cs.flatMap utf16Of).length = (cs.map codeUnits).sum := by
  rw [List.length_flatMap]
  exact congrArg List.sum (List.map_congr_left fun c _ => length_utf16Of c)

/-- The first code unit of an ASCII capital letter is the letter. -/
theorem utf16Of_of_isUpper {c : Char} (h : c.isUpper = true) : utf16Of c = [c.toNat] ∧ 65 ≤ c.toNat ∧ c.toNat ≤ 90 := by
  have hrange : 65 ≤ c.toNat ∧ c.toNat ≤ 90 := by
    unfold Char.isUpper at h
    simp only [decide_eq_true_eq] at h
    exact ⟨UInt32.le_iff_toNat_le.mp h.1, UInt32.le_iff_toNat_le.mp h.2⟩
  refine ⟨?_, hrange⟩
  unfold utf16Of
  rw [if_pos (by omega)]

/-! ### Texts that both languages lower alike -/

/-- `toLowerCase` makes none of the text's characters where `unicode.ToLower` makes another: no mark, no final
sigma, and no `i` that a mark could follow. -/
structure Undotted (t : List Char) : Prop where
  no_mark : '\u0307' ∉ t
  no_final : 'ς' ∉ t
  last : t.getLast? ≠ some 'i'

instance (t : List Char) : Decidable (Undotted t) :=
  decidable_of_iff ('\u0307' ∉ t ∧ 'ς' ∉ t ∧ t.getLast? ≠ some 'i')
    ⟨fun h => ⟨h.1, h.2.1, h.2.2⟩, fun h => ⟨h.no_mark, h.no_final, h.last⟩⟩

section Lowered

variable {T : CaseTables}

theorem Undotted.tail {a : Char} {t : List Char} (h : Undotted (a :: t)) : Undotted t := by
  refine ⟨fun hm => h.no_mark (List.mem_cons_of_mem a hm), fun hm => h.no_final (List.mem_cons_of_mem a hm), ?_⟩
  cases t with
  | nil => simp
  | cons b t => simpa [List.getLast?_cons_cons] using h.last

/-- What a lowered text of JavaScript begins with, that of Go does. -/
theorem prefix_map_toLower {t : List Char} (ht : Undotted t) :
    ∀ {before cs : List Char}, t <+: T.lowerFrom before cs → t <+: cs.map T.toLower := by
  induction t with
  | nil => exact fun _ => List.nil_prefix
  | cons a t ih =>
    intro before cs h
    cases cs with
    | nil =>
      exact absurd (List.prefix_nil.mp h) (List.cons_ne_nil a t)
    | cons c cs =>
      rw [CaseTables.lowerFrom] at h
      split_ifs at h with hdotted hsigma
      · -- the dotted capital: the term would go on with a mark
        rw [List.cons_append, List.cons_prefix_cons] at h
        obtain ⟨rfl, h⟩ := h
        cases t with
        | nil => exact absurd rfl ht.last
        | cons b t =>
          rw [List.cons_append, List.cons_prefix_cons] at h
          exact absurd (h.1 ▸ List.mem_cons_of_mem _ List.mem_cons_self) ht.no_mark
      · rw [List.cons_append, List.cons_prefix_cons] at h
        exact absurd (h.1 ▸ List.mem_cons_self) ht.no_final
      · rw [List.cons_append, List.nil_append, List.cons_prefix_cons] at h
        rw [List.map_cons, List.cons_prefix_cons]
        exact ⟨h.1, ih ht.tail h.2⟩

/-- What a lowered text of JavaScript contains, that of Go does. -/
theorem infix_map_toLower {t : List Char} (ht : Undotted t) (hne : t ≠ []) {cs : List Char} :
    ∀ {before : List Char}, t <:+: T.lowerFrom before cs → t <:+: cs.map T.toLower := by
  induction cs with
  | nil => exact fun h => h
  | cons c cs ih =>
    intro before h
    -- the text begins at a character of the source, or further on: a mark begins nothing
    have hcases : t <+: T.lowerFrom before (c :: cs) ∨ t <:+: T.lowerFrom (c :: before) cs := by
      rw [CaseTables.lowerFrom] at h ⊢
      split_ifs at h ⊢ with hdotted hsigma
      · rw [List.cons_append, List.infix_cons_iff] at h
        obtain h | h := h
        · exact .inl h
        · rw [List.cons_append, List.infix_cons_iff] at h
          obtain h | h := h
          · obtain ⟨a, t, rfl⟩ := List.exists_cons_of_ne_nil hne
            rw [List.cons_prefix_cons] at h
            exact absurd (h.1 ▸ List.mem_cons_self) ht.no_mark
          · exact .inr h
      · exact List.infix_cons_iff.mp h
      · exact List.infix_cons_iff.mp h
    obtain h | h := hcases
    · exact (prefix_map_toLower ht h).isInfix
    · rw [List.map_cons]
      exact List.infix_cons_iff.mpr (.inr (ih h))

/-- Where no letter is lowered in JavaScript's own way, what the text of Go begins with, that of JavaScript
does. -/
theorem prefix_lowerFrom {t : List Char} (hdot : 'i' ∉ t) (hsigma : 'σ' ∉ t) :
    ∀ {before cs : List Char}, t <+: cs.map T.toLower → t <+: T.lowerFrom before cs := by
  induction t with
  | nil => exact fun _ => List.nil_prefix
  | cons a t ih =>
    intro before cs h
    cases cs with
    | nil => exact absurd (List.prefix_nil.mp h) (List.cons_ne_nil a t)
    | cons c cs =>
      rw [List.map_cons, List.cons_prefix_cons] at h
      obtain ⟨rfl, h⟩ := h
      rw [List.mem_cons, not_or] at hdot hsigma
      have hc : c ≠ 'İ' := fun hc => hdot.1 (by rw [hc, T.dotted])
      have hnot : ¬ (c = 'Σ' ∧ T.finalSigma before cs = true) := fun hc => hsigma.1 (by rw [hc.1, T.sigma])
      rw [CaseTables.lowerFrom, if_neg hc, if_neg hnot, List.cons_append, List.nil_append, List.cons_prefix_cons]
      exact ⟨rfl, ih hdot.2 hsigma.2 h⟩

/-- The same of what the text contains. -/
theorem infix_lowerFrom {t : List Char} (hdot : 'i' ∉ t) (hsigma : 'σ' ∉ t) {cs : List Char} :
    ∀ {before : List Char}, t <:+: cs.map T.toLower → t <:+: T.lowerFrom before cs := by
  induction cs with
  | nil => exact fun h => h
  | cons c cs ih =>
    intro before h
    rw [List.map_cons, List.infix_cons_iff] at h
    obtain h | h := h
    · exact (prefix_lowerFrom hdot hsigma (List.map_cons ▸ h)).isInfix
    · rw [CaseTables.lowerFrom]
      exact (ih h).trans (List.suffix_append _ _).isInfix

variable {s t : String}

theorem hasPrefix_lower (ht : Undotted t.toList) (h : hasPrefix (T.toLowerCase s) t = true) :
    hasPrefix (T.lower s) t = true := by
  unfold hasPrefix CaseTables.toLowerCase at h
  rw [String.toList_ofList, List.isPrefixOf_iff_prefix] at h
  unfold hasPrefix
  rw [T.lower_toList, List.isPrefixOf_iff_prefix]
  exact prefix_map_toLower ht h

theorem contains_lower (ht : Undotted t.toList) (hne : t.toList ≠ []) (h : contains (T.toLowerCase s) t = true) :
    contains (T.lower s) t = true := by
  have hinfix := of_decide_eq_true h
  unfold CaseTables.toLowerCase at hinfix
  rw [String.toList_ofList] at hinfix
  refine decide_eq_true ?_
  rw [T.lower_toList]
  exact infix_map_toLower ht hne hinfix

theorem contains_of_hasSuffix (h : hasSuffix s t = true) : contains s t = true :=
  decide_eq_true (List.isSuffixOf_iff_suffix.mp h).isInfix

theorem hasPrefix_toLowerCase (hdot : 'i' ∉ t.toList) (hsigma : 'σ' ∉ t.toList) (h : hasPrefix (T.lower s) t = true) :
    hasPrefix (T.toLowerCase s) t = true := by
  unfold hasPrefix at h
  rw [T.lower_toList, List.isPrefixOf_iff_prefix] at h
  unfold hasPrefix CaseTables.toLowerCase
  rw [String.toList_ofList, List.isPrefixOf_iff_prefix]
  exact prefix_lowerFrom hdot hsigma h

theorem contains_toLowerCase (hdot : 'i' ∉ t.toList) (hsigma : 'σ' ∉ t.toList) (h : contains (T.lower s) t = true) :
    contains (T.toLowerCase s) t = true := by
  have hinfix := of_decide_eq_true h
  rw [T.lower_toList] at hinfix
  refine decide_eq_true ?_
  unfold CaseTables.toLowerCase
  rw [String.toList_ofList]
  exact infix_lowerFrom hdot hsigma hinfix

/-- A text in lower case is left as it is by both languages. -/
theorem toLowerCase_of_lower (h : T.lower s = s) : T.toLowerCase s = s := by
  have hplain : ∀ before cs : List Char, (∀ c ∈ cs, T.toLower c = c) → T.special before cs = false := by
    intro before cs
    induction cs generalizing before with
    | nil => exact fun _ => rfl
    | cons c cs ih =>
      intro hcs
      have hc := hcs c List.mem_cons_self
      have hdotted : c ≠ 'İ' := by
        rintro rfl
        exact absurd (T.dotted.symm.trans hc) (by decide)
      have hsigma : c ≠ 'Σ' := by
        rintro rfl
        exact absurd (T.sigma.symm.trans hc) (by decide)
      rw [CaseTables.special, decide_eq_false hdotted, decide_eq_false hsigma, Bool.false_and, Bool.false_or,
        Bool.false_or]
      exact ih _ fun d hd => hcs d (List.mem_cons_of_mem c hd)
  rw [toLowerCase_of_plain (hplain [] s.toList (T.lower_eq_self_iff.mp h)), h]

end Lowered

end Codegraph

open Codegraph

/-! ### The gates of the router -/

/-- A memory with the name and the path: of the fields that hold paths, one has it and the others have none. -/
structure MemoryHit.Of {R : Type} (h : MemoryHit R) (name filePath : String) : Prop where
  name_eq : h.fields "name" = name
  paths : ∀ k ∈ ["path", "file", "files"], h.fields k = filePath ∨ h.fields k = ""
  exists_path : ∃ k ∈ ["path", "file", "files"], h.fields k = filePath

/-- What both gates of the router make of one term; the gate of edges has one more mark of fixtures. -/
def routerTerm (testdata : Bool) (name filePath e : String) : Bool :=
  if e = "test" then hasTestMarker filePath || hasPrefix name "test"
  else if e = "mock" then contains filePath "/mock" || hasPrefix name "mock"
  else if e = "fixture" then contains filePath "/fixture" || (testdata && contains filePath "/testdata")
  else false

section Router

variable {R : Type} {L : RuneLower} {h : MemoryHit R} {name filePath : String}

theorem shouldExcludeGraphTarget_eq (L : RuneLower) (name filePath : String) (excludes : List String) :
    shouldExcludeGraphTarget L name filePath excludes =
      excludes.any fun e => routerTerm true (L.lower name) (L.lower filePath) (L.lower (trimSpace e)) := rfl

/-- A mark that no empty path has is in one of the paths when it is in the path of the memory. -/
theorem MemoryHit.Of.any_paths (hof : h.Of name filePath) (mark : String → Bool) (hblank : mark (L.lower "") = false) :
    [L.lower (h.fields "path"), L.lower (h.fields "file"), L.lower (h.fields "files")].any mark =
      mark (L.lower filePath) := by
  have hany : [L.lower (h.fields "path"), L.lower (h.fields "file"), L.lower (h.fields "files")].any mark =
      ["path", "file", "files"].any fun k => mark (L.lower (h.fields k)) := rfl
  rw [hany, Bool.eq_iff_iff, List.any_eq_true]
  constructor
  · rintro ⟨k, hk, hmark⟩
    obtain hpath | hpath := hof.paths k hk
    · rwa [hpath] at hmark
    · rw [hpath, hblank] at hmark
      exact absurd hmark (by simp)
  · intro hmark
    obtain ⟨k, hk, hpath⟩ := hof.exists_path
    exact ⟨k, hk, hpath ▸ hmark⟩

theorem shouldExcludeMemory_eq (hof : h.Of name filePath) (excludes : List String) :
    shouldExcludeMemory L h excludes =
      excludes.any fun e => routerTerm false (L.lower name) (L.lower filePath) (L.lower (trimSpace e)) := by
  have htest := hof.any_paths (L := L) hasTestMarker rfl
  have hmock := hof.any_paths (L := L) (fun p => contains p "/mock") rfl
  have hfixture := hof.any_paths (L := L) (fun p => contains p "/fixture") rfl
  unfold shouldExcludeMemory routerTerm
  simp only [htest, hmock, hfixture, hof.name_eq, Bool.false_and, Bool.or_false]

theorem routerTerm_mono {e : String} (hmem : routerTerm false name filePath e = true) :
    routerTerm true name filePath e = true := by
  unfold routerTerm at hmem ⊢
  split_ifs at hmem ⊢ with htest hmock hfixture
  · exact hmem
  · exact hmem
  · rw [Bool.false_and, Bool.or_false] at hmem
    rw [hmem, Bool.true_or]

theorem routerTerm_of_not_testdata {e : String} (hgraph : routerTerm true name filePath e = true)
    (hnot : contains filePath "/testdata" = false) : routerTerm false name filePath e = true := by
  unfold routerTerm at hgraph ⊢
  rwa [hnot] at hgraph

end Router

/-! ### Surviving terms -/

section Terms

variable {L : RuneLower} {plan : QueryPlan} {e : String}

theorem exists_sanitizeTerm_of_mem (h : e ∈ (sanitizePlan L plan).excludeTerms) : ∃ t, sanitizeTerm L t = some e := by
  have hmem := List.mem_of_mem_take h
  unfold sanitizeTerms at hmem
  obtain ⟨t, -, ht⟩ := List.mem_filterMap.mp (List.mem_eraseDups.mp hmem)
  exact ⟨t, ht⟩

/-- A term that survived is in lower case, with or without the white space that punctuation kept at its ends. -/
theorem lower_trimSpace_of_mem (h : e ∈ (sanitizePlan L plan).excludeTerms) :
    L.lower (trimSpace e) = trimSpace e := by
  obtain ⟨t, ht⟩ := exists_sanitizeTerm_of_mem h
  refine L.lower_eq_self_of_subset e fun c hc => ?_
  rw [(oneWord_of_sanitizeTerm ht).lower]
  rw [trimSpace_toList] at hc
  exact List.mem_of_mem_trimWhile hc

end Terms

/-! ### The three gates -/

/-- A name of which the term is a proper beginning, followed by no capital letter. -/
def goesOn (name e : String) : Bool := (name.toList.drop e.toList.length).head?.any fun c => !c.isUpper

section Gates

variable (T : CaseTables) (name filePath : String)

/-- What the search drops by a rule that is a convention of the term for the router too. -/
inductive Conventional : String → Prop
  | test : shouldExclude T filePath name ["test"] = true → Conventional "test"
  | mock : directoryRule T filePath "mock" = true ∨ nameRule T name "mock" = true → Conventional "mock"
  | fixture : directoryRule T filePath "fixture" = true → Conventional "fixture"

/-- What the router's gates see in a term and the search does not. -/
inductive Wider : String → Prop
  /-- Punctuation kept white space at the ends of the term; the router trims it. -/
  | trimmed {e : String} : trimSpace e ≠ e → trimSpace e ∈ ["test", "mock", "fixture"] → Wider e
  /-- The name is a longer word. -/
  | longer {e : String} : e = "test" ∨ e = "mock" → hasPrefix (T.lower name) e = true → goesOn name e = true → Wider e
  /-- The mark is inside the path, or the directory at its top. -/
  | test : contains (T.lower filePath) "_test.go" = true ∨ hasPrefix (T.lower filePath) "test/" = true ∨
      hasPrefix (T.lower filePath) "tests/" = true → Wider "test"
  /-- A part of the path begins with the term. -/
  | mock : contains (T.lower filePath) "/mock" = true → Wider "mock"
  | fixture : contains (T.lower filePath) "/fixture" = true ∨ contains (T.lower filePath) "/testdata" = true →
      Wider "fixture"

end Gates

section Compared

variable {T : CaseTables} {name filePath e : String}

/-- Both directories of a term the router knows are marks of it. -/
theorem directoryRule_iff (he : T.lower e = e) : directoryRule T filePath e = true ↔
    contains (T.toLowerCase filePath) ("/" ++ e ++ "/") = true ∨
      contains (T.toLowerCase filePath) ("/" ++ e ++ "s/") = true := by
  unfold directoryRule
  rw [toLowerCase_of_lower he, Bool.or_eq_true]

/-- After the characters that are lowered to the term, as many code units are left as the term leaves. -/
theorem drop_utf16 {cs : List Char} (h : (cs.take e.toList.length).map T.toLower = e.toList)
    (hname : name.toList = cs) :
    (utf16 name).drop (utf16Len e) = (cs.drop e.toList.length).flatMap utf16Of := by
  have hlength : ((cs.take e.toList.length).flatMap utf16Of).length = utf16Len e :=
    calc ((cs.take e.toList.length).flatMap utf16Of).length
        = ((cs.take e.toList.length).map codeUnits).sum := length_flatMap_utf16Of _
      _ = (((cs.take e.toList.length).map T.toLower).map codeUnits).sum := by
          rw [List.map_map]
          exact congrArg List.sum (List.map_congr_left fun c _ => (T.units c).symm)
      _ = utf16Len e := by rw [h]; rfl
  have hsplit : utf16 name =
      (cs.take e.toList.length).flatMap utf16Of ++ (cs.drop e.toList.length).flatMap utf16Of := by
    unfold utf16
    rw [hname, ← List.flatMap_append, List.take_append_drop]
  rw [hsplit, ← hlength, List.drop_left]

/-- A name with the term as its prefix in which the search does not see the term goes on with no capital
letter. -/
theorem goesOn_of_not_nameRule (he : T.lower e = e) (hdot : 'i' ∉ e.toList) (hsigma : 'σ' ∉ e.toList)
    (hbegins : hasPrefix (T.lower name) e = true) (hnot : nameRule T name e = false) : goesOn name e = true := by
  have hjs := hasPrefix_toLowerCase hdot hsigma hbegins
  -- the name begins with the excluded word in lower case
  have htake : (name.toList.take e.toList.length).map T.toLower = e.toList := by
    unfold hasPrefix at hbegins
    rw [T.lower_toList, List.isPrefixOf_iff_prefix, List.prefix_iff_eq_take] at hbegins
    rw [List.map_take, ← hbegins]
  unfold nameRule at hnot
  rw [toLowerCase_of_lower he, hjs, Bool.true_and, drop_utf16 htake rfl] at hnot
  unfold goesOn
  cases hrest : name.toList.drop e.toList.length with
  | nil =>
    -- nothing follows the word, and then the name is excluded after all
    rw [hrest] at hnot
    exact absurd hnot (by simp)
  | cons c rest =>
    rw [hrest] at hnot
    show (!c.isUpper) = true
    -- a capital behind the word excludes the name too
    by_contra hupper
    have hcapital : c.isUpper = true := by simpa using hupper
    obtain ⟨hunits, hlow, hhigh⟩ := utf16Of_of_isUpper hcapital
    rw [List.flatMap_cons, hunits] at hnot
    exact absurd ⟨hlow, hhigh⟩ (of_decide_eq_false hnot)

/-- A name the search drops by a term has the term as its prefix for the router too. -/
theorem hasPrefix_of_nameRule (he : T.lower e = e) (hundotted : Undotted e.toList) (h : nameRule T name e = true) :
    hasPrefix (T.lower name) e = true := by
  unfold nameRule at h
  rw [Bool.and_eq_true, toLowerCase_of_lower he] at h
  exact hasPrefix_lower hundotted h.1

theorem shouldExclude_singleton (hne : e ≠ "") : shouldExclude T filePath name [e] =
    (suffixRule T filePath e || directoryRule T filePath e || nameRule T name e) := by
  unfold shouldExclude
  rw [List.any_cons, List.any_nil, Bool.or_false, decide_eq_true hne, Bool.true_and]

/-- The path is marked in a directory of the term. -/
theorem contains_directory (he : T.lower e = e) (hsingle : Undotted ("/" ++ e ++ "/").toList)
    (hplural : Undotted ("/" ++ e ++ "s/").toList) (h : directoryRule T filePath e = true) :
    contains (T.lower filePath) ("/" ++ e ++ "/") = true ∨ contains (T.lower filePath) ("/" ++ e ++ "s/") = true := by
  have hslash : ∀ t : String, ("/" ++ e ++ t).toList ≠ [] := by
    intro t
    rw [String.toList_append, String.toList_append]
    exact List.append_ne_nil_of_left_ne_nil (List.append_ne_nil_of_left_ne_nil (by decide) _) _
  obtain h | h := (directoryRule_iff he).mp h
  · exact .inl (contains_lower hsingle (hslash _) h)
  · exact .inr (contains_lower hplural (hslash _) h)

/-- A text that contains a mark contains what the mark begins with. -/
theorem contains_of_contains {s t u : String} (hut : u.toList <+: t.toList) (h : contains s t = true) :
    contains s u = true :=
  decide_eq_true (hut.isInfix.trans (of_decide_eq_true h))

/-- What the search drops by a convention, the router's gates drop. -/
theorem routerTerm_of_conventional (he : T.lower e = e) (h : Conventional T name filePath e) :
    routerTerm false (T.lower name) (T.lower filePath) e = true := by
  -- each of the three words is dropped by a marker in the path or by the name's beginning
  cases h with
  | test hdrop =>
    show (hasTestMarker (T.lower filePath) || hasPrefix (T.lower name) "test") = true
    rw [shouldExclude_singleton (by decide), Bool.or_eq_true, Bool.or_eq_true] at hdrop
    rw [Bool.or_eq_true]
    unfold hasTestMarker
    simp only [Bool.or_eq_true]
    obtain (hsuffix | hdirectory) | hname := hdrop
    · unfold suffixRule at hsuffix
      rw [toLowerCase_of_lower he] at hsuffix
      have hmark := contains_lower (t := "_test.go") (by decide) (by decide) (contains_of_hasSuffix hsuffix)
      exact .inl (.inl (.inl (.inl (.inl hmark))))
    · obtain hmark | hmark := contains_directory he (by decide) (by decide) hdirectory
      · exact .inl (.inl (.inl (.inl (.inr hmark))))
      · exact .inl (.inl (.inl (.inr hmark)))
    · exact .inr (hasPrefix_of_nameRule he (by decide) hname)
  | mock hdrop =>
    show (contains (T.lower filePath) "/mock" || hasPrefix (T.lower name) "mock") = true
    rw [Bool.or_eq_true]
    obtain hdirectory | hname := hdrop
    · obtain hmark | hmark := contains_directory he (by decide) (by decide) hdirectory
      · exact .inl (contains_of_contains (by decide) hmark)
      · exact .inl (contains_of_contains (by decide) hmark)
    · exact .inr (hasPrefix_of_nameRule he (by decide) hname)
  | fixture hdrop =>
    show (contains (T.lower filePath) "/fixture" || false) = true
    rw [Bool.or_false]
    obtain hmark | hmark := contains_directory he (by decide) (by decide) hdrop
    · exact contains_of_contains (by decide) hmark
    · exact contains_of_contains (by decide) hmark

theorem known_of_routerTerm {testdata : Bool} {n p t : String} (h : routerTerm testdata n p t = true) :
    t ∈ ["test", "mock", "fixture"] := by
  unfold routerTerm at h
  split_ifs at h with htest hmock hfixture
  · simp [htest]
  · simp [hmock]
  · simp [hfixture]

/-- What the router's gates drop, the search drops, or they see more in the term. -/
theorem wider_of_routerTerm (he : T.lower (trimSpace e) = trimSpace e)
    (hkept : shouldExclude T filePath name [e] = false)
    (h : routerTerm true (T.lower name) (T.lower filePath) (trimSpace e) = true) : Wider T name filePath e := by
  have hknown := known_of_routerTerm h
  -- a word with white space around it is trimmed by one side only
  by_cases htrim : trimSpace e = e
  swap
  · exact .trimmed htrim hknown
  rw [htrim] at h hknown he
  simp only [List.mem_cons, List.not_mem_nil, or_false] at hknown
  obtain rfl | rfl | rfl := hknown
  · -- the router drops by five markers, of which the sidecar looks at the two directories
    change (hasTestMarker (T.lower filePath) || hasPrefix (T.lower name) "test") = true at h
    rw [shouldExclude_singleton (by decide), Bool.or_eq_false_iff, Bool.or_eq_false_iff] at hkept
    obtain ⟨⟨-, hdirectory⟩, hname⟩ := hkept
    unfold hasTestMarker at h
    simp only [Bool.or_eq_true] at h
    have hnot : ∀ t ∈ ["/test/", "/tests/"], ¬ contains (T.lower filePath) t = true := by
      intro t ht hmark
      simp only [List.mem_cons, List.not_mem_nil, or_false] at ht
      refine absurd ((directoryRule_iff he).mpr ?_) (by rw [hdirectory]; simp)
      obtain rfl | rfl := ht
      · exact .inl (contains_toLowerCase (by decide) (by decide) hmark)
      · exact .inr (contains_toLowerCase (by decide) (by decide) hmark)
    obtain ((((hmark | hmark) | hmark) | hmark) | hmark) | hbegins := h
    · exact .test (.inl hmark)
    · exact absurd hmark (hnot _ (by simp))
    · exact absurd hmark (hnot _ (by simp))
    · exact .test (.inr (.inl hmark))
    · exact .test (.inr (.inr hmark))
    · exact .longer (.inl rfl) hbegins (goesOn_of_not_nameRule he (by decide) (by decide) hbegins hname)
  · -- the router looks for the word anywhere in the path, the sidecar for its directory
    change (contains (T.lower filePath) "/mock" || hasPrefix (T.lower name) "mock") = true at h
    rw [shouldExclude_singleton (by decide), Bool.or_eq_false_iff] at hkept
    obtain hmark | hbegins := Bool.or_eq_true _ _ ▸ h
    · exact .mock hmark
    · exact .longer (.inr rfl) hbegins (goesOn_of_not_nameRule he (by decide) (by decide) hbegins hkept.2)
  · change (contains (T.lower filePath) "/fixture" || (true && contains (T.lower filePath) "/testdata")) = true at h
    rw [Bool.true_and, Bool.or_eq_true] at h
    exact .fixture h

end Compared

/-! ### The agreement -/

section Agreement

variable {R : Type} (T : CaseTables) (plan : QueryPlan) (name filePath : String) (h : MemoryHit R)

/-- How the gates are related, for a list of terms. -/
structure GatesRelated (terms : List String) : Prop where
  graph_of_memory : shouldExcludeMemory T.toRuneLower h terms = true →
    shouldExcludeGraphTarget T.toRuneLower name filePath terms = true
  memory_of_graph : shouldExcludeGraphTarget T.toRuneLower name filePath terms = true →
    contains (T.lower filePath) "/testdata" = false → shouldExcludeMemory T.toRuneLower h terms = true
  /-- The router drops nothing by a term it does not know. -/
  known : shouldExcludeGraphTarget T.toRuneLower name filePath terms = true →
    ∃ e ∈ terms, trimSpace e ∈ ["test", "mock", "fixture"]
  /-- What the search drops by a convention of the term, the router drops. -/
  conventional : ∀ e ∈ terms, Conventional T name filePath e → shouldExcludeMemory T.toRuneLower h terms = true
  /-- What the search keeps, the router drops by a term that it reads more widely. -/
  wider : shouldExclude T filePath name terms = false →
    shouldExcludeGraphTarget T.toRuneLower name filePath terms = true → ∃ e ∈ terms, Wider T name filePath e

theorem shouldExclude_mono {terms : List String} {e : String} (he : e ∈ terms)
    (hkept : shouldExclude T filePath name terms = false) : shouldExclude T filePath name [e] = false := by
  unfold shouldExclude at hkept ⊢
  rw [List.any_cons, List.any_nil, Bool.or_false]
  simpa using List.any_eq_false.mp hkept e he

/-- **The gates of what survives.** -/
theorem exclude_gates (hof : h.Of name filePath) :
    GatesRelated T name filePath h (sanitizePlan T.toRuneLower plan).excludeTerms := by
  have hmemory := shouldExcludeMemory_eq (L := T.toRuneLower) hof (sanitizePlan T.toRuneLower plan).excludeTerms
  have hgraph := shouldExcludeGraphTarget_eq T.toRuneLower name filePath
    (sanitizePlan T.toRuneLower plan).excludeTerms
  refine ⟨fun hdrop => ?_, fun hdrop hnot => ?_, fun hdrop => ?_, fun e he hconv => ?_, fun hkept hdrop => ?_⟩
  · rw [hmemory] at hdrop
    obtain ⟨e, he, hterm⟩ := List.any_eq_true.mp hdrop
    rw [hgraph]
    exact List.any_eq_true.mpr ⟨e, he, routerTerm_mono hterm⟩
  · rw [hgraph] at hdrop
    obtain ⟨e, he, hterm⟩ := List.any_eq_true.mp hdrop
    rw [hmemory]
    exact List.any_eq_true.mpr ⟨e, he, routerTerm_of_not_testdata hterm hnot⟩
  · rw [hgraph] at hdrop
    obtain ⟨e, he, hterm⟩ := List.any_eq_true.mp hdrop
    rw [lower_trimSpace_of_mem he] at hterm
    exact ⟨e, he, known_of_routerTerm hterm⟩
  · -- a term with a convention has no white space to trim
    have htrim : trimSpace e = e := by
      cases hconv with
      | test => decide
      | mock => decide
      | fixture => decide
    have hlower := lower_trimSpace_of_mem he
    rw [htrim] at hlower
    rw [hmemory]
    refine List.any_eq_true.mpr ⟨e, he, ?_⟩
    rw [htrim, hlower]
    exact routerTerm_of_conventional hlower hconv
  · rw [hgraph] at hdrop
    obtain ⟨e, he, hterm⟩ := List.any_eq_true.mp hdrop
    have hlower := lower_trimSpace_of_mem he
    rw [hlower] at hterm
    exact ⟨e, he, wider_of_routerTerm hlower (shouldExclude_mono T name filePath he hkept) hterm⟩

end Agreement

/-- A memory with a name and a file. -/
def fileMemory (name filePath : String) : MemoryHit ℚ :=
  ⟨"mem:1", 0, fun k => if k = "name" then name else if k = "path" then filePath else ""⟩

theorem fileMemory_of (name filePath : String) : (fileMemory name filePath).Of name filePath where
  name_eq := rfl
  paths k hk := by
    simp only [List.mem_cons, List.not_mem_nil, or_false] at hk
    obtain rfl | rfl | rfl := hk
    · exact .inl rfl
    · exact .inr rfl
    · exact .inr rfl
  exists_path := ⟨"path", List.mem_cons_self, rfl⟩

theorem decoder_gates :
    GatesRelated latinTables "TestDecode" "codec/decode_test.go" (fileMemory "TestDecode" "codec/decode_test.go")
      (sanitizePlan latinTables.toRuneLower ⟨[], [], ["Test"], [], [], false⟩).excludeTerms :=
  exclude_gates latinTables ⟨[], [], ["Test"], [], [], false⟩ "TestDecode" "codec/decode_test.go"
    (fileMemory "TestDecode" "codec/decode_test.go") (fileMemory_of "TestDecode" "codec/decode_test.go")

/-- A benchmark is dropped by the search alone, a testimony by the router alone. -/
theorem benchmark_and_testimony :
    (sanitizePlan latinTables.toRuneLower ⟨[], [], ["Benchmark", "test"], [], [], false⟩).excludeTerms =
      ["benchmark", "test"] ∧
    shouldExclude latinTables "codec/decode.go" "BenchmarkDecode" ["benchmark"] = true ∧
    shouldExcludeGraphTarget latinTables.toRuneLower "BenchmarkDecode" "codec/decode.go" ["benchmark"] = false ∧
    shouldExcludeMemory latinTables.toRuneLower (fileMemory "BenchmarkDecode" "codec/decode.go") ["benchmark"] = false ∧
    shouldExclude latinTables "court/record.go" "testimony" ["test"] = false ∧
    shouldExcludeGraphTarget latinTables.toRuneLower "testimony" "court/record.go" ["test"] = true ∧
    shouldExcludeMemory latinTables.toRuneLower (fileMemory "testimony" "court/record.go") ["test"] = true := by
  decide +kernel

end Devrouter
