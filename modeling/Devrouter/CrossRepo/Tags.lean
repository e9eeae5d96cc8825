import Mathlib.Algebra.Order.Field.Rat
import Mathlib.Data.List.Chain
import Mathlib.Data.List.Nodup
import Mathlib.Data.Prod.Lex
import Mathlib.Data.String.Basic
import Mathlib.Tactic.NormNum
import Devrouter.CrossRepo.RegistryLoader
import Devrouter.Lib.FirstBy
import Devrouter.Lib.StableSort
import Devrouter.Lib.SwapSort

/-!
# Links from a tag

Model of `internal/crossrepo/tags.go`: `RepoLinker.LinkTag` scores a tag seen in one repository against the names of
the others. The names of the registry are taken once each, the source repository left out, and the links are sorted
by a hand-written insertion sort.

`documentedConfidence` is the table in the comment on `LinkTag`. The code lowers the tag before it looks whether the
tag is the name, and its splitter cuts before every capital; `asRuled_iff` says on which names the two agree.
`linkTag_canonical` says that the order of the registry does not matter.
-/

namespace Devrouter.CrossRepo

/-! ### Runes -/

/-- The tables of `unicode` that the package uses. Texts that are equal under `fold` are equal to
`strings.EqualFold`. -/
structure GoRunes extends RuneLower where
  fold : Char → Char
  isLetter : Char → Bool
  isDigit : Char → Bool
  isUpper : Char → Bool
  isLower : Char → Bool

/-- The tables on the ASCII characters. -/
def asciiGoRunes : GoRunes where
  toRuneLower := asciiRunes
  fold := Char.toLower
  isLetter := Char.isAlpha
  isDigit := Char.isDigit
  isUpper := Char.isUpper
  isLower := Char.isLower

variable (T : GoRunes)

/-- `strings.EqualFold`. -/
def GoRunes.equalFold (s t : String) : Bool := s.toList.map T.fold = t.toList.map T.fold

/-- `strings.Contains(text, part)`, for parts of four bytes or more. -/
def LongPart (part text : String) : Prop := 4 ≤ byteLen part ∧ part.toList <:+: text.toList

instance (part text : String) : Decidable (LongPart part text) := inferInstanceAs (Decidable (_ ∧ _))

/-! ### The splitter -/

/-- A chunk is cut before the runes that `starts` a word, given the rune before and the one behind; `buf` is the word
that has been begun. -/
def cutWords (starts : Char → Char → Option Char → Bool) : List Char → List Char → List (List Char)
  | buf, [] => if buf = [] then [] else [buf]
  | buf, r :: rest =>
    if buf.getLast?.any (fun before => starts before r rest.head?) then buf :: cutWords starts [r] rest
    else cutWords starts (buf ++ [r]) rest

/-- `strings.FieldsFunc`, at what is neither a letter nor a digit. -/
def GoRunes.chunks (s : String) : List (List Char) :=
  (s.toList.splitOnP fun r => !T.isLetter r && !T.isDigit r).filter (· ≠ [])

/-- Both passes, with lower-cased words. -/
def GoRunes.tokensBy (starts : Char → Char → Option Char → Bool) (s : String) : List String :=
  (T.chunks s).flatMap fun p => (cutWords starts [] p).map fun w => T.lower (String.ofList w)

/-- Every capital but the first rune of a chunk. -/
def GoRunes.anyCapital : Char → Char → Option Char → Bool := fun _ r _ => T.isUpper r

def splitIdentifierTokens (s : String) : List String := T.tokensBy T.anyCapital s

/-- The first token of `minLen` bytes or more that both lists have, or the empty text. -/
def overlapLongTokens (a b : List String) (minLen : ℕ) : String :=
  (a.find? fun t => minLen ≤ byteLen t ∧ t ∈ b.filter fun u => minLen ≤ byteLen u).getD ""

/-! ### Scores -/

def scoreTagAgainstRepo (tagLower : String) (tagTokens : List String) (repoName : String) : ℚ × String :=
  let nameLower := T.lower repoName
  if tagLower = nameLower then
    if tagLower = repoName then (1, "name:exact") else (9 / 10, "name:exact-ci")
  else if LongPart tagLower nameLower then (8 / 10, "name:contains-tag")
  else if LongPart nameLower tagLower then (7 / 10, "tag:contains-name")
  else
    let shared := overlapLongTokens tagTokens (splitIdentifierTokens T repoName) 4
    if shared ≠ "" then (6 / 10, "tokens:" ++ shared) else (0, "")

structure RepoLink where
  sourceRepo : String
  tag : String
  targetRepo : String
  confidence : ℚ
  reason : String
  deriving DecidableEq

structure ScoredLink where
  link : RepoLink
  nameLen : ℕ

def lessLinkScored (a b : ScoredLink) : Bool :=
  if a.link.confidence ≠ b.link.confidence then b.link.confidence < a.link.confidence
  else if a.nameLen ≠ b.nameLen then b.nameLen < a.nameLen
  else a.link.targetRepo < b.link.targetRepo

def sortLinksScored (s : List ScoredLink) : List ScoredLink := s.swapSort lessLinkScored

section Loop

variable (sourceRepo tag : String)

/-- The link that the loop builds for a name. -/
def linkTo (name : String) : Option ScoredLink :=
  let (confidence, reason) := scoreTagAgainstRepo T (T.lower tag) (splitIdentifierTokens T tag) name
  if confidence = 0 then none else some ⟨⟨sourceRepo, tag, name, confidence, reason⟩, byteLen name⟩

/-- The loop over the entries; `seenTarget` has the names that were scored. -/
def scoreEntries : List RegistryEntry → List String → List ScoredLink
  | [], _ => []
  | e :: es, seenTarget =>
    if e.name = "" ∨ T.equalFold e.name sourceRepo then scoreEntries es seenTarget
    else if e.name ∈ seenTarget then scoreEntries es seenTarget
    else (linkTo T sourceRepo tag e.name).toList ++ scoreEntries es (e.name :: seenTarget)

end Loop

/-- `RepoLinker.LinkTag`; `registry` is what the loader returns, `none` when it fails. -/
def linkTag (registry : Option (List RegistryEntry)) (sourceRepo tag : String) : List RepoLink :=
  let tag := trimSpace tag
  if tag = "" then []
  else
    match registry with
    | none => []
    | some entries => (sortLinksScored (scoreEntries T sourceRepo tag entries [])).map (·.link)

/-! ### What is linked -/

section Linked

variable {sourceRepo tag : String} {registry : Option (List RegistryEntry)}

/-- A name that the loop does not skip. -/
def GoRunes.Foreign (sourceRepo name : String) : Prop := name ≠ "" ∧ T.equalFold name sourceRepo = false

instance : DecidablePred (T.Foreign sourceRepo) := fun _ => inferInstanceAs (Decidable (_ ∧ _))

/-- The names that are scored, with repetitions. -/
def candidates (sourceRepo : String) (registry : Option (List RegistryEntry)) : List String :=
  ((registry.getD []).map RegistryEntry.name).filter (T.Foreign sourceRepo)

variable {T}

theorem mem_candidates {name : String} : name ∈ candidates T sourceRepo registry ↔
    name ∈ (registry.getD []).map RegistryEntry.name ∧ T.Foreign sourceRepo name := by
  rw [candidates, List.mem_filter, decide_eq_true_eq]

/-- **The loop** scores every candidate once. -/
theorem scoreEntries_eq (entries : List RegistryEntry) (seen : List String) :
    scoreEntries T sourceRepo tag entries seen =
      ((candidates T sourceRepo (some entries)).firstBy id seen).filterMap (linkTo T sourceRepo tag) := by
  induction entries generalizing seen with
  | nil => rfl
  | cons e es ih =>
    have hrest : candidates T sourceRepo (some (e :: es)) =
        if T.Foreign sourceRepo e.name then e.name :: candidates T sourceRepo (some es)
        else candidates T sourceRepo (some es) := by
      simp [candidates, List.filter_cons]
    -- the guard of the loop is that the repository is a foreign one
    have hskip : (e.name = "" ∨ T.equalFold e.name sourceRepo = true) ↔ ¬ T.Foreign sourceRepo e.name := by
      rw [GoRunes.Foreign, not_and_or, not_not, Bool.not_eq_false]
    rw [scoreEntries, hrest]
    by_cases hforeign : T.Foreign sourceRepo e.name
    · rw [if_neg fun h => hskip.mp h hforeign, if_pos hforeign, List.firstBy_cons]
      -- a name that comes again is passed over
      by_cases hseen : e.name ∈ seen
      · rw [if_pos hseen, if_pos (show id e.name ∈ seen from hseen), ih]
      · rw [if_neg hseen, if_neg (show id e.name ∉ seen from hseen), ih, List.filterMap_cons]
        cases linkTo T sourceRepo tag e.name <;> rfl
    · rw [if_pos (hskip.mpr hforeign), if_neg hforeign, ih]

theorem mem_firstBy_candidates {name : String} : name ∈ (candidates T sourceRepo registry).firstBy id [] ↔
    name ∈ candidates T sourceRepo registry := by
  have hkeys : name ∈ ((candidates T sourceRepo registry).firstBy id []).map id ↔
      name ∈ (candidates T sourceRepo registry).map id ∧ name ∉ [] := List.mem_map_firstBy
  simpa using hkeys

theorem nodup_firstBy_candidates : ((candidates T sourceRepo registry).firstBy id []).Nodup := by
  have hkeys : (((candidates T sourceRepo registry).firstBy id []).map id).Nodup := List.nodup_map_firstBy
  rwa [List.map_id] at hkeys

theorem mem_scoreEntries {s : ScoredLink} :
    s ∈ scoreEntries T sourceRepo tag (registry.getD []) [] ↔
      ∃ name ∈ candidates T sourceRepo registry, linkTo T sourceRepo tag name = some s := by
  rw [scoreEntries_eq, List.mem_filterMap]
  exact exists_congr fun name => and_congr_left' mem_firstBy_candidates

/-- An empty tag has no score. -/
theorem linkTo_empty {name : String} (h : name ≠ "") : linkTo T sourceRepo "" name = none := by
  have hlower : ∀ t : String, T.lower t = "" ↔ t = "" := by
    intro t
    rw [← String.toList_inj, T.lower_toList, ← String.toList_inj]
    exact List.map_eq_nil_iff
  have hlist : (T.lower name).toList ≠ [] := by
    rw [Ne, String.toList_eq_nil_iff, hlower]
    exact h
  have htokens : splitIdentifierTokens T "" = [] := rfl
  have hscore : scoreTagAgainstRepo T "" [] name = (0, "") := by
    have hne : ¬ "" = T.lower name := fun heq => h ((hlower name).mp heq.symm)
    have hfirst : ¬ LongPart "" (T.lower name) := fun hpart => absurd hpart.1 (by decide)
    have hsecond : ¬ LongPart (T.lower name) "" := fun hpart => hlist (List.infix_nil.mp hpart.2)
    simp [scoreTagAgainstRepo, hne, hfirst, hsecond, overlapLongTokens]
  rw [linkTo, (hlower "").mpr rfl, htokens, hscore]
  rfl

/-- The links of any tag. -/
theorem linkTag_eq : linkTag T registry sourceRepo tag =
    (sortLinksScored (scoreEntries T sourceRepo (trimSpace tag) (registry.getD []) [])).map (·.link) := by
  have hsplit : linkTag T registry sourceRepo tag = if trimSpace tag = "" then []
      else (sortLinksScored (scoreEntries T sourceRepo (trimSpace tag) (registry.getD []) [])).map (·.link) := by
    cases registry <;> rfl
  rw [hsplit]
  by_cases hempty : trimSpace tag = ""
  · have hnone : scoreEntries T sourceRepo "" (registry.getD []) [] = [] := by
      rw [List.eq_nil_iff_forall_not_mem]
      intro s hs
      obtain ⟨name, hname, hlink⟩ := mem_scoreEntries.mp hs
      rw [linkTo_empty (mem_candidates.mp hname).2.1] at hlink
      cases hlink
    rw [if_pos hempty, hempty, hnone]
    rfl
  · rw [if_neg hempty]

/-- What is linked: the candidates with a score. -/
theorem mem_linkTag {link : RepoLink} : link ∈ linkTag T registry sourceRepo tag ↔
    ∃ name ∈ candidates T sourceRepo registry, (linkTo T sourceRepo (trimSpace tag) name).map (·.link) = some link := by
  rw [linkTag_eq, List.mem_map]
  constructor
  · rintro ⟨s, hs, rfl⟩
    obtain ⟨name, hname, hlink⟩ := mem_scoreEntries.mp ((List.swapSort_perm _).subset hs)
    exact ⟨name, hname, by rw [hlink]; rfl⟩
  · rintro ⟨name, hname, hlink⟩
    obtain ⟨s, hs, rfl⟩ := Option.map_eq_some_iff.mp hlink
    exact ⟨s, (List.swapSort_perm _).symm.subset (mem_scoreEntries.mpr ⟨name, hname, hs⟩), rfl⟩

end Linked

/-! ### The documented rules -/

section Ruled

/-- A capital starts a word after a rune that is none, and also before a small letter: `CMAdServing` has three
words. -/
def GoRunes.wordStart : Char → Char → Option Char → Bool := fun before r next =>
  T.isUpper r && (!T.isUpper before || next.any T.isLower)

def documentedTokens (s : String) : List String := T.tokensBy T.wordStart s

/-- A token of four bytes or more in both lists. -/
def SharesLong (a b : List String) : Prop := ∃ t ∈ a, t ∈ b ∧ 4 ≤ byteLen t

instance (a b : List String) : Decidable (SharesLong a b) := inferInstanceAs (Decidable (∃ t ∈ a, _))

/-- The table of rules. `view` is how the rules on parts read a text: as it is written, or in lower case. -/
def documentedConfidence (view : String → String) (tag name : String) : Option ℚ :=
  if tag = name then some 1
  else if T.equalFold tag name then some (9 / 10)
  else if LongPart (view tag) (view name) then some (8 / 10)
  else if LongPart (view name) (view tag) then some (7 / 10)
  else if SharesLong (documentedTokens T tag) (documentedTokens T name) then some (6 / 10)
  else none

/-- The targets are the candidates with a confidence in the table, at that confidence. -/
def AsRuled (view : String → String) (registry : Option (List RegistryEntry)) (sourceRepo tag : String) : Prop :=
  ∀ name confidence,
    (∃ link ∈ linkTag T registry sourceRepo tag, link.targetRepo = name ∧ link.confidence = confidence) ↔
      name ∈ candidates T sourceRepo registry ∧ documentedConfidence T view (trimSpace tag) name = some confidence

/-- Where lower case and the splitter decide nothing. -/
structure RuledAlike (view : String → String) (tag name : String) : Prop where
  /-- A name that is the tag has no capitals. -/
  exact : tag = name → T.lower name = name
  /-- A name that is the tag up to case has one lower case with it, and is not that lower case. -/
  folded : tag ≠ name → T.equalFold tag name = true → T.lower tag = T.lower name ∧ T.lower tag ≠ name
  apart : T.equalFold tag name = false → T.lower tag ≠ T.lower name
  inName : T.equalFold tag name = false →
    (LongPart (view tag) (view name) ↔ LongPart (T.lower tag) (T.lower name))
  inTag : T.equalFold tag name = false → ¬ LongPart (T.lower tag) (T.lower name) →
    (LongPart (view name) (view tag) ↔ LongPart (T.lower name) (T.lower tag))
  tokens : T.equalFold tag name = false → ¬ LongPart (T.lower tag) (T.lower name) →
    ¬ LongPart (T.lower name) (T.lower tag) →
      (SharesLong (documentedTokens T tag) (documentedTokens T name) ↔
        SharesLong (splitIdentifierTokens T tag) (splitIdentifierTokens T name))

variable {T} {view : String → String} {registry : Option (List RegistryEntry)} {sourceRepo tag name : String}

theorem overlapLongTokens_ne_empty_iff {a b : List String} : overlapLongTokens a b 4 ≠ "" ↔ SharesLong a b := by
  rw [overlapLongTokens]
  cases hfind : a.find? fun t => decide (4 ≤ byteLen t ∧ t ∈ b.filter fun u => decide (4 ≤ byteLen u)) with
  | none =>
    refine iff_of_false (fun h => h rfl) ?_
    rintro ⟨t, ha, hb, hlong⟩
    have hno := List.find?_eq_none.mp hfind t ha
    simp [hlong, hb] at hno
  | some t =>
    have ht := List.find?_some hfind
    rw [decide_eq_true_eq, List.mem_filter] at ht
    refine iff_of_true ?_ ⟨t, List.mem_of_find?_eq_some hfind, ht.2.1, ht.1⟩
    rintro heq
    have hempty : t = "" := heq
    exact absurd (hempty ▸ ht.1) (by decide)

/-- The confidence of the code. -/
def givenConfidence (T : GoRunes) (tag name : String) : Option ℚ :=
  if T.lower tag = T.lower name then some (if T.lower tag = name then 1 else 9 / 10)
  else if LongPart (T.lower tag) (T.lower name) then some (8 / 10)
  else if LongPart (T.lower name) (T.lower tag) then some (7 / 10)
  else if SharesLong (splitIdentifierTokens T tag) (splitIdentifierTokens T name) then some (6 / 10)
  else none

theorem linkTo_confidence : (linkTo T sourceRepo tag name).map (fun s => (s.link.targetRepo, s.link.confidence)) =
    (givenConfidence T tag name).map fun c => (name, c) := by
  rw [linkTo, scoreTagAgainstRepo, givenConfidence]
  by_cases heq : T.lower tag = T.lower name
  · rw [if_pos heq, if_pos heq]
    by_cases hname : T.lower tag = name
    · simp [hname]
    · simp [hname]
  · rw [if_neg heq, if_neg heq]
    by_cases hfirst : LongPart (T.lower tag) (T.lower name)
    · simp [hfirst]
    · by_cases hsecond : LongPart (T.lower name) (T.lower tag)
      · simp [hfirst, hsecond]
      · by_cases hshared : SharesLong (splitIdentifierTokens T tag) (splitIdentifierTokens T name)
        · have hne := overlapLongTokens_ne_empty_iff.mpr hshared
          simp [hfirst, hsecond, hshared, hne]
        · have hempty := not_not.mp fun h => hshared (overlapLongTokens_ne_empty_iff.mp h)
          simp [hfirst, hsecond, hshared, hempty]

theorem linked_iff {confidence : ℚ} :
    (∃ link ∈ linkTag T registry sourceRepo tag, link.targetRepo = name ∧ link.confidence = confidence) ↔
      name ∈ candidates T sourceRepo registry ∧ givenConfidence T (trimSpace tag) name = some confidence := by
  -- the link to a name has the confidence that is given for it
  have hgiven : ∀ n, (∃ s, linkTo T sourceRepo (trimSpace tag) n = some s ∧ s.link.targetRepo = name ∧
      s.link.confidence = confidence) ↔ n = name ∧ givenConfidence T (trimSpace tag) n = some confidence := by
    intro n
    have hpair : (∃ s, linkTo T sourceRepo (trimSpace tag) n = some s ∧
        (s.link.targetRepo, s.link.confidence) = (name, confidence)) ↔
        (linkTo T sourceRepo (trimSpace tag) n).map (fun s => (s.link.targetRepo, s.link.confidence)) =
          some (name, confidence) := Option.map_eq_some_iff.symm
    simp only [Prod.mk.injEq] at hpair
    rw [hpair, linkTo_confidence, Option.map_eq_some_iff]
    constructor
    · rintro ⟨c, hc, hpair⟩
      obtain ⟨rfl, rfl⟩ := Prod.mk.inj hpair
      exact ⟨rfl, hc⟩
    · rintro ⟨rfl, hc⟩
      exact ⟨confidence, hc, rfl⟩
  constructor
  · rintro ⟨link, hlink, hname, hconf⟩
    obtain ⟨n, hn, hmap⟩ := mem_linkTag.mp hlink
    obtain ⟨s, hs, rfl⟩ := Option.map_eq_some_iff.mp hmap
    obtain ⟨rfl, hc⟩ := (hgiven n).mp ⟨s, hs, hname, hconf⟩
    exact ⟨hn, hc⟩
  · rintro ⟨hn, hc⟩
    obtain ⟨s, hs, hname, hconf⟩ := (hgiven name).mpr ⟨rfl, hc⟩
    exact ⟨s.link, mem_linkTag.mpr ⟨name, hn, by rw [hs]; rfl⟩, hname, hconf⟩

/-! ### Where the code scores as documented -/

theorem GoRunes.equalFold_self (s : String) : T.equalFold s s = true := decide_eq_true rfl

/-- A name that is the tag. -/
theorem alike_exact : givenConfidence T name name = documentedConfidence T view name name ↔
    RuledAlike T view name name := by
  have hdoc : documentedConfidence T view name name = some 1 := if_pos rfl
  have hgiven : givenConfidence T name name = some (if T.lower name = name then 1 else 9 / 10) := if_pos rfl
  have hself : ¬ T.equalFold name name = false := by simp [GoRunes.equalFold_self]
  rw [hdoc, hgiven]
  constructor
  · intro h
    refine ⟨fun _ => ?_, fun hne => absurd rfl hne, fun h => absurd h hself, fun h => absurd h hself,
      fun h => absurd h hself, fun h => absurd h hself⟩
    by_contra hne
    rw [if_neg hne] at h
    norm_num at h
  · intro h
    rw [if_pos (h.exact rfl)]

/-- A name that is the tag up to case. -/
theorem alike_folded (hne : tag ≠ name) (hfold : T.equalFold tag name = true) :
    givenConfidence T tag name = documentedConfidence T view tag name ↔ RuledAlike T view tag name := by
  -- the names are the same but for their case, which is documented at nine tenths
  have hdoc : documentedConfidence T view tag name = some (9 / 10) := by
    rw [documentedConfidence, if_neg hne, if_pos hfold]
  have hself : ¬ T.equalFold tag name = false := by simp [hfold]
  rw [hdoc]
  constructor
  · -- the code compares in lower case, and any other branch has another confidence
    intro h
    refine ⟨fun heq => absurd heq hne, fun _ _ => ?_, fun h => absurd h hself, fun h => absurd h hself,
      fun h => absurd h hself, fun h => absurd h hself⟩
    rw [givenConfidence] at h
    by_cases hlower : T.lower tag = T.lower name
    · refine ⟨hlower, fun hname => ?_⟩
      rw [if_pos hlower, if_pos hname] at h
      norm_num at h
    · rw [if_neg hlower] at h
      split_ifs at h <;> norm_num at h
  · intro h
    -- the names are the same in lower case, and none of the code's exceptions applies
    obtain ⟨hlower, hname⟩ := h.folded hne hfold
    rw [givenConfidence, if_pos hlower, if_neg hname]

/-- The rules on parts, by what holds of the texts. -/
def partsConfidence (inName inTag tokens : Prop) [Decidable inName] [Decidable inTag] [Decidable tokens] :
    Option ℚ :=
  if inName then some (8 / 10) else if inTag then some (7 / 10) else if tokens then some (6 / 10) else none

theorem ite_some_eq_iff {α : Type} {p q : Prop} [Decidable p] [Decidable q] {a : α} {x y : Option α} (hx : x ≠ some a)
    (hy : y ≠ some a) : (if p then some a else x) = (if q then some a else y) ↔ (q ↔ p) ∧ (¬ p → x = y) := by
  by_cases hp : p
  · by_cases hq : q
    · simp [hp, hq]
    · simp [hp, hq, hy.symm]
  · by_cases hq : q
    · simp [hp, hq, hx]
    · simp [hp, hq]

section Parts

variable {p q r p' q' r' : Prop} [Decidable p] [Decidable q] [Decidable r] [Decidable p'] [Decidable q'] [Decidable r']

theorem partsConfidence_lt {c : ℚ} (h : partsConfidence p q r = some c) : c < 9 / 10 := by
  rw [partsConfidence] at h
  split_ifs at h <;> obtain rfl := Option.some.inj h <;> norm_num

/-- The first rule that holds shows. -/
theorem partsConfidence_eq_iff : partsConfidence p q r = partsConfidence p' q' r' ↔
    (p' ↔ p) ∧ (¬ p → (q' ↔ q)) ∧ (¬ p → ¬ q → (r' ↔ r)) := by
  have hlast : ∀ (r : Prop) [Decidable r], (if r then some (6 / 10 : ℚ) else none) ≠ some (7 / 10) := by
    intro r _
    split_ifs
    · norm_num
    · exact nofun
  have hrest : ∀ (q r : Prop) [Decidable q] [Decidable r],
      (if q then some (7 / 10 : ℚ) else if r then some (6 / 10) else none) ≠ some (8 / 10) := by
    intro q r _ _
    split_ifs
    · norm_num
    · norm_num
    · exact nofun
  have hnone : (none : Option ℚ) ≠ some (6 / 10) := nofun
  rw [partsConfidence, partsConfidence, ite_some_eq_iff (hrest q r) (hrest q' r'),
    ite_some_eq_iff (hlast r) (hlast r'), ite_some_eq_iff hnone hnone]
  simp only [implies_true, and_true, imp_and]

end Parts

/-- Any other name. -/
theorem alike_apart (hfold : T.equalFold tag name = false) :
    givenConfidence T tag name = documentedConfidence T view tag name ↔ RuledAlike T view tag name := by
  have hne : tag ≠ name := by
    rintro rfl
    rw [GoRunes.equalFold_self] at hfold
    cases hfold
  have hself : ¬ T.equalFold tag name = true := by simp [hfold]
  have hdoc : documentedConfidence T view tag name = partsConfidence (LongPart (view tag) (view name))
      (LongPart (view name) (view tag)) (SharesLong (documentedTokens T tag) (documentedTokens T name)) := by
    rw [documentedConfidence, if_neg hne, if_neg hself]
    rfl
  -- equal in lower case though not folded: the code gives more than the parts may
  by_cases hlower : T.lower tag = T.lower name
  · refine iff_of_false (fun h => ?_) fun h => h.apart hfold hlower
    rw [hdoc, givenConfidence, if_pos hlower] at h
    have hlow := partsConfidence_lt h.symm
    split_ifs at hlow <;> norm_num at hlow
  · -- otherwise both sides judge by the parts
    have hgiven : givenConfidence T tag name = partsConfidence (LongPart (T.lower tag) (T.lower name))
        (LongPart (T.lower name) (T.lower tag))
        (SharesLong (splitIdentifierTokens T tag) (splitIdentifierTokens T name)) := by
      rw [givenConfidence, if_neg hlower]
      rfl
    rw [hdoc, hgiven, partsConfidence_eq_iff]
    constructor
    · rintro ⟨hname, htag, htokens⟩
      exact ⟨fun heq => absurd heq hne, fun _ h => absurd h hself, fun _ => hlower, fun _ => hname, fun _ => htag,
        fun _ => htokens⟩
    · intro h
      exact ⟨h.inName hfold, h.inTag hfold, h.tokens hfold⟩

theorem givenConfidence_eq_iff : givenConfidence T tag name = documentedConfidence T view tag name ↔
    RuledAlike T view tag name := by
  by_cases hne : tag = name
  · subst hne
    exact alike_exact
  · cases hfold : T.equalFold tag name with
    | true => exact alike_folded hne hfold
    | false => exact alike_apart hfold

/-- **The rules** hold exactly when they read every candidate alike. -/
theorem asRuled_iff (T : GoRunes) (view : String → String) (registry : Option (List RegistryEntry))
    (sourceRepo tag : String) : AsRuled T view registry sourceRepo tag ↔
      ∀ name ∈ candidates T sourceRepo registry, RuledAlike T view (trimSpace tag) name := by
  constructor
  · intro h name hname
    refine givenConfidence_eq_iff.mp (Option.ext fun c => ?_)
    have hc := h name c
    rw [linked_iff] at hc
    simpa [hname] using hc
  · intro h name confidence
    rw [linked_iff]
    refine and_congr_right fun hname => ?_
    rw [givenConfidence_eq_iff.mpr (h name hname)]

/-- A repository under its own name. -/
def goServingRegistry : List RegistryEntry := [⟨"goServing", "/src/goServing", "", ""⟩]

/-- The name of a repository is scored as equal up to case. -/
theorem goServing_demoted : ¬ ∃ view, AsRuled asciiGoRunes view (some goServingRegistry) "shop" "goServing" := by
  rintro ⟨view, h⟩
  have htrim : trimSpace "goServing" = "goServing" := by decide
  have hgiven : givenConfidence asciiGoRunes "goServing" "goServing" = some (9 / 10) := by
    rw [givenConfidence, if_pos rfl, if_neg (by decide)]
  have hruled := h "goServing" 1
  rw [linked_iff, htrim, hgiven] at hruled
  have hone : (some (9 / 10) : Option ℚ) = some 1 := (hruled.mpr ⟨by decide, if_pos rfl⟩).2
  norm_num at hone

/-- An acronym is cut into its letters. -/
example : splitIdentifierTokens asciiGoRunes "CMAdServing" = ["c", "m", "ad", "serving"] ∧
    documentedTokens asciiGoRunes "CMAdServing" = ["cm", "ad", "serving"] := by decide

end Ruled

/-! ### One order -/

section Order

/-- Confidence and length fall, names rise. -/
def ScoredLink.place (s : ScoredLink) : ℚᵒᵈ ×ₗ (ℕᵒᵈ ×ₗ String) :=
  toLex (OrderDual.toDual s.link.confidence, toLex (OrderDual.toDual s.nameLen, s.link.targetRepo))

theorem lessLinkScored_eq (a b : ScoredLink) : lessLinkScored a b = decide (a.place < b.place) := by
  rw [Bool.eq_iff_iff, decide_eq_true_eq, ScoredLink.place, ScoredLink.place, Prod.Lex.toLex_lt_toLex,
    Prod.Lex.toLex_lt_toLex, lessLinkScored]
  by_cases hconf : a.link.confidence = b.link.confidence
  · by_cases hlen : a.nameLen = b.nameLen
    · simp [hconf, hlen]
    · simp [hconf, hlen]
  · simp [hconf]

theorem lessLinkScored_eq_false_iff {a b : ScoredLink} : lessLinkScored b a = false ↔ a.place ≤ b.place := by
  rw [lessLinkScored_eq, decide_eq_false_iff_not, not_lt]

instance : Std.Total fun a b : ScoredLink => a.place ≤ b.place := ⟨fun a b => le_total a.place b.place⟩

instance : IsTrans ScoredLink fun a b => a.place ≤ b.place := ⟨fun _ _ _ => le_trans⟩

theorem sortLinksScored_sorted (l : List ScoredLink) : (sortLinksScored l).Pairwise fun a b => a.place ≤ b.place := by
  have hasymm : ∀ a b, lessLinkScored a b = true → lessLinkScored b a = false := by
    intro a b hab
    rw [lessLinkScored_eq, decide_eq_true_eq] at hab
    exact lessLinkScored_eq_false_iff.mpr hab.le
  have htrans : ∀ a b c, lessLinkScored b a = false → lessLinkScored c b = false → lessLinkScored c a = false := by
    intro a b c hab hbc
    rw [lessLinkScored_eq_false_iff] at hab hbc ⊢
    exact hab.trans hbc
  exact (List.pairwise_swapSort hasymm htrans l).imp lessLinkScored_eq_false_iff.mp

variable {T : GoRunes} {sourceRepo tag : String}

/-- The links that are built have one form. -/
theorem linkTo_eq_some {name : String} {s : ScoredLink} (h : linkTo T sourceRepo tag name = some s) :
    s.link.targetRepo = name ∧ s.nameLen = byteLen name := by
  rw [linkTo] at h
  generalize scoreTagAgainstRepo T (T.lower tag) (splitIdentifierTokens T tag) name = score at h
  obtain ⟨confidence, reason⟩ := score
  obtain ⟨-, heq⟩ := Option.ite_none_left_eq_some.mp h
  obtain rfl := Option.some.inj heq
  exact ⟨rfl, rfl⟩

/-- A target is scored once. -/
theorem nodup_targets (entries : List RegistryEntry) :
    ((scoreEntries T sourceRepo tag entries []).map (·.link.targetRepo)).Nodup := by
  rw [scoreEntries_eq, List.map_filterMap]
  refine nodup_firstBy_candidates.filterMap fun name name' target h h' => ?_
  obtain ⟨s, hs, rfl⟩ := Option.map_eq_some_iff.mp h
  obtain ⟨s', hs', htarget⟩ := Option.map_eq_some_iff.mp h'
  rw [← (linkTo_eq_some hs).1, ← (linkTo_eq_some hs').1, htarget]

/-- Two links of one place are one link. -/
theorem noTies_scoreEntries (entries : List RegistryEntry) :
    (scoreEntries T sourceRepo tag entries []).NoTies fun a b => a.place ≤ b.place := by
  intro a ha b hb hab hba
  have hplace : a.place = b.place := le_antisymm hab hba
  have htarget : a.link.targetRepo = b.link.targetRepo := by
    rw [ScoredLink.place, ScoredLink.place] at hplace
    have hpair := congrArg (fun p => (ofLex (ofLex p).2).2) hplace
    exact hpair
  exact List.inj_on_of_nodup_map (nodup_targets entries) ha hb htarget

/-- The entries come in any order. -/
theorem scoreEntries_perm {entries entries' : List RegistryEntry} (h : entries'.Perm entries) :
    (scoreEntries T sourceRepo tag entries' []).Perm (scoreEntries T sourceRepo tag entries []) := by
  rw [scoreEntries_eq, scoreEntries_eq]
  refine List.Perm.filterMap _ ((List.perm_ext_iff_of_nodup nodup_firstBy_candidates
    nodup_firstBy_candidates).mpr fun name => ?_)
  rw [mem_firstBy_candidates, mem_firstBy_candidates, candidates, candidates]
  exact ((h.map _).filter _).mem_iff

/-- Confidence falls, then the length of the target, and the names rise. -/
def RepoLink.Before (a b : RepoLink) : Prop :=
  b.confidence < a.confidence ∨ a.confidence = b.confidence ∧
    (byteLen b.targetRepo < byteLen a.targetRepo ∨
      byteLen a.targetRepo = byteLen b.targetRepo ∧ a.targetRepo < b.targetRepo)

/-- Every target once, none of them the source, in one order. -/
structure Canonical (T : GoRunes) (sourceRepo : String) (links : List RepoLink) : Prop where
  distinct : (links.map (·.targetRepo)).Nodup
  foreign : ∀ link ∈ links, T.equalFold link.targetRepo sourceRepo = false
  sorted : links.Pairwise RepoLink.Before

theorem canonical_sorted (entries : List RegistryEntry) :
    Canonical T sourceRepo ((sortLinksScored (scoreEntries T sourceRepo tag entries [])).map (·.link)) := by
  have hperm : (sortLinksScored (scoreEntries T sourceRepo tag entries [])).Perm
      (scoreEntries T sourceRepo tag entries []) := List.swapSort_perm _
  -- sorting leaves the targets distinct
  have hdistinct : ((sortLinksScored (scoreEntries T sourceRepo tag entries [])).map (·.link.targetRepo)).Nodup :=
    (hperm.map _).nodup_iff.mpr (nodup_targets entries)
  have hlinks : ∀ s ∈ sortLinksScored (scoreEntries T sourceRepo tag entries []),
      s.nameLen = byteLen s.link.targetRepo ∧ T.equalFold s.link.targetRepo sourceRepo = false := by
    intro s hs
    have hscored : s ∈ scoreEntries T sourceRepo tag ((some entries).getD []) [] := hperm.subset hs
    obtain ⟨name, hname, hlink⟩ := mem_scoreEntries.mp hscored
    obtain ⟨rfl, hlen⟩ := linkTo_eq_some hlink
    exact ⟨hlen, (mem_candidates.mp hname).2.2⟩
  refine ⟨?_, ?_, ?_⟩
  · rw [List.map_map]
    exact hdistinct
  · intro link hlink
    obtain ⟨s, hs, rfl⟩ := List.mem_map.mp hlink
    exact (hlinks s hs).2
  · rw [List.pairwise_map]
    -- neighbours in the order differ in their place, as their targets differ
    have hne := List.pairwise_map.mp hdistinct
    refine ((sortLinksScored_sorted _).and hne).imp_of_mem fun {a b} ha hb h => ?_
    have hlt : a.place < b.place := lt_of_le_of_ne h.1 fun heq => h.2 ?_
    · rw [ScoredLink.place, ScoredLink.place, Prod.Lex.toLex_lt_toLex, Prod.Lex.toLex_lt_toLex] at hlt
      rw [RepoLink.Before, ← (hlinks a ha).1, ← (hlinks b hb).1]
      simpa using hlt
    · exact congrArg (fun p => (ofLex (ofLex p).2).2) heq

/-- **Tag links are canonical**, and the order of the registry does not matter. -/
theorem linkTag_canonical (T : GoRunes) (registry : Option (List RegistryEntry)) (sourceRepo tag : String) :
    Canonical T sourceRepo (linkTag T registry sourceRepo tag) ∧
      ∀ entries ∈ registry, ∀ entries' : List RegistryEntry, entries'.Perm entries →
        linkTag T (some entries') sourceRepo tag = linkTag T registry sourceRepo tag := by
  refine ⟨linkTag_eq ▸ canonical_sorted _, fun entries hentries entries' hperm => ?_⟩
  obtain rfl : registry = some entries := hentries
  rw [linkTag_eq, linkTag_eq]
  have hscored : (scoreEntries T sourceRepo (trimSpace tag) entries' []).Perm
      (scoreEntries T sourceRepo (trimSpace tag) entries []) := scoreEntries_perm hperm
  have hties : (scoreEntries T sourceRepo (trimSpace tag) entries []).NoTies fun a b => a.place ≤ b.place :=
    noTies_scoreEntries entries
  have hsort : ∀ l : List ScoredLink, l.Perm (scoreEntries T sourceRepo (trimSpace tag) entries []) →
      sortLinksScored l = (scoreEntries T sourceRepo (trimSpace tag) entries []).insertionSort
        fun a b => a.place ≤ b.place := by
    intro l hl
    exact hties.eq_insertionSort ((List.swapSort_perm l).trans hl) (sortLinksScored_sorted l)
  show (sortLinksScored (scoreEntries T sourceRepo (trimSpace tag) entries' [])).map _ =
    (sortLinksScored (scoreEntries T sourceRepo (trimSpace tag) entries [])).map _
  rw [hsort _ hscored, hsort _ (List.Perm.refl _)]

/-- A stale row twice, an empty one and the source itself. -/
def staleNames : List RegistryEntry :=
  [⟨"serving", "/a", "", ""⟩, ⟨"", "", "", ""⟩, ⟨"Shop", "/shop", "", ""⟩, ⟨"adserving", "/b", "", ""⟩,
    ⟨"serving", "/old", "", ""⟩]

theorem linkTag_staleNames : Canonical asciiGoRunes "shop" (linkTag asciiGoRunes (some staleNames) "shop" "serving") ∧
    linkTag asciiGoRunes (some staleNames.reverse) "shop" "serving" =
      linkTag asciiGoRunes (some staleNames) "shop" "serving" :=
  ⟨(linkTag_canonical asciiGoRunes (some staleNames) "shop" "serving").1,
    (linkTag_canonical asciiGoRunes (some staleNames) "shop" "serving").2 staleNames rfl staleNames.reverse
      (List.reverse_perm _)⟩

end Order

end Devrouter.CrossRepo
