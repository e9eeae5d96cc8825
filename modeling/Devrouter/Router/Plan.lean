import Devrouter.Lib.Json
import Devrouter.Lib.Trim
import Devrouter.Router.TraceRecords

/-!
# Query plans

Model of `SanitizePlan` in `internal/router/planner.go`, of `ensureMustAnchor`, `encodeStringSlice`,
`decodeStringSlice` and `tracePlanFromFields` in `router.go`, and of `SplitQueryWords` in
`internal/codegraph/client.go`. A plan is stored in the trace of its query and sanitised once more when it
is read back.

A nil slice is a list without entries: it is printed as `null`, which is read as no entries. Metrics are
not modelled.
-/

namespace Devrouter

/-! ### Trimming -/

/-- `strings.Trim`. -/
def trimCut (cut : List Char) (s : String) : String := String.ofList (s.toList.trimWhile cut.contains)

/-- The punctuation that is trimmed from terms. -/
def termCut : List Char := ['.', ',', ';', ':', '!', '?', '"', '\x27', '(', ')', '[', ']', '\x7b', '\x7d']

/-- The runes that are trimmed from hints. -/
def hintCut : List Char := ' ' :: termCut

/-! ### Plans -/

structure QueryPlan where
  mustTerms : List String
  shouldTerms : List String
  excludeTerms : List String
  phrases : List String
  contextHints : List String
  mustAutoAnchored : Bool
  deriving DecidableEq, Repr

/-- The zero value. -/
def QueryPlan.zero : QueryPlan := ⟨[], [], [], [], [], false⟩

def maxMustTerms : ℕ := 2

def maxShouldTerms : ℕ := 6

def maxExcludeTerms : ℕ := 3

def maxPhrases : ℕ := 3

def maxContextHints : ℕ := 3

/-- One round of the loop of `sanitizeTerms`: the normalised term, unless it is dropped. -/
def sanitizeTerm (L : RuneLower) (t : String) : Option String :=
  let t := L.lower (trimSpace t)
  let t := trimCut termCut t
  if byteLen t < 2 ∨ 40 < byteLen t then none
  else if t.toList.any fun c => c ∈ [' ', '\t', '\n', '/'] then none
  else some t

def sanitizePhrase (L : RuneLower) (p : String) : Option String :=
  let p := L.lower (trimSpace p)
  if byteLen p < 3 ∨ 80 < byteLen p then none else some p

def sanitizeHint (L : RuneLower) (h : String) : Option String :=
  let h := L.lower (trimSpace h)
  let h := trimCut hintCut h
  if byteLen h < 2 ∨ 80 < byteLen h then none else some h

def sanitizeTerms (L : RuneLower) (ts : List String) : List String := (ts.filterMap (sanitizeTerm L)).eraseDups

def sanitizePhrases (L : RuneLower) (ps : List String) : List String :=
  (ps.filterMap (sanitizePhrase L)).eraseDups

def sanitizeHints (L : RuneLower) (hs : List String) : List String := (hs.filterMap (sanitizeHint L)).eraseDups

/-- `SanitizePlan`, with `capTerms`. -/
def sanitizePlan (L : RuneLower) (p : QueryPlan) : QueryPlan where
  mustTerms := (sanitizeTerms L p.mustTerms).take maxMustTerms
  shouldTerms := (sanitizeTerms L p.shouldTerms).take maxShouldTerms
  excludeTerms := (sanitizeTerms L p.excludeTerms).take maxExcludeTerms
  phrases := (sanitizePhrases L p.phrases).take maxPhrases
  contextHints := (sanitizeHints L p.contextHints).take maxContextHints
  mustAutoAnchored := false

/-! ### The auto-anchor -/

def stopWords : List String :=
  [
    "the", "a", "an", "and", "or", "but", "is", "in", "on", "at", "to", "for", "of", "with", "by", "from", "as",
    "into", "how", "what", "why", "where", "when", "which", "does", "do", "did", "can", "could", "should", "would",
    "will", "this", "that", "these", "those", "be", "been", "being", "have", "has", "had", "it", "its", "i", "we",
    "you", "me", "my", "about", "any", "all"]

/-- The suffixes `stemTerm` strips, in order. -/
def stemSuffixes : List String := ["ings", "ing", "ers", "ed", "es", "s"]

/-- `strings.TrimSuffix`, when the suffix is there. -/
def stripSuffix (w suf : String) : Option String :=
  if suf.toList.isSuffixOf w.toList then some (String.ofList (w.toList.take (w.toList.length - suf.toList.length)))
  else none

/-- The loop of `stemTerm`. -/
def stripStem (w : String) : List String → String
  | [] => w
  | suf :: sufs =>
    match stripSuffix w suf with
    | none => stripStem w sufs
    | some stripped =>
      let stripped :=
        if 6 ≤ byteLen stripped ∧ "ll".toList.isSuffixOf stripped.toList then
          String.ofList stripped.toList.dropLast
        else stripped
      if 4 ≤ byteLen stripped then stripped else stripStem w sufs

def stemTerm (w : String) : String := if byteLen w ≤ 6 then w else stripStem w stemSuffixes

/-- `strings.Fields`. -/
def textFields (s : String) : List String :=
  ((s.toList.splitOnP goIsSpace).filter (· ≠ [])).map String.ofList

/-- One round of the loop of `SplitQueryWords`. -/
def queryWord (L : RuneLower) (raw : String) : Option String :=
  let raw := trimCut termCut raw
  if byteLen raw < 2 then none
  else if stopWords.contains (L.lower raw) then none
  else some (stemTerm (L.lower raw))

def splitQueryWords (L : RuneLower) (q : String) : List String :=
  ((textFields q).filterMap (queryWord L)).eraseDups

/-- The loop of `ensureMustAnchor`: the rarest token so far with its count. `hits` is `NameHitCount`,
none when it fails. -/
def rarest (hits : String → Option ℤ) : Option (String × ℤ) → List String → Option (String × ℤ)
  | best, [] => best
  | best, t :: ts =>
    match hits t with
    | none => rarest hits best ts
    | some cnt =>
      if cnt ≤ 0 then rarest hits best ts
      else
        match best with
        | none => rarest hits (some (t, cnt)) ts
        | some (b, bestCnt) => rarest hits (if cnt < bestCnt then some (t, cnt) else some (b, bestCnt)) ts

def ensureMustAnchor (L : RuneLower) (hits : String → Option ℤ) (query : String) (existing : List String) :
    List String :=
  if existing ≠ [] then existing
  else
    match rarest hits none (splitQueryWords L query) with
    | none => existing
    | some (tok, _) => [tok]

/-- The plan `HandleQueryWithPlan` retrieves with. -/
def usedPlan (L : RuneLower) (hits : String → Option ℤ) (query : String) (provided : Option QueryPlan) :
    QueryPlan :=
  let plan := (provided.map (sanitizePlan L)).getD .zero
  let must := ensureMustAnchor L hits query plan.mustTerms
  { plan with mustTerms := must, mustAutoAnchored := decide (plan.mustTerms = [] ∧ must ≠ []) }

/-! ### The trace -/

/-- `encodeStringSlice`. -/
def encodeStringSlice (xs : List String) : String := String.ofList (Json.encode (xs.map String.toList))

def decodeStringSlice (raw : String) : List String :=
  let raw := trimSpace raw
  if raw = "" then []
  else
    match Json.decode raw.toList with
    | some out => out.map String.ofList
    | none => splitCSV raw

/-- The trace of a query that was served with a plan. -/
def ServedQuery.withPlan (t : ServedQuery) (p : QueryPlan) : ServedQuery :=
  { t with
    mustAutoAnchored := p.mustAutoAnchored
    mustTerms := p.mustTerms
    shouldTerms := p.shouldTerms
    excludeTerms := p.excludeTerms
    phrases := p.phrases
    contextHints := p.contextHints }

section Trace

variable (formatG : ℚ → String)

def tracePlanFromFields (L : RuneLower) (fields : List (String × TraceValue)) : QueryPlan :=
  let p : QueryPlan := {
    mustTerms := decodeStringSlice (traceField formatG fields "plan_must_terms")
    shouldTerms := decodeStringSlice (traceField formatG fields "plan_should_terms")
    excludeTerms := decodeStringSlice (traceField formatG fields "plan_exclude_terms")
    phrases := decodeStringSlice (traceField formatG fields "plan_phrases")
    contextHints := decodeStringSlice (traceField formatG fields "plan_context_hints")
    mustAutoAnchored := decide (traceField formatG fields "plan_auto_anchored" = "true") }
  { sanitizePlan L p with mustAutoAnchored := p.mustAutoAnchored }

end Trace

/-! ### Lower case -/

section Lower

variable {L : RuneLower}

theorem trimCut_toList (cut : List Char) (s : String) : (trimCut cut s).toList = s.toList.trimWhile cut.contains :=
  String.toList_ofList

/-- Trimming white space and punctuation leaves a lower-case text as it is exactly when it has neither at
its ends. -/
theorem trimmed_eq_self_iff (cut : List Char) {t : String} (hlower : L.lower t = t) :
    trimCut cut (L.lower (trimSpace t)) = t ↔ t.toList.Tight goIsSpace ∧ t.toList.Tight cut.contains := by
  rw [← String.toList_inj, trimCut_toList, L.lower_toList, trimSpace_toList]
  constructor
  · intro h
    have hspace : t.toList.trimWhile goIsSpace = t.toList := by
      -- nothing can be lost in between, since the end result is as long
      refine (List.trimWhile_isInfix _ _).eq_of_length (le_antisymm (List.trimWhile_isInfix _ _).length_le ?_)
      have hlen := (List.trimWhile_isInfix cut.contains ((t.toList.trimWhile goIsSpace).map L.toLower)).length_le
      rw [h, List.length_map] at hlen
      exact hlen
    refine ⟨List.trimWhile_eq_self_iff.mp hspace, List.trimWhile_eq_self_iff.mp ?_⟩
    rwa [hspace, ← L.lower_toList, hlower] at h
  · rintro ⟨hspace, hcut⟩
    rw [hspace.trimWhile_eq, ← L.lower_toList, hlower, hcut.trimWhile_eq]

end Lower

/-! ### What sanitising leaves as it is -/

/-- A term within the bounds of `sanitizeTerms`. -/
structure Anchor (t : String) : Prop where
  tight_cut : t.toList.Tight termCut.contains
  no_slash : '/' ∉ t.toList
  two_le : 2 ≤ byteLen t
  le_forty : byteLen t ≤ 40

/-- In lower case and in one piece. -/
structure OneWord (L : RuneLower) (t : String) : Prop where
  lower : L.lower t = t
  no_blank : ∀ c ∈ t.toList, c ∉ [' ', '\t', '\n']

section Kept

variable {L : RuneLower} {s t : String}

theorem sanitizeTerm_eq_some_iff : sanitizeTerm L s = some t ↔
    trimCut termCut (L.lower (trimSpace s)) = t ∧ 2 ≤ byteLen t ∧ byteLen t ≤ 40 ∧
      ∀ c ∈ t.toList, c ∉ [' ', '\t', '\n', '/'] := by
  unfold sanitizeTerm
  dsimp only
  split_ifs with hlen hany
  · refine iff_of_false (by simp) ?_
    rintro ⟨rfl, h₂, h₄₀, -⟩
    omega
  · refine iff_of_false (by simp) ?_
    rintro ⟨rfl, -, -, hno⟩
    obtain ⟨c, hc, hbad⟩ := List.any_eq_true.mp hany
    exact hno c hc (by simpa using hbad)
  · rw [Option.some_inj]
    refine ⟨fun h => ⟨h, ?_⟩, fun h => h.1⟩
    subst h
    refine ⟨by omega, by omega, fun c hc hbad => hany ?_⟩
    exact List.any_eq_true.mpr ⟨c, hc, by simpa using hbad⟩

/-- What `sanitizeTerms` returns is one word. -/
theorem oneWord_of_sanitizeTerm (h : sanitizeTerm L s = some t) : OneWord L t := by
  obtain ⟨rfl, -, -, hno⟩ := sanitizeTerm_eq_some_iff.mp h
  refine ⟨L.lower_eq_self_of_subset (trimSpace s) fun c hc => ?_, fun c hc hbad => hno c hc ?_⟩
  · rw [trimCut_toList] at hc
    exact List.mem_of_mem_trimWhile hc
  · exact List.mem_append_left ['/'] hbad

/-- What `sanitizeTerms` returns is within its bounds. -/
theorem anchor_of_sanitizeTerm (h : sanitizeTerm L s = some t) : Anchor t := by
  obtain ⟨rfl, h₂, h₄₀, hno⟩ := sanitizeTerm_eq_some_iff.mp h
  refine ⟨?_, fun hslash => hno _ hslash (by decide), h₂, h₄₀⟩
  rw [trimCut_toList]
  exact List.tight_trimWhile _ _

/-- Which words a second pass keeps. -/
theorem sanitizeTerm_eq_self_iff (h : OneWord L t) :
    sanitizeTerm L t = some t ↔ t.toList.Tight goIsSpace ∧ Anchor t := by
  rw [sanitizeTerm_eq_some_iff, trimmed_eq_self_iff termCut h.lower]
  constructor
  · rintro ⟨⟨hspace, hcut⟩, h₂, h₄₀, hno⟩
    exact ⟨hspace, hcut, fun hslash => hno _ hslash (by decide), h₂, h₄₀⟩
  · rintro ⟨hspace, hcut, hslash, h₂, h₄₀⟩
    refine ⟨⟨hspace, hcut⟩, h₂, h₄₀, fun c hc hbad => ?_⟩
    have hblank := h.no_blank c hc
    simp only [List.mem_cons, List.not_mem_nil, or_false] at hbad hblank
    rcases hbad with rfl | rfl | rfl | rfl
    · exact hblank (.inl rfl)
    · exact hblank (.inr (.inl rfl))
    · exact hblank (.inr (.inr rfl))
    · exact hslash hc

theorem sanitizeHint_eq_some_iff : sanitizeHint L s = some t ↔
    trimCut hintCut (L.lower (trimSpace s)) = t ∧ 2 ≤ byteLen t ∧ byteLen t ≤ 80 := by
  unfold sanitizeHint
  dsimp only
  split_ifs with hlen
  · refine iff_of_false (by simp) ?_
    rintro ⟨rfl, h₂, h₈₀⟩
    omega
  · rw [Option.some_inj]
    refine ⟨fun h => ⟨h, ?_⟩, fun h => h.1⟩
    subst h
    omega

/-- Which sanitised hints a second pass keeps: those without white space at their ends. -/
theorem sanitizeHint_again (h : sanitizeHint L s = some t) :
    sanitizeHint L t = some t ↔ t.toList.Tight goIsSpace := by
  obtain ⟨rfl, hlen⟩ := sanitizeHint_eq_some_iff.mp h
  have hlower : L.lower (trimCut hintCut (L.lower (trimSpace s))) = trimCut hintCut (L.lower (trimSpace s)) := by
    refine L.lower_eq_self_of_subset (trimSpace s) fun c hc => ?_
    rw [trimCut_toList] at hc
    exact List.mem_of_mem_trimWhile hc
  have hcut : (trimCut hintCut (L.lower (trimSpace s))).toList.Tight hintCut.contains := by
    rw [trimCut_toList]
    exact List.tight_trimWhile _ _
  rw [sanitizeHint_eq_some_iff, trimmed_eq_self_iff hintCut hlower, and_iff_left hlen, and_iff_left hcut]

/-- A second pass keeps every sanitised phrase. -/
theorem sanitizePhrase_again (h : sanitizePhrase L s = some t) : sanitizePhrase L t = some t := by
  unfold sanitizePhrase at h
  dsimp only at h
  split_ifs at h with hlen
  obtain rfl := Option.some.inj h
  have hlower : L.lower (L.lower (trimSpace s)) = L.lower (trimSpace s) :=
    L.lower_eq_self_of_subset (trimSpace s) fun c hc => hc
  -- the phrase was trimmed, and lower case makes no white space
  have htight : (L.lower (trimSpace s)).toList.Tight goIsSpace := by
    have hs := List.tight_trimWhile goIsSpace s.toList
    rw [L.lower_toList, trimSpace_toList]
    constructor
    · intro a ha
      rw [List.head?_map] at ha
      obtain ⟨b, hb, rfl⟩ := Option.map_eq_some_iff.mp ha
      rw [L.goIsSpace_toLower]
      exact hs.head b hb
    · intro a ha
      rw [List.getLast?_map] at ha
      obtain ⟨b, hb, rfl⟩ := Option.map_eq_some_iff.mp ha
      rw [L.goIsSpace_toLower]
      exact hs.last b hb
  have hfix : L.lower (trimSpace (L.lower (trimSpace s))) = L.lower (trimSpace s) := by
    have htrim : trimSpace (L.lower (trimSpace s)) = L.lower (trimSpace s) :=
      trimSpace_eq_self_iff.mpr htight
    rw [htrim, hlower]
  unfold sanitizePhrase
  dsimp only
  rw [hfix, if_neg hlen]

end Kept

/-! ### The words of a query -/

section Words

variable {L : RuneLower} {hits : String → Option ℤ}

theorem mem_of_stripSuffix {w suf x : String} (h : stripSuffix w suf = some x) : ∀ c ∈ x.toList, c ∈ w.toList := by
  intro c hc
  unfold stripSuffix at h
  split_ifs at h
  obtain rfl := Option.some.inj h
  rw [String.toList_ofList] at hc
  exact List.mem_of_mem_take hc

/-- A stem has no runes of its own. -/
theorem mem_of_stripStem (w : String) (sufs : List String) : ∀ c ∈ (stripStem w sufs).toList, c ∈ w.toList := by
  induction sufs with
  | nil => exact fun c hc => hc
  | cons suf sufs ih =>
    intro c hc
    cases hstrip : stripSuffix w suf with
    | none =>
      simp only [stripStem, hstrip] at hc
      exact ih c hc
    | some x =>
      have hx := mem_of_stripSuffix hstrip
      simp only [stripStem, hstrip] at hc
      split_ifs at hc
      · rw [String.toList_ofList] at hc
        exact hx c (List.dropLast_subset _ hc)
      · exact ih c hc
      · exact hx c hc
      · exact ih c hc

theorem mem_of_stemTerm (w : String) : ∀ c ∈ (stemTerm w).toList, c ∈ w.toList := by
  intro c hc
  unfold stemTerm at hc
  split_ifs at hc
  · exact hc
  · exact mem_of_stripStem w stemSuffixes c hc

/-- A word of a query: in lower case, without white space. -/
theorem mem_splitQueryWords {query w : String} (h : w ∈ splitQueryWords L query) :
    OneWord L w ∧ w.toList.Tight goIsSpace := by
  obtain ⟨raw, hraw, hword⟩ := List.mem_filterMap.mp (List.mem_eraseDups.mp h)
  have hfield : ∀ c ∈ raw.toList, goIsSpace c = false := by
    obtain ⟨f, hf, rfl⟩ := List.mem_map.mp hraw
    rw [String.toList_ofList]
    exact List.not_of_mem_splitOnP (List.mem_filter.mp hf).1
  unfold queryWord at hword
  dsimp only at hword
  split_ifs at hword
  obtain rfl := Option.some.inj hword
  -- each rune of the stem comes from the field, which has no white space
  have hspace : ∀ c ∈ (stemTerm (L.lower (trimCut termCut raw))).toList, goIsSpace c = false := by
    intro c hc
    have hmem := mem_of_stemTerm _ c hc
    rw [L.lower_toList, trimCut_toList] at hmem
    obtain ⟨d, hd, rfl⟩ := List.mem_map.mp hmem
    rw [L.goIsSpace_toLower]
    exact hfield d (List.mem_of_mem_trimWhile hd)
  refine ⟨⟨L.lower_eq_self_of_subset _ (mem_of_stemTerm _), fun c hc hblank => ?_⟩, ?_, ?_⟩
  · have hno := hspace c hc
    simp only [List.mem_cons, List.not_mem_nil, or_false] at hblank
    rcases hblank with rfl | rfl | rfl
    · exact absurd hno (by decide)
    · exact absurd hno (by decide)
    · exact absurd hno (by decide)
  · exact fun c hc => hspace c (List.mem_of_mem_head? hc)
  · exact fun c hc => hspace c (List.mem_of_getLast? hc)

/-- The rarest token is one of the tokens. -/
theorem rarest_mem {best : Option (String × ℤ)} {ts : List String} {r : String × ℤ}
    (h : rarest hits best ts = some r) : best = some r ∨ r.1 ∈ ts := by
  induction ts generalizing best with
  | nil => exact .inl h
  | cons t ts ih =>
    -- a later token replaces the one found so far, or leaves it
    have hlater : ∀ {b}, rarest hits b ts = some r → (b = some r → best = some r ∨ r.1 ∈ t :: ts) →
        best = some r ∨ r.1 ∈ t :: ts := by
      intro b hb hcase
      rcases ih hb with heq | hmem
      · exact hcase heq
      · exact .inr (List.mem_cons_of_mem t hmem)
    have htoken : ∀ {n}, some (t, n) = some r → best = some r ∨ r.1 ∈ t :: ts := by
      intro n heq
      obtain rfl := Option.some.inj heq
      exact .inr List.mem_cons_self
    unfold rarest at h
    split at h
    · exact hlater h .inl
    · split_ifs at h
      · exact hlater h .inl
      · split at h
        · exact hlater h htoken
        · refine hlater h fun heq => ?_
          split_ifs at heq
          · exact htoken heq
          · exact .inl heq

/-- The anchor of a query without must terms is one of its words. -/
theorem mem_ensureMustAnchor {query x : String} (h : x ∈ ensureMustAnchor L hits query []) :
    ensureMustAnchor L hits query [] = [x] ∧ x ∈ splitQueryWords L query := by
  cases hbest : rarest hits none (splitQueryWords L query) with
  | none => simp [ensureMustAnchor, hbest] at h
  | some r =>
    have heq : ensureMustAnchor L hits query [] = [r.1] := by simp [ensureMustAnchor, hbest]
    rw [heq] at h ⊢
    obtain rfl := List.mem_singleton.mp h
    exact ⟨rfl, (rarest_mem hbest).resolve_left (by simp)⟩

theorem ensureMustAnchor_of_ne {query : String} {existing : List String} (h : existing ≠ []) :
    ensureMustAnchor L hits query existing = existing := if_pos h

end Words

/-! ### The plan that is used -/

/-- A list of distinct entries within its cap. -/
structure Capped (n : ℕ) (l : List String) : Prop where
  nodup : l.Nodup
  length_le : l.length ≤ n

/-- A plan a query is served with: what `SanitizePlan` returns, or a word of the query as its anchor. -/
structure QueryPlan.Used (L : RuneLower) (p : QueryPlan) : Prop where
  must : Capped maxMustTerms p.mustTerms
  should : Capped maxShouldTerms p.shouldTerms
  exclude : Capped maxExcludeTerms p.excludeTerms
  phrases : Capped maxPhrases p.phrases
  hints : Capped maxContextHints p.contextHints
  words : ∀ x ∈ p.mustTerms ++ p.shouldTerms ++ p.excludeTerms, OneWord L x
  /-- Only the anchor can be out of bounds. -/
  anchors : ∀ x ∈ p.mustTerms ++ p.shouldTerms ++ p.excludeTerms,
    Anchor x ∨ (p.mustAutoAnchored = true ∧ x ∈ p.mustTerms)
  phrases_sanitized : ∀ x ∈ p.phrases, ∃ s, sanitizePhrase L s = some x
  hints_sanitized : ∀ x ∈ p.contextHints, ∃ s, sanitizeHint L s = some x

section Used

variable {L : RuneLower} {hits : String → Option ℤ}

theorem capped_normalised (f : String → Option String) (l : List String) (n : ℕ) :
    Capped n ((l.filterMap f).eraseDups.take n) :=
  ⟨(List.nodup_eraseDups _).sublist (List.take_sublist n _), List.length_take_le n _⟩

theorem exists_of_mem_normalised {f : String → Option String} {l : List String} {n : ℕ} {x : String}
    (h : x ∈ (l.filterMap f).eraseDups.take n) : ∃ s, f s = some x := by
  obtain ⟨s, -, hs⟩ := List.mem_filterMap.mp (List.mem_eraseDups.mp (List.mem_of_mem_take h))
  exact ⟨s, hs⟩

/-- The terms of a sanitised plan come from `sanitizeTerms`. -/
theorem exists_of_mem_sanitizePlan {p : QueryPlan} {x : String}
    (h : x ∈ (sanitizePlan L p).mustTerms ++ (sanitizePlan L p).shouldTerms ++ (sanitizePlan L p).excludeTerms) :
    ∃ s, sanitizeTerm L s = some x := by
  rcases List.mem_append.mp h with h | h
  · rcases List.mem_append.mp h with h | h
    · exact exists_of_mem_normalised h
    · exact exists_of_mem_normalised h
  · exact exists_of_mem_normalised h

theorem sanitizePlan_used (p : QueryPlan) : (sanitizePlan L p).Used L where
  must := capped_normalised _ _ _
  should := capped_normalised _ _ _
  exclude := capped_normalised _ _ _
  phrases := capped_normalised _ _ _
  hints := capped_normalised _ _ _
  words x hx := by
    obtain ⟨s, hs⟩ := exists_of_mem_sanitizePlan hx
    exact oneWord_of_sanitizeTerm hs
  anchors x hx := by
    obtain ⟨s, hs⟩ := exists_of_mem_sanitizePlan hx
    exact .inl (anchor_of_sanitizeTerm hs)
  phrases_sanitized x hx := exists_of_mem_normalised hx
  hints_sanitized x hx := exists_of_mem_normalised hx

/-- No plan is a sanitised plan. -/
theorem sanitizePlan_zero : sanitizePlan L .zero = .zero := rfl

/-- The plan before the auto-anchor is a sanitised one. -/
theorem exists_sanitizePlan (provided : Option QueryPlan) :
    ∃ q, (provided.map (sanitizePlan L)).getD .zero = sanitizePlan L q := by
  cases provided with
  | none => exact ⟨.zero, sanitizePlan_zero.symm⟩
  | some q => exact ⟨q, rfl⟩

/-- **The plan of a query.** -/
theorem usedPlan_used (query : String) (provided : Option QueryPlan) :
    (usedPlan L hits query provided).Used L := by
  obtain ⟨q, hq⟩ := exists_sanitizePlan (L := L) provided
  have hused := sanitizePlan_used (L := L) q
  unfold usedPlan
  dsimp only
  rw [hq]
  by_cases hmust : (sanitizePlan L q).mustTerms = []
  · -- the anchor is the only must term
    have hanchor : ∀ x ∈ ensureMustAnchor L hits query (sanitizePlan L q).mustTerms,
        ensureMustAnchor L hits query (sanitizePlan L q).mustTerms = [x] ∧ OneWord L x := by
      intro x hx
      rw [hmust] at hx ⊢
      obtain ⟨heq, hword⟩ := mem_ensureMustAnchor hx
      exact ⟨heq, (mem_splitQueryWords hword).1⟩
    have hother : ∀ {x}, x ∈ ensureMustAnchor L hits query (sanitizePlan L q).mustTerms ++
        (sanitizePlan L q).shouldTerms ++ (sanitizePlan L q).excludeTerms →
          x ∈ ensureMustAnchor L hits query (sanitizePlan L q).mustTerms ∨
            x ∈ (sanitizePlan L q).mustTerms ++ (sanitizePlan L q).shouldTerms ++ (sanitizePlan L q).excludeTerms := by
      intro x hx
      simp only [List.mem_append] at hx ⊢
      tauto
    refine { hused with must := ?_, words := ?_, anchors := ?_ }
    · dsimp only
      cases hm : ensureMustAnchor L hits query (sanitizePlan L q).mustTerms with
      | nil => exact ⟨List.nodup_nil, Nat.zero_le _⟩
      | cons x xs =>
        obtain ⟨heq, -⟩ := hanchor x (hm ▸ List.mem_cons_self)
        rw [← hm, heq]
        exact ⟨List.nodup_singleton x, by simp [maxMustTerms]⟩
    · intro x hx
      rcases hother hx with hx | hx
      · exact (hanchor x hx).2
      · exact hused.words x hx
    · intro x hx
      rcases hother hx with hx | hx
      · exact .inr ⟨decide_eq_true ⟨hmust, List.ne_nil_of_mem hx⟩, hx⟩
      · refine (hused.anchors x hx).imp_right ?_
        rintro ⟨-, hx⟩
        rw [hmust] at hx
        exact absurd hx List.not_mem_nil
  · rw [ensureMustAnchor_of_ne hmust, decide_eq_false fun h => hmust h.1]
    exact hused

/-- **A second pass** leaves a used plan as it is exactly when its terms and hints are free of white space at
their ends and its anchor is within the bounds of a term. -/
theorem QueryPlan.Used.sanitizePlan_eq_self_iff {p : QueryPlan} (hp : p.Used L) :
    { sanitizePlan L p with mustAutoAnchored := p.mustAutoAnchored } = p ↔
      (∀ x ∈ p.mustTerms ++ p.shouldTerms ++ p.excludeTerms ++ p.contextHints, x.toList.Tight goIsSpace) ∧
        (p.mustAutoAnchored = true → ∀ x ∈ p.mustTerms, Anchor x) := by
  -- a capped list of its own words is left alone when each of its words is
  have hterms : ∀ {ts n}, Capped n ts →
      ((sanitizeTerms L ts).take n = ts ↔ ∀ x ∈ ts, sanitizeTerm L x = some x) :=
    fun hc => List.normalised_eq_self_iff hc.nodup hc.length_le
  -- the phrases of a plan in use have been sanitized, and this settles them
  have hphrases : (sanitizePhrases L p.phrases).take maxPhrases = p.phrases := by
    refine (List.normalised_eq_self_iff hp.phrases.nodup hp.phrases.length_le).mpr fun x hx => ?_
    obtain ⟨s, hs⟩ := hp.phrases_sanitized x hx
    exact sanitizePhrase_again hs
  have hhints : (sanitizeHints L p.contextHints).take maxContextHints = p.contextHints ↔
      ∀ x ∈ p.contextHints, x.toList.Tight goIsSpace := by
    refine (List.normalised_eq_self_iff hp.hints.nodup hp.hints.length_le).trans ?_
    refine forall₂_congr fun x hx => ?_
    obtain ⟨s, hs⟩ := hp.hints_sanitized x hx
    exact sanitizeHint_again hs
  -- `Anchor` is asked of every term, and only the auto-anchored must terms may lack it
  have hkept : (∀ x ∈ p.mustTerms ++ p.shouldTerms ++ p.excludeTerms, sanitizeTerm L x = some x) ↔
      (∀ x ∈ p.mustTerms ++ p.shouldTerms ++ p.excludeTerms, x.toList.Tight goIsSpace) ∧
        (p.mustAutoAnchored = true → ∀ x ∈ p.mustTerms, Anchor x) := by
    have hiff := fun x hx => sanitizeTerm_eq_self_iff (hp.words x hx)
    constructor
    · intro h
      refine ⟨fun x hx => ((hiff x hx).mp (h x hx)).1, fun _ x hx => ?_⟩
      have hmem := List.mem_append_left p.excludeTerms (List.mem_append_left p.shouldTerms hx)
      exact ((hiff x hmem).mp (h x hmem)).2
    · rintro ⟨htight, hanchor⟩ x hx
      refine (hiff x hx).mpr ⟨htight x hx, ?_⟩
      rcases hp.anchors x hx with h | ⟨hauto, hmust⟩
      · exact h
      · exact hanchor hauto x hmust
  -- the plan is its five lists, so it is left alone when they are
  have hfields : { sanitizePlan L p with mustAutoAnchored := p.mustAutoAnchored } = p ↔
      (sanitizeTerms L p.mustTerms).take maxMustTerms = p.mustTerms ∧
        (sanitizeTerms L p.shouldTerms).take maxShouldTerms = p.shouldTerms ∧
          (sanitizeTerms L p.excludeTerms).take maxExcludeTerms = p.excludeTerms ∧
            (sanitizePhrases L p.phrases).take maxPhrases = p.phrases ∧
              (sanitizeHints L p.contextHints).take maxContextHints = p.contextHints := by
    obtain ⟨must, should, exclude, phrases, hints, auto⟩ := p
    simp [sanitizePlan]
  rw [hfields, hterms hp.must, hterms hp.should, hterms hp.exclude, hhints, and_iff_right hphrases]
  constructor
  · rintro ⟨hmust, hshould, hexclude, hhint⟩
    have hall := List.forall_mem_append.mpr ⟨List.forall_mem_append.mpr ⟨hmust, hshould⟩, hexclude⟩
    obtain ⟨htight, hanchor⟩ := hkept.mp hall
    exact ⟨List.forall_mem_append.mpr ⟨htight, hhint⟩, hanchor⟩
  · rintro ⟨htight, hanchor⟩
    obtain ⟨hwords, hhint⟩ := List.forall_mem_append.mp htight
    obtain ⟨hboth, hexclude⟩ := List.forall_mem_append.mp (hkept.mpr ⟨hwords, hanchor⟩)
    obtain ⟨hmust, hshould⟩ := List.forall_mem_append.mp hboth
    exact ⟨hmust, hshould, hexclude, hhint⟩

end Used

/-! ### The way through the trace -/

section Replay

variable (formatG : ℚ → String)

/-- An encoded list starts and ends with a bracket. -/
theorem encode_ends (ss : List (List Char)) :
    (Json.encode ss).head? = some '[' ∧ (Json.encode ss).getLast? = some ']' := by
  have hrest : ∀ ss : List (List Char), (Json.encodeRest ss).getLast? = some ']' := by
    intro ss
    induction ss with
    | nil => rfl
    | cons s ss ih => simp [Json.encodeRest, List.getLast?_cons, ih]
  cases ss with
  | nil => exact ⟨rfl, rfl⟩
  | cons s ss => exact ⟨rfl, by simp [Json.encode, List.getLast?_cons, hrest ss]⟩

/-- **Lists of texts** come back from their field. -/
theorem decodeStringSlice_encodeStringSlice (xs : List String) :
    decodeStringSlice (encodeStringSlice xs) = xs := by
  obtain ⟨hhead, hlast⟩ := encode_ends (xs.map String.toList)
  have htext : (encodeStringSlice xs).toList = Json.encode (xs.map String.toList) := String.toList_ofList
  -- the text begins and ends with its brackets, so there is nothing to trim
  have htrim : trimSpace (encodeStringSlice xs) = encodeStringSlice xs := by
    rw [trimSpace_eq_self_iff, htext]
    constructor
    · intro c hc
      rw [hhead] at hc
      rw [← Option.some.inj hc]
      rfl
    · intro c hc
      rw [hlast] at hc
      rw [← Option.some.inj hc]
      rfl
  -- and it is not empty
  have hne : encodeStringSlice xs ≠ "" := by
    intro h
    rw [← htext, h] at hhead
    exact absurd hhead (by simp)
  have hback : (xs.map String.toList).map String.ofList = xs := by
    rw [List.map_map]
    exact (List.map_congr_left fun x _ => String.ofList_toList).trans (List.map_id xs)
  unfold decodeStringSlice
  dsimp only
  rw [htrim, if_neg hne, htext, Json.decode_encode]
  exact hback

/-- A field that holds a text is read as it. -/
theorem traceField_of_fieldOf {fields : List (String × TraceValue)} {name s : String}
    (h : fieldOf fields name = some (.text s)) : traceField formatG fields name = s := by
  unfold fieldOf at h
  obtain ⟨f, hf, hs⟩ := Option.map_eq_some_iff.mp h
  obtain ⟨n, v⟩ := f
  obtain rfl : v = .text s := hs
  unfold traceField
  rw [hf]

/-- A text that is stored for a query is read back from its trace, whatever the key held before. -/
theorem traceField_stored (t : ServedQuery) (name : String) {s : String}
    (h : fieldOf (traceHashFields encodeStringSlice t) name = some (.text s))
    (old : List (String × TraceValue)) :
    traceField formatG ((traceHashFields encodeStringSlice t).foldl hsetField old) name = s := by
  have hmem : name ∈ (traceHashFields encodeStringSlice t).map Prod.fst := by
    unfold fieldOf at h
    obtain ⟨f, hf, -⟩ := Option.map_eq_some_iff.mp h
    refine List.mem_map.mpr ⟨f, List.mem_of_find?_eq_some hf, ?_⟩
    simpa using List.find?_some hf
  apply traceField_of_fieldOf
  rw [fieldOf_foldl_of_nodup (traceHashFields_nodup _ t) hmem, h]

/-- **What the trace gives back**: the plan, sanitised once more. -/
theorem tracePlanFromFields_stored (L : RuneLower) (t : ServedQuery) (p : QueryPlan)
    (old : List (String × TraceValue)) :
    tracePlanFromFields formatG L
        ((traceHashFields encodeStringSlice (t.withPlan p)).foldl hsetField old) =
      { sanitizePlan L p with mustAutoAnchored := p.mustAutoAnchored } := by
  have hmust := traceField_stored formatG (t.withPlan p) "plan_must_terms" rfl old
  have hshould := traceField_stored formatG (t.withPlan p) "plan_should_terms" rfl old
  have hexclude := traceField_stored formatG (t.withPlan p) "plan_exclude_terms" rfl old
  have hphrases := traceField_stored formatG (t.withPlan p) "plan_phrases" rfl old
  have hhints := traceField_stored formatG (t.withPlan p) "plan_context_hints" rfl old
  have hauto := traceField_stored formatG (t.withPlan p) "plan_auto_anchored" rfl old
  unfold tracePlanFromFields
  rw [hmust, hshould, hexclude, hphrases, hhints, hauto]
  simp only [decodeStringSlice_encodeStringSlice]
  obtain ⟨must, should, exclude, phrases, hints, auto⟩ := p
  cases auto with
  | false => rfl
  | true => rfl

/-- **A plan is replayed from its trace** exactly when its terms and hints have no white space at their ends
and the word it was auto-anchored with is within the bounds of a term. -/
theorem plan_replayed_iff (L : RuneLower) (hits : String → Option ℤ) (query : String)
    (provided : Option QueryPlan) (t : ServedQuery) (old : List (String × TraceValue)) :
    tracePlanFromFields formatG L ((traceHashFields encodeStringSlice
        (t.withPlan (usedPlan L hits query provided))).foldl hsetField old) = usedPlan L hits query provided ↔
      (∀ x ∈ (usedPlan L hits query provided).mustTerms ++ (usedPlan L hits query provided).shouldTerms ++
          (usedPlan L hits query provided).excludeTerms ++ (usedPlan L hits query provided).contextHints,
            x.toList.Tight goIsSpace) ∧
        ((usedPlan L hits query provided).mustAutoAnchored = true →
          ∀ x ∈ (usedPlan L hits query provided).mustTerms, Anchor x) := by
  rw [tracePlanFromFields_stored]
  exact (usedPlan_used query provided).sanitizePlan_eq_self_iff

end Replay

/-- The plan of a query for an identifier that is longer than a term may be. -/
def longAnchorPlan : QueryPlan :=
  usedPlan asciiRunes (fun w => if w = "handlesubmitfeedbackwithoutrecordedtraceentry" then some 1 else some 0)
    "where is handleSubmitFeedbackWithoutRecordedTraceEntry called" none

/-- **A long name is lost**: the replayed plan has no must term. -/
theorem longAnchor_dropped :
    tracePlanFromFields (fun _ => "") asciiRunes ((traceHashFields encodeStringSlice
        ((emptyQuery "q1").withPlan longAnchorPlan)).foldl hsetField []) ≠ longAnchorPlan ∧
      longAnchorPlan.mustTerms = ["handlesubmitfeedbackwithoutrecordedtraceentry"] ∧
        (tracePlanFromFields (fun _ => "") asciiRunes ((traceHashFields encodeStringSlice
          ((emptyQuery "q1").withPlan longAnchorPlan)).foldl hsetField [])).mustTerms = [] := by
  decide +kernel

end Devrouter
