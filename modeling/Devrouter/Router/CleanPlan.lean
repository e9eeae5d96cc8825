import Devrouter.Lib.FirstSeen
import Devrouter.Router.Plan

/-!
# Sanitised plans

What `SanitizePlan` promises of a plan: each field keeps the first distinct normal forms of its entries, within a cap
and within bounds on their lengths; terms are single words; and a second pass changes nothing.

Trimming comes in two steps, white space first and punctuation behind it, so white space that stood inside punctuation
is left at an end; and terms are tested for a few kinds of white space only. `sanitizePlan_right_iff` says for which
plans none of this happens.
-/

namespace Devrouter

section Normal

variable (L : RuneLower)

/-- The normal form of a term, before it is tested. -/
def normalTerm (t : String) : String := trimCut termCut (L.lower (trimSpace t))

def normalPhrase (p : String) : String := L.lower (trimSpace p)

def normalHint (h : String) : String := trimCut hintCut (L.lower (trimSpace h))

/-- **What a field keeps**: the normal forms of some of its entries, within a cap and within bounds on their lengths,
without repetitions and in the order in which they are first seen. -/
structure FieldRight (normal : String → String) (low high cap : ℕ) (entries out : List String) : Prop where
  capped : out.length ≤ cap
  lengths : ∀ x ∈ out, low ≤ byteLen x ∧ byteLen x ≤ high
  nodup : out.Nodup
  subsequence : out.Sublist (entries.map normal)
  first_seen : out.Pairwise fun x y => (entries.map normal).idxOf x < (entries.map normal).idxOf y

/-- **The plan is right.** -/
structure SanitizeRight (p : QueryPlan) : Prop where
  idempotent : sanitizePlan L (sanitizePlan L p) = sanitizePlan L p
  must : FieldRight (normalTerm L) 2 40 maxMustTerms p.mustTerms (sanitizePlan L p).mustTerms
  should : FieldRight (normalTerm L) 2 40 maxShouldTerms p.shouldTerms (sanitizePlan L p).shouldTerms
  exclude : FieldRight (normalTerm L) 2 40 maxExcludeTerms p.excludeTerms (sanitizePlan L p).excludeTerms
  phrases : FieldRight (normalPhrase L) 3 80 maxPhrases p.phrases (sanitizePlan L p).phrases
  hints : FieldRight (normalHint L) 2 80 maxContextHints p.contextHints (sanitizePlan L p).contextHints
  words : ∀ x ∈ (sanitizePlan L p).mustTerms ++ (sanitizePlan L p).shouldTerms ++ (sanitizePlan L p).excludeTerms,
    ∀ c ∈ x.toList, goIsSpace c = false ∧ c ≠ '/'

/-- What an entry comes to when white space and then punctuation are taken off its ends. -/
def core (cut : List Char) (s : String) : List Char := (s.toList.trimWhile goIsSpace).trimWhile cut.contains

/-- **Clean entries**: of the entries that are taken, no term has white space inside its punctuation, and no hint has
it right inside. -/
structure CleanEntries (p : QueryPlan) : Prop where
  must : ∀ t, List.Taken (sanitizeTerm L) maxMustTerms p.mustTerms t → ∀ c ∈ core termCut t, goIsSpace c = false
  should : ∀ t, List.Taken (sanitizeTerm L) maxShouldTerms p.shouldTerms t → ∀ c ∈ core termCut t, goIsSpace c = false
  exclude : ∀ t, List.Taken (sanitizeTerm L) maxExcludeTerms p.excludeTerms t →
    ∀ c ∈ core termCut t, goIsSpace c = false
  hints : ∀ h, List.Taken (sanitizeHint L) maxContextHints p.contextHints h → (core hintCut h).Tight goIsSpace

variable {L} {s t x : String}

/-! ### Normal forms -/

/-- Lower case keeps the characters that are cut apart. -/
theorem contains_toLower {cut : List Char} (hcut : ∀ d ∈ cut, d.toNat < 128 ∧ d.isAlpha = false) :
    cut.contains ∘ L.toLower = cut.contains := by
  funext c
  rw [Function.comp_apply, Bool.eq_iff_iff, List.contains_iff_mem, List.contains_iff_mem]
  constructor
  · intro h
    rwa [← (L.caseless c _ (.inr (hcut _ h))).mp rfl] at h
  · intro h
    rwa [(L.caseless c c (.inr (hcut c h))).mpr rfl]

/-- A cut set is checked character by character. -/
theorem plain_of_all {cut : List Char} (h : (cut.all fun d => decide (d.toNat < 128 ∧ d.isAlpha = false)) = true) :
    ∀ d ∈ cut, d.toNat < 128 ∧ d.isAlpha = false := by
  intro d hd
  exact of_decide_eq_true (List.all_eq_true.mp h d hd)

theorem termCut_plain : ∀ d ∈ termCut, d.toNat < 128 ∧ d.isAlpha = false := plain_of_all (by decide)

theorem hintCut_plain : ∀ d ∈ hintCut, d.toNat < 128 ∧ d.isAlpha = false := plain_of_all (by decide)

/-- Trimming does not depend on the case. -/
theorem normal_toList {cut : List Char} (hcut : ∀ d ∈ cut, d.toNat < 128 ∧ d.isAlpha = false) (s : String) :
    (trimCut cut (L.lower (trimSpace s))).toList = (core cut s).map L.toLower := by
  unfold core
  rw [trimCut_toList, L.lower_toList, trimSpace_toList, List.trimWhile_map, contains_toLower hcut]

theorem sanitizePhrase_eq_some_iff : sanitizePhrase L s = some t ↔
    normalPhrase L s = t ∧ 3 ≤ byteLen t ∧ byteLen t ≤ 80 := by
  unfold sanitizePhrase normalPhrase
  dsimp only
  split_ifs with hlen
  · refine iff_of_false (by simp) ?_
    rintro ⟨rfl, h₃, h₈₀⟩
    omega
  · rw [Option.some_inj]
    refine ⟨fun h => ⟨h, ?_⟩, fun h => h.1⟩
    subst h
    omega

/-- **A field**, for a normal form and a test of it. -/
theorem fieldRight_normalised {normal : String → String} {sanitize : String → Option String} {ok : String → Prop}
    {low high : ℕ} (hsanitize : ∀ s x, sanitize s = some x ↔ normal s = x ∧ ok x)
    (hlengths : ∀ x, ok x → low ≤ byteLen x ∧ byteLen x ≤ high) (cap : ℕ) (entries : List String) :
    FieldRight normal low high cap entries ((entries.filterMap sanitize).eraseDups.take cap) := by
  classical
  -- the entries that are kept are those whose normal forms pass the test
  have hfilter : entries.filterMap sanitize = (entries.map normal).filter fun x => decide (ok x) := by
    induction entries with
    | nil => rfl
    | cons s entries ih =>
      rw [List.map_cons]
      by_cases hok : ok (normal s)
      · rw [List.filterMap_cons_some ((hsanitize s _).mpr ⟨rfl, hok⟩), ih, List.filter_cons_of_pos (by simpa using hok)]
      · have hnone : sanitize s = none := Option.eq_none_iff_forall_ne_some.mpr fun x hx =>
          hok (((hsanitize s x).mp hx).1.symm ▸ ((hsanitize s x).mp hx).2)
        rw [List.filterMap_cons_none hnone, ih, List.filter_cons_of_neg (by simpa using hok)]
  have hmem : ∀ {x}, x ∈ ((entries.map normal).filter fun x => decide (ok x)).eraseDups.take cap → ok x := by
    intro x hx
    exact of_decide_eq_true (List.mem_filter.mp (List.mem_eraseDups.mp (List.mem_of_mem_take hx))).2
  rw [hfilter]
  refine ⟨List.length_take_le _ _, fun x hx => hlengths x (hmem hx), ?_, ?_, ?_⟩
  · exact (List.nodup_eraseDups _).sublist (List.take_sublist _ _)
  · exact ((List.take_sublist _ _).trans (List.eraseDups_sublist _)).trans List.filter_sublist
  · refine ((List.pairwise_idxOf_eraseDups _).sublist (List.take_sublist _ _)).imp_of_mem fun {x y} hx hy hxy => ?_
    exact List.idxOf_lt_of_filter (decide_eq_true (hmem hx)) (decide_eq_true (hmem hy)) hxy

theorem fieldRight_terms (cap : ℕ) (ts : List String) :
    FieldRight (normalTerm L) 2 40 cap ts ((sanitizeTerms L ts).take cap) :=
  fieldRight_normalised (fun _ _ => sanitizeTerm_eq_some_iff) (fun _ h => ⟨h.1, h.2.1⟩) cap ts

theorem fieldRight_phrases (cap : ℕ) (ps : List String) :
    FieldRight (normalPhrase L) 3 80 cap ps ((sanitizePhrases L ps).take cap) :=
  fieldRight_normalised (fun _ _ => sanitizePhrase_eq_some_iff) (fun _ h => h) cap ps

theorem fieldRight_hints (cap : ℕ) (hs : List String) :
    FieldRight (normalHint L) 2 80 cap hs ((sanitizeHints L hs).take cap) :=
  fieldRight_normalised (fun _ _ => sanitizeHint_eq_some_iff) (fun _ h => h) cap hs

/-! ### White space -/

/-- The terms that are kept have no white space exactly when the entries they come from have none inside. -/
theorem words_iff_clean {cap : ℕ} {ts : List String} :
    (∀ x ∈ (sanitizeTerms L ts).take cap, ∀ c ∈ x.toList, goIsSpace c = false) ↔
      ∀ t, List.Taken (sanitizeTerm L) cap ts t → ∀ c ∈ core termCut t, goIsSpace c = false := by
  constructor
  · intro h t htaken c hc
    obtain ⟨-, -, x, -, hx, -, -⟩ := id htaken
    have hout : x ∈ (sanitizeTerms L ts).take cap := List.mem_take_normalised_iff.mpr ⟨t, htaken, hx⟩
    obtain ⟨rfl, -⟩ := sanitizeTerm_eq_some_iff.mp hx
    have hlow := h _ hout (L.toLower c) (normal_toList termCut_plain t ▸ List.mem_map_of_mem hc)
    rwa [L.goIsSpace_toLower] at hlow
  · intro h x hx c hc
    obtain ⟨t, htaken, ht⟩ := List.mem_take_normalised_iff.mp hx
    obtain ⟨rfl, -⟩ := sanitizeTerm_eq_some_iff.mp ht
    rw [normal_toList termCut_plain] at hc
    obtain ⟨d, hd, rfl⟩ := List.mem_map.mp hc
    rw [L.goIsSpace_toLower]
    exact h t htaken d hd

/-- The same for hints and their ends. -/
theorem hints_iff_clean {cap : ℕ} {hs : List String} :
    (∀ x ∈ (sanitizeHints L hs).take cap, x.toList.Tight goIsSpace) ↔
      ∀ h, List.Taken (sanitizeHint L) cap hs h → (core hintCut h).Tight goIsSpace := by
  have hspace : goIsSpace ∘ L.toLower = goIsSpace := funext L.goIsSpace_toLower
  have htight : ∀ {h x}, sanitizeHint L h = some x → (x.toList.Tight goIsSpace ↔ (core hintCut h).Tight goIsSpace) := by
    intro h x hx
    obtain ⟨rfl, -⟩ := sanitizeHint_eq_some_iff.mp hx
    rw [normal_toList hintCut_plain, List.tight_map_iff, hspace]
  constructor
  · intro hall h htaken
    obtain ⟨-, -, x, -, hx, -, -⟩ := id htaken
    exact (htight hx).mp (hall x (List.mem_take_normalised_iff.mpr ⟨h, htaken, hx⟩))
  · intro hall x hx
    obtain ⟨h, htaken, hh⟩ := List.mem_take_normalised_iff.mp hx
    exact (htight hh).mpr (hall h htaken)

/-- **A sanitised plan** is right exactly when its entries are clean. -/
theorem sanitizePlan_right_iff (L : RuneLower) (p : QueryPlan) : SanitizeRight L p ↔ CleanEntries L p := by
  have hused := sanitizePlan_used (L := L) p
  -- a second pass looks at the ends of terms and hints
  have hagain : sanitizePlan L (sanitizePlan L p) = sanitizePlan L p ↔
      ∀ x ∈ (sanitizePlan L p).mustTerms ++ (sanitizePlan L p).shouldTerms ++ (sanitizePlan L p).excludeTerms ++
        (sanitizePlan L p).contextHints, x.toList.Tight goIsSpace :=
    hused.sanitizePlan_eq_self_iff.trans (and_iff_left fun hauto => absurd hauto Bool.false_ne_true)
  constructor
  · intro hright
    have hhints := (List.forall_mem_append.mp (hagain.mp hright.idempotent)).2
    obtain ⟨hboth, hexclude⟩ := List.forall_mem_append.mp hright.words
    obtain ⟨hmust, hshould⟩ := List.forall_mem_append.mp hboth
    exact ⟨words_iff_clean.mp fun x hx c hc => (hmust x hx c hc).1,
      words_iff_clean.mp fun x hx c hc => (hshould x hx c hc).1,
      words_iff_clean.mp fun x hx c hc => (hexclude x hx c hc).1, hints_iff_clean.mp hhints⟩
  · intro hclean
    have hwords : ∀ x ∈ (sanitizePlan L p).mustTerms ++ (sanitizePlan L p).shouldTerms ++
        (sanitizePlan L p).excludeTerms, ∀ c ∈ x.toList, goIsSpace c = false :=
      List.forall_mem_append.mpr ⟨List.forall_mem_append.mpr
        ⟨words_iff_clean.mpr hclean.must, words_iff_clean.mpr hclean.should⟩, words_iff_clean.mpr hclean.exclude⟩
    refine ⟨hagain.mpr (List.forall_mem_append.mpr ⟨fun x hx => ?_, hints_iff_clean.mpr hclean.hints⟩),
      fieldRight_terms _ _, fieldRight_terms _ _, fieldRight_terms _ _, fieldRight_phrases _ _, fieldRight_hints _ _,
      fun x hx c hc => ⟨hwords x hx c hc, ?_⟩⟩
    · -- a term without white space has none at its ends
      exact ⟨fun c hc => hwords x hx c (List.mem_of_mem_head? hc), fun c hc => hwords x hx c (List.mem_of_getLast? hc)⟩
    · obtain ⟨s, hs⟩ := exists_of_mem_sanitizePlan hx
      intro hslash
      exact (anchor_of_sanitizeTerm hs).no_slash (hslash ▸ hc)

end Normal

/-! ### A space inside a bracket -/

/-- A must term in brackets, with a no-break space behind the first. -/
def bracketPlan : QueryPlan := { QueryPlan.zero with mustTerms := ["(\u00a0cart)"] }

/-- **The space is left**: the second pass takes it off. -/
theorem bracket_space :
    (sanitizePlan asciiRunes bracketPlan).mustTerms = ["\u00a0cart"] ∧
      (sanitizePlan asciiRunes (sanitizePlan asciiRunes bracketPlan)).mustTerms = ["cart"] ∧
      ¬SanitizeRight asciiRunes bracketPlan := by
  have honce : (sanitizePlan asciiRunes bracketPlan).mustTerms = ["\u00a0cart"] := by decide +kernel
  have htwice : (sanitizePlan asciiRunes (sanitizePlan asciiRunes bracketPlan)).mustTerms = ["cart"] := by
    decide +kernel
  refine ⟨honce, htwice, fun h => ?_⟩
  have hsame := congrArg QueryPlan.mustTerms h.idempotent
  rw [honce, htwice] at hsame
  exact absurd hsame (by decide)

end Devrouter
