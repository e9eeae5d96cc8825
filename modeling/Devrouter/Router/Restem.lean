import Devrouter.Codegraph.Tokens
import Devrouter.Router.CallChain

/-!
# Words that are read twice

`buildEffectiveQuery` in `internal/router/router.go` puts the must term behind the query, and `SplitQueryWords` takes
the result apart again. A must term that `ensureMustAnchor` chose is a word of the query that was stemmed already, so it
is stemmed twice.

The stem of a word is given without the loop of `stemTerm` first (`stemTerm_eq_bare`). Reading a word again leaves it as
it is exactly when it is settled (`queryWord_eq_self_iff`), and from this follow both results: which queries come out
of a second pass as they are, and to which the anchor adds nothing.
-/

namespace Devrouter

open Codegraph

/-- A word without its suffix. Of seven bytes with `ings` only the `s` is taken, so that four are left. -/
def bare (w : String) : String :=
  if byteLen w ≤ 6 then w
  else
    match firstSuffix w with
    | none => w
    | some suf =>
      if suf = "ings" ∧ byteLen w = 7 then withoutSuffix w "s" else dropDoubled Char.utf8Size (withoutSuffix w suf)

/-- The word of a field in lower case, before it is stemmed. -/
def spelled (L : RuneLower) (raw : String) : Option String :=
  let raw := trimCut termCut raw
  if byteLen raw < 2 then none
  else if stopWords.contains (L.lower raw) then none
  else some (L.lower raw)

/-- The words of a text as they are spelled in it. -/
def spelledWords (L : RuneLower) (q : String) : List String := (textFields q).filterMap (spelled L)

/-- **A settled word**: it has no punctuation at its ends, is no stop word, and is short or has no suffix. -/
structure SettledWord (t : String) : Prop where
  tight : t.toList.Tight termCut.contains
  two_le : 2 ≤ byteLen t
  no_stop : t ∉ stopWords
  no_suffix : byteLen t ≤ 6 ∨ firstSuffix t = none

/-- A word that is dropped when it is read again. -/
def Silent (t : String) : Prop := byteLen (trimCut termCut t) < 2 ∨ trimCut termCut t ∈ stopWords

/-- What is read is among the words of the query. -/
def AddsNothing (L : RuneLower) (q w : String) : Prop := ∃ w' ∈ spelledWords L q, bare w' = bare w

/-! ### One word -/

theorem stemTerm_eq_bare (w : String) : stemTerm w = bare w := by
  have hgo := countsLetters_utf8Size
  rw [stemTerm_eq_stemBy]
  unfold bare
  split_ifs with hlen
  · exact stemBy_of_le hlen
  · have hlong : 6 < textSize Char.utf8Size w := not_le.mp hlen
    split
    · next hsuf => exact stemBy_of_none hsuf
    · next suf hsuf =>
      split_ifs with hings
      · obtain ⟨rfl, hseven⟩ := hings
        exact hgo.stemBy_ings hseven hsuf
      · exact hgo.stemBy_of_some hlong hsuf hings

/-- Stemming leaves a word as it is exactly when there is nothing to strip. -/
theorem stemTerm_eq_self_iff (w : String) : stemTerm w = w ↔ byteLen w ≤ 6 ∨ firstSuffix w = none := by
  rw [stemTerm_eq_stemBy]
  constructor
  · intro h
    by_contra hcon
    obtain ⟨hlen, hsuf⟩ := not_or.mp hcon
    obtain ⟨suf, hsuf⟩ := Option.ne_none_iff_exists'.mp hsuf
    have hlt := countsLetters_utf8Size.length_stemBy_lt (not_le.mp hlen) hsuf
    rw [h] at hlt
    exact lt_irrefl _ hlt
  · rintro (hlen | hsuf)
    · exact stemBy_of_le hlen
    · exact stemBy_of_none hsuf

theorem length_stemTerm_le (w : String) : (stemTerm w).toList.length ≤ w.toList.length := by
  obtain ⟨r, hr, -⟩ := stemBy_append Char.utf8Size w
  rw [stemTerm_eq_stemBy]
  conv_rhs => rw [hr]
  rw [String.toList_append, List.length_append]
  exact Nat.le_add_right _ _

section Read

variable {L : RuneLower}

/-- A round of the loop spells a word and stems it. -/
theorem queryWord_eq_map (raw : String) : queryWord L raw = (spelled L raw).map stemTerm := by
  unfold queryWord spelled
  dsimp only
  split_ifs
  · rfl
  · rfl
  · rfl

/-- Reading a word in lower case once more. -/
theorem queryWord_of_lower {t : String} (hlower : L.lower t = t) :
    queryWord L t =
      if byteLen (trimCut termCut t) < 2 then none
      else if stopWords.contains (trimCut termCut t) then none
      else some (stemTerm (trimCut termCut t)) := by
  have htrim : L.lower (trimCut termCut t) = trimCut termCut t := by
    refine L.lower_eq_self_of_subset t fun c hc => ?_
    rw [trimCut_toList] at hc
    rw [hlower]
    exact List.mem_of_mem_trimWhile hc
  unfold queryWord
  dsimp only
  rw [htrim]

/-- **Reading again** leaves exactly the settled words as they are. -/
theorem queryWord_eq_self_iff {t : String} (hlower : L.lower t = t) : queryWord L t = some t ↔ SettledWord t := by
  rw [queryWord_of_lower hlower]
  constructor
  · intro h
    split_ifs at h with hlen hstop
    have hstem : stemTerm (trimCut termCut t) = t := Option.some.inj h
    -- neither the trim nor the stem has room to shorten the word
    have htrim : trimCut termCut t = t := by
      have hinfix := List.trimWhile_isInfix termCut.contains t.toList
      rw [← String.toList_inj, trimCut_toList]
      refine hinfix.eq_of_length (le_antisymm hinfix.length_le ?_)
      have hle := length_stemTerm_le (trimCut termCut t)
      rwa [hstem, trimCut_toList] at hle
    rw [htrim] at hlen hstop hstem
    refine ⟨?_, not_lt.mp hlen, fun hmem => hstop (List.contains_iff_mem.mpr hmem), (stemTerm_eq_self_iff t).mp hstem⟩
    rw [← String.toList_inj, trimCut_toList] at htrim
    exact List.trimWhile_eq_self_iff.mp htrim
  · intro h
    have htrim : trimCut termCut t = t := by
      rw [← String.toList_inj, trimCut_toList]
      exact h.tight.trimWhile_eq
    rw [htrim, if_neg (not_lt.mpr h.two_le), if_neg fun hstop => h.no_stop (List.contains_iff_mem.mp hstop),
      (stemTerm_eq_self_iff t).mpr h.no_suffix]

/-- What a word is when it is read again. -/
theorem queryWord_again {t x : String} (hlower : L.lower t = t) :
    queryWord L t = some x ↔ ¬ Silent t ∧ bare (trimCut termCut t) = x := by
  rw [queryWord_of_lower hlower, stemTerm_eq_bare]
  unfold Silent
  split_ifs with hlen hstop
  · exact iff_of_false (by simp) fun h => h.1 (.inl hlen)
  · exact iff_of_false (by simp) fun h => h.1 (.inr (List.contains_iff_mem.mp hstop))
  · rw [Option.some_inj]
    refine ⟨fun h => ⟨?_, h⟩, fun h => h.2⟩
    rintro (hshort | hmem)
    · exact hlen hshort
    · exact hstop (List.contains_iff_mem.mpr hmem)

end Read

/-! ### The words of a text -/

section Words

variable {L : RuneLower} {q : String}

theorem splitQueryWords_eq (q : String) : splitQueryWords L q = ((spelledWords L q).map bare).eraseDups := by
  have hword : queryWord L = fun raw => (spelled L raw).map bare := by
    funext raw
    rw [queryWord_eq_map, funext stemTerm_eq_bare]
  unfold splitQueryWords spelledWords
  rw [List.map_filterMap, hword]

theorem mem_splitQueryWords_iff {t : String} : t ∈ splitQueryWords L q ↔ ∃ w ∈ spelledWords L q, bare w = t := by
  rw [splitQueryWords_eq, List.mem_eraseDups, List.mem_map]

/-- No word has white space in it. -/
theorem noSpace_of_mem {t : String} (h : t ∈ splitQueryWords L q) : ∀ c ∈ t.toList, goIsSpace c = false := by
  obtain ⟨raw, hraw, hword⟩ := List.mem_filterMap.mp (List.mem_eraseDups.mp h)
  obtain ⟨f, hf, rfl⟩ := List.mem_map.mp hraw
  rw [queryWord_eq_map] at hword
  obtain ⟨w, hw, rfl⟩ := Option.map_eq_some_iff.mp hword
  intro c hc
  have hmem := mem_of_stemTerm w c hc
  unfold spelled at hw
  dsimp only at hw
  split_ifs at hw
  obtain rfl := Option.some.inj hw
  rw [L.lower_toList, trimCut_toList, String.toList_ofList] at hmem
  obtain ⟨d, hd, rfl⟩ := List.mem_map.mp hmem
  rw [L.goIsSpace_toLower]
  exact List.not_of_mem_splitOnP (List.mem_filter.mp hf).1 d (List.mem_of_mem_trimWhile hd)

/-- A word is not empty. -/
theorem ne_nil_of_mem {t : String} (h : t ∈ splitQueryWords L q) : t.toList ≠ [] := by
  obtain ⟨raw, -, hword⟩ := List.mem_filterMap.mp (List.mem_eraseDups.mp h)
  rw [queryWord_eq_map] at hword
  obtain ⟨w, hw, rfl⟩ := Option.map_eq_some_iff.mp hword
  intro hnil
  have hempty : stemTerm w = "" := by rw [← String.toList_inj, hnil]; rfl
  have hbytes : textSize Char.utf8Size "" = 0 := rfl
  rw [stemTerm_eq_stemBy] at hempty
  obtain hself | hfour := stemBy_eq_or Char.utf8Size w
  · -- a stem that is the word is not, since the word was long enough
    rw [hempty] at hself
    subst hself
    unfold spelled at hw
    dsimp only at hw
    split_ifs at hw with hlen
    have hlow : L.lower (trimCut termCut raw) = "" := Option.some.inj hw
    have htrim : (trimCut termCut raw).toList = [] := by
      rw [← String.toList_inj, L.lower_toList] at hlow
      exact List.map_eq_nil_iff.mp hlow
    refine hlen ?_
    unfold byteLen
    rw [htrim]
    decide
  · rw [hempty, hbytes] at hfour
    omega

theorem lower_of_mem {t : String} (h : t ∈ splitQueryWords L q) : L.lower t = t := (mem_splitQueryWords h).1.lower

/-- A text without white space is one field. -/
theorem textFields_singleton {t : String} (hne : t.toList ≠ []) (h : ∀ c ∈ t.toList, goIsSpace c = false) :
    textFields t = [t] := by
  unfold textFields
  rw [List.splitOnP_eq_singleton h, List.filter_cons_of_pos (by simpa using hne)]
  simp

/-- The fields of texts that are joined. -/
theorem textFields_intercalate (parts : List String) :
    textFields (" ".intercalate parts) = parts.flatMap textFields := by
  induction parts with
  | nil => rfl
  | cons p ps ih =>
    cases ps with
    | nil => simp
    | cons p' ps =>
      have hjoin : (" ".intercalate (p :: p' :: ps)).toList = p.toList ++ ' ' :: (" ".intercalate (p' :: ps)).toList := by
        rw [String.intercalate_cons_cons, String.toList_append, String.toList_append, List.append_assoc]
        rfl
      rw [List.flatMap_cons, ← ih]
      unfold textFields
      rw [hjoin, List.splitOnP_append_cons _ _ (by decide), List.filter_append, List.map_append]

/-- The fields of a list of words are the words. -/
theorem textFields_words {ws : List String} (h : ∀ w ∈ ws, w ∈ splitQueryWords L q) :
    textFields (" ".intercalate ws) = ws := by
  have hone : ∀ w ∈ ws, textFields w = [w] := fun w hw =>
    textFields_singleton (ne_nil_of_mem (h w hw)) (noSpace_of_mem (h w hw))
  rw [textFields_intercalate, List.flatMap_congr hone, List.flatMap_singleton']

/-- The effective query has the fields of its parts. -/
theorem textFields_effective (q : String) (plan : QueryPlan) :
    textFields (buildEffectiveQuery q plan) = (q :: (plan.mustTerms ++ plan.shouldTerms)).flatMap textFields := by
  unfold buildEffectiveQuery
  split_ifs with h
  · rw [h.1, h.2]
    simp
  · exact textFields_intercalate _

/-- **A second pass** over the words of a query gives them back exactly when each is settled. -/
theorem splitQueryWords_again_iff (q : String) :
    splitQueryWords L (" ".intercalate (splitQueryWords L q)) = splitQueryWords L q ↔
      ∀ w ∈ spelledWords L q, SettledWord (bare w) := by
  have hnodup : (splitQueryWords L q).Nodup := List.nodup_eraseDups _
  have hpass : splitQueryWords L (" ".intercalate (splitQueryWords L q)) =
      (((splitQueryWords L q).filterMap (queryWord L)).eraseDups).take (splitQueryWords L q).length := by
    have hfields : textFields (" ".intercalate (splitQueryWords L q)) = splitQueryWords L q :=
      textFields_words fun w hw => hw
    rw [splitQueryWords, hfields, List.take_of_length_le]
    exact ((List.eraseDups_sublist _).length_le).trans (List.length_filterMap_le _ _)
  rw [hpass, List.normalised_eq_self_iff hnodup le_rfl]
  constructor
  · intro h w hw
    have hmem : bare w ∈ splitQueryWords L q := mem_splitQueryWords_iff.mpr ⟨w, hw, rfl⟩
    exact (queryWord_eq_self_iff (lower_of_mem hmem)).mp (h _ hmem)
  · intro h t ht
    obtain ⟨w, hw, rfl⟩ := mem_splitQueryWords_iff.mp ht
    exact (queryWord_eq_self_iff (lower_of_mem ht)).mpr (h w hw)

/-- The words of the effective query are those of its parts. -/
theorem mem_effective_iff {plan : QueryPlan} {t : String} :
    t ∈ splitQueryWords L (buildEffectiveQuery q plan) ↔
      t ∈ splitQueryWords L q ∨ ∃ part ∈ plan.mustTerms ++ plan.shouldTerms, t ∈ splitQueryWords L part := by
  have hmem : ∀ {s : String}, t ∈ splitQueryWords L s ↔ ∃ raw ∈ textFields s, queryWord L raw = some t := by
    intro s
    unfold splitQueryWords
    rw [List.mem_eraseDups, List.mem_filterMap]
  rw [hmem, textFields_effective, List.flatMap_cons]
  simp only [hmem, List.mem_append, List.mem_flatMap]
  constructor
  · rintro ⟨raw, hraw | ⟨part, hpart, hraw⟩, hword⟩
    · exact .inl ⟨raw, hraw, hword⟩
    · exact .inr ⟨part, hpart, raw, hraw, hword⟩
  · rintro (⟨raw, hraw, hword⟩ | ⟨part, hpart, raw, hraw, hword⟩)
    · exact ⟨raw, .inl hraw, hword⟩
    · exact ⟨raw, .inr ⟨part, hpart, hraw⟩, hword⟩

/-- What an anchor is read as. -/
theorem anchor_words_iff {a : String} (ha : a ∈ splitQueryWords L q) :
    (∀ t ∈ splitQueryWords L a, t ∈ splitQueryWords L q) ↔
      SettledWord a ∨ Silent a ∨ AddsNothing L q (trimCut termCut a) := by
  have hlower := lower_of_mem ha
  have hmem : ∀ {t}, t ∈ splitQueryWords L a ↔ queryWord L a = some t := by
    intro t
    unfold splitQueryWords
    rw [List.mem_eraseDups, List.mem_filterMap, textFields_singleton (ne_nil_of_mem ha) (noSpace_of_mem ha)]
    simp
  simp only [hmem, queryWord_again hlower]
  constructor
  · intro h
    by_cases hsilent : Silent a
    · exact .inr (.inl hsilent)
    · exact .inr (.inr (mem_splitQueryWords_iff.mp (h _ ⟨hsilent, rfl⟩)))
  · rintro (hsettled | hsilent | hadds) t ⟨hnot, rfl⟩
    · -- a settled anchor is read as itself
      have hself := (queryWord_again hlower).mp ((queryWord_eq_self_iff hlower).mpr hsettled)
      rw [hself.2]
      exact ha
    · exact absurd hsilent hnot
    · exact mem_splitQueryWords_iff.mpr hadds

end Words

/-! ### The effective query -/

/-- **Tokenising again.** The effective query has the terms of the query exactly when its anchor is settled, is dropped,
or is read as another word of the query, and the should terms bring no word of their own; and the terms of a query come
out of a second pass as they are exactly when no word of it leaves a stem that is still stemmed, is a stop word or ends
in punctuation. -/
theorem retokenised_iff (L : RuneLower) (hits : String → Option ℤ) (q : String) (plan : QueryPlan)
    (hmust : plan.mustTerms = ensureMustAnchor L hits q []) :
    ((∀ t, t ∈ splitQueryWords L (buildEffectiveQuery q plan) ↔ t ∈ splitQueryWords L q) ↔
      (∀ a ∈ plan.mustTerms, SettledWord a ∨ Silent a ∨ AddsNothing L q (trimCut termCut a)) ∧
        ∀ s ∈ plan.shouldTerms, ∀ w ∈ spelledWords L s, AddsNothing L q w) ∧
    (splitQueryWords L (" ".intercalate (splitQueryWords L q)) = splitQueryWords L q ↔
      ∀ w ∈ spelledWords L q, SettledWord (bare w)) := by
  refine ⟨?_, splitQueryWords_again_iff q⟩
  -- the anchors of the plan are words of the query
  have hanchor : ∀ a ∈ plan.mustTerms, a ∈ splitQueryWords L q := by
    intro a ha
    rw [hmust] at ha
    exact (mem_ensureMustAnchor ha).2
  -- the effective query has the query's own words, so only the parts added to it count
  have hparts : (∀ t, t ∈ splitQueryWords L (buildEffectiveQuery q plan) ↔ t ∈ splitQueryWords L q) ↔
      ∀ part ∈ plan.mustTerms ++ plan.shouldTerms, ∀ t ∈ splitQueryWords L part, t ∈ splitQueryWords L q := by
    constructor
    · intro h part hpart t ht
      exact (h t).mp (mem_effective_iff.mpr (.inr ⟨part, hpart, ht⟩))
    · intro h t
      rw [mem_effective_iff, or_iff_left_iff_imp]
      rintro ⟨part, hpart, ht⟩
      exact h part hpart t ht
  rw [hparts, List.forall_mem_append]
  refine and_congr ?_ ?_
  · exact forall₂_congr fun a ha => anchor_words_iff (hanchor a ha)
  · refine forall₂_congr fun s _ => ?_
    constructor
    · exact fun h w hw => mem_splitQueryWords_iff.mp (h _ (mem_splitQueryWords_iff.mpr ⟨w, hw, rfl⟩))
    · intro h t ht
      obtain ⟨w, hw, rfl⟩ := mem_splitQueryWords_iff.mp ht
      exact mem_splitQueryWords_iff.mpr (h w hw)

/-- A query whose anchor is its only word. -/
theorem retokenised_handler :
    (((∀ t, t ∈ splitQueryWords asciiRunes (buildEffectiveQuery "handler" { QueryPlan.zero with
        mustTerms := ensureMustAnchor asciiRunes (fun _ => some 4) "handler" [] }) ↔
          t ∈ splitQueryWords asciiRunes "handler") ↔
      (∀ a ∈ ["handler"], SettledWord a ∨ Silent a ∨ AddsNothing asciiRunes "handler" (trimCut termCut a)) ∧
        ∀ s ∈ ([] : List String), ∀ w ∈ spelledWords asciiRunes s, AddsNothing asciiRunes "handler" w) ∧
    (splitQueryWords asciiRunes (" ".intercalate (splitQueryWords asciiRunes "handler")) =
        splitQueryWords asciiRunes "handler" ↔
      ∀ w ∈ spelledWords asciiRunes "handler", SettledWord (bare w))) ∧
    ensureMustAnchor asciiRunes (fun _ => some 4) "handler" [] = ["handler"] := by
  have hanchor : ensureMustAnchor asciiRunes (fun _ => some 4) "handler" [] = ["handler"] := by decide +kernel
  refine ⟨?_, hanchor⟩
  have h := retokenised_iff asciiRunes (fun _ => some 4) "handler"
    { QueryPlan.zero with mustTerms := ensureMustAnchor asciiRunes (fun _ => some 4) "handler" [] } rfl
  simp only [hanchor] at h ⊢
  exact h

/-- The stem of `processes` has a suffix once more: the anchor is counted as `process` and brings `proces` with it. -/
theorem processes_retokenised :
    ensureMustAnchor asciiRunes (fun _ => some 4) "processes" [] = ["process"] ∧
    splitQueryWords asciiRunes "processes" = ["process"] ∧
    splitQueryWords asciiRunes (buildEffectiveQuery "processes" { QueryPlan.zero with
      mustTerms := ensureMustAnchor asciiRunes (fun _ => some 4) "processes" [] }) = ["process", "proces"] ∧
    splitQueryWords asciiRunes (" ".intercalate (splitQueryWords asciiRunes "processes")) = ["proces"] := by
  decide +kernel

end Devrouter
