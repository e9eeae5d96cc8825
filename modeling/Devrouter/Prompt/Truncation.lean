import Devrouter.Codegraph.SourceFiles
import Devrouter.Lib.GoBytes
import Devrouter.McpSource.Mappers

/-!
# Truncated texts

Model of `GenerateSummary` of `internal/prompt/builder.go`, of `ToSnippets` of `internal/codegraph/client.go` and of
`clip` of `internal/mcpsource/mappers.go` for any `int`. Strings are bytes, and `none` is a run-time panic. A search result
is what the sidecar sends.

All three cut at byte offsets. What comes out is a front of the text, up to blanks, with nothing or the mark behind it,
exactly when no character goes across the offset that the text is cut at (`truncations_whole_iff`). The ends that
`GenerateSummary` looks for are ASCII characters, so only its last cut can go wrong.
-/

namespace Devrouter.Prompt

open Json Utf8

/-! ### Document content -/

/-- `s[:n]`, which panics where `n` is out of range. -/
def sliceTo (s : Bytes) (n : ℤ) : Option Bytes := if 0 ≤ n ∧ n ≤ s.length then some (s.take n.toNat) else none

def clip (s : Bytes) (n : ℤ) : Option Bytes :=
  let s := Json.trimSpace s
  if (s.length : ℤ) ≤ n then some s
  else (sliceTo s n).map (· ++ utf8 "…")

/-! ### Snippets -/

structure Snippet where
  file : String
  lines : String
  content : Bytes
  deriving DecidableEq, Repr

def truncatedMark : String := "\n... (truncated)"

/-- `Source` is preferred to `Content`. -/
def snippetText (r : Codegraph.SearchResult) : String := if r.source = "" then r.content else r.source

def capContent (content : Bytes) : Bytes :=
  if 2000 < content.length then content.take 2000 ++ utf8 truncatedMark else content

def snippet (r : Codegraph.SearchResult) : Snippet where
  file := r.filePath
  lines := if 0 < r.startLine then toString r.startLine ++ "-" ++ toString r.endLine else ""
  content := capContent (utf8 (snippetText r))

/-- The loop of `ToSnippets`. -/
def addSnippets (max : ℤ) : List Codegraph.SearchResult → List Snippet → List String → List Snippet
  | [], snippets, _ => snippets
  | r :: results, snippets, seenFiles =>
    if max ≤ snippets.length then snippets
    else if r.filePath ≠ "" ∧ r.filePath ∈ seenFiles then addSnippets max results snippets seenFiles
    else addSnippets max results (snippets ++ [snippet r])
      (if r.filePath ≠ "" then r.filePath :: seenFiles else seenFiles)

/-- `ToSnippets`; `make` panics on a negative capacity. -/
def toSnippets (results : List Codegraph.SearchResult) (max : ℤ) : Option (List Snippet) :=
  if max < 0 then none else some (addSnippets max results [] [])

/-! ### Summaries -/

/-- The sentence ends here: where the first `sep` of the text stands that is at a place from 1 to 199. -/
def sentenceEnd (purpose : Bytes) : Option ℕ :=
  [". ", ".\n", ".\t"].findSome? fun sep => (index purpose (utf8 sep)).filter fun idx => 0 < idx ∧ idx < 200

def lineEnd (purpose : Bytes) : Option ℕ := (indexByte purpose (byte '\n')).filter fun idx => 0 < idx ∧ idx < 200

/-- The last word of the first 150 bytes ends here. -/
def wordEnd (purpose : Bytes) : Option ℕ := (lastIndexByte (purpose.take 150) (byte ' ')).filter fun idx => 80 < idx

def generateSummary (purpose : Bytes) : Bytes :=
  if purpose = [] then []
  else
    match sentenceEnd purpose with
    -- a first sentence, with its stop
    | some idx => Json.trimSpace (purpose.take (idx + 1))
    | none =>
      match lineEnd purpose with
      | some idx => Json.trimSpace (purpose.take idx)
      | none =>
        -- no end is found within reach, so the text is cut after 150 bytes, at a blank if there is one
        if 150 < purpose.length then
          let cut := purpose.take 150
          match wordEnd purpose with
          | some idx => Json.trimSpace (cut.take idx) ++ utf8 "..."
          | none => cut ++ utf8 "..."
        else purpose

/-- No end is found that the text could be cut at. -/
def HardCut (purpose : Bytes) : Prop :=
  sentenceEnd purpose = none ∧ lineEnd purpose = none ∧ wordEnd purpose = none ∧ 150 < purpose.length

instance (purpose : Bytes) : Decidable (HardCut purpose) :=
  inferInstanceAs (Decidable (_ ∧ _ ∧ _ ∧ _))

/-! ### Cuts between characters -/

/-- UTF-8 bytes that are a front of the text, ending between two characters, without blanks around it, and nothing or
the mark behind. -/
def CutWhole (mark text : String) (out : Bytes) : Prop :=
  Valid out ∧ ∃ lead core trail rest tail : String, text = lead ++ core ++ trail ++ rest ∧
    (∀ c ∈ lead.toList, goIsSpace c = true) ∧ (∀ c ∈ trail.toList, goIsSpace c = true) ∧
    (tail = "" ∨ tail = mark) ∧ out = utf8 (core ++ tail)

section CutWhole

variable {mark text tail : String} {out : Bytes} {n : ℕ}

theorem utf8_eq (s : String) : utf8 s = encode s.toList := rfl

theorem append_utf8_empty (bs : Bytes) : bs ++ utf8 "" = bs := List.append_nil bs

theorem cutWhole_of (lead core trail rest : List Char) (htext : text.toList = lead ++ core ++ trail ++ rest)
    (hlead : ∀ c ∈ lead, goIsSpace c = true) (htrail : ∀ c ∈ trail, goIsSpace c = true)
    (htail : tail = "" ∨ tail = mark) (hout : out = encode core ++ utf8 tail) : CutWhole mark text out := by
  have hbytes : out = utf8 (String.ofList core ++ tail) := by
    rw [hout, utf8_eq, utf8_eq, String.toList_append, String.toList_ofList, encode_append]
  refine ⟨hbytes ▸ valid_encode _, String.ofList lead, String.ofList core, String.ofList trail, String.ofList rest, tail,
    ?_, ?_, ?_, htail, hbytes⟩
  · rw [← String.toList_inj, htext]
    simp only [String.toList_append, String.toList_ofList]
  · rwa [String.toList_ofList]
  · rwa [String.toList_ofList]

/-- A text that is trimmed, and cut between two characters then. -/
theorem cutWhole_take_trim (mark : String) (h : Boundary (utf8 (trimSpace text)) n) (htail : tail = "" ∨ tail = mark) :
    CutWhole mark text ((utf8 (trimSpace text)).take n ++ utf8 tail) := by
  obtain ⟨front, rest, htext, hfront⟩ := exists_front h
  obtain ⟨lead, trail, hsplit, hlead, -⟩ := exists_trimWhile goIsSpace text.toList
  rw [trimSpace_toList] at htext
  refine cutWhole_of lead front [] (rest ++ trail) ?_ hlead (by simp) htail ?_
  · rw [hsplit, htext]
    simp only [List.append_assoc, List.nil_append]
  · rw [hfront, utf8_eq (trimSpace text)]

/-- A text that is cut between two characters, and trimmed then. -/
theorem cutWhole_trim_take (mark : String) (h : Boundary (utf8 text) n) (htail : tail = "" ∨ tail = mark) :
    CutWhole mark text (Json.trimSpace ((utf8 text).take n) ++ utf8 tail) := by
  obtain ⟨front, rest, htext, hfront⟩ := exists_front h
  obtain ⟨lead, trail, hsplit, hlead, htrail⟩ := exists_trimWhile goIsSpace front
  refine cutWhole_of lead (front.trimWhile goIsSpace) trail rest ?_ hlead htrail htail ?_
  · rw [← hsplit, htext]
  · rw [utf8_eq text, ← hfront, trimSpace_encode]

/-- A text that is cut at an offset, without trimming. -/
theorem cutWhole_take_iff (htail : tail = "" ∨ tail = mark) :
    CutWhole mark text ((utf8 text).take n ++ utf8 tail) ↔ Boundary (utf8 text) n := by
  constructor
  · intro h
    exact (valid_take_append_iff tail.toList).mp h.1
  · intro h
    obtain ⟨front, rest, htext, hfront⟩ := exists_front h
    refine cutWhole_of [] front [] rest ?_ (by simp) (by simp) htail ?_
    · rw [List.nil_append, List.append_nil, htext]
    · rw [hfront, utf8_eq text]

/-- A text that is not cut. -/
theorem cutWhole_self (mark text : String) : CutWhole mark text (utf8 text) := by
  have hall : CutWhole mark text ((utf8 text).take (utf8 text).length ++ utf8 "") := by
    refine (cutWhole_take_iff (.inl rfl)).mpr fun b hb => ?_
    exact absurd hb (by simp)
  rwa [List.take_length, append_utf8_empty] at hall

end CutWhole

/-! ### What is cut where -/

section Cuts

theorem utf8_trimSpace (s : String) : Json.trimSpace (utf8 s) = utf8 (trimSpace s) := by
  rw [utf8_eq, trimSpace_encode, ← trimSpace_toList, utf8_eq]

/-- `clip` with a limit that is a length. -/
theorem clip_natCast (s : Bytes) (n : ℕ) : clip s n = some (McpSource.clip s n) := by
  rw [clip, McpSource.clip]
  obtain hle | hlt := Nat.lt_or_ge n (Json.trimSpace s).length |>.symm
  · rw [if_pos (Int.ofNat_le.mpr hle), if_pos hle]
  · have hcut : sliceTo (Json.trimSpace s) n = some ((Json.trimSpace s).take n) := by
      rw [sliceTo, if_pos ⟨Int.natCast_nonneg n, Int.ofNat_le.mpr hlt.le⟩, Int.toNat_natCast]
    rw [if_neg (by omega), if_neg (by omega), hcut, Option.map_some]

theorem clip_of_neg (s : Bytes) {n : ℤ} (hn : n < 0) : clip s n = none := by
  rw [clip, if_neg (by omega), sliceTo, if_neg (by omega), Option.map_none]

theorem clip_whole_iff (s : String) (n : ℤ) : (∃ out, clip (utf8 s) n = some out ∧ CutWhole "…" s out) ↔
    0 ≤ n ∧ Boundary (utf8 (trimSpace s)) n.toNat := by
  obtain hneg | hpos := lt_or_ge n 0
  · rw [clip_of_neg _ hneg]
    exact ⟨fun ⟨_, h, _⟩ => absurd h nofun, fun h => absurd h.1 (not_le.mpr hneg)⟩
  lift n to ℕ using hpos
  rw [clip_natCast, McpSource.clip, utf8_trimSpace, Int.toNat_natCast]
  have hout : (∃ out, some (if (utf8 (trimSpace s)).length ≤ n then utf8 (trimSpace s)
      else (utf8 (trimSpace s)).take n ++ utf8 "…") = some out ∧ CutWhole "…" s out) ↔
      CutWhole "…" s (if (utf8 (trimSpace s)).length ≤ n then utf8 (trimSpace s)
        else (utf8 (trimSpace s)).take n ++ utf8 "…") := by
    simp only [Option.some.injEq, exists_eq_left']
  rw [hout]
  by_cases hle : (utf8 (trimSpace s)).length ≤ n
  · -- the text is short enough, and nothing is cut
    rw [if_pos hle]
    have hnone : Boundary (utf8 (trimSpace s)) n := fun b hb => absurd hb (by
      rw [List.getElem?_eq_none hle]
      exact nofun)
    have hself := cutWhole_take_trim "…" hnone (.inl rfl)
    rw [List.take_of_length_le hle, append_utf8_empty] at hself
    exact ⟨fun _ => ⟨Int.natCast_nonneg n, hnone⟩, fun _ => hself⟩
  · rw [if_neg hle]
    constructor
    · -- a cut text is valid only if it was cut between two runes
      intro h
      exact ⟨Int.natCast_nonneg n, (valid_take_append_iff "…".toList).mp h.1⟩
    · rintro ⟨-, h⟩
      exact cutWhole_take_trim "…" h (.inr rfl)

theorem capContent_whole_iff (text : String) : CutWhole truncatedMark text (capContent (utf8 text)) ↔
    Boundary (utf8 text) 2000 := by
  rw [capContent]
  by_cases hlt : 2000 < (utf8 text).length
  · rw [if_pos hlt]
    exact cutWhole_take_iff (.inr rfl)
  · rw [if_neg hlt]
    refine iff_of_true (cutWhole_self _ _) fun b hb => absurd hb ?_
    rw [List.getElem?_eq_none (not_lt.mp hlt)]
    exact nofun

/-- The first result of each file, and every result without one. -/
def firstPerFile : List Codegraph.SearchResult → List String → List Codegraph.SearchResult
  | [], _ => []
  | r :: results, seenFiles =>
    if r.filePath ≠ "" ∧ r.filePath ∈ seenFiles then firstPerFile results seenFiles
    else r :: firstPerFile results (if r.filePath ≠ "" then r.filePath :: seenFiles else seenFiles)

/-- The results that get a snippet. -/
def kept (results : List Codegraph.SearchResult) (max : ℤ) : List Codegraph.SearchResult :=
  (firstPerFile results []).take max.toNat

theorem addSnippets_eq (max : ℤ) (results : List Codegraph.SearchResult) (snippets : List Snippet)
    (seenFiles : List String) : addSnippets max results snippets seenFiles =
      snippets ++ ((firstPerFile results seenFiles).take (max.toNat - snippets.length)).map snippet := by
  induction results generalizing snippets seenFiles with
  | nil => simp [addSnippets, firstPerFile]
  | cons r results ih =>
    rw [addSnippets, firstPerFile]
    by_cases hfull : max ≤ snippets.length
    · rw [if_pos hfull, show max.toNat - snippets.length = 0 by omega, List.take_zero, List.map_nil, List.append_nil]
    · rw [if_neg hfull]
      by_cases hseen : r.filePath ≠ "" ∧ r.filePath ∈ seenFiles
      · rw [if_pos hseen, if_pos hseen, ih]
      · -- one place less is free behind the new snippet
        have hroom : max.toNat - snippets.length = max.toNat - (snippets ++ [snippet r]).length + 1 := by
          rw [List.length_append, List.length_singleton]
          omega
        rw [if_neg hseen, if_neg hseen, ih, hroom, List.take_succ_cons, List.map_cons, List.append_assoc,
          List.singleton_append]

theorem toSnippets_eq (results : List Codegraph.SearchResult) {max : ℤ} (hmax : 0 ≤ max) :
    toSnippets results max = some ((kept results max).map snippet) := by
  rw [toSnippets, if_neg (not_lt.mpr hmax), addSnippets_eq, List.nil_append, List.length_nil, Nat.sub_zero, kept]

theorem toSnippets_whole_iff (results : List Codegraph.SearchResult) (max : ℤ) :
    (∃ snippets, toSnippets results max = some snippets ∧
      List.Forall₂ (fun r s => CutWhole truncatedMark (snippetText r) s.content) (kept results max) snippets) ↔
    0 ≤ max ∧ ∀ r ∈ kept results max, Boundary (utf8 (snippetText r)) 2000 := by
  obtain hneg | hpos := lt_or_ge max 0
  · rw [toSnippets, if_pos hneg]
    exact ⟨fun ⟨_, h, _⟩ => absurd h nofun, fun h => absurd h.1 (not_le.mpr hneg)⟩
  rw [toSnippets_eq results hpos]
  simp only [Option.some.injEq, exists_eq_left', List.forall₂_map_right_iff, List.forall₂_same, snippet,
    capContent_whole_iff]
  exact (and_iff_right hpos).symm

/-! ### Summaries, cut at an end -/

variable {purpose : String} {idx : ℕ}

/-- The sentence ends behind an ASCII character. -/
theorem boundary_sentenceEnd (h : sentenceEnd (utf8 purpose) = some idx) : Boundary (utf8 purpose) (idx + 1) := by
  obtain ⟨sep, hsep, hfound⟩ := List.exists_of_findSome?_eq_some h
  obtain ⟨hindex, -⟩ := Option.filter_eq_some_iff.mp hfound
  obtain ⟨rest, hrest⟩ : ∃ rest, utf8 sep = byte '.' :: rest := by
    obtain rfl | rfl | rfl : sep = ". " ∨ sep = ".\n" ∨ sep = ".\t" := by simpa using hsep
    · exact ⟨_, rfl⟩
    · exact ⟨_, rfl⟩
    · exact ⟨_, rfl⟩
  obtain ⟨tail, htail⟩ := (index_spec hindex).2
  have hbyte : (utf8 purpose)[idx]? = some (byte '.') := by
    have hhead := congrArg (fun bs : Bytes => bs[0]?) htail
    rw [hrest, List.getElem?_drop] at hhead
    exact hhead.symm
  exact (boundary_of_ascii (c := '.') (by decide) hbyte).2

theorem boundary_lineEnd (h : lineEnd (utf8 purpose) = some idx) : Boundary (utf8 purpose) idx := by
  obtain ⟨hindex, -⟩ := Option.filter_eq_some_iff.mp h
  exact (boundary_of_ascii (c := '\n') (by decide) (indexByte_spec hindex)).1

/-- The last word ends in front of a blank that is inside of the first 150 bytes. -/
theorem boundary_wordEnd (h : wordEnd (utf8 purpose) = some idx) : idx < 150 ∧ Boundary (utf8 purpose) idx := by
  obtain ⟨hindex, -⟩ := Option.filter_eq_some_iff.mp h
  have hbyte := lastIndexByte_spec hindex
  have hlt : idx < 150 := by
    by_contra hge
    rw [List.getElem?_take, if_neg hge] at hbyte
    exact absurd hbyte nofun
  rw [List.getElem?_take_of_lt hlt] at hbyte
  exact ⟨hlt, (boundary_of_ascii (c := ' ') (by decide) hbyte).1⟩

theorem generateSummary_whole_iff (purpose : String) : CutWhole "..." purpose (generateSummary (utf8 purpose)) ↔
    (HardCut (utf8 purpose) → Boundary (utf8 purpose) 150) := by
  have hself : ¬ 150 < (utf8 purpose).length →
      (CutWhole "..." purpose (utf8 purpose) ↔ (HardCut (utf8 purpose) → Boundary (utf8 purpose) 150)) :=
    fun hshort => iff_of_true (cutWhole_self _ _) fun h => absurd h.2.2.2 hshort
  rw [generateSummary]
  by_cases hempty : utf8 purpose = []
  · rw [if_pos hempty, ← hempty]
    exact hself (by simp [hempty])
  rw [if_neg hempty]
  cases hsentence : sentenceEnd (utf8 purpose) with
  | some idx =>
    have hcut := cutWhole_trim_take "..." (boundary_sentenceEnd hsentence) (.inl rfl)
    rw [append_utf8_empty] at hcut
    refine iff_of_true hcut fun h => ?_
    exact absurd (hsentence.symm.trans h.1) nofun
  | none =>
    cases hline : lineEnd (utf8 purpose) with
    | some idx =>
      have hcut := cutWhole_trim_take "..." (boundary_lineEnd hline) (.inl rfl)
      rw [append_utf8_empty] at hcut
      refine iff_of_true hcut fun h => ?_
      exact absurd (hline.symm.trans h.2.1) nofun
    | none =>
      by_cases hlong : 150 < (utf8 purpose).length
      · simp only [if_pos hlong]
        cases hword : wordEnd (utf8 purpose) with
        | some idx =>
          obtain ⟨hlt, hboundary⟩ := boundary_wordEnd hword
          have hcut := cutWhole_trim_take "..." hboundary (.inr rfl)
          have htake : ((utf8 purpose).take 150).take idx = (utf8 purpose).take idx := by
            rw [List.take_take, Nat.min_eq_left hlt.le]
          simp only [htake]
          refine iff_of_true hcut fun h => ?_
          exact absurd (hword.symm.trans h.2.2.1) nofun
        | none =>
          -- no end is found, and the text is cut at the offset
          rw [cutWhole_take_iff (.inr rfl)]
          exact ⟨fun h _ => h, fun h => h ⟨hsentence, hline, hword, hlong⟩⟩
      · simp only [if_neg hlong]
        exact hself hlong

/-- **Truncation.** A clipped text, the contents of the snippets and a summary are whole texts exactly when no character
goes across the offset that they are cut at. -/
theorem truncations_whole_iff (s : String) (n : ℤ) (results : List Codegraph.SearchResult) (max : ℤ) (purpose : String) :
    ((∃ out, clip (utf8 s) n = some out ∧ CutWhole "…" s out) ↔
      0 ≤ n ∧ Boundary (utf8 (trimSpace s)) n.toNat) ∧
    ((∃ snippets, toSnippets results max = some snippets ∧
        List.Forall₂ (fun r s => CutWhole truncatedMark (snippetText r) s.content) (kept results max) snippets) ↔
      0 ≤ max ∧ ∀ r ∈ kept results max, Boundary (utf8 (snippetText r)) 2000) ∧
    (CutWhole "..." purpose (generateSummary (utf8 purpose)) ↔
      (HardCut (utf8 purpose) → Boundary (utf8 purpose) 150)) :=
  ⟨clip_whole_iff s n, toSnippets_whole_iff results max, generateSummary_whole_iff purpose⟩

/-- A purpose without blanks, and with a character of three bytes at the bytes 148 to 150. -/
def routePurpose : String := String.ofList ('A' :: List.replicate 50 '路')

theorem routePurpose_damaged : ¬ CutWhole "..." routePurpose (generateSummary (utf8 routePurpose)) := by
  have hcut : HardCut (utf8 routePurpose) ∧ ¬ Boundary (utf8 routePurpose) 150 := by decide +kernel
  rw [generateSummary_whole_iff]
  exact fun h => hcut.2 (h hcut.1)

end Cuts

end Devrouter.Prompt
