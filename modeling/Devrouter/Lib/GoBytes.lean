import Devrouter.Lib.GoText
import Devrouter.Lib.JsonLines
import Devrouter.Lib.Utf8

/-!
# Go's text functions on bytes

Functions of `strings` on Go's own strings, which are bytes. On the bytes of a text `strings.TrimSpace` is the trimming
of its characters (`trimSpace_encode`), and an ASCII byte that is found in a text stands between two boundaries
(`boundary_of_ascii`).
-/

namespace Devrouter

open Json Utf8

/-! ### Searching -/

/-- `strings.Index`; none for the index -1. -/
def index (s sep : Bytes) : Option ℕ := (List.range (s.length + 1)).find? fun i => sep.isPrefixOf (s.drop i)

/-- `strings.IndexByte`. -/
def indexByte (s : Bytes) (c : UInt8) : Option ℕ := (List.range s.length).find? fun i => s[i]? = some c

/-- `strings.LastIndexByte`. -/
def lastIndexByte (s : Bytes) (c : UInt8) : Option ℕ := (List.range s.length).reverse.find? fun i => s[i]? = some c

variable {s sep : Bytes} {b : UInt8} {i n : ℕ} {cs : List Char} {c : Char}

theorem index_spec (h : index s sep = some i) : i ≤ s.length ∧ sep <+: s.drop i := by
  have hmem := List.mem_range.mp (List.mem_of_find?_eq_some h)
  have hocc := List.find?_some h
  exact ⟨Nat.lt_succ_iff.mp hmem, List.isPrefixOf_iff_prefix.mp hocc⟩

theorem indexByte_spec (h : indexByte s b = some i) : s[i]? = some b := by
  have hfound := List.find?_some h
  exact of_decide_eq_true hfound

theorem lastIndexByte_spec (h : lastIndexByte s b = some i) : s[i]? = some b := by
  have hfound := List.find?_some h
  exact of_decide_eq_true hfound

/-- An ASCII byte of a text is a character of it. -/
theorem boundary_of_ascii (hc : String.utf8EncodeChar c = [b]) (h : (encode cs)[i]? = some b) :
    Boundary (encode cs) i ∧ Boundary (encode cs) (i + 1) := by
  obtain ⟨hlt, hget⟩ := List.getElem?_eq_some_iff.mp h
  have hocc : encode [c] <+: (encode cs).drop i := by
    rw [List.drop_eq_getElem_cons hlt, hget, encode_cons, hc, encode_nil]
    exact List.prefix_append [b] _
  have hbehind := boundary_behind (List.cons_ne_nil c []) hlt.le hocc
  rw [encode_cons, hc] at hbehind
  exact ⟨boundary_of_occurs (List.cons_ne_nil c []) hocc, hbehind⟩

/-! ### Trimming -/

/-- What trimming takes away stands at the ends. -/
theorem exists_trimWhile {α : Type} (p : α → Bool) (l : List α) : ∃ lead trail, l = lead ++ l.trimWhile p ++ trail ∧
    (∀ a ∈ lead, p a = true) ∧ ∀ a ∈ trail, p a = true := by
  refine ⟨l.takeWhile p, ((l.dropWhile p).reverse.takeWhile p).reverse, ?_, fun a ha => List.mem_takeWhile_imp ha,
    fun a ha => List.mem_takeWhile_imp (List.mem_reverse.mp ha)⟩
  rw [List.trimWhile, List.append_assoc, ← List.reverse_append, List.takeWhile_append_dropWhile, List.reverse_reverse,
    List.takeWhile_append_dropWhile]

/-- The characters of `unicode.IsSpace`. -/
def spaceChars : List Char :=
  ['\t', '\n', '\x0b', '\x0c', '\r', ' ', '\u0085', '\u00a0', '\u1680', '\u2000', '\u2001', '\u2002', '\u2003', '\u2004',
    '\u2005', '\u2006', '\u2007', '\u2008', '\u2009', '\u200a', '\u2028', '\u2029', '\u202f', '\u205f', '\u3000']

theorem spaceRunes_eq : spaceRunes = spaceChars.map String.utf8EncodeChar := by decide

theorem goIsSpace_iff : goIsSpace c = true ↔ c ∈ spaceChars := by
  have hcodes : goIsSpace c = true ↔ c.toNat ∈ spaceChars.map Char.toNat := by
    have hlist : spaceChars.map Char.toNat = [0x9, 0xa, 0xb, 0xc, 0xd, 0x20, 0x85, 0xa0, 0x1680, 0x2000, 0x2001, 0x2002,
      0x2003, 0x2004, 0x2005, 0x2006, 0x2007, 0x2008, 0x2009, 0x200a, 0x2028, 0x2029, 0x202f, 0x205f, 0x3000] := by decide
    rw [hlist]
    simp only [goIsSpace, Bool.or_eq_true, decide_eq_true_eq, List.mem_cons, List.not_mem_nil, or_false]
    omega
  rw [hcodes, List.mem_map_of_injective fun _ _ h => Char.toNat_inj.mp h]

section Stripping

variable {rs : List Bytes} {t : Bytes} {ss : List Char}

/-- Of the encodings of some characters, only that of the first character of a text is stripped of it. -/
theorem stripRune_map {f : Char → Bytes} (hfront : ∀ d, (f d).isPrefixOf s = true ↔ d = c)
    (hdrop : s.drop (f c).length = t) (ss : List Char) :
    stripRune (ss.map f) s = if c ∈ ss then some t else none := by
  induction ss with
  | nil => rfl
  | cons d ss ih =>
    rw [stripRune, List.map_cons, List.findSome?_cons]
    by_cases hd : d = c
    · subst hd
      rw [if_pos ((hfront d).mpr rfl), hdrop, if_pos List.mem_cons_self]
    · have hmem : c ∈ d :: ss ↔ c ∈ ss := by
        rw [List.mem_cons]
        exact or_iff_right (Ne.symm hd)
      rw [if_neg fun h => hd ((hfront d).mp h)]
      simp only [hmem]
      exact ih

/-- Stripping rune after rune drops characters, where stripping one rune drops one. -/
theorem stripRunes_dropWhile (enc : List Char → Bytes) {p : Char → Bool} (hnil : stripRune rs (enc []) = none)
    (hcons : ∀ c cs, stripRune rs (enc (c :: cs)) = if p c = true then some (enc cs) else none)
    (hn : cs.length ≤ n) : stripRunes rs n (enc cs) = enc (cs.dropWhile p) := by
  induction n generalizing cs with
  | zero => rw [List.eq_nil_of_length_eq_zero (Nat.le_zero.mp hn)]; rfl
  | succ n ih =>
    rw [stripRunes]
    cases cs with
    | nil => rw [hnil]; rfl
    | cons c cs =>
      rw [hcons]
      by_cases hc : p c = true
      · rw [if_pos hc, List.dropWhile_cons_of_pos hc]
        exact ih (Nat.le_of_succ_le_succ hn)
      · rw [if_neg hc, List.dropWhile_cons_of_neg hc]

theorem length_le_encode (cs : List Char) : cs.length ≤ (encode cs).length := by
  induction cs with
  | nil => exact le_rfl
  | cons c cs ih =>
    have hpos := length_utf8EncodeChar_pos c
    rw [encode_cons, List.length_append, List.length_cons]
    omega

theorem stripRune_nil (h : ∀ e ∈ rs, e ≠ []) : stripRune rs [] = none := by
  cases hstrip : stripRune rs [] with
  | none => rfl
  | some t => exact absurd (length_stripRune h hstrip) (Nat.not_lt_zero _)

theorem trimLeft_encode (cs : List Char) : trimLeft (encode cs) = encode (cs.dropWhile goIsSpace) := by
  refine stripRunes_dropWhile encode (stripRune_nil spaceRunes_ne_nil) (fun c cs => ?_) (length_le_encode cs)
  rw [spaceRunes_eq, stripRune_map (c := c) (t := encode cs)]
  · simp only [goIsSpace_iff]
  · intro d
    rw [List.isPrefixOf_iff_prefix, encode_cons]
    constructor
    · rintro ⟨x, hx⟩
      exact eq_of_utf8EncodeChar_append hx
    · rintro rfl
      exact List.prefix_append _ _
  · rw [encode_cons, List.drop_left]

/-- Stripping the runes from the right drops the characters from the right. -/
theorem stripRunes_reverse (ds : List Char) (hn : ds.length ≤ n) :
    stripRunes (spaceRunes.map List.reverse) n (encode ds.reverse).reverse =
      (encode (ds.dropWhile goIsSpace).reverse).reverse := by
  refine stripRunes_dropWhile (fun ds => (encode ds.reverse).reverse) (stripRune_nil reverse_ne_nil) (fun c ds => ?_) hn
  have hbytes : (encode (c :: ds).reverse).reverse =
      (String.utf8EncodeChar c).reverse ++ (encode ds.reverse).reverse := by
    rw [List.reverse_cons, encode_append, List.reverse_append, encode_cons, encode_nil, List.append_nil]
  rw [spaceRunes_eq, List.map_map, stripRune_map (c := c) (t := (encode ds.reverse).reverse)]
  · simp only [goIsSpace_iff]
  · -- a white-space rune is stripped only where it is the last one that is encoded
    intro d
    rw [List.isPrefixOf_iff_prefix, Function.comp_apply, List.reverse_prefix, List.reverse_cons]
    constructor
    · intro h
      have hlast : encode [d] <:+ encode (ds.reverse ++ [c]) := by
        rwa [encode_cons, encode_nil, List.append_nil]
      obtain ⟨x, hx⟩ := suffix_of_encode_suffix hlast
      exact List.singleton_inj.mp (List.append_inj_right' hx rfl)
    · rintro rfl
      rw [encode_append, encode_cons, encode_nil, List.append_nil]
      exact List.suffix_append _ _
  · rw [hbytes, Function.comp_apply, List.drop_left]

theorem trimRight_encode (cs : List Char) : trimRight (encode cs) = encode ((cs.reverse.dropWhile goIsSpace).reverse) := by
  have hrun := stripRunes_reverse cs.reverse (n := (encode cs).length)
    (by rw [List.length_reverse]; exact length_le_encode cs)
  rw [List.reverse_reverse] at hrun
  rw [trimRight, hrun, List.reverse_reverse]

/-- `strings.TrimSpace` on the bytes of a text. -/
theorem trimSpace_encode (cs : List Char) : Json.trimSpace (encode cs) = encode (cs.trimWhile goIsSpace) := by
  rw [Json.trimSpace, trimLeft_encode, trimRight_encode, List.trimWhile]

end Stripping

end Devrouter
