import Devrouter.Lib.JsonLines

/-!
# The first value of a text

What a decoder reads that stops after one value: where the text begins with a value and what follows does not belong to
it, the value is read, and what follows is not looked at (`firstValue_trimmed`).
-/

namespace Json

/-! ### Values -/

section Values

/-- `Decoder.Decode`: the value that a text begins with. -/
def firstValue (text : Bytes) : Option Bytes :=
  (scanValue maxNestingDepth (skipSpace text)).map (span (skipSpace text))

/-- The elements of an array; none for any other value. -/
def elementsOf : Bytes → Option (List Bytes)
  | [] => none
  | b :: rest => if b = byte '[' then (scanItems (scanValue (maxNestingDepth - 1)) rest).map Prod.fst else none

/-- The value of a key: the last of its members counts. -/
def lookup (ms : List Member) (key : String) : Option Bytes :=
  (ms.reverse.find? fun m => decide (unquote m.key = key)).map Member.value

/-- The bytes of a string. -/
def utf8 (s : String) : Bytes := s.toList.flatMap String.utf8EncodeChar

end Values

/-! ### Trimmed texts -/

section Trimmed

variable {t v x : Bytes}

/-- A text that begins with a value, as it is trimmed. -/
def Begins (v : Bytes) (text : Bytes) : Prop := ∃ x, text = v ++ x ∧ Follows x

/-- A value that is read before anything that can follow it, and is not trimmed. -/
structure Standing (v : Bytes) : Prop where
  first : ∃ b t, v = b :: t ∧ isSolid b = true ∧ isSpaceByte b = false
  last : ∃ t b, v = t ++ [b] ∧ isSolid b = true
  read : ∀ x, Follows x → scanValue maxNestingDepth (v ++ x) = some x

theorem standing_of_wholeValue (h : wholeValue t = some v) : Standing v ∧ ∃ g g', Gap g ∧ Gap g' ∧ t = g ++ v ++ g' := by
  obtain ⟨g, toks, g', hg, hg', heq, hlaid, hread⟩ := wholeValue_steady h
  refine ⟨⟨?_, hlaid.solid.2, (hread v hlaid).2⟩, g, g', hg, hg', heq⟩
  obtain ⟨b, t, hv, hb⟩ := hlaid.solid.1
  obtain ⟨c, u, hv', hc⟩ := hlaid.head
  obtain ⟨rfl, rfl⟩ := List.cons.inj (hv.symm.trans hv')
  exact ⟨b, t, hv, hb, hc⟩

theorem follows_of_prefix {y : Bytes} (h : Follows x) (hy : y <+: x) : Follows y := by
  cases y with
  | nil => exact gap_nil.follows
  | cons b y =>
    obtain ⟨z, rfl⟩ := hy
    rintro c ⟨⟩
    exact h b rfl

/-- What is in front of a value is trimmed, and some of what follows. -/
theorem Standing.trimSpace (h : Standing v) {g : Bytes} (hg : Gap g) (hx : Follows x) :
    Begins v (Json.trimSpace (g ++ (v ++ x))) := by
  obtain ⟨b, t, hfirst, hb, -⟩ := h.first
  obtain ⟨u, c, hlast, hc⟩ := h.last
  have htext : g ++ (v ++ x) = g ++ b :: (t ++ x) := by rw [hfirst, List.cons_append]
  have hend : b :: (t ++ x) = u ++ c :: x := by
    rw [← List.cons_append, ← hfirst, hlast, List.append_assoc]
    rfl
  refine ⟨trimRight x, ?_, follows_of_prefix hx (isPrefix_trimRight x)⟩
  rw [htext, trimSpace_append hg hb, hend, trimRight_append hc, hlast, List.append_assoc]
  rfl

theorem Begins.trimSpace (hv : Standing v) (h : Begins v t) : Begins v (Json.trimSpace t) := by
  obtain ⟨x, rfl, hx⟩ := h
  exact hv.trimSpace gap_nil hx

/-- **The first value** of a text that begins with it. -/
theorem Begins.firstValue (hv : Standing v) (h : Begins v t) : Json.firstValue t = some v := by
  obtain ⟨x, rfl, hx⟩ := h
  obtain ⟨b, u, rfl, -, hb⟩ := hv.first
  have hskip : skipSpace (b :: u ++ x) = b :: u ++ x := List.dropWhile_cons_of_neg (by simp [hb])
  rw [Json.firstValue, hskip, hv.read x hx, Option.map_some, span_append]

end Trimmed

end Json
