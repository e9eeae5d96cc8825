import Mathlib.Data.List.Infix
import Mathlib.Data.Nat.Init
import Mathlib.Tactic.Common

/-!
# UTF-8 texts as lists of bytes

A byte that can start a character never stands inside of one, so the characters of a text can be found again from any
place of it: where the encoding of a text occurs in the encoding of another one, the text occurs there
(`occurs`), and what stands before it is a whole text.

A text that is cut at a byte offset, and continued by a text, is a text exactly when the byte behind the cut can
start a character, or there is none (`valid_take_append_iff`). What is left is then a front of the text
(`exists_front`).
-/

namespace Utf8

/-- The bytes of a text. -/
def encode (cs : List Char) : List UInt8 := cs.flatMap String.utf8EncodeChar

/-- The bytes of some text. -/
def Valid (bs : List UInt8) : Prop := ∃ cs, encode cs = bs

/-- No character of the bytes goes across the offset: the byte there can start a character, or there is none. -/
def Boundary (bs : List UInt8) (n : ℕ) : Prop := ∀ b, bs[n]? = some b → b.IsUTF8FirstByte

instance (bs : List UInt8) (n : ℕ) : Decidable (Boundary bs n) :=
  match h : bs[n]? with
  | none => isTrue fun b hb => absurd (hb.symm.trans h) (Option.some_ne_none b)
  | some b => decidable_of_iff b.IsUTF8FirstByte
    ⟨fun hb _ hc => Option.some.inj (h.symm.trans hc) ▸ hb, fun hall => hall b h⟩

variable {cs ds : List Char} {c d : Char} {n : ℕ}

@[simp] theorem encode_nil : encode [] = [] := rfl

@[simp] theorem encode_cons (c : Char) (cs : List Char) : encode (c :: cs) = String.utf8EncodeChar c ++ encode cs := rfl

@[simp] theorem encode_append (cs ds : List Char) : encode (cs ++ ds) = encode cs ++ encode ds := List.flatMap_append

theorem valid_encode (cs : List Char) : Valid (encode cs) := ⟨cs, rfl⟩

/-! ### The first byte of a character -/

theorem length_utf8EncodeChar_pos (c : Char) : 0 < (String.utf8EncodeChar c).length := by
  rw [String.length_utf8EncodeChar]
  exact c.utf8Size_pos

/-- A text that is not empty begins with a byte that can start a character. -/
theorem boundary_encode_zero (cs : List Char) : Boundary (encode cs) 0 := by
  intro b hb
  cases cs with
  | nil => exact absurd hb (by simp)
  | cons c cs =>
    have hlt := length_utf8EncodeChar_pos c
    rw [encode_cons, List.getElem?_append_left hlt, List.getElem?_eq_getElem hlt] at hb
    rw [← Option.some.inj hb]
    exact UInt8.isUTF8FirstByte_getElem_zero_utf8EncodeChar

/-- Inside of the first character there is no boundary. -/
theorem not_boundary_cons (hpos : 0 < n) (hlt : n < (String.utf8EncodeChar c).length) :
    ¬ Boundary (encode (c :: cs)) n := by
  intro h
  have hfirst := h (String.utf8EncodeChar c)[n] (by
    rw [encode_cons, List.getElem?_append_left hlt, List.getElem?_eq_getElem hlt])
  rw [UInt8.isUTF8FirstByte_getElem_utf8EncodeChar] at hfirst
  exact absurd hfirst hpos.ne'

/-- What is cut off at a boundary is a front of the text. -/
theorem exists_front (h : Boundary (encode cs) n) : ∃ front rest, cs = front ++ rest ∧ encode front = (encode cs).take n := by
  induction cs generalizing n with
  | nil => exact ⟨[], [], rfl, by simp⟩
  | cons c cs ih =>
    obtain rfl | hpos := Nat.eq_zero_or_pos n
    · exact ⟨[], c :: cs, rfl, rfl⟩
    obtain hlt | hle := Nat.lt_or_ge n (String.utf8EncodeChar c).length
    · exact absurd h (not_boundary_cons hpos hlt)
    -- the cut is behind the first character
    have hbehind : Boundary (encode cs) (n - (String.utf8EncodeChar c).length) := by
      intro b hb
      refine h b ?_
      rwa [encode_cons, List.getElem?_append_right hle]
    obtain ⟨front, rest, rfl, hfront⟩ := ih hbehind
    refine ⟨c :: front, rest, rfl, ?_⟩
    rw [encode_cons, hfront, encode_cons, List.take_append, List.take_of_length_le hle]

/-! ### Texts in texts -/

/-- A character is read back from its bytes, whatever follows them. -/
theorem eq_of_utf8EncodeChar_append {x y : List UInt8}
    (h : String.utf8EncodeChar c ++ x = String.utf8EncodeChar d ++ y) : c = d := by
  have hread : ∀ (c : Char) (x : List UInt8), (String.utf8EncodeChar c ++ x).toByteArray.utf8DecodeChar? 0 = some c := by
    intro c x
    rw [List.toByteArray_append]
    exact ByteArray.utf8DecodeChar?_utf8EncodeChar_append
  have hc := hread c x
  rw [h, hread d y] at hc
  exact (Option.some.inj hc).symm

/-- A text whose bytes begin another text's bytes begins that text. -/
theorem prefix_of_encode_prefix (h : encode ds <+: encode cs) : ds <+: cs := by
  induction ds generalizing cs with
  | nil => exact List.nil_prefix
  | cons d ds ih =>
    obtain ⟨x, hx⟩ := h
    rw [encode_cons, List.append_assoc] at hx
    cases cs with
    | nil =>
      have hnil := (List.append_eq_nil_iff.mp hx).1
      exact absurd hnil String.utf8EncodeChar_ne_nil
    | cons c cs =>
      rw [encode_cons] at hx
      obtain rfl := eq_of_utf8EncodeChar_append hx
      exact List.cons_prefix_cons.mpr ⟨rfl, ih ⟨x, List.append_cancel_left hx⟩⟩

theorem encode_injective : Function.Injective encode := by
  intro cs ds h
  have hle : cs <+: ds := prefix_of_encode_prefix (h ▸ List.prefix_refl _)
  obtain ⟨rest, rfl⟩ := hle
  rw [encode_append] at h
  cases rest with
  | nil => simp
  | cons c rest =>
    have hlen := congrArg List.length h
    have hpos := length_utf8EncodeChar_pos c
    rw [List.length_append, encode_cons, List.length_append] at hlen
    omega

/-- What stands before an occurrence of a text is a text. -/
theorem boundary_of_occurs (hne : ds ≠ []) (h : encode ds <+: (encode cs).drop n) : Boundary (encode cs) n := by
  obtain ⟨x, hx⟩ := h
  intro b hb
  have hhead : (encode ds ++ x)[0]? = some b := by
    rw [hx, List.getElem?_drop]
    exact hb
  have hpos : 0 < (encode ds).length := by
    cases ds with
    | nil => exact absurd rfl hne
    | cons d ds =>
      have := length_utf8EncodeChar_pos d
      rw [encode_cons, List.length_append]
      omega
  rw [List.getElem?_append_left hpos] at hhead
  exact boundary_encode_zero ds b hhead

/-- **Self-synchronisation.** Where the bytes of a text occur in the bytes of another text, the text occurs, behind a
whole text. -/
theorem occurs (hne : ds ≠ []) (h : encode ds <+: (encode cs).drop n) :
    ∃ front rest, cs = front ++ (ds ++ rest) ∧ encode front = (encode cs).take n := by
  obtain ⟨front, rest, rfl, hfront⟩ := exists_front (boundary_of_occurs hne h)
  have hdrop : (encode (front ++ rest)).drop n = encode rest := by
    have hsplit := List.take_append_drop n (encode (front ++ rest))
    rw [← hfront, encode_append] at hsplit
    rw [encode_append]
    exact List.append_cancel_left hsplit
  rw [hdrop] at h
  obtain ⟨tail, rfl⟩ := prefix_of_encode_prefix h
  exact ⟨front, tail, rfl, hfront⟩

/-- Behind an occurrence of a text there is a boundary as well. -/
theorem boundary_behind (hne : ds ≠ []) (hn : n ≤ (encode cs).length) (h : encode ds <+: (encode cs).drop n) :
    Boundary (encode cs) (n + (encode ds).length) := by
  obtain ⟨front, rest, rfl, hfront⟩ := occurs hne h
  have hlen : (encode front).length = n := by rw [hfront, List.length_take, Nat.min_eq_left hn]
  intro b hb
  rw [encode_append, encode_append, ← List.append_assoc,
    List.getElem?_append_right (by rw [List.length_append, hlen]), List.length_append, hlen, Nat.sub_self] at hb
  exact boundary_encode_zero rest b hb

/-- A text whose bytes end another text's bytes ends that text. -/
theorem suffix_of_encode_suffix (h : encode ds <:+ encode cs) : ds <:+ cs := by
  by_cases hne : ds = []
  · rw [hne]
    exact List.nil_suffix
  obtain ⟨x, hx⟩ := h
  have hocc : encode ds <+: (encode cs).drop x.length := by rw [← hx, List.drop_left]
  obtain ⟨front, rest, rfl, hfront⟩ := occurs hne hocc
  rw [← hx, List.take_left] at hfront
  rw [encode_append, encode_append, hfront] at hx
  have hrest : encode [] = encode rest :=
    (List.self_eq_append_right.mp (List.append_cancel_left hx)).symm
  rw [← encode_injective hrest, List.append_nil]
  exact List.suffix_append front ds

/-- **Cuts.** A text that is cut at an offset, and continued by a text, is a text exactly when no character goes across
the offset. -/
theorem valid_take_append_iff (ds : List Char) : Valid ((encode cs).take n ++ encode ds) ↔ Boundary (encode cs) n := by
  constructor
  · rintro ⟨es, hes⟩ b hb
    obtain ⟨hlt, hget⟩ := List.getElem?_eq_some_iff.mp hb
    have hlen : ((encode cs).take n).length = n := by
      rw [List.length_take]
      omega
    -- what is continued by a text is a text itself
    obtain ⟨front, rest, rfl, hfront⟩ : ∃ front rest, es = front ++ rest ∧ encode front = (encode es).take n := by
      refine exists_front ?_
      intro b' hb'
      rw [hes, List.getElem?_append_right hlen.le, hlen, Nat.sub_self] at hb'
      exact boundary_encode_zero ds b' hb'
    rw [hes, List.take_append_of_le_length hlen.ge, List.take_of_length_le hlen.le] at hfront
    -- so it is a front of the first text, and the byte behind it starts what is left of that
    obtain ⟨behind, rfl⟩ := prefix_of_encode_prefix (hfront ▸ List.take_prefix n (encode cs))
    have hfrontLen : (encode front).length = n := by rw [hfront, hlen]
    rw [encode_append, List.getElem?_append_right hfrontLen.le, hfrontLen, Nat.sub_self] at hb
    exact boundary_encode_zero behind b hb
  · intro h
    obtain ⟨front, rest, rfl, hfront⟩ := exists_front h
    exact ⟨front ++ ds, by rw [encode_append, hfront]⟩

end Utf8
