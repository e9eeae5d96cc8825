import Devrouter.Lib.JsonLayout

/-!
# JSON in lines

A text is compact without the white space between its tokens; layouts of one list of tokens have one compact text
(`Relaid.compact_eq`). A text that is cut into lines, each of them trimmed, is a layout of the same tokens when the
lines are joined again (`relines_laid`): no token has a line break, and none begins or ends with white space.
-/

namespace Json

/-! ### Compact texts -/

section Compact

/-- Where the next byte stands: between tokens, inside a string, or behind a backslash in one. -/
inductive Place where
  | between
  | inside
  | escaped

def compactFrom : Place → Bytes → Bytes
  | _, [] => []
  | .between, b :: bs =>
    if isSpaceByte b then compactFrom .between bs
    else b :: compactFrom (if b = byte '"' then .inside else .between) bs
  | .inside, b :: bs =>
    b :: compactFrom (if b = byte '"' then .between else if b = byte '\\' then .escaped else .inside) bs
  | .escaped, b :: bs => b :: compactFrom .inside bs

/-- `json.Compact`: the text without its white space. -/
def compact (s : Bytes) : Bytes := compactFrom .between s

theorem compact_gap {g : Bytes} (hg : Gap g) (x : Bytes) : compact (g ++ x) = compact x := by
  induction g with
  | nil => rfl
  | cons b g ih =>
    obtain ⟨hb, hg⟩ := List.forall_mem_cons.mp hg
    rw [List.cons_append, compact, compactFrom, if_pos hb]
    exact ih hg

theorem compactFrom_plain {b : UInt8} (hquote : b ≠ byte '"') (hslash : b ≠ byte '\\') (x : Bytes) :
    compactFrom .inside (b :: x) = b :: compactFrom .inside x := by
  rw [compactFrom, if_neg hquote, if_neg hslash]

/-- A string stays as it is. -/
theorem compactFrom_string {body : Bytes} (h : scanString body = some []) (x : Bytes) :
    compactFrom .inside (body ++ x) = body ++ compact x := by
  fun_induction scanString body with
  | case2 bs =>
    obtain rfl := Option.some.inj h
    rw [List.cons_append, compactFrom, if_pos rfl]
    rfl
  | case5 h₁ h₂ h₃ h₄ bs hhex hquote hctrl ih =>
    -- hexadecimal digits neither end the string nor escape
    have hplain : ∀ b ∈ [h₁, h₂, h₃, h₄], b ≠ byte '"' ∧ b ≠ byte '\\' := by
      intro b hb
      have hb := List.all_eq_true.mp hhex b hb
      constructor
      · rintro rfl
        exact absurd hb (by decide)
      · rintro rfl
        exact absurd hb (by decide)
    simp only [List.forall_mem_cons] at hplain
    have hslash : ∀ t, compactFrom .inside (byte '\\' :: byte 'u' :: t) =
        byte '\\' :: byte 'u' :: compactFrom .inside t := fun _ => rfl
    simp only [List.cons_append]
    rw [hslash, compactFrom_plain hplain.1.1 hplain.1.2, compactFrom_plain hplain.2.1.1 hplain.2.1.2,
      compactFrom_plain hplain.2.2.1.1 hplain.2.2.1.2, compactFrom_plain hplain.2.2.2.1.1 hplain.2.2.2.1.2, ih h]
  | case8 e bs hu hmem hquote hctrl ih =>
    -- an escape takes two bytes, and neither is looked at alone
    rw [List.cons_append, List.cons_append, compactFrom, if_neg hquote, if_pos rfl, compactFrom, ih h]
    rfl
  | case10 b bs hquote hctrl hslash ih =>
    rw [List.cons_append, compactFrom_plain hquote hslash, ih h]
    rfl
  | case1 | case3 | case4 | case6 | case7 | case9 => cases h

theorem compact_token {tok : Bytes} (h : Token tok) (x : Bytes) : compact (tok ++ x) = tok ++ compact x := by
  have hplain : ∀ {b : UInt8} (t : Bytes), isPunct b = true ∨ isWordByte b = true →
      compact (b :: t) = b :: compact t := by
    intro b t hb
    -- a quote is neither punctuation nor part of a word, so the byte is copied
    have hquote : b ≠ byte '"' := by
      rintro rfl
      exact absurd hb (by decide)
    rw [compact, compactFrom, not_space_of hb, if_neg Bool.false_ne_true, if_neg hquote]
    rfl
  cases h with
  | punct h => exact hplain x (.inl h)
  | @string body h =>
    have hspace : isSpaceByte (byte '"') = false := by decide
    rw [List.cons_append, compact, compactFrom, hspace, if_neg Bool.false_ne_true, if_pos rfl, compactFrom_string h]
    rfl
  | word hne h =>
    -- byte by byte along the word
    clear hne
    induction tok with
    | nil => rfl
    | cons b tok ih =>
      obtain ⟨hb, htok⟩ := List.forall_mem_cons.mp h
      rw [List.cons_append, hplain _ (.inr hb), ih htok]
      rfl

theorem Laid.compact_eq {toks : List Bytes} {x : Bytes} (h : Laid toks x) : compact x = toks.flatten := by
  induction h with
  | @one tok h =>
    have htok := compact_token h []
    rwa [List.append_nil] at htok
  | cons h hg hlaid ih => rw [List.append_assoc, compact_token h, compact_gap hg, ih, List.flatten_cons]

/-- Layouts of one list of tokens are one compact text. -/
theorem Relaid.compact_eq {x y : Bytes} (h : Relaid x y) : compact x = compact y := by
  obtain ⟨toks, hx, hy⟩ := h
  rw [hx.compact_eq, hy.compact_eq]

theorem Alike.compact_eq {depth : ℕ} {x y : Bytes} (h : Alike depth x y) : compact x = compact y := by
  obtain rfl | hlaid := h.relaid
  · rfl
  · exact hlaid.compact_eq

end Compact

/-! ### Trimming -/

section Trimming

/-- The runes of `unicode.IsSpace`, in UTF-8. -/
def spaceRunes : List Bytes :=
  [[0x09], [0x0a], [0x0b], [0x0c], [0x0d], [0x20], [0xc2, 0x85], [0xc2, 0xa0], [0xe1, 0x9a, 0x80],
    [0xe2, 0x80, 0x80], [0xe2, 0x80, 0x81], [0xe2, 0x80, 0x82], [0xe2, 0x80, 0x83], [0xe2, 0x80, 0x84],
    [0xe2, 0x80, 0x85], [0xe2, 0x80, 0x86], [0xe2, 0x80, 0x87], [0xe2, 0x80, 0x88], [0xe2, 0x80, 0x89],
    [0xe2, 0x80, 0x8a], [0xe2, 0x80, 0xa8], [0xe2, 0x80, 0xa9], [0xe2, 0x80, 0xaf], [0xe2, 0x81, 0x9f],
    [0xe3, 0x80, 0x80]]

/-- The text behind one of the runes. -/
def stripRune (rs : List Bytes) (s : Bytes) : Option Bytes :=
  rs.findSome? fun e => if e.isPrefixOf s then some (s.drop e.length) else none

/-- The text behind all runes at its start; each step strips one. -/
def stripRunes (rs : List Bytes) : ℕ → Bytes → Bytes
  | 0, s => s
  | n + 1, s =>
    match stripRune rs s with
    | some t => stripRunes rs n t
    | none => s

def trimLeft (s : Bytes) : Bytes := stripRunes spaceRunes s.length s

def trimRight (s : Bytes) : Bytes := (stripRunes (spaceRunes.map List.reverse) s.length s.reverse).reverse

/-- `bytes.TrimSpace`. -/
def trimSpace (s : Bytes) : Bytes := trimRight (trimLeft s)

/-- A byte that is in no white space. -/
def isSolid (b : UInt8) : Bool := spaceRunes.all fun e => decide (b ∉ e)

variable {rs : List Bytes} {s t u : Bytes} {b : UInt8}

/-- The runes are not empty, and do not have the byte. -/
def Apart (rs : List Bytes) (b : UInt8) : Prop := ∀ e ∈ rs, e ≠ [] ∧ b ∉ e

theorem apart_spaceRunes (h : isSolid b = true) : Apart spaceRunes b := by
  intro e he
  refine ⟨?_, of_decide_eq_true (List.all_eq_true.mp h e he)⟩
  rintro rfl
  exact absurd he (by decide)

theorem apart_reverse (h : Apart rs b) : Apart (rs.map List.reverse) b := by
  intro e he
  obtain ⟨f, hf, rfl⟩ := List.mem_map.mp he
  rw [List.mem_reverse, Ne, List.reverse_eq_nil_iff]
  exact h f hf

/-- What is stripped of a text stands before the byte. -/
theorem stripRune_append (h : Apart rs b) (s t : Bytes) :
    stripRune rs (s ++ b :: t) = (stripRune rs s).map (· ++ b :: t) := by
  induction rs with
  | nil => rfl
  | cons e rs ih =>
    obtain ⟨⟨hne, hb⟩, hrest⟩ := List.forall_mem_cons.mp h
    have hfront : e.isPrefixOf (s ++ b :: t) = e.isPrefixOf s := by
      rw [Bool.eq_iff_iff, List.isPrefixOf_iff_prefix, List.isPrefixOf_iff_prefix]
      constructor
      · intro he
        obtain hle | hlt := le_or_gt e.length s.length
        · exact List.prefix_of_prefix_length_le he (List.prefix_append _ _) hle
        · -- a longer rune has the byte
          obtain ⟨v, hv⟩ := List.prefix_of_prefix_length_le (List.prefix_append s (b :: t)) he hlt.le
          subst hv
          rw [List.prefix_append_right_inj] at he
          cases v with
          | nil => simp at hlt
          | cons c v =>
            obtain ⟨w, hw⟩ := he
            obtain ⟨rfl, -⟩ := List.cons.inj hw
            exact absurd (List.mem_append_right s List.mem_cons_self) hb
      · exact fun he => he.trans (List.prefix_append _ _)
    rw [stripRune, List.findSome?_cons, hfront, stripRune, List.findSome?_cons]
    by_cases he : e.isPrefixOf s = true
    · -- the rune that fits is stripped from the front, and what stands behind it stays
      have hle : e.length ≤ s.length := (List.isPrefixOf_iff_prefix.mp he).length_le
      simp [he, List.drop_append_of_le_length hle]
    · simp only [he]
      exact ih hrest

theorem stripRunes_append (h : Apart rs b) (n : ℕ) (s t : Bytes) :
    stripRunes rs n (s ++ b :: t) = stripRunes rs n s ++ b :: t := by
  induction n generalizing s with
  | zero => rfl
  | succ n ih =>
    rw [stripRunes, stripRunes, stripRune_append h]
    cases stripRune rs s with
    | none => rfl
    | some v => exact ih v

theorem length_stripRune (h : ∀ e ∈ rs, e ≠ []) (hs : stripRune rs s = some t) : t.length < s.length := by
  obtain ⟨e, he, hif⟩ := List.exists_of_findSome?_eq_some hs
  obtain ⟨hfront, heq⟩ := Option.ite_none_right_eq_some.mp hif
  have hpos : 0 < e.length := List.length_pos_iff.mpr (h e he)
  have hle : e.length ≤ s.length := (List.isPrefixOf_iff_prefix.mp hfront).length_le
  rw [← Option.some.inj heq, List.length_drop]
  omega

/-- More steps than bytes change nothing. -/
theorem stripRunes_steps (h : ∀ e ∈ rs, e ≠ []) {n m : ℕ} (hn : s.length ≤ n) (hm : s.length ≤ m) :
    stripRunes rs n s = stripRunes rs m s := by
  -- an empty text has nothing to strip; each other step makes it shorter
  have hempty : ∀ {s : Bytes} (k : ℕ), s.length ≤ 0 → stripRunes rs k s = s := by
    intro s k hs
    cases k with
    | zero => rfl
    | succ k =>
      rw [stripRunes]
      cases hstrip : stripRune rs s with
      | none => rfl
      | some t => exact absurd (length_stripRune h hstrip) (by omega)
  induction n generalizing s m with
  | zero => exact (hempty 0 hn).trans (hempty m hn).symm
  | succ n ih =>
    cases m with
    | zero => exact (hempty _ hm).trans (hempty 0 hm).symm
    | succ m =>
      rw [stripRunes, stripRunes]
      cases hstrip : stripRune rs s with
      | none => rfl
      | some t =>
        have hlt := length_stripRune h hstrip
        exact ih (by omega) (by omega)

theorem stripRunes_suffix (rs : List Bytes) (n : ℕ) (s : Bytes) : stripRunes rs n s <:+ s := by
  induction n generalizing s with
  | zero => exact List.suffix_refl s
  | succ n ih =>
    rw [stripRunes]
    cases hstrip : stripRune rs s with
    | none => exact List.suffix_refl s
    | some t =>
      obtain ⟨e, -, hif⟩ := List.exists_of_findSome?_eq_some hstrip
      obtain ⟨-, heq⟩ := Option.ite_none_right_eq_some.mp hif
      obtain rfl := Option.some.inj heq
      exact (ih _).trans (List.drop_suffix _ s)

theorem isSuffix_trimLeft (s : Bytes) : trimLeft s <:+ s := stripRunes_suffix _ _ s

theorem isPrefix_trimRight (s : Bytes) : trimRight s <+: s := by
  have hsuffix := stripRunes_suffix (spaceRunes.map List.reverse) s.length s.reverse
  rw [← List.reverse_prefix, List.reverse_reverse] at hsuffix
  exact hsuffix

/-- What is trimmed is a part of the text. -/
theorem trimSpace_eq (s : Bytes) : s.length - (trimLeft s).length + (trimSpace s).length ≤ s.length ∧
    trimSpace s = (s.drop (s.length - (trimLeft s).length)).take (trimSpace s).length := by
  have hleft := List.suffix_iff_eq_drop.mp (isSuffix_trimLeft s)
  have hright := List.prefix_iff_eq_take.mp (isPrefix_trimRight (trimLeft s))
  have hle := (isPrefix_trimRight (trimLeft s)).length_le
  have hle' := (isSuffix_trimLeft s).length_le
  refine ⟨?_, ?_⟩
  · rw [trimSpace]
    omega
  · rw [← hleft]
    exact hright

theorem stripRunes_gap (h : ∀ e ∈ rs, e ≠ []) (hspace : ∀ b, isSpaceByte b = true → ∀ t, stripRune rs (b :: t) = some t)
    {g : Bytes} (hg : Gap g) {n : ℕ} (hn : g.length ≤ n) : stripRunes rs n g = [] := by
  rw [stripRunes_steps h hn le_rfl]
  induction g generalizing n with
  | nil => rfl
  | cons b g ih =>
    obtain ⟨hb, hg⟩ := List.forall_mem_cons.mp hg
    rw [List.length_cons, stripRunes, hspace b hb]
    exact ih hg le_rfl

theorem spaceRunes_ne_nil : ∀ e ∈ spaceRunes, e ≠ [] := by decide

theorem reverse_ne_nil : ∀ e ∈ spaceRunes.map List.reverse, e ≠ [] := by decide

theorem stripRune_space (hb : isSpaceByte b = true) (t : Bytes) : stripRune spaceRunes (b :: t) = some t ∧
    stripRune (spaceRunes.map List.reverse) (b :: t) = some t := by
  have hcases : b = byte ' ' ∨ b = byte '\t' ∨ b = byte '\n' ∨ b = byte '\r' := by
    simpa only [isSpaceByte, Bool.or_eq_true, decide_eq_true_eq, or_assoc] using hb
  obtain rfl | rfl | rfl | rfl := hcases <;> exact ⟨rfl, rfl⟩

/-- Solid text behind white space. -/
theorem trimLeft_append {g : Bytes} (hg : Gap g) (hb : isSolid b = true) (t : Bytes) : trimLeft (g ++ b :: t) = b :: t := by
  have hle : g.length ≤ (g ++ b :: t).length := by
    rw [List.length_append]
    omega
  rw [trimLeft, stripRunes_append (apart_spaceRunes hb),
    stripRunes_gap spaceRunes_ne_nil (fun _ hb t => (stripRune_space hb t).1) hg hle, List.nil_append]

/-- What stands before a solid byte is not trimmed at the end. -/
theorem trimRight_append (hb : isSolid b = true) (s t : Bytes) : trimRight (s ++ b :: t) = s ++ b :: trimRight t := by
  have hle : t.reverse.length ≤ (s ++ b :: t).length := by
    rw [List.length_append, List.length_reverse, List.length_cons]
    omega
  have hlist : (s ++ b :: t).reverse = t.reverse ++ b :: s.reverse := by simp
  rw [trimRight, hlist, stripRunes_append (apart_reverse (apart_spaceRunes hb)),
    stripRunes_steps reverse_ne_nil hle le_rfl, List.length_reverse, trimRight]
  simp

theorem trimRight_gap {g : Bytes} (hg : Gap g) : trimRight g = [] := by
  have hrev : Gap g.reverse := fun b hb => hg b (List.mem_reverse.mp hb)
  rw [trimRight, stripRunes_gap reverse_ne_nil (fun _ hb t => (stripRune_space hb t).2) hrev
    (List.length_reverse).le, List.reverse_nil]

theorem trimSpace_gap {g : Bytes} (hg : Gap g) : trimSpace g = [] := by
  rw [trimSpace, trimLeft, stripRunes_gap spaceRunes_ne_nil (fun _ hb t => (stripRune_space hb t).1) hg le_rfl]
  rfl

theorem trimSpace_append {g : Bytes} (hg : Gap g) (hb : isSolid b = true) (t : Bytes) :
    trimSpace (g ++ b :: t) = trimRight (b :: t) := by
  rw [trimSpace, trimLeft_append hg hb]

/-- The first and the last byte of a token are in no white space, and no byte of it is a line break. -/
theorem Token.solid {tok : Bytes} (h : Token tok) : (∃ b t, tok = b :: t ∧ isSolid b = true) ∧
    (∃ t b, tok = t ++ [b] ∧ isSolid b = true) ∧ byte '\n' ∉ tok := by
  have hplain : ∀ b : UInt8, isPunct b = true ∨ isWordByte b = true → isSolid b = true ∧ byte '\n' ≠ b := by
    -- the bytes of white space are neither punctuation nor of words
    have hnone : ∀ b ∈ spaceRunes.flatten, ¬ (isPunct b = true ∨ isWordByte b = true) := by decide +kernel
    intro b hb
    refine ⟨List.all_eq_true.mpr fun e he => decide_eq_true fun hmem => ?_, ?_⟩
    · exact hnone b (List.mem_flatten.mpr ⟨e, he, hmem⟩) hb
    · rintro rfl
      exact hnone _ (by decide) hb
  cases h with
  | @punct b h =>
    -- punctuation is one solid byte
    obtain ⟨hsolid, hline⟩ := hplain b (.inl h)
    exact ⟨⟨b, [], rfl, hsolid⟩, ⟨[], b, rfl, hsolid⟩, by simpa using hline⟩
  | @string body h =>
    -- a string begins and ends with its quotes and holds no line break
    obtain ⟨hline, hlast⟩ := scanString_line h
    obtain ⟨t, rfl⟩ := List.getLast?_eq_some_iff.mp hlast
    refine ⟨⟨_, _, rfl, by decide⟩, ⟨byte '"' :: t, _, rfl, by decide⟩, ?_⟩
    rw [List.mem_cons, not_or]
    exact ⟨by decide, hline⟩
  | word hne h =>
    -- a word is solid at both ends
    have hlast := (List.dropLast_concat_getLast hne).symm
    generalize tok.dropLast = t, tok.getLast hne = b at hlast
    obtain ⟨c, u, hfirst⟩ := List.exists_cons_of_ne_nil hne
    refine ⟨⟨c, u, hfirst, (hplain c (.inr (h c ?_))).1⟩, ⟨t, b, hlast, (hplain b (.inr (h b ?_))).1⟩, fun hmem => ?_⟩
    · rw [hfirst]
      exact List.mem_cons_self
    · rw [hlast]
      exact List.mem_append_right t List.mem_cons_self
    · exact (hplain _ (.inr (h _ hmem))).2 rfl

theorem Laid.solid {toks : List Bytes} {x : Bytes} (h : Laid toks x) :
    (∃ b t, x = b :: t ∧ isSolid b = true) ∧ ∃ t b, x = t ++ [b] ∧ isSolid b = true := by
  constructor
  · obtain ⟨tok, rest, rfl⟩ := List.exists_cons_of_ne_nil h.ne_nil
    obtain ⟨htok, t, rfl⟩ := h.begins
    obtain ⟨⟨b, u, rfl, hb⟩, -⟩ := htok.solid
    exact ⟨b, u ++ t, rfl, hb⟩
  · induction h with
    | one h => exact h.solid.2.1
    | cons h hg hlaid ih =>
      obtain ⟨t, b, rfl, hb⟩ := ih
      exact ⟨_, b, (List.append_assoc _ _ _).symm, hb⟩

/-- A value is trimmed of the white space around it. -/
theorem Laid.trimSpace_eq {toks : List Bytes} {x g g' : Bytes} (h : Laid toks x) (hg : Gap g) (hg' : Gap g') :
    trimSpace (g ++ x ++ g') = x := by
  obtain ⟨⟨b, t, hfirst, hb⟩, u, c, hlast, hc⟩ := h.solid
  have htext : g ++ x ++ g' = g ++ b :: (t ++ g') := by rw [hfirst, List.append_assoc, List.cons_append]
  have hend : b :: (t ++ g') = u ++ c :: g' := by
    rw [← List.cons_append, ← hfirst, hlast, List.append_assoc]
    rfl
  rw [htext, trimSpace_append hg hb, hend, trimRight_append hc, trimRight_gap hg', hlast]

end Trimming

/-! ### Lines -/

section Lines

/-- The lines of a text: what stands between its line breaks. -/
def splitLines (s : Bytes) : List Bytes := s.splitOn (byte '\n')

def joinLines (ls : List Bytes) : Bytes := [byte '\n'].intercalate ls

/-- Every line trimmed. -/
def relines (s : Bytes) : Bytes := joinLines ((splitLines s).map trimSpace)

/-- The same where the first line goes on: only its end is trimmed. -/
def relinesFrom (s : Bytes) : Bytes :=
  match splitLines s with
  | [] => []
  | l :: ls => joinLines (trimRight l :: ls.map trimSpace)

variable {s t g tok v : Bytes} {toks : List Bytes}

/-- What has no line break is in the first line. -/
theorem splitLines_append (h : byte '\n' ∉ s) (t : Bytes) : ∃ l ls, splitLines t = l :: ls ∧
    splitLines (s ++ t) = (s ++ l) :: ls := by
  obtain ⟨l, ls, hls⟩ := List.exists_cons_of_ne_nil (List.splitOn_ne_nil (byte '\n') t)
  refine ⟨l, ls, hls, ?_⟩
  induction s with
  | nil => exact hls
  | cons b s ih =>
    rw [List.mem_cons, not_or] at h
    have hb : ¬ (b == byte '\n') = true := fun heq => h.1 (eq_of_beq heq).symm
    rw [splitLines, List.cons_append, List.splitOn_cons_eq_if_modifyHead, if_neg hb]
    exact congrArg (List.modifyHead (List.cons b)) (ih h.2)

theorem joinLines_cons (l : Bytes) (s : Bytes) (f : Bytes → Bytes) :
    joinLines (l :: (splitLines s).map f) = l ++ byte '\n' :: joinLines ((splitLines s).map f) := by
  obtain ⟨m, ms, hms⟩ := List.exists_cons_of_ne_nil (List.splitOn_ne_nil (byte '\n') s)
  rw [splitLines, hms, List.map_cons, joinLines, List.intercalate_cons_cons, List.append_assoc]
  rfl

/-- The lines end where the text does. -/
theorem joinLines_cons_append (s l : Bytes) (ls : List Bytes) :
    joinLines ((s ++ l) :: ls) = s ++ joinLines (l :: ls) := by
  cases ls with
  | nil => simp [joinLines]
  | cons m ms => simp [joinLines, List.intercalate_cons_cons]

theorem Token.trimRight_append (h : Token tok) (s l : Bytes) :
    trimRight (s ++ (tok ++ l)) = s ++ tok ++ trimRight l := by
  obtain ⟨-, ⟨t, b, rfl, hb⟩, -⟩ := h.solid
  have htext : s ++ (t ++ [b] ++ l) = (s ++ t) ++ b :: l := by simp
  rw [htext, Json.trimRight_append hb]
  simp

theorem Token.trimSpace_append (h : Token tok) (hg : Gap g) (l : Bytes) :
    trimSpace (g ++ (tok ++ l)) = tok ++ trimRight l := by
  obtain ⟨⟨b, t, heq, hb⟩, -, -⟩ := h.solid
  have htext : g ++ (tok ++ l) = g ++ b :: (t ++ l) := by rw [heq, List.cons_append]
  rw [htext, Json.trimSpace_append hg hb, ← List.cons_append, ← heq]
  exact h.trimRight_append [] l

/-- White space without a line break, in front of a token. -/
theorem relinesFrom_token (h : Token tok) (hline : byte '\n' ∉ g) (t : Bytes) :
    relinesFrom (g ++ (tok ++ t)) = g ++ (tok ++ relinesFrom t) := by
  have hmem : byte '\n' ∉ g ++ tok := by
    rw [List.mem_append, not_or]
    exact ⟨hline, h.solid.2.2⟩
  obtain ⟨l, ls, hls, hlist⟩ := splitLines_append hmem t
  rw [List.append_assoc] at hlist
  rw [relinesFrom, hlist, relinesFrom, hls]
  show joinLines (trimRight (g ++ tok ++ l) :: ls.map trimSpace) = g ++ (tok ++ joinLines (trimRight l :: ls.map trimSpace))
  rw [List.append_assoc, h.trimRight_append, joinLines_cons_append, List.append_assoc]

theorem relines_token (h : Token tok) (hg : Gap g) (hline : byte '\n' ∉ g) (t : Bytes) :
    relines (g ++ (tok ++ t)) = tok ++ relinesFrom t := by
  have hmem : byte '\n' ∉ g ++ tok := by
    rw [List.mem_append, not_or]
    exact ⟨hline, h.solid.2.2⟩
  obtain ⟨l, ls, hls, hlist⟩ := splitLines_append hmem t
  rw [List.append_assoc] at hlist
  rw [relines, hlist, relinesFrom, hls]
  show joinLines (trimSpace (g ++ tok ++ l) :: ls.map trimSpace) = tok ++ joinLines (trimRight l :: ls.map trimSpace)
  rw [List.append_assoc, h.trimSpace_append hg, joinLines_cons_append]

/-- White space to the end of its line goes. -/
theorem relines_break (hg : Gap g) (hline : byte '\n' ∉ g) (t : Bytes) :
    relines (g ++ byte '\n' :: t) = byte '\n' :: relines t ∧
      relinesFrom (g ++ byte '\n' :: t) = byte '\n' :: relines t := by
  have hlist : splitLines (g ++ byte '\n' :: t) = g :: splitLines t := List.splitOn_append_cons_self_of_not_mem hline t
  constructor
  · rw [relines, hlist, List.map_cons, trimSpace_gap hg]
    exact joinLines_cons [] t trimSpace
  · rw [relinesFrom, hlist]
    show joinLines (trimRight g :: (splitLines t).map trimSpace) = _
    rw [trimRight_gap hg]
    exact joinLines_cons [] t trimSpace

/-- White space on one line, or to the end of its line and from there on. -/
theorem Gap.lines (hg : Gap g) : byte '\n' ∉ g ∨
    ∃ g₀ g₁, g = g₀ ++ byte '\n' :: g₁ ∧ Gap g₀ ∧ byte '\n' ∉ g₀ ∧ Gap g₁ := by
  by_cases hline : byte '\n' ∈ g
  · obtain ⟨g₀, g₁, rfl, hfirst⟩ := List.eq_append_cons_of_mem hline
    have hfront : Gap g₀ := fun b hb => hg b (List.mem_append_left _ hb)
    have hback : Gap g₁ := fun b hb => hg b (List.mem_append_right _ (List.mem_cons_of_mem _ hb))
    exact .inr ⟨g₀, g₁, rfl, hfront, hfirst, hback⟩
  · exact .inl hline

theorem gap_newline (hg : Gap g) : Gap (byte '\n' :: g) := List.forall_mem_cons.mpr ⟨by decide, hg⟩

/-- The line of a value that has no line break. -/
theorem splitLines_value {g' : Bytes} (hg : Gap g) (hg' : Gap g') (hline : byte '\n' ∉ v) :
    ∃ before u u' after, splitLines (g ++ v ++ g') = before ++ (u ++ v ++ u') :: after ∧
      (∀ l ∈ before, Gap l) ∧ Gap u ∧ Gap u' := by
  induction hn : g.length using Nat.strong_induction_on generalizing g with
  | _ n ih =>
    subst hn
    -- the gap before the value has no line break, or one that ends its first line
    obtain hfirst | ⟨g₀, g₁, rfl, hg₀, hfirst, hg₁⟩ := hg.lines
    · have hmem : byte '\n' ∉ g ++ v := by
        rw [List.mem_append, not_or]
        exact ⟨hfirst, hline⟩
      obtain ⟨l, ls, hls, hlist⟩ := splitLines_append hmem g'
      refine ⟨[], g, l, ls, hlist, fun _ hl => absurd hl List.not_mem_nil, hg, fun b hb => hg' b ?_⟩
      have hjoin : joinLines (splitLines g') = g' := List.intercalate_splitOn _
      rw [← hjoin, hls, joinLines]
      cases ls with
      | nil => simpa using hb
      | cons m ms =>
        rw [List.intercalate_cons_cons, List.append_assoc]
        exact List.mem_append_left _ hb
    · -- the first line is blank, and the value is found behind it
      obtain ⟨before, u, u', after, hlist, hbefore, hu, hu'⟩ := ih g₁.length (by simp; omega) hg₁ rfl
      have htext : g₀ ++ byte '\n' :: g₁ ++ v ++ g' = g₀ ++ byte '\n' :: (g₁ ++ v ++ g') := by simp
      refine ⟨g₀ :: before, u, u', after, ?_, List.forall_mem_cons.mpr ⟨hg₀, hbefore⟩, hu, hu'⟩
      rw [htext]
      exact (List.splitOn_append_cons_self_of_not_mem hfirst _).trans (congrArg (g₀ :: ·) hlist)

/-- **The lines of a text**: what holds of white space, and of a line with a token where it holds of what follows the
token, holds of all lines. -/
theorem Laid.forall_lines {P Q : Bytes → Prop} {g' : Bytes} (hgap : ∀ g, Gap g → P g ∧ Q g)
    (htok : ∀ g tok l, Gap g → Token tok → Q l → P (g ++ (tok ++ l)) ∧ Q (g ++ (tok ++ l))) (h : Laid toks v)
    (hg : Gap g) (hg' : Gap g') : ∀ l ∈ splitLines (g ++ v ++ g'), P l := by
  have hbreak : ∀ {g₀ : Bytes} (t : Bytes), byte '\n' ∉ g₀ → splitLines (g₀ ++ byte '\n' :: t) = g₀ :: splitLines t :=
    fun t hline => List.splitOn_append_cons_self_of_not_mem hline t
  -- from a text that goes on after a token to one with a token in front
  have hbefore : ∀ {g tok t l : Bytes} {ls : List Bytes}, Gap g → Token tok → splitLines t = l :: ls → Q l →
      (∀ m ∈ ls, P m) → (∀ m ∈ splitLines (g ++ (tok ++ t)), P m) ∧
        ∃ l ls, splitLines (g ++ (tok ++ t)) = l :: ls ∧ Q l ∧ ∀ m ∈ ls, P m := by
    intro g tok t l ls hg htoken hls hl hrest
    induction hn : g.length using Nat.strong_induction_on generalizing g with
    | _ n ih =>
      subst hn
      obtain hline | ⟨g₀, g₁, rfl, hg₀, hline, hg₁⟩ := hg.lines
      · have hmem : byte '\n' ∉ g ++ tok := by
          rw [List.mem_append, not_or]
          exact ⟨hline, htoken.solid.2.2⟩
        obtain ⟨l', ls', hls', hlist⟩ := splitLines_append hmem t
        obtain ⟨rfl, rfl⟩ := List.cons.inj (hls'.symm.trans hls)
        rw [List.append_assoc, List.append_assoc] at hlist
        obtain ⟨hP, hQ⟩ := htok g tok l' hg htoken hl
        rw [hlist]
        exact ⟨List.forall_mem_cons.mpr ⟨hP, hrest⟩, _, _, rfl, hQ, hrest⟩
      · obtain ⟨hall, -⟩ := ih g₁.length (by simp; omega) hg₁ rfl
        obtain ⟨hP, hQ⟩ := hgap g₀ hg₀
        rw [List.append_assoc, List.cons_append, hbreak _ hline]
        exact ⟨List.forall_mem_cons.mpr ⟨hP, hall⟩, _, _, rfl, hQ, hall⟩
  have hend : ∀ {g : Bytes}, Gap g → (∀ m ∈ splitLines g, P m) ∧
      ∃ l ls, splitLines g = l :: ls ∧ Q l ∧ ∀ m ∈ ls, P m := by
    intro g hg
    induction hn : g.length using Nat.strong_induction_on generalizing g with
    | _ n ih =>
      subst hn
      obtain hline | ⟨g₀, g₁, rfl, hg₀, hline, hg₁⟩ := hg.lines
      · obtain ⟨hP, hQ⟩ := hgap g hg
        have hone : splitLines g = [g] := List.splitOn_eq_singleton hline
        rw [hone]
        exact ⟨List.forall_mem_singleton.mpr hP, g, [], rfl, hQ, fun _ hm => absurd hm List.not_mem_nil⟩
      · obtain ⟨hall, -⟩ := ih g₁.length (by simp; omega) hg₁ rfl
        obtain ⟨hP, hQ⟩ := hgap g₀ hg₀
        rw [hbreak _ hline]
        exact ⟨List.forall_mem_cons.mpr ⟨hP, hall⟩, _, _, rfl, hQ, hall⟩
  suffices hboth : (∀ m ∈ splitLines (g ++ (v ++ g')), P m) ∧
      ∃ l ls, splitLines (g ++ (v ++ g')) = l :: ls ∧ Q l ∧ ∀ m ∈ ls, P m by
    rw [List.append_assoc]
    exact hboth.1
  induction h generalizing g with
  | one h =>
    obtain ⟨-, l, ls, hls, hl, hrest⟩ := hend hg'
    exact hbefore hg h hls hl hrest
  | cons h hg₀ hlaid ih =>
    obtain ⟨-, l, ls, hls, hl, hrest⟩ := ih hg₀
    rw [List.append_assoc, List.append_assoc]
    exact hbefore hg h hls hl hrest

/-- White space in front of a token stays white space. -/
theorem relines_before (hg : Gap g) :
    ∃ u, Gap u ∧ ∀ tok t, Token tok → relines (g ++ (tok ++ t)) = u ++ relinesFrom (tok ++ t) := by
  induction hn : g.length using Nat.strong_induction_on generalizing g with
  | _ n ih =>
    subst hn
    obtain hline | ⟨g₀, g₁, rfl, hg₀, hline, hg₁⟩ := hg.lines
    · refine ⟨[], gap_nil, fun tok t htok => ?_⟩
      rw [relines_token htok hg hline]
      exact (relinesFrom_token htok List.not_mem_nil t).symm
    · obtain ⟨u, hu, hrest⟩ := ih g₁.length (by simp; omega) hg₁ rfl
      refine ⟨byte '\n' :: u, gap_newline hu, fun tok t htok => ?_⟩
      rw [List.append_assoc, List.cons_append, (relines_break hg₀ hline _).1, hrest tok t htok]
      rfl

theorem relinesFrom_before (hg : Gap g) :
    ∃ u, Gap u ∧ ∀ tok t, Token tok → relinesFrom (g ++ (tok ++ t)) = u ++ relinesFrom (tok ++ t) := by
  obtain hline | ⟨g₀, g₁, rfl, hg₀, hline, hg₁⟩ := hg.lines
  · refine ⟨g, hg, fun tok t htok => ?_⟩
    rw [relinesFrom_token htok hline]
    exact congrArg (g ++ ·) (relinesFrom_token htok List.not_mem_nil t).symm
  · obtain ⟨u, hu, hrest⟩ := relines_before hg₁
    refine ⟨byte '\n' :: u, gap_newline hu, fun tok t htok => ?_⟩
    rw [List.append_assoc, List.cons_append, (relines_break hg₀ hline _).2, hrest tok t htok]
    rfl

/-- So does white space at the end. -/
theorem gap_relines (hg : Gap g) : Gap (relines g) ∧ Gap (relinesFrom g) := by
  induction hn : g.length using Nat.strong_induction_on generalizing g with
  | _ n ih =>
    subst hn
    obtain hline | ⟨g₀, g₁, rfl, hg₀, hline, hg₁⟩ := hg.lines
    · have hone : splitLines g = [g] := List.splitOn_eq_singleton hline
      constructor
      · rw [relines, hone, List.map_singleton, trimSpace_gap hg]
        exact gap_nil
      · rw [relinesFrom, hone]
        show Gap (joinLines [trimRight g])
        rw [trimRight_gap hg]
        exact gap_nil
    · obtain ⟨hrest, -⟩ := ih g₁.length (by simp; omega) hg₁ rfl
      rw [(relines_break hg₀ hline _).1, (relines_break hg₀ hline _).2]
      exact ⟨gap_newline hrest, gap_newline hrest⟩

theorem Laid.relinesFrom (h : Laid toks v) (hg : Gap g) :
    ∃ v' u, Laid toks v' ∧ Gap u ∧ Json.relinesFrom (v ++ g) = v' ++ u := by
  induction h with
  | @one tok h =>
    have htok := relinesFrom_token h List.not_mem_nil g
    exact ⟨tok, _, .one h, (gap_relines hg).2, htok⟩
  | @cons tok g₀ raw toks h hg₀ hlaid ih =>
    obtain ⟨v', u, hv', hu, heq⟩ := ih
    obtain ⟨tok', rest, rfl⟩ := List.exists_cons_of_ne_nil hlaid.ne_nil
    obtain ⟨htok', t, rfl⟩ := hlaid.begins
    obtain ⟨u₀, hu₀, hbefore⟩ := relinesFrom_before hg₀
    refine ⟨tok ++ u₀ ++ v', u, .cons h hu₀ hv', hu, ?_⟩
    have htext : tok ++ g₀ ++ (tok' ++ t) ++ g = tok ++ (g₀ ++ (tok' ++ (t ++ g))) := by simp only [List.append_assoc]
    have htok := relinesFrom_token h List.not_mem_nil (g₀ ++ (tok' ++ (t ++ g)))
    rw [List.append_assoc] at heq
    rw [List.nil_append, List.nil_append] at htok
    rw [htext, htok, hbefore tok' _ htok', heq]
    simp only [List.append_assoc]

/-- **A text in lines**: trimmed and joined again, the lines are a layout of the same tokens. -/
theorem relines_laid {g' : Bytes} (h : Laid toks v) (hg : Gap g) (hg' : Gap g') :
    ∃ u v' u', Gap u ∧ Laid toks v' ∧ Gap u' ∧ relines (g ++ v ++ g') = u ++ v' ++ u' := by
  obtain ⟨tok, rest, rfl⟩ := List.exists_cons_of_ne_nil h.ne_nil
  obtain ⟨htok, t, rfl⟩ := h.begins
  obtain ⟨u, hu, hbefore⟩ := relines_before hg
  obtain ⟨v', u', hv', hu', heq⟩ := h.relinesFrom hg'
  refine ⟨u, v', u', hu, hv', hu', ?_⟩
  have htext : g ++ (tok ++ t) ++ g' = g ++ (tok ++ (t ++ g')) := by simp only [List.append_assoc]
  rw [List.append_assoc] at heq
  rw [htext, hbefore tok _ htok, heq, List.append_assoc]

end Lines

end Json
