import Mathlib.Data.List.TakeWhile
import Mathlib.Tactic.Common
import Devrouter.Lib.JsonScan

/-!
# The tokens of JSON

A JSON text is a list of tokens with white space between them (`Laid`); two layouts of one list of tokens are the same
text but for white space (`Relaid`). A scalar is one token, and where it ends does not depend on what follows
(`scanScalar_split`).
-/

namespace Json

/-! ### Tokens -/

/-- White space between tokens. -/
def Gap (g : Bytes) : Prop := ∀ b ∈ g, isSpaceByte b = true

def isPunct (b : UInt8) : Bool :=
  b = byte '[' || b = byte ']' || b = byte '\x7b' || b = byte '\x7d' || b = byte ',' || b = byte ':'

/-- The bytes of numbers and of `true`, `false` and `null`. -/
def isWordByte (b : UInt8) : Bool :=
  isDigitByte b || (byte 'a' ≤ b && b ≤ byte 'z') || b = byte 'E' || b = byte '+' || b = byte '-' || b = byte '.'

/-- A bracket, a comma, a colon, a string or a word. -/
inductive Token : Bytes → Prop
  | punct {b : UInt8} (h : isPunct b = true) : Token [b]
  | string {body : Bytes} (h : scanString body = some []) : Token (byte '"' :: body)
  | word {w : Bytes} (hne : w ≠ []) (h : ∀ b ∈ w, isWordByte b = true) : Token w

/-- Tokens with white space between them. -/
inductive Laid : List Bytes → Bytes → Prop
  | one {tok : Bytes} (h : Token tok) : Laid [tok] tok
  | cons {tok g raw : Bytes} {toks : List Bytes} (h : Token tok) (hg : Gap g) (hlaid : Laid toks raw) :
      Laid (tok :: toks) (tok ++ g ++ raw)

/-- Two layouts of one list of tokens. -/
def Relaid (x y : Bytes) : Prop := ∃ toks, Laid toks x ∧ Laid toks y

/-- What can follow a value. -/
def Follows (r : Bytes) : Prop :=
  ∀ b ∈ r.head?, isSpaceByte b = true ∨ b = byte ',' ∨ b = byte ']' ∨ b = byte '\x7d'

theorem gap_nil : Gap [] := fun _ h => absurd h List.not_mem_nil

theorem Gap.append {g g' : Bytes} (h : Gap g) (h' : Gap g') : Gap (g ++ g') := by
  intro b hb
  exact (List.mem_append.mp hb).elim (h b) (h' b)

theorem gap_takeWhile (s : Bytes) : Gap (s.takeWhile isSpaceByte) := fun _ hb => List.mem_takeWhile_imp hb

/-- White space and what it is skipped to. -/
theorem gap_append_skipSpace (s : Bytes) : s = s.takeWhile isSpaceByte ++ skipSpace s :=
  List.takeWhile_append_dropWhile.symm

theorem skipSpace_gap {g : Bytes} (h : Gap g) (s : Bytes) : skipSpace (g ++ s) = skipSpace s :=
  List.dropWhile_append_of_pos h

theorem gap_of_skipSpace_eq_nil {s : Bytes} (h : skipSpace s = []) : Gap s := by
  rw [skipSpace, List.dropWhile_eq_nil_iff] at h
  exact h

theorem Gap.follows {g : Bytes} (h : Gap g) : Follows g := by
  intro b hb
  exact .inl (h b (List.mem_of_mem_head? hb))

theorem follows_append {g s : Bytes} (hg : Gap g) (hs : Follows s) : Follows (g ++ s) := by
  cases g with
  | nil => exact hs
  | cons b g =>
    rintro c ⟨⟩
    exact .inl (hg b List.mem_cons_self)

/-- What is skipped to a comma or a closing bracket can follow a value. -/
theorem follows_of_skipSpace {s rest : Bytes} {b : UInt8} (h : skipSpace s = b :: rest)
    (hb : b = byte ',' ∨ b = byte ']' ∨ b = byte '\x7d') : Follows s := by
  rw [gap_append_skipSpace s, h]
  refine follows_append (gap_takeWhile s) ?_
  rintro c ⟨⟩
  exact .inr hb

theorem span_append (x r : Bytes) : span (x ++ r) r = x := by
  rw [span, List.length_append, Nat.add_sub_cancel, List.take_left]

section Tokens

variable {tok x y z g : Bytes} {toks a b : List Bytes}

/-- White space has no part in words and brackets. -/
theorem not_space_of {b : UInt8} (h : isPunct b = true ∨ isWordByte b = true) : isSpaceByte b = false := by
  by_contra hspace
  have hcases : b = byte ' ' ∨ b = byte '\t' ∨ b = byte '\n' ∨ b = byte '\r' := by
    simpa only [isSpaceByte, Bool.not_eq_false, Bool.or_eq_true, decide_eq_true_eq, or_assoc] using hspace
  obtain rfl | rfl | rfl | rfl := hcases <;> exact absurd h (by decide)

/-- The first byte of a token is no white space. -/
theorem Token.head (h : Token tok) : ∃ c t, tok = c :: t ∧ isSpaceByte c = false := by
  cases h with
  | punct h => exact ⟨_, [], rfl, not_space_of (.inl h)⟩
  | @string body h => exact ⟨_, body, rfl, by decide⟩
  | word hne h =>
    obtain ⟨c, t, rfl⟩ := List.exists_cons_of_ne_nil hne
    exact ⟨c, t, rfl, not_space_of (.inr (h c List.mem_cons_self))⟩

theorem Laid.ne_nil (h : Laid toks x) : toks ≠ [] := by
  cases h <;> exact List.cons_ne_nil _ _

/-- The text begins with the first token. -/
theorem Laid.begins (h : Laid (tok :: toks) x) : Token tok ∧ ∃ t, x = tok ++ t := by
  cases h with
  | one h => exact ⟨h, [], (List.append_nil _).symm⟩
  | cons h hg hlaid => exact ⟨h, _, List.append_assoc _ _ _⟩

theorem Laid.head (h : Laid toks x) : ∃ c t, x = c :: t ∧ isSpaceByte c = false := by
  obtain ⟨tok, rest, rfl⟩ := List.exists_cons_of_ne_nil h.ne_nil
  obtain ⟨htok, t, rfl⟩ := h.begins
  obtain ⟨c, u, rfl, hc⟩ := htok.head
  exact ⟨c, u ++ t, rfl, hc⟩

theorem Laid.skipSpace_eq (h : Laid toks x) (hg : Gap g) (r : Bytes) : skipSpace (g ++ x ++ r) = x ++ r := by
  obtain ⟨c, t, rfl, hc⟩ := h.head
  rw [List.append_assoc, skipSpace_gap hg, List.cons_append, skipSpace, List.dropWhile_cons_of_neg (by simp [hc])]

theorem Laid.append (hx : Laid a x) (hg : Gap g) (hy : Laid b y) : Laid (a ++ b) (x ++ g ++ y) := by
  induction hx with
  | one h => exact .cons h hg hy
  | cons h hg' hlaid ih =>
    have hlist := Laid.cons h hg' ih
    simpa only [List.append_assoc, List.cons_append] using hlist

/-- A layout is split where its tokens are. -/
theorem Laid.split (ha : a ≠ []) (hb : b ≠ []) (h : Laid (a ++ b) z) :
    ∃ x g y, z = x ++ g ++ y ∧ Laid a x ∧ Gap g ∧ Laid b y := by
  induction a generalizing z with
  | nil => exact absurd rfl ha
  | cons tok a ih =>
    cases a with
    | nil =>
      cases h with
      | one h => exact absurd rfl hb
      | cons h hg hlaid => exact ⟨_, _, _, rfl, .one h, hg, hlaid⟩
    | cons tok' a =>
      cases h with
      | cons h hg hlaid =>
        obtain ⟨x, g', y, rfl, hx, hg', hy⟩ := ih (List.cons_ne_nil _ _) hlaid
        exact ⟨_, g', y, by simp only [List.append_assoc], .cons h hg hx, hg', hy⟩

theorem Laid.length_le (h : Laid toks x) : toks.length ≤ x.length := by
  induction h with
  | one h =>
    obtain ⟨c, t, rfl, -⟩ := h.head
    simp
  | cons h hg hlaid ih =>
    obtain ⟨c, t, rfl, -⟩ := h.head
    simp only [List.length_cons, List.length_append]
    omega

end Tokens

/-! ### Scalars -/

section Scalars

theorem scanString_quote (x : Bytes) : scanString (byte '"' :: x) = some x := by
  rw [scanString.eq_def]
  exact if_pos rfl

theorem scanString_plain {b : UInt8} (hquote : b ≠ byte '"') (hctrl : ¬ b < 0x20) (hslash : b ≠ byte '\\') (x : Bytes) :
    scanString (b :: x) = scanString x := by
  conv_lhs => rw [scanString.eq_def]
  simp only [hquote, hctrl, hslash, if_false]

theorem scanString_unicode {h₁ h₂ h₃ h₄ : UInt8} (hhex : [h₁, h₂, h₃, h₄].all isHexByte = true) (x : Bytes) :
    scanString (byte '\\' :: byte 'u' :: h₁ :: h₂ :: h₃ :: h₄ :: x) = scanString x := by
  conv_lhs => rw [scanString.eq_def]
  have hquote : ¬ byte '\\' = byte '"' := by decide
  have hctrl : ¬ byte '\\' < 0x20 := by decide
  simp only [hquote, hctrl, hhex, if_false, if_true]

theorem scanString_escape {e : UInt8} (hu : e ≠ byte 'u') (hmem : e ∈ bytes "bfnrt\\/\"") (x : Bytes) :
    scanString (byte '\\' :: e :: x) = scanString x := by
  conv_lhs => rw [scanString.eq_def]
  have hquote : ¬ byte '\\' = byte '"' := by decide
  have hctrl : ¬ byte '\\' < 0x20 := by decide
  simp only [hquote, hctrl, hu, hmem, if_false, if_true]

/-- Where a string ends does not depend on what follows. -/
theorem scanString_split {s r : Bytes} (h : scanString s = some r) :
    ∃ body, s = body ++ r ∧ ∀ x, scanString (body ++ x) = some x := by
  fun_induction scanString s with
  | case2 bs =>
    obtain rfl := Option.some.inj h
    exact ⟨[byte '"'], rfl, scanString_quote⟩
  | case5 h₁ h₂ h₃ h₄ bs hhex hquote hctrl ih =>
    obtain ⟨body, rfl, hbody⟩ := ih h
    exact ⟨byte '\\' :: byte 'u' :: h₁ :: h₂ :: h₃ :: h₄ :: body, rfl,
      fun x => (scanString_unicode hhex _).trans (hbody x)⟩
  | case8 e bs hu hmem hquote hctrl ih =>
    obtain ⟨body, rfl, hbody⟩ := ih h
    exact ⟨byte '\\' :: e :: body, rfl, fun x => (scanString_escape hu hmem _).trans (hbody x)⟩
  | case10 b bs hquote hctrl hslash ih =>
    obtain ⟨body, rfl, hbody⟩ := ih h
    exact ⟨b :: body, rfl, fun x => (scanString_plain hquote hctrl hslash _).trans (hbody x)⟩
  | case1 | case3 | case4 | case6 | case7 | case9 => cases h

/-- A string has no line break, and ends with its quote. -/
theorem scanString_line {body : Bytes} (h : scanString body = some []) :
    byte '\n' ∉ body ∧ body.getLast? = some (byte '"') := by
  fun_induction scanString body with
  | case2 bs =>
    obtain rfl := Option.some.inj h
    decide
  | case5 h₁ h₂ h₃ h₄ bs hhex hquote hctrl ih =>
    obtain ⟨hline, hlast⟩ := ih h
    have hne : bs ≠ [] := by
      rintro rfl
      cases hlast
    -- a line break is no hexadecimal digit
    have hnot : ∀ b ∈ [h₁, h₂, h₃, h₄], byte '\n' ≠ b := by
      rintro b hb rfl
      exact absurd (List.all_eq_true.mp hhex _ hb) (by decide)
    refine ⟨?_, ?_⟩
    · simp only [List.mem_cons, not_or]
      simp only [List.forall_mem_cons] at hnot
      exact ⟨by decide, by decide, hnot.1, hnot.2.1, hnot.2.2.1, hnot.2.2.2.1, hline⟩
    · simp [List.getLast?_cons, hlast]
  | case8 e bs hu hmem hquote hctrl ih =>
    obtain ⟨hline, hlast⟩ := ih h
    refine ⟨?_, by simp [List.getLast?_cons, hlast]⟩
    -- nor can it be escaped by a backslash
    simp only [List.mem_cons, not_or]
    refine ⟨by decide, ?_, hline⟩
    rintro rfl
    exact absurd hmem (by decide)
  | case10 b bs hquote hctrl hslash ih =>
    obtain ⟨hline, hlast⟩ := ih h
    refine ⟨?_, by simp [List.getLast?_cons, hlast]⟩
    -- nor does it stand in a string as it is, being a control byte
    simp only [List.mem_cons, not_or]
    refine ⟨?_, hline⟩
    rintro rfl
    exact hctrl (by decide)
  | case1 | case3 | case4 | case6 | case7 | case9 => cases h

/-- No byte of a word comes first. -/
def NoWord (r : Bytes) : Prop := ∀ b ∈ r.head?, isWordByte b = false

theorem Follows.noWord {r : Bytes} (h : Follows r) : NoWord r := by
  intro b hb
  obtain hspace | hb := h b hb
  · by_contra hword
    rw [not_space_of (.inr (Bool.not_eq_false _ ▸ hword))] at hspace
    cases hspace
  · obtain rfl | rfl | rfl := hb <;> decide

theorem NoWord.ne {r : Bytes} (h : NoWord r) {b : UInt8} {t : Bytes} (heq : r = b :: t) {c : UInt8}
    (hc : isWordByte c = true) : b ≠ c := by
  rintro rfl
  rw [h b (by rw [heq]; rfl)] at hc
  cases hc

theorem isWordByte_of_isDigitByte {b : UInt8} (h : isDigitByte b = true) : isWordByte b = true := by
  simp [isWordByte, h]

section Append

variable {r : Bytes} (hr : NoWord r)

include hr

theorem NoWord.digits (w : Bytes) : (w ++ r).takeWhile isDigitByte = w.takeWhile isDigitByte ∧
    (w ++ r).dropWhile isDigitByte = w.dropWhile isDigitByte ++ r := by
  induction w with
  | nil =>
    cases r with
    | nil => exact ⟨rfl, rfl⟩
    | cons b t =>
      have hb : ¬ isDigitByte b = true := fun h => hr.ne rfl (isWordByte_of_isDigitByte h) rfl
      exact ⟨List.takeWhile_cons_of_neg hb, List.dropWhile_cons_of_neg hb⟩
  | cons b w ih =>
    rw [List.cons_append, List.takeWhile_cons, List.takeWhile_cons, List.dropWhile_cons, List.dropWhile_cons]
    split
    · exact ⟨congrArg _ ih.1, ih.2⟩
    · exact ⟨rfl, rfl⟩

theorem scanDigits_append (w : Bytes) : scanDigits (w ++ r) = (scanDigits w).map (· ++ r) := by
  obtain ⟨htake, hdrop⟩ := hr.digits w
  rw [scanDigits, scanDigits, htake, hdrop]
  split <;> rfl

theorem scanFraction_append (w : Bytes) : scanFraction (w ++ r) = (scanFraction w).map (· ++ r) := by
  cases w with
  | nil =>
    cases r with
    | nil => rfl
    | cons b t =>
      have hb : b ≠ byte '.' := hr.ne rfl (by decide)
      exact if_neg hb
  | cons b w =>
    rw [List.cons_append, scanFraction, scanFraction]
    split
    · exact scanDigits_append hr w
    · rfl

theorem skipSign_append {w : Bytes} : skipSign (w ++ r) = skipSign w ++ r := by
  cases w with
  | nil =>
    cases r with
    | nil => rfl
    | cons b t =>
      have hb : ¬ (b = byte '+' ∨ b = byte '-') :=
        not_or.mpr ⟨hr.ne rfl (by decide), hr.ne rfl (by decide)⟩
      exact if_neg hb
  | cons b w =>
    rw [List.cons_append, skipSign, skipSign]
    split <;> rfl

theorem scanExponent_append (w : Bytes) : scanExponent (w ++ r) = (scanExponent w).map (· ++ r) := by
  cases w with
  | nil =>
    cases r with
    | nil => rfl
    | cons b t =>
      have hb : ¬ (b = byte 'e' ∨ b = byte 'E') :=
        not_or.mpr ⟨hr.ne rfl (by decide), hr.ne rfl (by decide)⟩
      exact if_neg hb
  | cons b w =>
    rw [List.cons_append, scanExponent, scanExponent]
    split
    · rw [skipSign_append hr, scanDigits_append hr]
    · rfl

theorem scanInteger_append (w : Bytes) : scanInteger (w ++ r) = (scanInteger w).map (· ++ r) := by
  cases w with
  | nil =>
    cases r with
    | nil => rfl
    | cons b t =>
      have hzero : b ≠ byte '0' := hr.ne rfl (by decide)
      have hdigit : ¬ isDigitByte b = true := fun h => hr.ne rfl (isWordByte_of_isDigitByte h) rfl
      show scanInteger (b :: t) = none
      rw [scanInteger, if_neg hzero, if_neg hdigit]
  | cons b w =>
    rw [List.cons_append, scanInteger, scanInteger, (hr.digits w).2]
    split
    · rfl
    · split <;> rfl

/-- A number ends where no byte of a word follows. -/
theorem scanNumber_append (w : Bytes) : scanNumber (w ++ r) = (scanNumber w).map (· ++ r) := by
  -- behind the sign the three parts are scanned one after the other
  have hrest : ∀ u : Bytes, ((scanInteger (u ++ r)).bind fun bs => (scanFraction bs).bind scanExponent) =
      ((scanInteger u).bind fun bs => (scanFraction bs).bind scanExponent).map (· ++ r) := by
    intro u
    rw [scanInteger_append hr]
    cases scanInteger u with
    | none => rfl
    | some v =>
      show (scanFraction (v ++ r)).bind scanExponent = ((scanFraction v).bind scanExponent).map _
      rw [scanFraction_append hr]
      cases scanFraction v with
      | none => rfl
      | some x => exact scanExponent_append hr x
  cases w with
  | nil =>
    cases r with
    | nil => rfl
    | cons b t =>
      -- what follows a number does not begin with a sign
      have hb : b ≠ byte '-' := hr.ne rfl (by decide)
      have hempty := hrest []
      rw [List.nil_append] at hempty
      show ((scanInteger (if b = byte '-' then t else b :: t)).bind fun bs => (scanFraction bs).bind scanExponent) = _
      rw [if_neg hb]
      exact hempty
  | cons b w =>
    show ((scanInteger (if b = byte '-' then w ++ r else b :: (w ++ r))).bind
      fun bs => (scanFraction bs).bind scanExponent) =
        ((scanInteger (if b = byte '-' then w else b :: w)).bind fun bs => (scanFraction bs).bind scanExponent).map _
    split
    · exact hrest w
    · exact hrest (b :: w)

end Append

/-- A scanner that takes bytes of words only. -/
def EatsWord (f : Bytes → Option Bytes) : Prop :=
  ∀ s r, f s = some r → ∃ w, s = w ++ r ∧ ∀ b ∈ w, isWordByte b = true

theorem eatsWord_digits (s : Bytes) : ∀ b ∈ s.takeWhile isDigitByte, isWordByte b = true :=
  fun _ hb => isWordByte_of_isDigitByte (List.mem_takeWhile_imp hb)

theorem eatsWord_scanDigits : EatsWord scanDigits := by
  intro s r h
  rw [scanDigits] at h
  obtain ⟨-, heq⟩ := Option.ite_none_left_eq_some.mp h
  obtain rfl := Option.some.inj heq
  exact ⟨_, List.takeWhile_append_dropWhile.symm, eatsWord_digits s⟩

/-- One more byte of a word. -/
theorem EatsWord.cons {f : Bytes → Option Bytes} (hf : EatsWord f) {b : UInt8} (hb : isWordByte b = true) {s r : Bytes}
    (h : f s = some r) : ∃ w, b :: s = w ++ r ∧ ∀ c ∈ w, isWordByte c = true := by
  obtain ⟨w, rfl, hw⟩ := hf s r h
  exact ⟨b :: w, rfl, List.forall_mem_cons.mpr ⟨hb, hw⟩⟩

theorem eatsWord_scanFraction : EatsWord scanFraction := by
  intro s r h
  cases s with
  | nil =>
    obtain rfl := Option.some.inj h
    exact ⟨[], rfl, fun _ hb => absurd hb List.not_mem_nil⟩
  | cons b s =>
    rw [scanFraction] at h
    split at h
    next hb => exact eatsWord_scanDigits.cons (hb ▸ by decide) h
    next =>
      obtain rfl := Option.some.inj h
      exact ⟨[], rfl, fun _ hb => absurd hb List.not_mem_nil⟩

theorem eatsWord_scanExponent : EatsWord scanExponent := by
  intro s r h
  cases s with
  | nil =>
    obtain rfl := Option.some.inj h
    exact ⟨[], rfl, fun _ hb => absurd hb List.not_mem_nil⟩
  | cons b s =>
    rw [scanExponent] at h
    split at h
    next hb =>
      -- the mark of an exponent is a byte of words, and so is the sign behind it
      have hword : isWordByte b = true := by obtain rfl | rfl := hb <;> decide
      cases s with
      | nil => exact eatsWord_scanDigits.cons hword h
      | cons c s =>
        rw [skipSign] at h
        split at h
        next hc =>
          have hsign : isWordByte c = true := by obtain rfl | rfl := hc <;> decide
          obtain ⟨w, hw, hall⟩ := eatsWord_scanDigits.cons hsign h
          exact ⟨b :: w, by rw [hw]; rfl, List.forall_mem_cons.mpr ⟨hword, hall⟩⟩
        next => exact eatsWord_scanDigits.cons hword h
    next =>
      obtain rfl := Option.some.inj h
      exact ⟨[], rfl, fun _ hb => absurd hb List.not_mem_nil⟩

/-- An integer takes a byte at least. -/
theorem eatsWord_scanInteger {s r : Bytes} (h : scanInteger s = some r) :
    ∃ w, s = w ++ r ∧ w ≠ [] ∧ ∀ b ∈ w, isWordByte b = true := by
  cases s with
  | nil => cases h
  | cons b s =>
    rw [scanInteger] at h
    split at h
    next hb =>
      obtain rfl := Option.some.inj h
      exact ⟨[b], rfl, List.cons_ne_nil _ _, List.forall_mem_singleton.mpr (hb ▸ by decide)⟩
    next =>
      split at h
      next hb =>
        obtain rfl := Option.some.inj h
        refine ⟨b :: s.takeWhile isDigitByte, ?_, List.cons_ne_nil _ _,
          List.forall_mem_cons.mpr ⟨isWordByte_of_isDigitByte hb, eatsWord_digits s⟩⟩
        rw [List.cons_append, List.takeWhile_append_dropWhile]
      next => cases h

theorem eatsWord_scanNumber {s r : Bytes} (h : scanNumber s = some r) :
    ∃ w, s = w ++ r ∧ w ≠ [] ∧ ∀ b ∈ w, isWordByte b = true := by
  -- each of the three parts is made of bytes of words, and the first is not empty
  have hrest : ∀ u : Bytes, ((scanInteger u).bind fun bs => (scanFraction bs).bind scanExponent) = some r →
      ∃ w, u = w ++ r ∧ w ≠ [] ∧ ∀ b ∈ w, isWordByte b = true := by
    intro u hu
    obtain ⟨v, hv, hu⟩ := Option.bind_eq_some_iff.mp hu
    obtain ⟨x, hx, hr⟩ := Option.bind_eq_some_iff.mp hu
    obtain ⟨w₁, rfl, hne, hw₁⟩ := eatsWord_scanInteger hv
    obtain ⟨w₂, rfl, hw₂⟩ := eatsWord_scanFraction _ _ hx
    obtain ⟨w₃, rfl, hw₃⟩ := eatsWord_scanExponent _ _ hr
    refine ⟨w₁ ++ (w₂ ++ w₃), by simp only [List.append_assoc], by simp [hne], ?_⟩
    simp only [List.forall_mem_append]
    exact ⟨hw₁, hw₂, hw₃⟩
  cases s with
  | nil => exact hrest [] h
  | cons b s =>
    have hb : ((scanInteger (if b = byte '-' then s else b :: s)).bind
        fun bs => (scanFraction bs).bind scanExponent) = some r := h
    split at hb
    next hminus =>
      obtain ⟨w, rfl, -, hw⟩ := hrest s hb
      exact ⟨b :: w, rfl, List.cons_ne_nil _ _, List.forall_mem_cons.mpr ⟨hminus ▸ by decide, hw⟩⟩
    next => exact hrest (b :: s) hb

/-- A number is a word, and is read whatever follows it. -/
theorem scanNumber_split {s r : Bytes} (h : scanNumber s = some r) (hr : Follows r) :
    ∃ w, s = w ++ r ∧ w ≠ [] ∧ (∀ b ∈ w, isWordByte b = true) ∧ ∀ x, Follows x → scanNumber (w ++ x) = some x := by
  obtain ⟨w, rfl, hne, hall⟩ := eatsWord_scanNumber h
  refine ⟨w, rfl, hne, hall, fun x hx => ?_⟩
  rw [scanNumber_append hr.noWord] at h
  obtain ⟨u, hu, hlen⟩ := Option.map_eq_some_iff.mp h
  obtain rfl : u = [] := List.append_left_eq_self.mp hlen
  rw [scanNumber_append hx.noWord, hu]
  rfl

theorem scanLiteral_append {lit : Bytes} (x : Bytes) : scanLiteral lit (lit ++ x) = some x := by
  have hfront : lit.isPrefixOf (lit ++ x) = true := List.isPrefixOf_iff_prefix.mpr (List.prefix_append lit x)
  rw [scanLiteral, if_pos hfront, List.drop_left]

theorem scanLiteral_split {lit s r : Bytes} (h : scanLiteral lit s = some r) : s = lit ++ r := by
  rw [scanLiteral] at h
  obtain ⟨hfront, heq⟩ := Option.ite_none_right_eq_some.mp h
  obtain ⟨t, rfl⟩ := List.isPrefixOf_iff_prefix.mp hfront
  rw [List.drop_left] at heq
  rw [Option.some.inj heq]

/-- A scalar is one token, and is read whatever follows it. -/
theorem scanScalar_split {s r : Bytes} (h : scanScalar s = some r) (hr : Follows r) :
    ∃ tok, s = tok ++ r ∧ Token tok ∧ ∀ x, Follows x → scanScalar (tok ++ x) = some x := by
  cases s with
  | nil => cases h
  | cons b s =>
    rw [scanScalar] at h
    by_cases hquote : b = byte '"'
    · subst hquote
      -- a string ends at its own quote, whatever follows
      rw [if_pos rfl] at h
      obtain ⟨body, rfl, hbody⟩ := scanString_split h
      refine ⟨_ :: body, rfl, .string (by simpa using hbody []), fun x _ => ?_⟩
      rw [List.cons_append, scanScalar, if_pos rfl, hbody]
    · rw [if_neg hquote] at h
      have hword : ∀ lit ∈ [bytes "true", bytes "false", bytes "null"], Token lit ∧
          ∀ x, scanScalar (lit ++ x) = some x := by
        intro lit hlit
        simp only [List.mem_cons, List.not_mem_nil, or_false] at hlit
        obtain rfl | rfl | rfl := hlit
        · exact ⟨.word (by decide) (by decide +kernel), fun x => (scanLiteral_append x : scanLiteral (bytes "true") _ = _)⟩
        · exact ⟨.word (by decide) (by decide +kernel), fun x => (scanLiteral_append x : scanLiteral (bytes "false") _ = _)⟩
        · exact ⟨.word (by decide) (by decide +kernel), fun x => (scanLiteral_append x : scanLiteral (bytes "null") _ = _)⟩
      by_cases ht : b = byte 't'
      · rw [if_pos ht] at h
        exact ⟨_, scanLiteral_split h, (hword _ (by simp)).1, fun x _ => (hword _ (by simp)).2 x⟩
      · rw [if_neg ht] at h
        by_cases hf : b = byte 'f'
        · rw [if_pos hf] at h
          exact ⟨_, scanLiteral_split h, (hword _ (by simp)).1, fun x _ => (hword _ (by simp)).2 x⟩
        · rw [if_neg hf] at h
          by_cases hn : b = byte 'n'
          · rw [if_pos hn] at h
            exact ⟨_, scanLiteral_split h, (hword _ (by simp)).1, fun x _ => (hword _ (by simp)).2 x⟩
          · rw [if_neg hn] at h
            -- a number ends where the bytes of words do, and `Follows` says that they end there
            obtain ⟨w, hw, hne, hall, hread⟩ := scanNumber_split h hr
            obtain ⟨c, w, rfl⟩ := List.exists_cons_of_ne_nil hne
            obtain ⟨rfl, -⟩ := List.cons.inj hw
            refine ⟨_, hw, .word hne hall, fun x hx => ?_⟩
            rw [List.cons_append, scanScalar, if_neg hquote, if_neg ht, if_neg hf, if_neg hn]
            exact hread x hx

end Scalars

end Json
