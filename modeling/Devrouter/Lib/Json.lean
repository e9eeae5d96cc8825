import Mathlib.Tactic.Common

/-!
# JSON arrays of strings

The JSON that Go's `encoding/json` prints for a list of strings, and the reader for such lists: every text
that is no array of strings and `null`s is an error. What was printed is read back
(`Json.decode_encode`), whatever stands in the strings.

Surrogate pairs are joined, and a lone half is read as the replacement character.
-/

namespace Json

/-! ### Printing -/

/-- The digit of a number below 16. -/
def hexDigit (n : ℕ) : Char := if n < 10 then Char.ofNat (48 + n) else Char.ofNat (87 + n)

/-- `\u` and four digits. -/
def escapeUnit (n : ℕ) : List Char :=
  ['\\', 'u', hexDigit (n / 4096 % 16), hexDigit (n / 256 % 16), hexDigit (n / 16 % 16), hexDigit (n % 16)]

/-- The runes that are printed as escapes of their own. -/
def shortEscape (c : Char) : Option Char :=
  if c = '"' then some '"'
  else if c = '\\' then some '\\'
  else if c = '\n' then some 'n'
  else if c = '\r' then some 'r'
  else if c = '\t' then some 't'
  else if c = '\x08' then some 'b'
  else if c = '\x0c' then some 'f'
  else none

/-- The runes that are printed by number: control characters, those with a meaning in HTML, and two line
separators. -/
def byNumber (c : Char) : Bool :=
  decide (c.toNat < 32) || c = '<' || c = '>' || c = '&' || c.toNat = 0x2028 || c.toNat = 0x2029

def escapeRune (c : Char) : List Char :=
  match shortEscape c with
  | some e => ['\\', e]
  | none => if byNumber c then escapeUnit c.toNat else [c]

/-- A string between quotes. -/
def encodeString (s : List Char) : List Char := '"' :: (s.flatMap escapeRune ++ ['"'])

/-- The elements after the first. -/
def encodeRest : List (List Char) → List Char
  | [] => [']']
  | s :: ss => ',' :: (encodeString s ++ encodeRest ss)

def encode : List (List Char) → List Char
  | [] => ['[', ']']
  | s :: ss => '[' :: (encodeString s ++ encodeRest ss)

/-! ### Reading -/

def hexVal (c : Char) : Option ℕ :=
  if '0' ≤ c ∧ c ≤ '9' then some (c.toNat - 48)
  else if 'a' ≤ c ∧ c ≤ 'f' then some (c.toNat - 87)
  else if 'A' ≤ c ∧ c ≤ 'F' then some (c.toNat - 55)
  else none

/-- The number of an escape after its `\u`. -/
def readUnit : List Char → Option (ℕ × List Char)
  | a :: b :: c :: d :: cs => do
    let a ← hexVal a
    let b ← hexVal b
    let c ← hexVal c
    let d ← hexVal d
    return (4096 * a + 256 * b + 16 * c + d, cs)
  | _ => none

/-- The rune of a number; a lone half of a pair is replaced, a pair is joined. -/
def runeOf (n : ℕ) (cs : List Char) : Char × List Char :=
  if n < 0xd800 ∨ 0xe000 ≤ n then (Char.ofNat n, cs)
  -- a low surrogate without a high one
  else if 0xdc00 ≤ n then ('\uFFFD', cs)
  else
    -- a high surrogate wants a low one behind it
    match cs with
    | '\\' :: 'u' :: cs' =>
      match readUnit cs' with
      | some (m, cs'') =>
        if 0xdc00 ≤ m ∧ m < 0xe000 then (Char.ofNat (0x10000 + (n - 0xd800) * 0x400 + (m - 0xdc00)), cs'')
        else ('\uFFFD', cs)
      | none => ('\uFFFD', cs)
    | _ => ('\uFFFD', cs)

/-- The rune an escape of its own stands for. -/
def unescape (e : Char) : Option Char :=
  if e = '"' then some '"'
  else if e = '\\' then some '\\'
  else if e = '/' then some '/'
  else if e = 'n' then some '\n'
  else if e = 'r' then some '\r'
  else if e = 't' then some '\t'
  else if e = 'b' then some '\x08'
  else if e = 'f' then some '\x0c'
  else none

/-- The next rune of a string. -/
def readRune : List Char → Option (Char × List Char)
  | [] => none
  | '\\' :: cs =>
    match cs with
    | [] => none
    | 'u' :: cs => (readUnit cs).map fun p => runeOf p.1 p.2
    | e :: cs => (unescape e).map fun c => (c, cs)
  | c :: cs => if c.toNat < 32 then none else some (c, cs)

/-- The runes up to the closing quote; each step reads one. -/
def readBody : ℕ → List Char → Option (List Char × List Char)
  | 0, _ => none
  | n + 1, cs =>
    match cs with
    | '"' :: cs => some ([], cs)
    | cs => do
      let (c, cs) ← readRune cs
      let (s, cs) ← readBody n cs
      return (c :: s, cs)

def isWs (c : Char) : Bool := c = ' ' || c = '\t' || c = '\n' || c = '\r'

def skipWs (cs : List Char) : List Char := cs.dropWhile isWs

/-- An element: a string, or a `null`, which leaves the string empty. -/
def readElem : List Char → Option (List Char × List Char)
  | '"' :: cs => readBody cs.length cs
  | 'n' :: 'u' :: 'l' :: 'l' :: cs => some ([], cs)
  | _ => none

/-- The elements after the first, up to the closing bracket. -/
def readRest : ℕ → List Char → Option (List (List Char) × List Char)
  | 0, _ => none
  | n + 1, cs =>
    match skipWs cs with
    | ']' :: cs => some ([], cs)
    | ',' :: cs => do
      let (s, cs) ← readElem (skipWs cs)
      let (ss, cs) ← readRest n cs
      return (s :: ss, cs)
    | _ => none

/-- An array or a `null`, at the start of a text. -/
def readArray (cs : List Char) : Option (List (List Char) × List Char) :=
  match cs with
  | 'n' :: 'u' :: 'l' :: 'l' :: cs => some ([], cs)
  | '[' :: cs =>
    match skipWs cs with
    | ']' :: cs => some ([], cs)
    | cs => do
      let (s, cs) ← readElem cs
      let (ss, cs) ← readRest (cs.length + 1) cs
      return (s :: ss, cs)
  | _ => none

/-- The list of strings a text is; none when it is anything else. -/
def decode (cs : List Char) : Option (List (List Char)) := do
  let (ss, cs) ← readArray (skipWs cs)
  if skipWs cs = [] then some ss else none

example : decode "[ \"a\", null, \"\\ud83d\\ude00\\ud83d\"] ".toList = some [['a'], [], ['😀', '\uFFFD']] := by
  decide +kernel

/-! ### What was printed is read back -/

theorem hexVal_hexDigit : ∀ n < 16, hexVal (hexDigit n) = some n := by decide

theorem readUnit_escape {n : ℕ} (h : n < 65536) (rest : List Char) :
    readUnit (hexDigit (n / 4096 % 16) :: hexDigit (n / 256 % 16) :: hexDigit (n / 16 % 16) :: hexDigit (n % 16) ::
      rest) = some (n, rest) := by
  have hsum : 4096 * (n / 4096 % 16) + 256 * (n / 256 % 16) + 16 * (n / 16 % 16) + n % 16 = n := by omega
  have hdigit : ∀ m, hexVal (hexDigit (m % 16)) = some (m % 16) :=
    fun m => hexVal_hexDigit _ (Nat.mod_lt m (by decide))
  simp only [readUnit, hdigit, Option.bind_eq_bind, Option.bind_some, hsum]
  rfl

/-- Numbers below the surrogates are runes. -/
theorem runeOf_of_lt {n : ℕ} (h : n < 0xd800) (rest : List Char) : runeOf n rest = (Char.ofNat n, rest) := by
  unfold runeOf
  exact if_pos (.inl h)

/-- An escape of its own stands for the rune it was printed for. -/
theorem unescape_shortEscape {c e : Char} (h : shortEscape c = some e) : e ≠ 'u' ∧ unescape e = some c := by
  unfold shortEscape at h
  split_ifs at h <;> obtain rfl := Option.some.inj h <;> subst_vars <;> decide

theorem toNat_lt_of_byNumber {c : Char} (h : byNumber c = true) : c.toNat < 0xd800 := by
  unfold byNumber at h
  simp only [Bool.or_eq_true, decide_eq_true_eq] at h
  rcases h with ((((h | rfl) | rfl) | rfl) | h) | h
  · omega
  · decide
  · decide
  · decide
  · omega
  · omega

theorem readRune_escapeRune (c : Char) (rest : List Char) : readRune (escapeRune c ++ rest) = some (c, rest) := by
  unfold escapeRune
  cases hshort : shortEscape c with
  | some e =>
    -- a short escape is read back by its table
    obtain ⟨hu, he⟩ := unescape_shortEscape hshort
    change readRune ('\\' :: e :: rest) = _
    unfold readRune
    split
    · rename_i heq
      exact absurd heq (by simp)
    · rename_i cs heq
      obtain rfl := (List.cons.inj heq).2
      split
      · rename_i heq'
        exact absurd heq' (by simp)
      · rename_i cs' heq'
        exact absurd (List.cons.inj heq').1 hu
      · rename_i e' cs' _ heq'
        obtain ⟨rfl, rfl⟩ := List.cons.inj heq'
        rw [he]
        rfl
    · rename_i c' cs hne heq
      exact absurd (List.cons.inj heq).1.symm (fun h => hne (by rw [h]))
  | none =>
    dsimp only
    -- the rest of the runes are written by number or as they are
    split_ifs with hnum
    · have hlt := toNat_lt_of_byNumber hnum
      change (readUnit (_ :: _ :: _ :: _ :: rest)).map (fun p => runeOf p.1 p.2) = _
      rw [readUnit_escape (by omega), Option.map_some, runeOf_of_lt hlt, Char.ofNat_toNat]
    · -- a rune that is written as it is has no escape of its own
      have hslash : c ≠ '\\' := by
        rintro rfl
        exact absurd hshort (by decide)
      have hge : ¬ c.toNat < 32 := by
        intro hlt
        exact hnum (by simp [byNumber, hlt])
      change readRune (c :: rest) = _
      unfold readRune
      split
      · rename_i heq
        exact absurd heq (by simp)
      · rename_i cs heq
        exact absurd (List.cons.inj heq).1 hslash
      · rename_i c' cs _ heq
        obtain ⟨rfl, rfl⟩ := List.cons.inj heq
        exact if_neg hge

/-- A printed rune does not start with a quote. -/
theorem escapeRune_head (c : Char) : ∃ a as, escapeRune c = a :: as ∧ a ≠ '"' := by
  unfold escapeRune
  cases hshort : shortEscape c with
  | some e => exact ⟨'\\', [e], rfl, by decide⟩
  | none =>
    dsimp only
    split_ifs
    · exact ⟨'\\', _, rfl, by decide⟩
    · refine ⟨c, [], rfl, ?_⟩
      rintro rfl
      exact absurd hshort (by decide)

theorem readBody_quote (n : ℕ) (rest : List Char) : readBody (n + 1) ('"' :: rest) = some ([], rest) := rfl

theorem readBody_rune (n : ℕ) {c : Char} {cs rest : List Char} (hread : readRune cs = some (c, rest))
    (hne : ∀ t, cs ≠ '"' :: t) : readBody (n + 1) cs = (readBody n rest).map fun p => (c :: p.1, p.2) := by
  conv_lhs => unfold readBody
  split
  · rename_i t
    exact absurd rfl (hne t)
  · rw [hread]
    change (readBody n rest).bind _ = _
    cases readBody n rest <;> rfl

/-- The body of a string is read back with enough steps. -/
theorem readBody_escape (s rest : List Char) {n : ℕ} (h : s.length < n) :
    readBody n (s.flatMap escapeRune ++ '"' :: rest) = some (s, rest) := by
  induction s generalizing n with
  | nil =>
    obtain ⟨m, rfl⟩ := Nat.exists_eq_add_of_lt h
    exact readBody_quote _ rest
  | cons c s ih =>
    obtain ⟨m, rfl⟩ : ∃ m, n = m + 1 := Nat.exists_eq_succ_of_ne_zero (by omega)
    have hrest : s.length < m := by
      rw [List.length_cons] at h
      omega
    obtain ⟨a, as, hesc, hquote⟩ := escapeRune_head c
    rw [List.flatMap_cons, List.append_assoc, readBody_rune m (readRune_escapeRune c _), ih hrest]
    · rfl
    · intro t ht
      rw [hesc] at ht
      exact hquote (List.cons.inj ht).1

theorem length_le_flatMap_escapeRune (s : List Char) : s.length ≤ (s.flatMap escapeRune).length := by
  induction s with
  | nil => exact Nat.zero_le _
  | cons c s ih =>
    obtain ⟨a, as, hesc, -⟩ := escapeRune_head c
    rw [List.flatMap_cons, List.length_append, hesc, List.length_cons, List.length_cons]
    omega

theorem readElem_encodeString (s rest : List Char) : readElem (encodeString s ++ rest) = some (s, rest) := by
  have hlen := length_le_flatMap_escapeRune s
  change readBody ((s.flatMap escapeRune ++ ['"']) ++ rest).length ((s.flatMap escapeRune ++ ['"']) ++ rest) = _
  rw [List.append_assoc, List.singleton_append]
  refine readBody_escape s rest ?_
  rw [List.length_append, List.length_cons]
  omega

/-- The elements after the first are read back with enough steps. -/
theorem readRest_encodeRest (ss : List (List Char)) {n : ℕ} (h : ss.length < n) :
    readRest n (encodeRest ss) = some (ss, []) := by
  induction ss generalizing n with
  | nil =>
    obtain ⟨m, rfl⟩ := Nat.exists_eq_add_of_lt h
    rfl
  | cons s ss ih =>
    obtain ⟨m, rfl⟩ : ∃ m, n = m + 1 := Nat.exists_eq_succ_of_ne_zero (by omega)
    have hrest : ss.length < m := by
      rw [List.length_cons] at h
      omega
    -- neither the comma nor the quote behind it is white space
    change ((readElem (encodeString s ++ encodeRest ss)).bind fun p =>
      (readRest m p.2).bind fun q => some (p.1 :: q.1, q.2)) = _
    rw [readElem_encodeString]
    change ((readRest m (encodeRest ss)).bind fun q => some (s :: q.1, q.2)) = _
    rw [ih hrest]
    rfl

theorem length_le_encodeRest (ss : List (List Char)) : ss.length < (encodeRest ss).length := by
  induction ss with
  | nil => exact Nat.zero_lt_one
  | cons s ss ih =>
    rw [encodeRest, List.length_cons, List.length_cons, List.length_append]
    omega

/-- **Round trip.** A printed list of strings is read back. -/
theorem decode_encode (ss : List (List Char)) : decode (encode ss) = some ss := by
  cases ss with
  | nil => rfl
  | cons s ss =>
    have hlen := length_le_encodeRest ss
    have harray : readArray (encode (s :: ss)) = some (s :: ss, []) := by
      change ((readElem (encodeString s ++ encodeRest ss)).bind fun p =>
        (readRest (p.2.length + 1) p.2).bind fun q => some (p.1 :: q.1, q.2)) = _
      rw [readElem_encodeString]
      change ((readRest ((encodeRest ss).length + 1) (encodeRest ss)).bind fun q => some (s :: q.1, q.2)) = _
      rw [readRest_encodeRest ss (by omega)]
      rfl
    change (readArray (encode (s :: ss))).bind _ = _
    rw [harray]
    rfl

end Json
