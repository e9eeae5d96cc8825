import Devrouter.Lib.Fields

/-!
# Query strings

The query string of a URL, as bytes: pairs of a name and a value, written `name=value`, joined by `&`, with the bytes
that are not letters, digits or one of `-_.~` escaped, a space as `+`. A query string is read by splitting it again;
what cannot be unescaped is left out.

What was written is read back as it was, whatever bytes the pairs hold (`parse_encode`).
-/

namespace UrlQuery

abbrev Bytes := List UInt8

/-! ### Escaping -/

/-- `0-9`, `A-Z`, `a-z`, `-`, `.`, `_`, `~`. -/
def unreserved (c : UInt8) : Bool :=
  (48 ≤ c && c ≤ 57) || (65 ≤ c && c ≤ 90) || (97 ≤ c && c ≤ 122) || c = 45 || c = 46 || c = 95 || c = 126

/-- An upper-case hexadecimal digit. -/
def hexDigit (n : ℕ) : UInt8 := UInt8.ofNat (if n < 10 then 48 + n else 55 + n)

def unhex (c : UInt8) : Option ℕ :=
  if 48 ≤ c ∧ c ≤ 57 then some (c.toNat - 48)
  else if 65 ≤ c ∧ c ≤ 70 then some (c.toNat - 55)
  else if 97 ≤ c ∧ c ≤ 102 then some (c.toNat - 87)
  else none

/-- One byte: itself, `+` for a space, or `%` and two digits. -/
def escapeByte (c : UInt8) : Bytes :=
  if unreserved c then [c]
  else if c = 32 then [43]
  else [37, hexDigit (c.toNat / 16), hexDigit (c.toNat % 16)]

def escape (s : Bytes) : Bytes := s.flatMap escapeByte

def unescape : Bytes → Option Bytes
  | [] => some []
  | c :: rest =>
    if c = 37 then
      match rest with
      | a :: b :: rest => do
        let x ← unhex a
        let y ← unhex b
        let rest ← unescape rest
        return UInt8.ofNat (16 * x + y) :: rest
      | _ => none
    -- a plus stands for a blank
    else (unescape rest).map ((if c = 43 then 32 else c) :: ·)

/-- What the digits are: not one of the separators, and read back. -/
theorem hexDigit_spec : ∀ n < 16, unhex (hexDigit n) = some n ∧
    hexDigit n ≠ 38 ∧ hexDigit n ≠ 59 ∧ hexDigit n ≠ 61 := by decide +kernel

theorem unreserved_ne {c b : UInt8} (hc : unreserved c = true) (hb : unreserved b = false) : c ≠ b := by
  rintro rfl
  rw [hc] at hb
  exact absurd hb (by decide)

/-- An escaped byte has none of the separators. -/
theorem escapeByte_mem {c b : UInt8} (hb : b ∈ escapeByte c) : b ≠ 38 ∧ b ≠ 59 ∧ b ≠ 61 := by
  have hbyte : c.toNat < 256 := UInt8.toNat_lt c
  unfold escapeByte at hb
  split_ifs at hb with hplain hspace
  · obtain rfl := List.mem_singleton.mp hb
    exact ⟨unreserved_ne hplain (by decide), unreserved_ne hplain (by decide), unreserved_ne hplain (by decide)⟩
  · obtain rfl := List.mem_singleton.mp hb
    decide
  · rcases List.mem_cons.mp hb with rfl | hb
    · decide
    · rcases List.mem_cons.mp hb with rfl | hb
      · exact (hexDigit_spec (c.toNat / 16) (by omega)).2
      · obtain rfl := List.mem_singleton.mp hb
        exact (hexDigit_spec (c.toNat % 16) (by omega)).2

theorem escape_mem {s : Bytes} {b : UInt8} (hb : b ∈ escape s) : b ≠ 38 ∧ b ≠ 59 ∧ b ≠ 61 := by
  obtain ⟨c, -, hc⟩ := List.mem_flatMap.mp hb
  exact escapeByte_mem hc

theorem unescape_plain {c : UInt8} (h : c ≠ 37) (rest : Bytes) :
    unescape (c :: rest) = (unescape rest).map ((if c = 43 then 32 else c) :: ·) := by
  rw [unescape.eq_def]
  dsimp only
  rw [if_neg h]

theorem unescape_escapeByte (c : UInt8) (rest : Bytes) :
    unescape (escapeByte c ++ rest) = (unescape rest).map (c :: ·) := by
  have hbyte : c.toNat < 256 := UInt8.toNat_lt c
  unfold escapeByte
  split_ifs with hplain hspace
  · -- an unreserved byte is neither of the two that are read as something else
    have hpercent : c ≠ 37 := unreserved_ne hplain (by decide)
    have hplus : c ≠ 43 := unreserved_ne hplain (by decide)
    rw [List.singleton_append, unescape_plain hpercent, if_neg hplus]
  · -- a blank is written as a plus and read back
    subst hspace
    rw [List.singleton_append, unescape_plain (by decide), if_pos rfl]
  · -- the two digits are those of the byte
    have hvalue : UInt8.ofNat (16 * (c.toNat / 16) + c.toNat % 16) = c := by
      rw [Nat.div_add_mod, UInt8.ofNat_toNat]
    show unescape (37 :: hexDigit (c.toNat / 16) :: hexDigit (c.toNat % 16) :: rest) = _
    rw [unescape, if_pos rfl]
    simp only [(hexDigit_spec (c.toNat / 16) (by omega)).1, (hexDigit_spec (c.toNat % 16) (by omega)).1]
    cases unescape rest with
    | none => rfl
    | some s =>
      show some (UInt8.ofNat (16 * (c.toNat / 16) + c.toNat % 16) :: s) = some (c :: s)
      rw [hvalue]

/-- **An escaped text** is unescaped to itself. -/
theorem unescape_escape (s : Bytes) : unescape (escape s) = some s := by
  induction s with
  | nil => rfl
  | cons c s ih =>
    rw [escape, List.flatMap_cons, unescape_escapeByte, ← escape, ih]
    rfl

/-! ### Pairs -/

/-- One pair, written. -/
def encodePair (p : Bytes × Bytes) : Bytes := escape p.1 ++ 61 :: escape p.2

def encode (ps : List (Bytes × Bytes)) : Bytes := [38].intercalate (ps.map encodePair)

/-- One part of a query string. A part without `=` is a name. -/
def parsePair (part : Bytes) : Option (Bytes × Bytes) :=
  if part = [] ∨ 59 ∈ part then none
  else
    let (name, value) := (part.cutAt 61).getD (part, [])
    (unescape name).bind fun name => (unescape value).map fun value => (name, value)

def parse (s : Bytes) : List (Bytes × Bytes) := (s.splitOn 38).filterMap parsePair

theorem encodePair_mem {p : Bytes × Bytes} {b : UInt8} (hb : b ∈ encodePair p) : b ≠ 38 ∧ b ≠ 59 := by
  rcases List.mem_append.mp hb with hb | hb
  · exact ⟨(escape_mem hb).1, (escape_mem hb).2.1⟩
  · rcases List.mem_cons.mp hb with rfl | hb
    · decide
    · exact ⟨(escape_mem hb).1, (escape_mem hb).2.1⟩

theorem parsePair_encodePair (p : Bytes × Bytes) : parsePair (encodePair p) = some p := by
  have hsemi : 59 ∉ encodePair p := fun h => (encodePair_mem h).2 rfl
  have hne : encodePair p ≠ [] := by simp [encodePair]
  have hcut : (encodePair p).cutAt 61 = some (escape p.1, escape p.2) :=
    List.cutAt_eq_some_iff.mpr ⟨fun h => (escape_mem h).2.2 rfl, rfl⟩
  unfold parsePair
  rw [if_neg (not_or.mpr ⟨hne, hsemi⟩), hcut]
  simp only [Option.getD_some, unescape_escape, Option.bind_some, Option.map_some]

/-- **What was written is read back.** -/
theorem parse_encode (ps : List (Bytes × Bytes)) : parse (encode ps) = ps := by
  by_cases hps : ps = []
  · subst hps
    rfl
  have hparts : ∀ l ∈ ps.map encodePair, 38 ∉ l := by
    intro l hl h
    obtain ⟨p, -, rfl⟩ := List.mem_map.mp hl
    exact (encodePair_mem h).1 rfl
  unfold parse encode
  rw [List.splitOn_intercalate 38 hparts (by simpa using hps), List.filterMap_map]
  have hpairs : parsePair ∘ encodePair = some := funext parsePair_encodePair
  rw [hpairs, List.filterMap_some]

example : encode [("q".toUTF8.data.toList, "a b&c".toUTF8.data.toList)] = "q=a+b%26c".toUTF8.data.toList := by
  decide +kernel

end UrlQuery
