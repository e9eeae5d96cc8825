import Mathlib.Algebra.Group.Int.Defs
import Mathlib.Algebra.GroupWithZero.Nat
import Mathlib.Tactic.Common
import Devrouter.Lib.Trim

/-!
# Go's text functions

The functions of `strings`, `strconv` and `unicode` that the packages below use, on Lean's strings.
-/

namespace Devrouter

/-- `unicode.IsSpace`. -/
def goIsSpace (c : Char) : Bool :=
  c.toNat ∈ [0x9, 0xa, 0xb, 0xc, 0xd, 0x20, 0x85, 0xa0, 0x1680, 0x2028, 0x2029, 0x202f, 0x205f,
    0x3000] || decide (0x2000 ≤ c.toNat ∧ c.toNat ≤ 0x200a)

/-- `strings.TrimSpace`. -/
def trimSpace (s : String) : String :=
  String.ofList (((s.toList.dropWhile goIsSpace).reverse.dropWhile goIsSpace).reverse)

theorem trimSpace_toList (s : String) : (trimSpace s).toList = s.toList.trimWhile goIsSpace :=
  String.toList_ofList

theorem trimSpace_eq_self_iff {s : String} : trimSpace s = s ↔ s.toList.Tight goIsSpace := by
  rw [← String.toList_inj, trimSpace_toList, List.trimWhile_eq_self_iff]

/-! ### Lower case and lengths -/

/-- `unicode.ToLower`. It is a projection, and no rune but itself becomes white space or an ASCII
character that is no letter. -/
structure RuneLower where
  toLower : Char → Char
  idem : ∀ c, toLower (toLower c) = toLower c
  caseless : ∀ c d, goIsSpace d = true ∨ (d.toNat < 128 ∧ d.isAlpha = false) → (toLower c = d ↔ c = d)

/-- `strings.ToLower`. -/
def RuneLower.lower (L : RuneLower) (s : String) : String := String.ofList (s.toList.map L.toLower)

/-- The length of a text in bytes. -/
def byteLen (s : String) : ℕ := (s.toList.map Char.utf8Size).sum

section Lower

variable {L : RuneLower}

theorem RuneLower.lower_toList (s : String) : (L.lower s).toList = s.toList.map L.toLower := String.toList_ofList

/-- A text is in lower case when its runes are. -/
theorem RuneLower.lower_eq_self_iff {s : String} : L.lower s = s ↔ ∀ c ∈ s.toList, L.toLower c = c := by
  rw [← String.toList_inj, L.lower_toList]
  constructor
  · intro h c hc
    exact List.map_inj_left.mp (h.trans (List.map_id _).symm) c hc
  · intro h
    exact (List.map_congr_left h).trans (List.map_id _)

/-- What is built from runes of a lowered text is in lower case. -/
theorem RuneLower.lower_eq_self_of_subset (s : String) {t : String} (h : ∀ c ∈ t.toList, c ∈ (L.lower s).toList) :
    L.lower t = t := by
  rw [L.lower_eq_self_iff]
  intro c hc
  have hmem := h c hc
  rw [L.lower_toList] at hmem
  obtain ⟨d, -, rfl⟩ := List.mem_map.mp hmem
  exact L.idem d

/-- Lower case keeps white space apart. -/
theorem RuneLower.goIsSpace_toLower (c : Char) : goIsSpace (L.toLower c) = goIsSpace c := by
  rw [Bool.eq_iff_iff]
  constructor
  · intro h
    have hc : c = L.toLower c := (L.caseless c _ (.inl h)).mp rfl
    rwa [hc]
  · intro h
    rwa [(L.caseless c c (.inl h)).mpr rfl]

end Lower

/-- The capital letters and what they are lowered to. -/
theorem toLower_capital : ∀ n < 26, (Char.ofNat (65 + n)).toLower = Char.ofNat (97 + n) ∧
    (Char.ofNat (97 + n)).toLower = Char.ofNat (97 + n) ∧
      ∀ c ∈ [Char.ofNat (65 + n), Char.ofNat (97 + n)], goIsSpace c = false ∧ c.isAlpha = true := by
  have hletters : ∀ n < 26, (Char.ofNat (65 + n)).toLower = Char.ofNat (97 + n) ∧
      (Char.ofNat (97 + n)).toLower = Char.ofNat (97 + n) ∧
      (goIsSpace (Char.ofNat (65 + n)) = false ∧ (Char.ofNat (65 + n)).isAlpha = true) ∧
      goIsSpace (Char.ofNat (97 + n)) = false ∧ (Char.ofNat (97 + n)).isAlpha = true := by
    decide
  intro n hn
  obtain ⟨hcapital, hsmall, hfirst, hsecond⟩ := hletters n hn
  exact ⟨hcapital, hsmall, List.forall_mem_cons.mpr ⟨hfirst, List.forall_mem_singleton.mpr hsecond⟩⟩

theorem toLower_of_not_capital {c : Char} (h : ¬ ∃ n < 26, c = Char.ofNat (65 + n)) : c.toLower = c := by
  unfold Char.toLower
  rw [dif_neg]
  rintro ⟨hA, hZ⟩
  have hlow : 65 ≤ c.toNat := UInt32.le_iff_toNat_le.mp hA
  have hhigh : c.toNat ≤ 90 := UInt32.le_iff_toNat_le.mp hZ
  refine h ⟨c.toNat - 65, by omega, ?_⟩
  rw [Nat.add_sub_cancel' hlow, Char.ofNat_toNat]

/-- `unicode.ToLower` on the ASCII letters. -/
def asciiRunes : RuneLower where
  toLower := Char.toLower
  idem c := by
    by_cases hc : ∃ n < 26, c = Char.ofNat (65 + n)
    · obtain ⟨n, hn, rfl⟩ := hc
      rw [(toLower_capital n hn).1, (toLower_capital n hn).2.1]
    · rw [toLower_of_not_capital hc, toLower_of_not_capital hc]
  caseless c d hd := by
    by_cases hc : ∃ n < 26, c = Char.ofNat (65 + n)
    · -- a letter is neither white space nor without case
      obtain ⟨n, hn, rfl⟩ := hc
      obtain ⟨hlower, -, hletter⟩ := toLower_capital n hn
      have hnot : ∀ e ∈ [Char.ofNat (65 + n), Char.ofNat (97 + n)], e ≠ d := by
        rintro e he rfl
        obtain ⟨hspace, halpha⟩ := hletter e he
        rw [hspace, halpha] at hd
        simp at hd
      rw [hlower]
      exact iff_of_false (hnot _ (by simp)) (hnot _ (by simp))
    · rw [toLower_of_not_capital hc]

/-! ### Numbers -/

/-- A decimal number with an optional sign, of any size. -/
def parseInt (s : String) : Option Int :=
  let (neg, ds) := match s.toList with
    | '-' :: t => (true, t)
    | '+' :: t => (false, t)
    | t => (false, t)
  if ds.isEmpty || !ds.all Char.isDigit then none
  else
    let n : Nat := ds.foldl (fun n c => 10 * n + (c.toNat - '0'.toNat)) 0
    some (if neg then -n else n)

/-- `strconv.Atoi`, on 64-bit integers. -/
def atoi (s : String) : Option Int :=
  (parseInt s).bind fun n => if -2 ^ 63 ≤ n ∧ n < 2 ^ 63 then some n else none

/-- A printed number is read back: it has digits only, so there is no sign to look for. -/
theorem parseInt_toString (n : Nat) : parseInt (toString n) = some (n : Int) := by
  have hlist : (toString n).toList = Nat.toDigits 10 n := Nat.toList_repr
  have hdigit : ∀ c ∈ Nat.toDigits 10 n, c.isDigit = true := fun c hc =>
    Nat.isDigit_of_mem_toDigits (by decide) (by decide) hc
  -- the reader's fold is the one that defines the digits
  have hvalue : (Nat.toDigits 10 n).foldl (fun n c => 10 * n + (c.toNat - '0'.toNat)) 0 = n := by
    rw [← Nat.ofDigitChars_eq_foldl]
    exact Nat.ofDigitChars_ten_toDigits
  unfold parseInt
  rw [hlist]
  cases hds : Nat.toDigits 10 n with
  | nil => exact absurd hds Nat.toDigits_ne_nil
  | cons c cs =>
    rw [hds] at hdigit hvalue
    have hc := hdigit c List.mem_cons_self
    have hall : (c :: cs).all Char.isDigit = true := List.all_eq_true.mpr hdigit
    -- a digit is no sign, so nothing is taken off the front
    have hsign : c ≠ '-' ∧ c ≠ '+' := by
      constructor
      · rintro rfl
        exact absurd hc (by decide)
      · rintro rfl
        exact absurd hc (by decide)
    split
    rename_i neg ds heq
    obtain ⟨rfl, rfl⟩ : neg = false ∧ ds = c :: cs := by
      split at heq
      · rename_i t ht
        exact absurd (List.cons.inj ht).1 hsign.1
      · rename_i t ht
        exact absurd (List.cons.inj ht).1 hsign.2
      · exact ⟨(Prod.mk.inj heq).1.symm, (Prod.mk.inj heq).2.symm⟩
    rw [hall, hvalue]
    rfl

/-- A number that is printed with a sign is read back as well. -/
theorem parseInt_int (z : Int) : parseInt (toString z) = some z := by
  cases z with
  | ofNat n => exact parseInt_toString n
  | negSucc n =>
    -- the sign is looked at first, the digits are those of a number without one
    have hdigits := parseInt_toString (n + 1)
    have hsigned : (toString (Int.negSucc n)).toList = '-' :: (toString (n + 1)).toList := by
      change ("-" ++ toString (n + 1)).toList = _
      rw [String.toList_append]
      rfl
    have hplain : ∀ c cs, (toString (n + 1)).toList = c :: cs → c ≠ '-' ∧ c ≠ '+' := by
      intro c cs hcs
      have hc : c.isDigit = true :=
        Nat.isDigit_of_mem_toDigits (by decide) (by decide) (Nat.toList_repr ▸ hcs ▸ List.mem_cons_self)
      constructor
      · rintro rfl
        exact absurd hc (by decide)
      · rintro rfl
        exact absurd hc (by decide)
    unfold parseInt at hdigits ⊢
    rw [hsigned]
    cases hcs : (toString (n + 1)).toList with
    | nil =>
      rw [hcs] at hdigits
      exact absurd hdigits (by simp)
    | cons c cs =>
      have hsign := hplain c cs hcs
      rw [hcs] at hdigits
      simp [hsign] at hdigits
      simp
      exact ⟨hdigits.1, by exact_mod_cast hdigits.2⟩

end Devrouter
