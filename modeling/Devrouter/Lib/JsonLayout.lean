import Mathlib.Data.List.Forall2
import Devrouter.Lib.JsonToken

/-!
# The layout of JSON

The scanner does not look at the white space between tokens: a text that it reads is laid out from tokens, and it
reads every other text that is laid out from them, in front of whatever may follow a value (`steady_scanValue`). So the
members of an object are those of every other layout of it, with layouts of the same values
(`objectMembers_relaid`).
-/

namespace Json

/-! ### Lists -/

section Lists

variable {α : Type}

/-- Pieces with commas between them, up to a closing bracket; each step scans one. -/
def scanList (piece : Bytes → Option (α × Bytes)) (close : UInt8) : ℕ → Bytes → Option (List α × Bytes)
  | 0, _ => none
  | n + 1, bs => do
    let (a, rest) ← piece bs
    match skipSpace rest with
    | [] => none
    | b :: rest =>
      -- another element, or the end of the list
      if b = byte ',' then do
        let (as, rest) ← scanList piece close n rest
        return (a :: as, rest)
      else if b = close then some ([a], rest)
      else none

/-- A scanner of values reads every layout of what it reads, whatever follows; the layouts are alike. -/
def Steady (like : Bytes → Bytes → Prop) (value : Bytes → Option Bytes) : Prop :=
  ∀ s r, value s = some r → Follows r → ∃ raw toks, s = raw ++ r ∧ Laid toks raw ∧
    ∀ raw', Laid toks raw' → like raw raw' ∧ ∀ x, Follows x → value (raw' ++ x) = some x

/-- The same of a scanner that skips white space and returns what it reads. -/
def SteadyPiece (like : α → α → Prop) (piece : Bytes → Option (α × Bytes)) : Prop :=
  ∀ s a r, piece s = some (a, r) → Follows r → ∃ raw toks, skipSpace s = raw ++ r ∧ Laid toks raw ∧
    ∀ raw', Laid toks raw' → ∀ g x, Gap g → Follows x → ∃ a', piece (g ++ raw' ++ x) = some (a', x) ∧ like a a'

theorem steady_scanScalar : Steady Eq scanScalar := by
  intro s r h hr
  obtain ⟨tok, rfl, htok, hread⟩ := scanScalar_split h hr
  refine ⟨tok, [tok], rfl, .one htok, fun raw' hraw => ?_⟩
  cases hraw with
  | one => exact ⟨rfl, hread⟩
  | cons _ _ hnil => exact absurd rfl hnil.ne_nil

variable {piece : Bytes → Option (α × Bytes)} {close : UInt8} {like : α → α → Prop}

theorem scanList_succ {n : ℕ} {bs rest t : Bytes} {a : α} {b : UInt8} (hpiece : piece bs = some (a, rest))
    (hrest : skipSpace rest = b :: t) : scanList piece close (n + 1) bs =
      if b = byte ',' then (scanList piece close n t).map fun p => (a :: p.1, p.2)
      else if b = close then some ([a], t) else none := by
  rw [scanList, hpiece]
  show (match skipSpace rest with
    | [] => none
    | b :: rest => _) = _
  rw [hrest]
  show (if b = byte ',' then (scanList piece close n t).bind _ else _) = _
  split
  · cases scanList piece close n t <;> rfl
  · rfl

/-- **A list** is read in every layout, with pieces that are alike. -/
theorem scanList_steady (hp : SteadyPiece like piece) (hclose : close = byte ']' ∨ close = byte '\x7d') {n : ℕ}
    {bs r : Bytes} {as : List α} (h : scanList piece close n bs = some (as, r)) :
    ∃ raw toks, skipSpace bs = raw ++ r ∧ Laid toks raw ∧
      ∀ raw', Laid toks raw' → ∀ g x m, Gap g → toks.length ≤ m →
        ∃ as', scanList piece close m (g ++ raw' ++ x) = some (as', x) ∧ List.Forall₂ like as as' := by
  induction n generalizing bs as r with
  | zero => cases h
  | succ n ih =>
    obtain ⟨⟨a, rest⟩, hpiece, -⟩ := Option.bind_eq_some_iff.mp h
    cases hrest : skipSpace rest with
    | nil =>
      -- a list whose text ends behind an element is not scanned
      have hnone : scanList piece close (n + 1) bs = none := by
        rw [scanList, hpiece]
        show (match skipSpace rest with
          | [] => none
          | b :: rest => _) = _
        rw [hrest]
      rw [hnone] at h
      cases h
    | cons b t =>
      rw [scanList_succ hpiece hrest] at h
      have hgap : rest = rest.takeWhile isSpaceByte ++ b :: t := by
        rw [← hrest]
        exact gap_append_skipSpace rest
      by_cases hcomma : b = byte ','
      · -- a comma, and the rest of the list
        subst hcomma
        rw [if_pos rfl] at h
        obtain ⟨⟨as, r⟩, hlist, heq⟩ := Option.map_eq_some_iff.mp h
        obtain ⟨rfl, rfl⟩ := Prod.mk.inj heq
        -- the element, laid out anew, is read by `hp` and the rest by the induction hypothesis
        obtain ⟨raw₁, toks₁, hskip, hlaid₁, hread₁⟩ :=
          hp bs a rest hpiece (follows_of_skipSpace hrest (.inl rfl))
        obtain ⟨raw₂, toks₂, htail, hlaid₂, hread₂⟩ := ih hlist
        have hlaid : Laid (toks₁ ++ [byte ','] :: toks₂)
            (raw₁ ++ rest.takeWhile isSpaceByte ++ ([byte ','] ++ t.takeWhile isSpaceByte ++ raw₂)) :=
          hlaid₁.append (gap_takeWhile rest) (.cons (.punct (by decide)) (gap_takeWhile t) hlaid₂)
        -- the new layout splits where the old one does: behind the first element's tokens
        refine ⟨_, _, ?_, hlaid, fun raw' hraw g x m hg hm => ?_⟩
        · conv_lhs => rw [hskip, hgap, gap_append_skipSpace t, htail]
          simp only [List.append_assoc, List.cons_append, List.nil_append]
        · obtain ⟨x₁, g₁, y, rfl, hx₁, hg₁, hy⟩ := hraw.split hlaid₁.ne_nil (List.cons_ne_nil _ _)
          cases hy with
          | one => exact absurd rfl hlaid₂.ne_nil
          | @cons _ g₂ y₂ _ _ hg₂ hy₂ =>
            rw [List.length_append, List.length_cons] at hm
            obtain ⟨k, rfl⟩ : ∃ k, m = k + 1 := Nat.exists_eq_succ_of_ne_zero (by omega)
            have hfollows : Follows (g₁ ++ (byte ',' :: (g₂ ++ y₂ ++ x))) := by
              refine follows_append hg₁ ?_
              rintro c ⟨⟩
              exact .inr (.inl rfl)
            obtain ⟨a', ha', hlike⟩ := hread₁ x₁ hx₁ g _ hg hfollows
            obtain ⟨as', has', hlikes⟩ := hread₂ y₂ hy₂ g₂ x k hg₂ (by omega)
            have htext : g ++ (x₁ ++ g₁ ++ ([byte ','] ++ g₂ ++ y₂)) ++ x =
                g ++ x₁ ++ (g₁ ++ (byte ',' :: (g₂ ++ y₂ ++ x))) := by
              simp only [List.append_assoc, List.cons_append, List.nil_append]
            have hskip' : skipSpace (g₁ ++ (byte ',' :: (g₂ ++ y₂ ++ x))) = byte ',' :: (g₂ ++ y₂ ++ x) := by
              rw [skipSpace_gap hg₁, skipSpace, List.dropWhile_cons_of_neg (by decide)]
            refine ⟨a' :: as', ?_, .cons hlike hlikes⟩
            rw [htext, scanList_succ ha' hskip', if_pos rfl, has']
            rfl
      · -- the closing bracket
        rw [if_neg hcomma] at h
        obtain ⟨hb, heq⟩ := Option.ite_none_right_eq_some.mp h
        subst hb
        obtain ⟨rfl, rfl⟩ := Prod.mk.inj (Option.some.inj heq)
        have hpunct : isPunct b = true ∧ isSpaceByte b = false := by obtain rfl | rfl := hclose <;> decide
        obtain ⟨raw₁, toks₁, hskip, hlaid₁, hread₁⟩ := hp bs a rest hpiece (follows_of_skipSpace hrest (.inr hclose))
        refine ⟨raw₁ ++ rest.takeWhile isSpaceByte ++ [b], toks₁ ++ [[b]], ?_,
          hlaid₁.append (gap_takeWhile rest) (.one (.punct hpunct.1)), fun raw' hraw g x m hg hm => ?_⟩
        · rw [hskip]
          conv_lhs => rw [hgap]
          simp only [List.append_assoc, List.cons_append, List.nil_append]
        · obtain ⟨x₁, g₁, y, rfl, hx₁, hg₁, hy⟩ := hraw.split hlaid₁.ne_nil (List.cons_ne_nil _ _)
          cases hy with
          -- behind the last element there is one token, the bracket
          | cons _ _ hnil => exact absurd rfl hnil.ne_nil
          | one =>
            rw [List.length_append, List.length_singleton] at hm
            obtain ⟨k, rfl⟩ : ∃ k, m = k + 1 := Nat.exists_eq_succ_of_ne_zero (by omega)
            have hfollows : Follows (g₁ ++ (b :: x)) := by
              refine follows_append hg₁ ?_
              rintro c ⟨⟩
              exact .inr (.inr hclose)
            obtain ⟨a', ha', hlike⟩ := hread₁ x₁ hx₁ g _ hg hfollows
            have htext : g ++ (x₁ ++ g₁ ++ [b]) ++ x = g ++ x₁ ++ (g₁ ++ (b :: x)) := by
              simp only [List.append_assoc, List.cons_append, List.nil_append]
            have hskip' : skipSpace (g₁ ++ (b :: x)) = b :: x := by
              rw [skipSpace_gap hg₁, skipSpace, List.dropWhile_cons_of_neg (by simp [hpunct.2])]
            refine ⟨[a'], ?_, .cons hlike .nil⟩
            rw [htext, scanList_succ ha' hskip', if_neg hcomma, if_pos rfl]

/-- A list after its opening bracket. -/
def scanClosed (piece : Bytes → Option (α × Bytes)) (close : UInt8) (bs : Bytes) : Option (List α × Bytes) :=
  match skipSpace bs with
  | [] => none
  | b :: rest => if b = close then some ([], rest) else scanList piece close bs.length bs

theorem scanClosed_cons {bs t : Bytes} {b : UInt8} (h : skipSpace bs = b :: t) : scanClosed piece close bs =
    if b = close then some ([], t) else scanList piece close bs.length bs := by
  rw [scanClosed, h]

/-- Layouts of one list of tokens begin alike. -/
theorem Laid.head?_eq {toks : List Bytes} {x y : Bytes} (hx : Laid toks x) (hy : Laid toks y) :
    x.head? = y.head? := by
  obtain ⟨tok, rest, rfl⟩ := List.exists_cons_of_ne_nil hx.ne_nil
  obtain ⟨htok, t, rfl⟩ := hx.begins
  obtain ⟨-, u, rfl⟩ := hy.begins
  obtain ⟨c, v, rfl, -⟩ := htok.head
  rfl

theorem scanClosed_steady (hp : SteadyPiece like piece) (hclose : close = byte ']' ∨ close = byte '\x7d')
    {bs r : Bytes} {as : List α} (h : scanClosed piece close bs = some (as, r)) :
    ∃ raw toks, skipSpace bs = raw ++ r ∧ Laid toks raw ∧
      ∀ raw', Laid toks raw' → ∀ g x, Gap g →
        ∃ as', scanClosed piece close (g ++ raw' ++ x) = some (as', x) ∧ List.Forall₂ like as as' := by
  cases hskip : skipSpace bs with
  | nil =>
    rw [scanClosed, hskip] at h
    cases h
  | cons b t =>
    rw [scanClosed_cons hskip] at h
    by_cases hb : b = close
    · subst hb
      rw [if_pos rfl] at h
      obtain ⟨rfl, rfl⟩ := Prod.mk.inj (Option.some.inj h)
      have hpunct : isPunct b = true := by obtain rfl | rfl := hclose <;> decide
      have hlaid : Laid [[b]] [b] := .one (.punct hpunct)
      refine ⟨[b], [[b]], rfl, hlaid, fun raw' hraw g x hg => ⟨[], ?_, .nil⟩⟩
      cases hraw with
      | cons _ _ hnil => exact absurd rfl hnil.ne_nil
      | one =>
        rw [scanClosed_cons (hlaid.skipSpace_eq hg x), if_pos rfl]
        rfl
    · rw [if_neg hb] at h
      obtain ⟨raw, toks, hraw, hlaid, hread⟩ := scanList_steady hp hclose h
      refine ⟨raw, toks, hskip ▸ hraw, hlaid, fun raw' hraw' g x hg => ?_⟩
      obtain ⟨c, u, rfl, hc⟩ := hraw'.head
      have hlen : toks.length ≤ (g ++ (c :: u) ++ x).length := by
        have hle := hraw'.length_le
        rw [List.length_append, List.length_append]
        omega
      -- the first byte is no closing bracket either
      have hfirst : c = b := by
        have hheads := hlaid.head?_eq hraw'
        have hb' : (raw ++ r).head? = some b := by rw [← hraw, hskip]; rfl
        obtain ⟨d, v, rfl, -⟩ := hlaid.head
        have hd : d = b := Option.some.inj hb'
        exact (Option.some.inj hheads).symm.trans hd
      obtain ⟨as', has', hlikes⟩ := hread _ hraw' g x _ hg hlen
      refine ⟨as', ?_, hlikes⟩
      rw [scanClosed_cons (hraw'.skipSpace_eq hg x), if_neg (hfirst ▸ hb), has']

end Lists

/-! ### Values -/

section Values

variable {value : Bytes → Option Bytes} {like : Bytes → Bytes → Prop}

/-- An element of an array. -/
def scanItem (value : Bytes → Option Bytes) (s : Bytes) : Option (Bytes × Bytes) :=
  (value (skipSpace s)).map fun r => (span (skipSpace s) r, r)

/-- Members with one key and values that are alike. -/
def Member.Like (like : Bytes → Bytes → Prop) (m m' : Member) : Prop := m.key = m'.key ∧ like m.value m'.value

theorem steadyPiece_scanItem (hv : Steady like value) : SteadyPiece like (scanItem value) := by
  intro s a r h hr
  obtain ⟨t, ht, heq⟩ := Option.map_eq_some_iff.mp h
  obtain ⟨rfl, rfl⟩ := Prod.mk.inj heq
  obtain ⟨raw, toks, hraw, hlaid, hread⟩ := hv _ _ ht hr
  refine ⟨raw, toks, hraw, hlaid, fun raw' hraw' g x hg hx => ⟨raw', ?_, ?_⟩⟩
  · rw [scanItem, hraw'.skipSpace_eq hg, (hread raw' hraw').2 x hx, Option.map_some, span_append]
  · rw [hraw, span_append]
    exact (hread raw' hraw').1

theorem scanMember_eq_some {s r : Bytes} {m : Member} : scanMember value s = some (m, r) ↔
    ∃ bs afterKey afterColon, skipSpace s = byte '"' :: bs ∧ scanString bs = some afterKey ∧
      skipSpace afterKey = byte ':' :: afterColon ∧ value (skipSpace afterColon) = some r ∧
        m = ⟨span bs afterKey, span (skipSpace afterColon) r⟩ := by
  rw [scanMember]
  cases hs : skipSpace s with
  | nil => simp
  | cons q bs =>
    by_cases hq : q = byte '"'
    · subst hq
      cases hkey : scanString bs with
      | none => simp [hkey]
      | some afterKey =>
        cases hafter : skipSpace afterKey with
        | nil => simp [hkey, hafter]
        | cons c afterColon =>
          by_cases hc : c = byte ':'
          · subst hc
            cases hvalue : value (skipSpace afterColon) with
            | none => simp [hkey, hafter, hvalue]
            | some rest =>
              simp [hkey, hafter, hvalue]
              constructor
              · rintro ⟨rfl, rfl⟩
                exact ⟨rfl, rfl⟩
              · rintro ⟨rfl, rfl⟩
                exact ⟨rfl, rfl⟩
          · simp [hkey, hafter, hc]
    · simp [hq]

theorem steadyPiece_scanMember (hv : Steady like value) : SteadyPiece (Member.Like like) (scanMember value) := by
  intro s m r h hr
  obtain ⟨bs, afterKey, afterColon, hs, hkey, hafter, hvalue, rfl⟩ := scanMember_eq_some.mp h
  obtain ⟨body, rfl, hbody⟩ := scanString_split hkey
  obtain ⟨raw, toks, hraw, hlaid, hread⟩ := hv _ _ hvalue hr
  have hkeyTok : Token (byte '"' :: body) := .string (by simpa using hbody [])
  -- the member is a string, a colon and the value, each read in its own layout
  have hcolon : Token [byte ':'] := .punct (by decide)
  refine ⟨_, _, ?_, .cons hkeyTok (gap_takeWhile afterKey) (.cons hcolon (gap_takeWhile afterColon) hlaid),
    fun raw' hraw' g x hg hx => ?_⟩
  · conv_lhs => rw [hs, gap_append_skipSpace afterKey, hafter, gap_append_skipSpace afterColon, hraw]
    simp only [List.append_assoc, List.cons_append, List.nil_append]
  · cases hraw' with
    | @cons _ g₁ _ _ _ hg₁ hraw' =>
      -- the new layout has the key's token first and the colon's second
      cases hraw' with
      | one => exact absurd rfl hlaid.ne_nil
      | @cons _ g₂ v _ _ hg₂ hraw' =>
        have htext : g ++ (byte '"' :: body ++ g₁ ++ ([byte ':'] ++ g₂ ++ v)) ++ x =
            g ++ byte '"' :: (body ++ (g₁ ++ byte ':' :: (g₂ ++ v ++ x))) := by
          simp only [List.append_assoc, List.cons_append, List.nil_append]
        have hquote : skipSpace (g ++ byte '"' :: (body ++ (g₁ ++ byte ':' :: (g₂ ++ v ++ x)))) =
            byte '"' :: (body ++ (g₁ ++ byte ':' :: (g₂ ++ v ++ x))) := by
          rw [skipSpace_gap hg, skipSpace, List.dropWhile_cons_of_neg (by decide)]
        have hafter' : skipSpace (g₁ ++ byte ':' :: (g₂ ++ v ++ x)) = byte ':' :: (g₂ ++ v ++ x) := by
          rw [skipSpace_gap hg₁, skipSpace, List.dropWhile_cons_of_neg (by decide)]
        rw [hraw, span_append, span_append]
        refine ⟨⟨body, v⟩, ?_, rfl, (hread v hraw').1⟩
        rw [htext, scanMember_eq_some]
        refine ⟨_, _, _, hquote, hbody _, hafter', ?_, ?_⟩
        · rw [hraw'.skipSpace_eq hg₂]
          exact (hread v hraw').2 x hx
        · rw [span_append, hraw'.skipSpace_eq hg₂, span_append]

theorem scanMembers_eq (n : ℕ) (bs : Bytes) :
    scanMembers value n bs = scanList (scanMember value) (byte '\x7d') n bs := by
  induction n generalizing bs with
  | zero => rfl
  | succ n ih =>
    cases hm : scanMember value bs with
    | none => simp [scanMembers, scanList, hm]
    | some p =>
      cases hs : skipSpace p.2 with
      | nil => simp [scanMembers, scanList, hm, hs]
      | cons b rest => simp [scanMembers, scanList, hm, hs, ih]

theorem scanObject_eq (bs : Bytes) : scanObject value bs = scanClosed (scanMember value) (byte '\x7d') bs := by
  unfold scanObject scanClosed
  cases hs : skipSpace bs with
  | nil => simp
  | cons b t => simp [scanMembers_eq]

/-- The elements of an array, after its opening bracket. -/
def scanItems (value : Bytes → Option Bytes) (bs : Bytes) : Option (List Bytes × Bytes) :=
  scanClosed (scanItem value) (byte ']') bs

theorem scanElements_eq (n : ℕ) (bs : Bytes) :
    scanElements value n bs = (scanList (scanItem value) (byte ']') n bs).map Prod.snd := by
  induction n generalizing bs with
  | zero => rfl
  | succ n ih =>
    rw [scanElements, scanList, scanItem]
    -- both scans stop where the value, the comma or the bracket does not stand
    cases value (skipSpace bs) with
    | none => rfl
    | some rest =>
      show (match skipSpace rest with
        | [] => none
        | b :: rest => _) = Option.map _ (match skipSpace rest with
          | [] => none
          | b :: rest => _)
      cases skipSpace rest with
      | nil => rfl
      | cons b t =>
        show (if _ then _ else _) = Option.map _ (if _ then _ else _)
        rw [ih]
        by_cases hcomma : b = byte ','
        · rw [if_pos hcomma, if_pos hcomma]
          cases scanList (scanItem value) (byte ']') n t <;> rfl
        · rw [if_neg hcomma, if_neg hcomma]
          split <;> rfl

theorem scanArray_eq (bs : Bytes) : scanArray value bs = (scanItems value bs).map Prod.snd := by
  rw [scanArray, scanItems, scanClosed]
  cases skipSpace bs with
  | nil => rfl
  | cons b t =>
    show (if _ then _ else _) = Option.map _ (if _ then _ else _)
    rw [scanElements_eq]
    split <;> rfl

/-- An array or an object, with its opening bracket. -/
theorem steady_closed {α : Type} {piece : Bytes → Option (α × Bytes)} {close : UInt8} {like : α → α → Prop}
    (opening : UInt8) (hp : SteadyPiece like piece) (hopen : isPunct opening = true)
    (hclose : close = byte ']' ∨ close = byte '\x7d') {bs r : Bytes} {as : List α}
    (h : scanClosed piece close bs = some (as, r)) :
    ∃ raw toks, opening :: bs = raw ++ r ∧ Laid ([opening] :: toks) raw ∧
      ∀ raw', Laid ([opening] :: toks) raw' → ∃ t, raw' = opening :: t ∧ ∀ x,
        ∃ as', scanClosed piece close (t ++ x) = some (as', x) ∧ List.Forall₂ like as as' := by
  obtain ⟨raw, toks, hraw, hlaid, hread⟩ := scanClosed_steady hp hclose h
  refine ⟨_, toks, ?_, .cons (.punct hopen) (gap_takeWhile bs) hlaid, fun raw' hraw' => ?_⟩
  · conv_lhs => rw [gap_append_skipSpace bs, hraw]
    simp only [List.append_assoc, List.cons_append, List.nil_append]
  · cases hraw' with
    | one => exact absurd rfl hlaid.ne_nil
    | @cons _ g t _ _ hg hlaid' =>
      refine ⟨g ++ t, rfl, fun x => ?_⟩
      exact hread t hlaid' g x hg

/-- The members of an object. -/
def objectAt (value : Bytes → Option Bytes) : Bytes → Option (List Member)
  | [] => none
  | b :: s => if b = byte '\x7b' then (scanClosed (scanMember value) (byte '\x7d') s).map Prod.fst else none

/-- Layouts of one value: a scalar is the same, an object has members with layouts of the same values. -/
def Alike : ℕ → Bytes → Bytes → Prop
  | 0, x, y => x = y
  | depth + 1, x, y => x = y ∨ Relaid x y ∧ (x.head? = some (byte '[') ∨ x.head? = some (byte '\x7b') ∧
      ∃ ms ms', objectAt (scanValue depth) x = some ms ∧ objectAt (scanValue depth) y = some ms' ∧
        List.Forall₂ (Member.Like (Alike depth)) ms ms')

/-- **Values** are read in every layout. -/
theorem steady_scanValue (depth : ℕ) : Steady (Alike depth) (scanValue depth) := by
  induction depth with
  | zero => exact steady_scanScalar
  | succ depth ih =>
    intro s r h hr
    have hbrackets : byte '[' ≠ byte '\x7b' := by decide
    cases s with
    | nil => cases h
    | cons b s =>
      rw [scanValue] at h
      by_cases harray : b = byte '['
      · subst harray
        rw [if_pos rfl, scanArray_eq] at h
        obtain ⟨⟨items, t⟩, hitems, rfl⟩ := Option.map_eq_some_iff.mp h
        obtain ⟨raw, toks, hraw, hlaid, hread⟩ := steady_closed (byte '[') (steadyPiece_scanItem ih) (by decide)
          (.inl rfl) hitems
        refine ⟨raw, _, hraw, hlaid, fun raw' hraw' => ⟨.inr ⟨⟨_, hlaid, hraw'⟩, .inl ?_⟩, fun x _ => ?_⟩⟩
        · obtain ⟨u, rfl, -⟩ := hread raw hlaid
          rfl
        · obtain ⟨u, rfl, hu⟩ := hread raw' hraw'
          obtain ⟨items', hitems', -⟩ := hu x
          rw [List.cons_append, scanValue, if_pos rfl, scanArray_eq, scanItems, hitems']
          rfl
      · rw [if_neg harray] at h
        by_cases hobject : b = byte '\x7b'
        · subst hobject
          rw [if_pos rfl, scanObject_eq] at h
          obtain ⟨⟨ms, t⟩, hms, rfl⟩ := Option.map_eq_some_iff.mp h
          obtain ⟨raw, toks, hraw, hlaid, hread⟩ := steady_closed (byte '\x7b') (steadyPiece_scanMember ih)
            (by decide) (.inr rfl) hms
          -- the object is read by itself, and then in its layouts
          obtain ⟨u, rfl, hu⟩ := hread raw hlaid
          obtain ⟨ms₁, hms₁, -⟩ := hu []
          rw [List.append_nil] at hms₁
          obtain ⟨raw₁, toks₁, hraw₁, hlaid₁, hread₁⟩ := steady_closed (byte '\x7b') (steadyPiece_scanMember ih)
            (by decide) (.inr rfl) hms₁
          rw [List.append_nil] at hraw₁
          subst hraw₁
          refine ⟨_, _, hraw, hlaid₁, fun raw' hraw' => ?_⟩
          obtain ⟨v, rfl, hv⟩ := hread₁ raw' hraw'
          refine ⟨.inr ⟨⟨_, hlaid₁, hraw'⟩, .inr ⟨rfl, ?_⟩⟩, fun x _ => ?_⟩
          · obtain ⟨ms₂, hms₂, hlike⟩ := hv []
            rw [List.append_nil] at hms₂
            refine ⟨ms₁, ms₂, ?_, ?_, hlike⟩
            · rw [objectAt, if_pos rfl, hms₁]
              rfl
            · rw [objectAt, if_pos rfl, hms₂]
              rfl
          · obtain ⟨ms₂, hms₂, -⟩ := hv x
            rw [List.cons_append, scanValue, if_neg hbrackets.symm, if_pos rfl, scanObject_eq, hms₂]
            rfl
        · rw [if_neg hobject] at h
          obtain ⟨tok, hs, htok, hread⟩ := scanScalar_split h hr
          refine ⟨tok, [tok], hs, .one htok, fun raw' hraw' => ?_⟩
          cases hraw' with
          | cons _ _ hnil => exact absurd rfl hnil.ne_nil
          | one =>
            refine ⟨.inl rfl, fun x hx => ?_⟩
            obtain ⟨c, u, rfl, -⟩ := htok.head
            obtain ⟨rfl, -⟩ := List.cons.inj hs
            have hscalar := hread x hx
            rw [List.cons_append] at hscalar ⊢
            rw [scanValue, if_neg harray, if_neg hobject, hscalar]

theorem Alike.refl (depth : ℕ) (x : Bytes) : Alike depth x x := by
  cases depth with
  | zero => rfl
  | succ depth => exact .inl rfl

end Values

/-! ### Depths -/

section Depths

variable {α : Type} {piece piece' : Bytes → Option (α × Bytes)} {close : UInt8} {value value' : Bytes → Option Bytes}

theorem scanList_mono (h : ∀ s p, piece s = some p → piece' s = some p) {n : ℕ} {s : Bytes} {p : List α × Bytes}
    (hs : scanList piece close n s = some p) : scanList piece' close n s = some p := by
  induction n generalizing s p with
  | zero => cases hs
  | succ n ih =>
    obtain ⟨⟨a, rest⟩, hpiece, hrest⟩ := Option.bind_eq_some_iff.mp hs
    rw [scanList, h s _ hpiece]
    cases hskip : skipSpace rest with
    | nil =>
      simp only [hskip] at hrest
      cases hrest
    | cons b t =>
      simp only [hskip] at hrest
      show (match skipSpace rest with
        | [] => none
        | b :: rest => _) = _
      rw [hskip]
      by_cases hcomma : b = byte ','
      · -- a comma: the rest of the list is scanned by the induction hypothesis
        simp only [hcomma, if_true] at hrest ⊢
        obtain ⟨q, hq, heq⟩ := Option.bind_eq_some_iff.mp hrest
        exact Option.bind_eq_some_iff.mpr ⟨q, ih hq, heq⟩
      · simp only [hcomma, if_false] at hrest ⊢
        exact hrest

theorem scanClosed_mono (h : ∀ s p, piece s = some p → piece' s = some p) {s : Bytes} {p : List α × Bytes}
    (hs : scanClosed piece close s = some p) : scanClosed piece' close s = some p := by
  cases hskip : skipSpace s with
  | nil =>
    rw [scanClosed, hskip] at hs
    cases hs
  | cons b t =>
    rw [scanClosed_cons hskip] at hs ⊢
    split at hs
    · rwa [if_pos ‹_›]
    · rw [if_neg ‹_›]
      exact scanList_mono h hs

theorem scanItem_mono (h : ∀ s r, value s = some r → value' s = some r) (s : Bytes) (p : Bytes × Bytes)
    (hs : scanItem value s = some p) : scanItem value' s = some p := by
  obtain ⟨r, hr, rfl⟩ := Option.map_eq_some_iff.mp hs
  rw [scanItem, h _ _ hr]
  rfl

theorem scanMember_mono (h : ∀ s r, value s = some r → value' s = some r) (s : Bytes) (p : Member × Bytes)
    (hs : scanMember value s = some p) : scanMember value' s = some p := by
  obtain ⟨bs, afterKey, afterColon, hquote, hkey, hcolon, hvalue, heq⟩ := scanMember_eq_some.mp hs
  exact scanMember_eq_some.mpr ⟨bs, afterKey, afterColon, hquote, hkey, hcolon, h _ _ hvalue, heq⟩

/-- A bracket is no scalar. -/
theorem scanScalar_bracket {b : UInt8} (hb : b = byte '[' ∨ b = byte '\x7b') (s : Bytes) : scanScalar (b :: s) = none := by
  obtain rfl | rfl := hb <;> rfl

/-- What is read at one depth is read at the next. -/
theorem scanValue_succ {depth : ℕ} {s r : Bytes} (h : scanValue depth s = some r) : scanValue (depth + 1) s = some r := by
  induction depth generalizing s r with
  | zero =>
    cases s with
    | nil => cases h
    | cons b s =>
      -- without depth only scalars are scanned, and none of them begins with a bracket
      have hnone : ∀ {c : UInt8}, c = byte '[' ∨ c = byte '\x7b' → b ≠ c := by
        rintro c hc rfl
        rw [scanValue, scanScalar_bracket hc] at h
        cases h
      rw [scanValue, if_neg (hnone (.inl rfl)), if_neg (hnone (.inr rfl))]
      exact h
  | succ depth ih =>
    cases s with
    | nil => cases h
    | cons b s =>
      rw [scanValue] at h ⊢
      by_cases harray : b = byte '['
      · -- the elements and members are scanned one level below
        rw [if_pos harray, scanArray_eq] at h ⊢
        obtain ⟨p, hp, rfl⟩ := Option.map_eq_some_iff.mp h
        rw [scanItems, scanClosed_mono (scanItem_mono fun _ _ => ih) hp]
        rfl
      · rw [if_neg harray] at h ⊢
        by_cases hobject : b = byte '\x7b'
        · rw [if_pos hobject, scanObject_eq] at h ⊢
          obtain ⟨p, hp, rfl⟩ := Option.map_eq_some_iff.mp h
          rw [scanClosed_mono (scanMember_mono fun _ _ => ih) hp]
          rfl
        · rw [if_neg hobject] at h ⊢
          exact h

theorem scanValue_mono {d e : ℕ} (hle : d ≤ e) {s r : Bytes} (h : scanValue d s = some r) : scanValue e s = some r := by
  induction hle with
  | refl => exact h
  | step _ ih => exact scanValue_succ ih

theorem objectAt_mono {d e : ℕ} (hle : d ≤ e) {s : Bytes} {ms : List Member} (h : objectAt (scanValue d) s = some ms) :
    objectAt (scanValue e) s = some ms := by
  cases s with
  | nil => cases h
  | cons b s =>
    rw [objectAt] at h ⊢
    obtain ⟨hb, hms⟩ := Option.ite_none_right_eq_some.mp h
    obtain ⟨p, hp, rfl⟩ := Option.map_eq_some_iff.mp hms
    rw [if_pos hb, scanClosed_mono (scanMember_mono fun _ _ => scanValue_mono hle) hp]
    rfl

theorem membersOf_eq (x : Bytes) : membersOf x = objectAt (scanValue (maxNestingDepth - 1)) x := by
  cases x with
  | nil => rfl
  | cons b s => rw [membersOf, objectAt, scanObject_eq]

variable {depth : ℕ} {x y : Bytes}

/-- The members of layouts of one value. -/
theorem Alike.membersOf (h : Alike depth x y) (hdepth : depth ≤ maxNestingDepth) :
    Option.Rel (List.Forall₂ (Member.Like (Alike (depth - 1)))) (Json.membersOf x) (Json.membersOf y) := by
  have hsame : x = y →
      Option.Rel (List.Forall₂ (Member.Like (Alike (depth - 1)))) (Json.membersOf x) (Json.membersOf y) := by
    rintro rfl
    cases Json.membersOf x with
    | none => exact .none
    | some ms => exact .some (List.forall₂_same.mpr fun m _ => ⟨rfl, .refl _ _⟩)
  cases depth with
  | zero => exact hsame h
  | succ depth =>
    obtain heq | ⟨hlaid, harray | ⟨hobject, ms, ms', hx, hy, hlike⟩⟩ := h
    · -- an array has no members, however it is laid out
      exact hsame heq
    · obtain ⟨toks, hx, hy⟩ := hlaid
      obtain ⟨s, rfl⟩ := List.head?_eq_some_iff.mp harray
      obtain ⟨t, rfl⟩ := List.head?_eq_some_iff.mp (hx.head?_eq hy ▸ harray)
      exact .none
    · -- an object that is alike has its members one by one alike
      have hle : depth ≤ maxNestingDepth - 1 := by omega
      rw [membersOf_eq, membersOf_eq, objectAt_mono hle hx, objectAt_mono hle hy]
      exact .some hlike

/-- Layouts of one value are the same, or begin with a bracket. -/
theorem Alike.eq_or (h : Alike depth x y) : x = y ∨ ∃ b s t, x = b :: s ∧ y = b :: t ∧ (b = byte '[' ∨ b = byte '\x7b') := by
  cases depth with
  | zero => exact .inl h
  | succ depth =>
    obtain rfl | ⟨⟨toks, hx, hy⟩, hhead⟩ := h
    · exact .inl rfl
    · have hb : ∃ b, x.head? = some b ∧ (b = byte '[' ∨ b = byte '\x7b') := by
        obtain harray | ⟨hobject, -⟩ := hhead
        · exact ⟨_, harray, .inl rfl⟩
        · exact ⟨_, hobject, .inr rfl⟩
      obtain ⟨b, hb, hbracket⟩ := hb
      obtain ⟨s, rfl⟩ := List.head?_eq_some_iff.mp hb
      obtain ⟨t, rfl⟩ := List.head?_eq_some_iff.mp (hx.head?_eq hy ▸ hb)
      exact .inr ⟨b, s, t, rfl, rfl, hbracket⟩

theorem Alike.relaid (h : Alike depth x y) : x = y ∨ Relaid x y := by
  cases depth with
  | zero => exact .inl h
  | succ depth => exact h.imp_right And.left

/-- A string field gets the same from either. -/
theorem Alike.intoString (h : Alike depth x y) (old : String) : Json.intoString old x = Json.intoString old y := by
  obtain rfl | ⟨b, s, t, rfl, rfl, hb⟩ := h.eq_or
  · rfl
  · obtain rfl | rfl := hb <;> rfl

/-- A decoder that takes members one by one makes of members that are alike what is alike. -/
theorem foldlM_rel {σ : Type} {f : σ → Member → Option σ} {R : σ → σ → Prop} {like : Bytes → Bytes → Prop}
    (hstep : ∀ {s s' m m'}, R s s' → Member.Like like m m' → Option.Rel R (f s m) (f s' m')) {ms ms' : List Member}
    (h : List.Forall₂ (Member.Like like) ms ms') {s s' : σ} (hs : R s s') :
    Option.Rel R (ms.foldlM f s) (ms'.foldlM f s') := by
  induction h generalizing s s' with
  | nil => exact .some hs
  | @cons m m' ms ms' hm hms ih =>
    rw [List.foldlM_cons, List.foldlM_cons]
    have hrel := hstep hs hm
    generalize f s m = o, f s' m' = o' at hrel
    cases hrel with
    | none => exact .none
    | some ht => exact ih ht

end Depths

/-! ### Texts -/

section Texts

theorem scanValue_object (depth : ℕ) (s : Bytes) : scanValue (depth + 1) (byte '\x7b' :: s) =
    (scanClosed (scanMember (scanValue depth)) (byte '\x7d') s).map Prod.snd := by
  have hbrackets : byte '\x7b' ≠ byte '[' := by decide
  rw [scanValue, if_neg hbrackets, if_pos rfl, scanObject_eq]

theorem maxNestingDepth_succ : maxNestingDepth = maxNestingDepth - 1 + 1 := rfl

/-- A text with one value, whatever the white space around it. -/
theorem wholeValue_of_scanned {v u u' : Bytes} {toks : List Bytes} (hlaid : Laid toks v)
    (h : scanValue maxNestingDepth (v ++ u') = some u') (hu : Gap u) (hu' : Gap u') :
    wholeValue (u ++ v ++ u') = some v := by
  have hskip : skipSpace u' = [] := List.dropWhile_eq_nil_iff.mpr hu'
  rw [wholeValue, hlaid.skipSpace_eq hu, h]
  show (if skipSpace u' = [] then some (span (v ++ u') u') else none) = some v
  rw [if_pos hskip, span_append]

/-- The value of a text is read in every layout. -/
theorem wholeValue_steady {t v : Bytes} (h : wholeValue t = some v) : ∃ g toks g', Gap g ∧ Gap g' ∧ t = g ++ v ++ g' ∧
    Laid toks v ∧ ∀ v', Laid toks v' →
      Alike maxNestingDepth v v' ∧ ∀ x, Follows x → scanValue maxNestingDepth (v' ++ x) = some x := by
  obtain ⟨rest, hrest, hend⟩ := Option.bind_eq_some_iff.mp h
  obtain ⟨hnil, hspan⟩ := Option.ite_none_right_eq_some.mp hend
  have hgap := gap_of_skipSpace_eq_nil hnil
  obtain ⟨raw, toks, hraw, hlaid, hread⟩ := steady_scanValue _ _ _ hrest hgap.follows
  rw [hraw, span_append] at hspan
  obtain rfl := Option.some.inj hspan
  refine ⟨_, toks, rest, gap_takeWhile t, hgap, ?_, hlaid, hread⟩
  rw [List.append_assoc, ← hraw]
  exact gap_append_skipSpace t

/-- The members of the object that a text is. -/
def objectMembers (t : Bytes) : Option (List Member) := (wholeValue t).bind membersOf

theorem membersOf_cons (s : Bytes) : membersOf (byte '\x7b' :: s) =
    (scanClosed (scanMember (scanValue (maxNestingDepth - 1))) (byte '\x7d') s).map Prod.fst := by
  rw [membersOf, if_pos rfl, scanObject_eq]

/-- An object is scanned to its end. -/
theorem objectMembers_eq_some {t : Bytes} {ms : List Member} (h : objectMembers t = some ms) :
    ∃ g s g', Gap g ∧ Gap g' ∧ t = g ++ byte '\x7b' :: s ++ g' ∧
      scanClosed (scanMember (scanValue (maxNestingDepth - 1))) (byte '\x7d') s = some (ms, []) := by
  obtain ⟨v, hv, hms⟩ := Option.bind_eq_some_iff.mp h
  obtain ⟨g, toks, g', hg, hg', rfl, hlaid, hread⟩ := wholeValue_steady hv
  cases v with
  | nil => cases hms
  | cons b s =>
    rw [membersOf] at hms
    obtain ⟨rfl, hobject⟩ := Option.ite_none_right_eq_some.mp hms
    rw [scanObject_eq] at hobject
    obtain ⟨⟨ms', r⟩, hclosed, rfl⟩ := Option.map_eq_some_iff.mp hobject
    have hself := (hread _ hlaid).2 [] gap_nil.follows
    rw [List.append_nil, maxNestingDepth_succ, scanValue_object, hclosed] at hself
    obtain rfl : r = [] := Option.some.inj hself
    exact ⟨g, s, g', hg, hg', rfl, hclosed⟩

/-- **The members of an object** are those of every layout of it. -/
theorem objectMembers_relaid {t : Bytes} {ms : List Member} (h : objectMembers t = some ms) :
    ∃ g v g' toks, Gap g ∧ Gap g' ∧ t = g ++ v ++ g' ∧ Laid toks v ∧ v.head? = some (byte '\x7b') ∧
      ∀ v', Laid toks v' → ∀ u u', Gap u → Gap u' →
        ∃ ms', objectMembers (u ++ v' ++ u') = some ms' ∧
          List.Forall₂ (Member.Like (Alike (maxNestingDepth - 1))) ms ms' := by
  obtain ⟨g, s, g', hg, hg', rfl, hclosed⟩ := objectMembers_eq_some h
  -- the members are scanned between the braces, in whatever layout
  obtain ⟨raw, toks, hraw, hlaid, hread⟩ := steady_closed (byte '\x7b')
    (steadyPiece_scanMember (steady_scanValue (maxNestingDepth - 1))) (by decide) (.inr rfl) hclosed
  rw [List.append_nil] at hraw
  subst hraw
  refine ⟨g, _, g', _, hg, hg', rfl, hlaid, rfl, fun v' hv' u u' hu hu' => ?_⟩
  obtain ⟨w, rfl, hw⟩ := hread v' hv'
  obtain ⟨ms₁, hms₁, -⟩ := hw u'
  obtain ⟨ms₂, hms₂, hlike⟩ := hw []
  -- a value with the same tokens is scanned to the same end
  have hscan : scanValue maxNestingDepth (byte '\x7b' :: w ++ u') = some u' := by
    rw [List.cons_append, maxNestingDepth_succ, scanValue_object, hms₁]
    rfl
  rw [List.append_nil] at hms₂
  refine ⟨ms₂, ?_, hlike⟩
  rw [objectMembers, wholeValue_of_scanned hv' hscan hu hu', Option.bind_some, membersOf_cons, hms₂]
  rfl

end Texts

end Json
