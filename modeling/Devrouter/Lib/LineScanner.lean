import Mathlib.Data.List.Basic
import Mathlib.Data.List.GetD
import Mathlib.Order.Lattice
import Mathlib.Order.MinMax
import Mathlib.Tactic.Common

/-!
# A scanner of lines with one buffer

The lines of a stream as `bufio.Scanner` finds them: the scanner reads into a buffer, and a line is a slice of it
(`Scanner.scan`). What a slice holds when its line is scanned is the line (`Scanner.scan_spec`). It may hold something
else later: where the scanner needs room it moves what it has not scanned to the front of the buffer, over the lines
before it. In a stream that fits half of the buffer nothing is moved (`Roomy.scan_keeps`).
-/

namespace LineScanner

variable {α : Type}

/-! ### The scanner -/

/-- What is left of a stream. A read brings as many items as it finds room for, or one more than the next size. -/
structure Reader (α : Type) where
  unread : List α
  sizes : List ℕ

def Reader.read (r : Reader α) (room : ℕ) : List α × Reader α :=
  let n := min room ((r.sizes.head?.map (· + 1)).getD room)
  (r.unread.take n, ⟨r.unread.drop n, r.sizes.tail⟩)

structure Scanner (α : Type) where
  /-- The buffers before the one in use. -/
  outgrown : List (List α)
  buf : List α
  start : ℕ
  stop : ℕ
  reader : Reader α

/-- A part of a buffer. -/
structure Slice where
  block : ℕ
  lo : ℕ
  hi : ℕ
  deriving DecidableEq

/-- A part of a slice: some items behind its first ones. -/
def Slice.part (v : Slice) (skip len : ℕ) : Slice := ⟨v.block, v.lo + skip, v.lo + skip + len⟩

namespace Scanner

/-- What was read and is not scanned yet. -/
def pending (s : Scanner α) : List α := (s.buf.take s.stop).drop s.start

/-- All that is not scanned yet. -/
def remaining (s : Scanner α) : List α := s.pending ++ s.reader.unread

/-- What a slice holds. -/
def resolve (s : Scanner α) (v : Slice) : List α := (((s.outgrown ++ [s.buf]).getD v.block []).take v.hi).drop v.lo

/-- Where there is much room in front, or none behind, what is pending is moved to the front. -/
def shift (s : Scanner α) : Scanner α :=
  if 0 < s.start ∧ (s.stop = s.buf.length ∨ s.buf.length / 2 < s.start) then
    { s with buf := s.pending ++ s.buf.drop (s.stop - s.start), start := 0, stop := s.stop - s.start }
  else s

/-- A full buffer is replaced by one of twice its size, up to the limit; none where that is reached. -/
def grow [Inhabited α] (limit : ℕ) (s : Scanner α) : Option (Scanner α) :=
  if s.stop = s.buf.length then
    if limit ≤ s.buf.length then none
    else some { s with
      outgrown := s.outgrown ++ [s.buf]
      buf := s.pending ++ List.replicate (min (2 * s.buf.length) limit - s.pending.length) default
      start := 0
      stop := s.stop - s.start }
  else some s

def fill (s : Scanner α) : Scanner α :=
  let (items, r) := s.reader.read (s.buf.length - s.stop)
  { s with
    buf := s.buf.take s.stop ++ items ++ s.buf.drop (s.stop + items.length)
    stop := s.stop + items.length
    reader := r }

def refill [Inhabited α] (limit : ℕ) (s : Scanner α) : Option (Scanner α) := (s.shift.grow limit).map fill

/-- The next line, if there is one; none where it is too long. Each step reads once. -/
def scan [Inhabited α] [DecidableEq α] (sep : α) (limit : ℕ) : ℕ → Scanner α → Option (Option Slice × Scanner α)
  | 0, _ => none
  | n + 1, s =>
    if sep ∈ s.pending then
      let stop := s.start + s.pending.idxOf sep
      some (some ⟨s.outgrown.length, s.start, stop⟩, { s with start := stop + 1 })
    else
      match s.refill limit with
      | none => none
      | some t =>
        if s.reader.unread ≠ [] then scan sep limit n t
        else if t.pending = [] then some (none, t)
        -- the last line, without a separator
        else some (some ⟨t.outgrown.length, t.start, t.stop⟩, { t with start := t.stop })

end Scanner

/-! ### Lines -/

section Lines

variable {s t : Scanner α} {limit : ℕ}

/-- A slice of the buffer in use. -/
theorem resolve_current (s : Scanner α) (lo hi : ℕ) :
    s.resolve ⟨s.outgrown.length, lo, hi⟩ = (s.buf.take hi).drop lo := by
  rw [Scanner.resolve, List.getD_append_right _ _ _ _ le_rfl, Nat.sub_self]
  rfl

theorem resolve_part {v : Slice} {skip len : ℕ} (h : skip + len ≤ (s.resolve v).length) :
    s.resolve (v.part skip len) = ((s.resolve v).drop skip).take len := by
  have hresolve : ∀ w : Slice, s.resolve w = (((s.outgrown ++ [s.buf]).getD w.block []).take w.hi).drop w.lo :=
    fun _ => rfl
  rw [hresolve] at h ⊢
  rw [hresolve, Slice.part]
  generalize (s.outgrown ++ [s.buf]).getD v.block [] = block at *
  rw [List.length_drop, List.length_take] at h
  show (block.take (v.lo + skip + len)).drop (v.lo + skip) = (((block.take v.hi).drop v.lo).drop skip).take len
  rw [List.drop_take, List.drop_drop, List.drop_take, List.take_take, Nat.add_sub_cancel_left, min_eq_left (by omega)]

structure Fits (limit : ℕ) (s : Scanner α) : Prop where
  start_le : s.start ≤ s.stop
  stop_le : s.stop ≤ s.buf.length
  pos : 0 < s.buf.length
  le_limit : s.buf.length ≤ limit

theorem Fits.length_pending (h : Fits limit s) : s.pending.length = s.stop - s.start := by
  have hstop := h.stop_le
  rw [Scanner.pending, List.length_drop, List.length_take]
  omega

/-- What is pending stays so when it is moved, and then there is room in front or behind. -/
theorem Fits.shift (h : Fits limit s) : Fits limit s.shift ∧ s.shift.pending = s.pending ∧
    s.shift.reader = s.reader ∧ (s.shift.stop = s.shift.buf.length → s.shift.start = 0) := by
  have hlen := h.length_pending
  have hle := h.start_le
  have hstop := h.stop_le
  rw [Scanner.shift]
  by_cases hmove : 0 < s.start ∧ (s.stop = s.buf.length ∨ s.buf.length / 2 < s.start)
  · rw [if_pos hmove]
    -- the pending items go to the front; the buffer keeps its length
    have hbuf : (s.pending ++ s.buf.drop (s.stop - s.start)).length = s.buf.length := by
      rw [List.length_append, hlen, List.length_drop]
      omega
    refine ⟨⟨Nat.zero_le _, ?_, ?_, ?_⟩, ?_, rfl, fun _ => rfl⟩
    · show s.stop - s.start ≤ (s.pending ++ s.buf.drop (s.stop - s.start)).length
      omega
    · show 0 < (s.pending ++ s.buf.drop (s.stop - s.start)).length
      rw [hbuf]
      exact h.pos
    · show (s.pending ++ s.buf.drop (s.stop - s.start)).length ≤ limit
      rw [hbuf]
      exact h.le_limit
    · show ((s.pending ++ s.buf.drop (s.stop - s.start)).take (s.stop - s.start)).drop 0 = s.pending
      rw [List.drop_zero, ← hlen, List.take_left]
  · rw [if_neg hmove]
    -- nothing is moved, so a full buffer starts at its front
    refine ⟨h, rfl, rfl, fun hfull => ?_⟩
    by_contra hpos
    exact hmove ⟨Nat.pos_of_ne_zero hpos, .inl hfull⟩

theorem Fits.grow [Inhabited α] (h : Fits limit s) (hstart : s.stop = s.buf.length → s.start = 0) (hlt : s.pending.length < limit) :
    ∃ t, s.grow limit = some t ∧ Fits limit t ∧ t.pending = s.pending ∧ t.reader = s.reader ∧
      t.stop < t.buf.length := by
  have hlen := h.length_pending
  have hpos := h.pos
  have hlimit := h.le_limit
  rw [Scanner.grow]
  split
  · -- the buffer is full of pending items, fewer than the limit, so it may grow
    have hzero := hstart ‹_›
    have hroom : ¬ limit ≤ s.buf.length := by omega
    rw [if_neg hroom]
    have hbuf : (s.pending ++ List.replicate (min (2 * s.buf.length) limit - s.pending.length) default).length =
        min (2 * s.buf.length) limit := by
      rw [List.length_append, List.length_replicate]
      omega
    refine ⟨_, rfl, ⟨Nat.zero_le _, ?_, ?_, ?_⟩, ?_, rfl, ?_⟩
    · show s.stop - s.start ≤ (s.pending ++ _).length
      omega
    · show 0 < (s.pending ++ _).length
      omega
    · show (s.pending ++ _).length ≤ limit
      omega
    · show ((s.pending ++ _).take (s.stop - s.start)).drop 0 = s.pending
      rw [List.drop_zero, ← hlen, List.take_left]
    · show s.stop - s.start < (s.pending ++ _).length
      omega
  · -- there is room already
    have hstop := h.stop_le
    exact ⟨s, rfl, h, rfl, rfl, by omega⟩

/-- A read takes of the stream, and something if there is anything. -/
theorem Reader.read_spec (r : Reader α) {room : ℕ} (hroom : 0 < room) : r.unread = (r.read room).1 ++ (r.read room).2.unread ∧
    (r.read room).1.length ≤ room ∧ (r.unread ≠ [] → (r.read room).1 ≠ []) := by
  have hsize : 0 < min room ((r.sizes.head?.map (· + 1)).getD room) := by
    cases r.sizes with
    | nil => simpa using hroom
    | cons k ks =>
      show 0 < min room (k + 1)
      omega
  refine ⟨(List.take_append_drop _ _).symm, ?_, fun hne => ?_⟩
  · show (r.unread.take _).length ≤ room
    rw [List.length_take]
    omega
  · show r.unread.take _ ≠ []
    obtain ⟨a, as, has⟩ := List.exists_cons_of_ne_nil hne
    obtain ⟨n, hn⟩ := Nat.exists_eq_succ_of_ne_zero (Nat.pos_iff_ne_zero.mp hsize)
    rw [has, hn]
    exact List.cons_ne_nil _ _

/-- What is read stands behind what is pending, in a buffer of the same length. -/
structure Filled (s t : Scanner α) (items : List α) : Prop where
  start : t.start = s.start
  outgrown : t.outgrown = s.outgrown
  stop : t.stop = s.stop + items.length
  stop_le : t.stop ≤ s.buf.length
  length : t.buf.length = s.buf.length
  front : t.buf.take t.stop = s.buf.take s.stop ++ items
  unread : s.reader.unread = items ++ t.reader.unread
  items_ne_nil : s.reader.unread ≠ [] → items ≠ []

theorem filled_fill (hroom : s.stop < s.buf.length) : ∃ items, Filled s s.fill items := by
  obtain ⟨hunread, hle, hne⟩ := s.reader.read_spec (Nat.sub_pos_of_lt hroom)
  rw [Scanner.fill]
  generalize s.reader.read (s.buf.length - s.stop) = p at *
  obtain ⟨items, r⟩ := p
  replace hle : items.length ≤ s.buf.length - s.stop := hle
  have htake : (s.buf.take s.stop).length = s.stop := by
    rw [List.length_take]
    omega
  have hfront : (s.buf.take s.stop ++ items).length = s.stop + items.length := by rw [List.length_append, htake]
  refine ⟨items, rfl, rfl, rfl, ?_, ?_, ?_, hunread, hne⟩
  · show s.stop + items.length ≤ s.buf.length
    omega
  · show (s.buf.take s.stop ++ items ++ s.buf.drop (s.stop + items.length)).length = s.buf.length
    rw [List.length_append, hfront, List.length_drop]
    omega
  · show (s.buf.take s.stop ++ items ++ s.buf.drop (s.stop + items.length)).take (s.stop + items.length) =
      s.buf.take s.stop ++ items
    rw [← hfront, List.take_left]

theorem Fits.fill (h : Fits limit s) (hroom : s.stop < s.buf.length) : Fits limit s.fill ∧
    ∃ items, s.reader.unread = items ++ s.fill.reader.unread ∧ s.fill.pending = s.pending ++ items ∧
      (s.reader.unread ≠ [] → items ≠ []) := by
  obtain ⟨items, hfilled⟩ := filled_fill hroom
  have hstart := h.start_le
  refine ⟨⟨?_, ?_, ?_, ?_⟩, items, hfilled.unread, ?_, hfilled.items_ne_nil⟩
  · rw [hfilled.start, hfilled.stop]
    omega
  · rw [hfilled.length]
    exact hfilled.stop_le
  · rw [hfilled.length]
    exact h.pos
  · rw [hfilled.length]
    exact h.le_limit
  · have hlen : s.start ≤ (s.buf.take s.stop).length := by
      rw [List.length_take]
      omega
    rw [Scanner.pending, Scanner.pending, hfilled.front, hfilled.start, List.drop_append_of_le_length hlen]

variable [Inhabited α]

/-- A buffer is read into. -/
theorem Fits.refill (h : Fits limit s) (hlt : s.pending.length < limit) : ∃ t, s.refill limit = some t ∧ Fits limit t ∧
    ∃ items, s.reader.unread = items ++ t.reader.unread ∧ t.pending = s.pending ++ items ∧
      (s.reader.unread ≠ [] → items ≠ []) := by
  obtain ⟨hshift, hpending, hreader, hfull⟩ := h.shift
  obtain ⟨t, ht, hfits, hpending', hreader', hroom⟩ := hshift.grow hfull (by rwa [hpending])
  obtain ⟨hfill, items, hunread, hitems, hne⟩ := hfits.fill hroom
  rw [hpending', hpending] at hitems
  rw [hreader', hreader] at hunread hne
  refine ⟨t.fill, ?_, hfill, items, hunread, hitems, hne⟩
  rw [Scanner.refill, ht]
  rfl

/-- What is scanned of what remains: a line up to its separator, the last line, or nothing. -/
inductive Scanned (sep : α) (rest : List α) (t : Scanner α) : Option Slice → Prop
  | line (v : Slice) (h : rest = t.resolve v ++ sep :: t.remaining) (hsep : sep ∉ t.resolve v) :
    Scanned sep rest t (some v)
  | last (v : Slice) (h : rest = t.resolve v) (hne : rest ≠ []) (hsep : sep ∉ rest) (hend : t.remaining = []) :
    Scanned sep rest t (some v)
  | done (h : rest = []) (hend : t.remaining = []) : Scanned sep rest t none

/-- **The lines of a stream** are scanned, however it is read. -/
theorem Fits.scan [DecidableEq α] (sep : α) {n : ℕ} (h : Fits limit s) (hn : s.reader.unread.length < n) (hlt : s.remaining.length < limit) :
    ∃ o t, s.scan sep limit n = some (o, t) ∧ Fits limit t ∧ Scanned sep s.remaining t o := by
  induction n generalizing s with
  | zero => exact absurd hn (Nat.not_lt_zero _)
  | succ n ih =>
    have hlen := h.length_pending
    have hstop := h.stop_le
    rw [Scanner.scan]
    by_cases hsep : sep ∈ s.pending
    · -- the pending items hold a line, and the scan ends with it
      obtain ⟨l, rest, hl, hfirst⟩ := List.eq_append_cons_of_mem hsep
      have hidx : s.pending.idxOf sep = l.length := by
        rw [hl, List.idxOf_append_of_notMem hfirst, List.idxOf_cons_self, Nat.add_zero]
      rw [hl, List.length_append, List.length_cons] at hlen
      have hline : (s.buf.take (s.start + l.length)).drop s.start = l := by
        have htake : s.pending.take l.length = l := by rw [hl, List.take_left]
        rw [Scanner.pending, List.drop_take, List.take_take, min_eq_left (by omega)] at htake
        rw [List.drop_take, Nat.add_sub_cancel_left, htake]
      have hrest : (s.buf.take s.stop).drop (s.start + l.length + 1) = rest := by
        rw [Nat.add_assoc, ← List.drop_drop]
        show s.pending.drop (l.length + 1) = rest
        rw [hl, ← List.drop_drop, List.drop_left]
        rfl
      rw [if_pos hsep, hidx]
      refine ⟨_, _, rfl, ⟨?_, h.stop_le, h.pos, h.le_limit⟩, .line _ ?_ ?_⟩
      · show s.start + l.length + 1 ≤ s.stop
        omega
      · rw [resolve_current, hline]
        show s.pending ++ s.reader.unread = l ++ sep :: ((s.buf.take s.stop).drop (s.start + l.length + 1) ++ s.reader.unread)
        rw [hrest, hl, List.append_assoc, List.cons_append]
      · rw [resolve_current, hline]
        exact hfirst
    · rw [if_neg hsep]
      -- more is read; what remains to be scanned stays the same
      have hpending : s.pending.length < limit := by
        rw [Scanner.remaining, List.length_append] at hlt
        omega
      obtain ⟨t, ht, hfits, items, hunread, hitems, hne⟩ := h.refill hpending
      rw [ht]
      show ∃ o u, (if s.reader.unread ≠ [] then t.scan sep limit n else
        if t.pending = [] then some (none, t)
        else some (some ⟨t.outgrown.length, t.start, t.stop⟩, { t with start := t.stop })) = some (o, u) ∧ _
      have hremaining : t.remaining = s.remaining := by
        rw [Scanner.remaining, Scanner.remaining, hitems, hunread, List.append_assoc]
      by_cases hmore : s.reader.unread ≠ []
      · rw [if_pos hmore, ← hremaining]
        refine ih hfits ?_ (by rwa [hremaining])
        -- something was read, so less is unread
        have hpos := List.length_pos_iff.mpr (hne hmore)
        rw [hunread, List.length_append] at hn
        omega
      · rw [if_neg hmore]
        rw [not_not] at hmore
        rw [hmore] at hunread
        obtain ⟨hitem, hend⟩ := List.append_eq_nil_iff.mp hunread.symm
        -- nothing is left to read, so the last line is what is pending
        have hall : s.remaining = t.pending := by rw [← hremaining, Scanner.remaining, hend, List.append_nil]
        by_cases hempty : t.pending = []
        · rw [if_pos hempty]
          exact ⟨_, _, rfl, hfits, .done (hall.trans hempty) (hremaining.trans (hall.trans hempty))⟩
        · rw [if_neg hempty]
          refine ⟨_, _, rfl, ⟨le_rfl, hfits.stop_le, hfits.pos, hfits.le_limit⟩, .last _ ?_ (hall ▸ hempty) ?_ ?_⟩
          · rw [hall]
            exact (resolve_current t t.start t.stop).symm
          · rw [hall, hitems, hitem, List.append_nil]
            exact hsep
          · show (t.buf.take t.stop).drop t.stop ++ t.reader.unread = []
            rw [hend, List.append_nil, List.drop_eq_nil_iff, List.length_take]
            omega

end Lines

/-! ### Streams that fit half of the buffer -/

section Roomy

variable {s t : Scanner α} {limit : ℕ}

/-- All that is left of the stream fits the first half of the first buffer. -/
structure Roomy (s : Scanner α) : Prop where
  outgrown : s.outgrown = []
  start_le : s.start ≤ s.stop
  half : s.stop + s.reader.unread.length ≤ s.buf.length / 2
  pos : 0 < s.buf.length

/-- A later scanner of the same buffer holds what was read before. -/
structure Keeps (s t : Scanner α) : Prop where
  outgrown : t.outgrown = s.outgrown
  stop_le : s.stop ≤ t.stop
  take_eq : t.buf.take s.stop = s.buf.take s.stop

/-- A slice of what was read into the buffer in use. -/
structure Within (s : Scanner α) (v : Slice) : Prop where
  block : v.block = s.outgrown.length
  lo_le : v.lo ≤ v.hi
  hi_le : v.hi ≤ s.stop

theorem Keeps.trans {u : Scanner α} (h : Keeps s t) (h' : Keeps t u) : Keeps s u := by
  refine ⟨h'.outgrown.trans h.outgrown, h.stop_le.trans h'.stop_le, ?_⟩
  have htake := congrArg (List.take s.stop) h'.take_eq
  rw [List.take_take, List.take_take, min_eq_left h.stop_le] at htake
  exact htake.trans h.take_eq

theorem Keeps.within {v : Slice} (h : Keeps s t) (hv : Within s v) : Within t v :=
  ⟨hv.block.trans (by rw [h.outgrown]), hv.lo_le, hv.hi_le.trans h.stop_le⟩

theorem Within.part {v : Slice} {skip len : ℕ} (hv : Within s v) (h : skip + len ≤ (s.resolve v).length) :
    Within s (v.part skip len) := by
  have hlo := hv.lo_le
  have hhi := hv.hi_le
  rw [Scanner.resolve, List.length_drop, List.length_take] at h
  refine ⟨hv.block, ?_, ?_⟩
  · show v.lo + skip ≤ v.lo + skip + len
    omega
  · show v.lo + skip + len ≤ s.stop
    omega

theorem Keeps.resolve {v : Slice} (h : Keeps s t) (hv : Within s v) : t.resolve v = s.resolve v := by
  obtain ⟨block, lo, hi⟩ := v
  obtain ⟨rfl, hhi⟩ : block = s.outgrown.length ∧ hi ≤ s.stop := ⟨hv.block, hv.hi_le⟩
  have htake := congrArg (List.take hi) h.take_eq
  rw [List.take_take, List.take_take, min_eq_left hhi] at htake
  have hcurrent := resolve_current t lo hi
  rw [h.outgrown] at hcurrent
  rw [hcurrent, resolve_current, htake]

variable [Inhabited α]

theorem Roomy.refill (h : Roomy s) (limit : ℕ) : ∃ t, s.refill limit = some t ∧ Roomy t ∧ Keeps s t := by
  have hstart := h.start_le
  have hhalf := h.half
  have hpos := h.pos
  -- a buffer more than half empty is neither moved nor grown
  have hshift : s.shift = s := by
    rw [Scanner.shift, if_neg]
    rintro ⟨-, hfull | hlate⟩ <;> omega
  have hgrow : s.grow limit = some s := by
    rw [Scanner.grow, if_neg]
    omega
  obtain ⟨items, hfilled⟩ := filled_fill (show s.stop < s.buf.length by omega)
  have hstop := hfilled.stop
  rw [hfilled.unread, List.length_append] at hhalf
  refine ⟨s.fill, ?_, ⟨hfilled.outgrown.trans h.outgrown, ?_, ?_, ?_⟩, hfilled.outgrown, ?_, ?_⟩
  · rw [Scanner.refill, hshift, hgrow]
    rfl
  · rw [hfilled.start]
    omega
  · rw [hfilled.length]
    omega
  · rw [hfilled.length]
    exact h.pos
  · omega
  · -- what was pending is where it was
    have htake := congrArg (List.take s.stop) hfilled.front
    have hlen : s.stop ≤ (s.buf.take s.stop).length := by
      rw [List.length_take]
      omega
    rwa [List.take_take, min_eq_left (by omega), List.take_append_of_le_length hlen, List.take_take, min_self] at htake

variable [DecidableEq α] {sep : α}

/-- **A stream that fits half of the buffer**: the lines that were scanned stay where they are. -/
theorem Roomy.scan {n : ℕ} {o : Option Slice} (h : Roomy s) (hs : s.scan sep limit n = some (o, t)) :
    Roomy t ∧ Keeps s t ∧ ∀ v ∈ o, Within t v := by
  induction n generalizing s with
  | zero => cases hs
  | succ n ih =>
    rw [Scanner.scan] at hs
    by_cases hsep : sep ∈ s.pending
    · rw [if_pos hsep] at hs
      obtain ⟨rfl, rfl⟩ := Prod.mk.inj (Option.some.inj hs)
      -- the line is a part of the pending items
      have hlt := List.idxOf_lt_length_of_mem hsep
      rw [Scanner.pending, List.length_drop, List.length_take] at hlt
      change s.pending.idxOf sep < _ at hlt
      refine ⟨⟨h.outgrown, ?_, h.half, h.pos⟩, ⟨rfl, le_rfl, rfl⟩, ?_⟩
      · show s.start + s.pending.idxOf sep + 1 ≤ s.stop
        omega
      · rintro v ⟨⟩
        refine ⟨rfl, Nat.le_add_right _ _, ?_⟩
        show s.start + s.pending.idxOf sep ≤ s.stop
        omega
    · obtain ⟨u, hu, hroomy, hkeeps⟩ := h.refill limit
      rw [if_neg hsep, hu] at hs
      replace hs : (if s.reader.unread ≠ [] then u.scan sep limit n else
        if u.pending = [] then some (none, u)
        else some (some ⟨u.outgrown.length, u.start, u.stop⟩, { u with start := u.stop })) = some (o, t) := hs
      -- the scan goes on with the room that is left
      by_cases hmore : s.reader.unread ≠ []
      · rw [if_pos hmore] at hs
        obtain ⟨ht, hkeeps', hv⟩ := ih hroomy hs
        exact ⟨ht, hkeeps.trans hkeeps', hv⟩
      · rw [if_neg hmore] at hs
        by_cases hempty : u.pending = []
        · rw [if_pos hempty] at hs
          obtain ⟨rfl, rfl⟩ := Prod.mk.inj (Option.some.inj hs)
          exact ⟨hroomy, hkeeps, fun _ hv => nomatch hv⟩
        · rw [if_neg hempty] at hs
          obtain ⟨rfl, rfl⟩ := Prod.mk.inj (Option.some.inj hs)
          -- the last line ends where the buffer's items end
          refine ⟨⟨hroomy.outgrown, le_rfl, hroomy.half, hroomy.pos⟩, hkeeps.trans ⟨rfl, le_rfl, rfl⟩, ?_⟩
          rintro v ⟨⟩
          exact ⟨rfl, hroomy.start_le, le_rfl⟩

end Roomy

end LineScanner
