import Mathlib.Data.List.Infix
import Devrouter.Lib.LineScanner
import Devrouter.McpSource.Responses

/-!
# Event streams

Model of `parseRPCResponse` and `parseSSE` of `internal/mcpsource/transport.go`. The lines of a stream are slices of
the buffer of a scanner, and the data of an event is joined when the event ends: a line may be overwritten by then.
`parseRPCResponse_returns` says what is kept of a response in either kind of body.
-/

namespace Devrouter.McpSource

open Json LineScanner

/-! ### Events -/

def dataPrefix : Bytes := bytes "data:"

/-- The data of a line, if it is a line of data. -/
def lineData (line : Bytes) : Option Bytes :=
  if dataPrefix.isPrefixOf (Json.trimSpace line) then
    some (Json.trimSpace ((Json.trimSpace line).drop dataPrefix.length))
  else none

/-- The lines of data of an event, if it has any. -/
def endEvent {α : Type} (data : List α) : List (List α) := if data.isEmpty then [] else [data]

/-- The events of lines, each with its lines of data; an event has begun with some of them. -/
def eventsFrom (data : List Bytes) : List Bytes → List (List Bytes)
  | [] => endEvent data
  | l :: ls =>
    if Json.trimSpace l = [] then endEvent data ++ eventsFrom [] ls
    else eventsFrom (data ++ (lineData l).toList) ls

/-! ### The scanner -/

/-- The part of a line that is left when it is trimmed. -/
def trimSlice (s : Scanner UInt8) (v : Slice) : Slice :=
  v.part ((s.resolve v).length - (trimLeft (s.resolve v)).length) (Json.trimSpace (s.resolve v)).length

/-- The part of a trimmed line behind `data:`. -/
def dataSlice (s : Scanner UInt8) (v : Slice) : Slice :=
  trimSlice s (v.part dataPrefix.length ((s.resolve v).length - dataPrefix.length))

/-- The limit on a body, and on a line. -/
def bodyLimit : ℕ := 8 * 2 ^ 20

/-- A line of data: its slice, and what that holds when the line is scanned. -/
structure Datum where
  slice : Slice
  value : Bytes

def Datum.ofSlice (s : Scanner UInt8) (v : Slice) : Datum := ⟨v, s.resolve v⟩

@[simp] theorem Datum.slice_ofSlice (s : Scanner UInt8) (v : Slice) : (Datum.ofSlice s v).slice = v := rfl

@[simp] theorem Datum.value_ofSlice (s : Scanner UInt8) (v : Slice) : (Datum.ofSlice s v).value = s.resolve v := rfl

/-- A line of data when its event ends: what its slice holds, and what it held. -/
structure Flushed where
  found : Bytes
  value : Bytes
  deriving DecidableEq

def flush (s : Scanner UInt8) (data : List Datum) : List (List Flushed) :=
  endEvent (data.map fun d => ⟨s.resolve d.slice, d.value⟩)

/-- The loop of `parseSSE`, one scan a step: the events of what is left; none where a line is too long. -/
def scanEvents : ℕ → Scanner UInt8 → List Datum → Option (List (List Flushed))
  | 0, _, _ => none
  | n + 1, s, data =>
    match s.scan (byte '\n') bodyLimit (s.reader.unread.length + 1) with
    | none => none
    -- the body is at its end: what was collected is the last event
    | some (none, t) => some (flush t data)
    | some (some v, t) =>
      let trimmed := trimSlice t v
      -- a blank line ends the event, a data line is collected, and any other line is passed over
      if t.resolve trimmed = [] then (scanEvents n t []).map (flush t data ++ ·)
      else if dataPrefix.isPrefixOf (t.resolve trimmed) then
        scanEvents n t (data ++ [.ofSlice t (dataSlice t trimmed)])
      else scanEvents n t data

def newScanner (body : Bytes) (sizes : List ℕ) : Scanner UInt8 :=
  ⟨[], List.replicate (64 * 2 ^ 10) 0, 0, 0, ⟨body, sizes⟩⟩

/-- The events of a stream whose reads bring so many bytes. -/
def streamEvents (body : Bytes) (sizes : List ℕ) : Option (List (List Flushed)) :=
  scanEvents (body.length + 2) (newScanner body sizes) []

def parseSSE (body : Bytes) (sizes : List ℕ) (wantID : ℤ) : Except String RpcResponse :=
  (streamEvents body sizes).elim (.error "bufio.Scanner: token too long") fun events =>
    matchResponse (events.map fun e => joinLines (e.map Flushed.found)) wantID

def isEventStream (contentType : String) : Bool := decide ("text/event-stream".toList <:+: contentType.toList)

/-- `parseRPCResponse`, with the sizes of the reads of the body. -/
def parseRPCResponse (contentType : String) (body : Bytes) (sizes : List ℕ) (wantID : ℤ) :
    Except String RpcResponse :=
  let limited := body.take bodyLimit
  if isEventStream contentType then parseSSE limited sizes wantID else parseJSON limited wantID

/-! ### What the scanner finds -/

section Scanning

variable {s t : Scanner UInt8} {v : Slice} {line : Bytes} {data : List Datum}

theorem resolve_trimSlice (s : Scanner UInt8) (v : Slice) : s.resolve (trimSlice s v) = Json.trimSpace (s.resolve v) := by
  obtain ⟨hle, heq⟩ := trimSpace_eq (s.resolve v)
  rw [trimSlice, resolve_part hle, ← heq]

theorem resolve_dataSlice (h : dataPrefix <+: s.resolve v) :
    s.resolve (dataSlice s v) = Json.trimSpace ((s.resolve v).drop dataPrefix.length) := by
  have hle := h.length_le
  rw [dataSlice, resolve_trimSlice, resolve_part (by omega), List.take_of_length_le]
  rw [List.length_drop]

theorem map_endEvent {α β : Type} (f : α → β) (data : List α) :
    (endEvent data).map (·.map f) = endEvent (data.map f) := by
  cases data <;> rfl

theorem map_flush (s : Scanner UInt8) (data : List Datum) :
    (flush s data).map (·.map Flushed.value) = endEvent (data.map Datum.value) := by
  rw [flush, map_endEvent, List.map_map]
  rfl

theorem eventsFrom_blank (data : List Bytes) : eventsFrom data (splitLines []) = endEvent data := by
  have hblank : Json.trimSpace [] = [] := trimSpace_gap gap_nil
  show eventsFrom data [[]] = endEvent data
  rw [eventsFrom, if_pos hblank]
  exact List.append_nil _

/-- A line that is scanned, and the events of the rest. -/
theorem eventsFrom_scanned (h : Scanned (byte '\n') s.remaining t (some v)) (data : List Bytes) :
    t.remaining.length < s.remaining.length ∧ eventsFrom data (splitLines s.remaining) =
      if Json.trimSpace (t.resolve v) = [] then endEvent data ++ eventsFrom [] (splitLines t.remaining)
      else eventsFrom (data ++ (lineData (t.resolve v)).toList) (splitLines t.remaining) := by
  generalize s.remaining = rest at *
  cases h with
  | line _ h hsep =>
    subst h
    refine ⟨by rw [List.length_append, List.length_cons]; omega, ?_⟩
    have hlines : splitLines (t.resolve v ++ byte '\n' :: t.remaining) = t.resolve v :: splitLines t.remaining :=
      List.splitOn_append_cons_self_of_not_mem hsep _
    rw [hlines, eventsFrom]
  | last _ h hne hsep hend =>
    have hlines : splitLines rest = [rest] := List.splitOn_eq_singleton hsep
    rw [hend, eventsFrom_blank, eventsFrom_blank, hlines, eventsFrom, ← h]
    exact ⟨List.length_pos_iff.mpr hne, rfl⟩

/-- **The events of a stream** are found, however it is read. -/
theorem scanEvents_spec (data : List Datum) {n : ℕ} (hfits : LineScanner.Fits bodyLimit s)
    (hlt : s.remaining.length < bodyLimit) (hn : s.remaining.length + 1 < n) : ∃ events, scanEvents n s data = some events ∧
      events.map (·.map Flushed.value) = eventsFrom (data.map Datum.value) (splitLines s.remaining) := by
  induction n generalizing s data with
  | zero => exact absurd hn (Nat.not_lt_zero _)
  | succ n ih =>
    obtain ⟨o, t, hscan, hfits', hscanned⟩ := hfits.scan (byte '\n') (Nat.lt_succ_self _) hlt
    rw [scanEvents, hscan]
    cases o with
    | none =>
      -- the body is at its end, and what was collected is the last event
      refine ⟨_, rfl, ?_⟩
      have hrest : s.remaining = [] := by
        generalize s.remaining = rest at hscanned
        cases hscanned with
        | done h => exact h
      rw [hrest, eventsFrom_blank, map_flush]
    | some v =>
      obtain ⟨hless, hevents⟩ := eventsFrom_scanned hscanned (data.map Datum.value)
      have hrun : ∀ data', ∃ events, scanEvents n t data' = some events ∧
          events.map (·.map Flushed.value) = eventsFrom (data'.map Datum.value) (splitLines t.remaining) :=
        fun data' => ih data' hfits' (by omega) (by omega)
      rw [hevents]
      show ∃ events, (if t.resolve (trimSlice t v) = [] then (scanEvents n t []).map (flush t data ++ ·)
        else if dataPrefix.isPrefixOf (t.resolve (trimSlice t v)) then
          scanEvents n t (data ++ [.ofSlice t (dataSlice t (trimSlice t v))])
        else scanEvents n t data) = some events ∧ _
      have hline := resolve_trimSlice t v
      rw [← hline]
      -- a blank line ends the event
      by_cases hblank : t.resolve (trimSlice t v) = []
      · obtain ⟨events, hrest, hvalues⟩ := hrun []
        rw [if_pos hblank, if_pos hblank, hrest]
        refine ⟨_, rfl, ?_⟩
        rw [List.map_append, map_flush, hvalues]
        rfl
      · rw [if_neg hblank, if_neg hblank]
        -- a data line is collected, and any other line is passed over
        by_cases hdata : dataPrefix.isPrefixOf (t.resolve (trimSlice t v)) = true
        · rw [if_pos hdata]
          obtain ⟨events, hrest, hvalues⟩ := hrun (data ++ [.ofSlice t (dataSlice t (trimSlice t v))])
          refine ⟨events, hrest, ?_⟩
          have hslice := resolve_dataSlice (List.isPrefixOf_iff_prefix.mp hdata)
          rw [hvalues, List.map_append, List.map_cons, List.map_nil, Datum.value_ofSlice, lineData, ← hline,
            if_pos hdata, ← hslice, Option.toList_some]
        · rw [if_neg hdata]
          obtain ⟨events, hrest, hvalues⟩ := hrun data
          refine ⟨events, hrest, ?_⟩
          rw [hvalues, lineData, ← hline, if_neg hdata]
          exact congrArg (eventsFrom · _) (List.append_nil _).symm

/-- In a stream that fits half of the buffer the lines of data stay what they are. -/
theorem scanEvents_intact {n : ℕ} {events : List (List Flushed)} (h : Roomy s)
    (hdata : ∀ d ∈ data, Within s d.slice ∧ s.resolve d.slice = d.value) (hrun : scanEvents n s data = some events) :
    ∀ e ∈ events, ∀ f ∈ e, f.found = f.value := by
  induction n generalizing s data events with
  | zero => cases hrun
  | succ n ih =>
    rw [scanEvents] at hrun
    cases hscan : s.scan (byte '\n') bodyLimit (s.reader.unread.length + 1) with
    | none =>
      rw [hscan] at hrun
      cases hrun
    | some p =>
      obtain ⟨o, t⟩ := p
      obtain ⟨hroomy, hkeeps, hwithin⟩ := h.scan hscan
      -- what was collected stays where it was, as the scan leaves the buffer alone
      have hdata' : ∀ d ∈ data, Within t d.slice ∧ t.resolve d.slice = d.value := by
        intro d hd
        obtain ⟨hslice, hvalue⟩ := hdata d hd
        exact ⟨hkeeps.within hslice, (hkeeps.resolve hslice).trans hvalue⟩
      have hflush : ∀ e ∈ flush t data, ∀ f ∈ e, f.found = f.value := by
        intro e he f hf
        rw [flush, endEvent] at he
        split at he
        · cases he
        · obtain rfl := List.mem_singleton.mp he
          obtain ⟨d, hd, rfl⟩ := List.mem_map.mp hf
          exact (hdata' d hd).2
      rw [hscan] at hrun
      cases o with
      | none =>
        obtain rfl := Option.some.inj hrun
        exact hflush
      | some v =>
        replace hrun : (if t.resolve (trimSlice t v) = [] then (scanEvents n t []).map (flush t data ++ ·)
          else if dataPrefix.isPrefixOf (t.resolve (trimSlice t v)) then
            scanEvents n t (data ++ [.ofSlice t (dataSlice t (trimSlice t v))])
          else scanEvents n t data) = some events := hrun
        by_cases hblank : t.resolve (trimSlice t v) = []
        · rw [if_pos hblank] at hrun
          obtain ⟨rest, hrest, rfl⟩ := Option.map_eq_some_iff.mp hrun
          have hempty : ∀ d ∈ ([] : List Datum), Within t d.slice ∧ t.resolve d.slice = d.value :=
            fun d hd => absurd hd List.not_mem_nil
          intro e he
          exact (List.mem_append.mp he).elim (hflush e) (ih hroomy hempty hrest e)
        · rw [if_neg hblank] at hrun
          by_cases hdatum : dataPrefix.isPrefixOf (t.resolve (trimSlice t v)) = true
          · rw [if_pos hdatum] at hrun
            -- the data of a line is a part of the line
            have htrim : Within t (trimSlice t v) := (hwithin v rfl).part (trimSpace_eq _).1
            have hle := (List.isPrefixOf_iff_prefix.mp hdatum).length_le
            have hslice : Within t (dataSlice t (trimSlice t v)) :=
              (htrim.part (by omega)).part (trimSpace_eq _).1
            refine ih hroomy (fun d hd => ?_) hrun
            obtain hd | hd := List.mem_append.mp hd
            · exact hdata' d hd
            · obtain rfl := List.mem_singleton.mp hd
              rw [Datum.slice_ofSlice, Datum.value_ofSlice]
              exact ⟨hslice, rfl⟩
          · rw [if_neg hdatum] at hrun
            exact ih hroomy hdata' hrun

end Scanning

/-! ### Streams -/

section Streams

variable {body : Bytes} {sizes : List ℕ} {wantID : ℤ}

/-- No line of data is overwritten before its event ends. -/
def Intact (body : Bytes) (sizes : List ℕ) : Prop :=
  ∀ events, streamEvents body sizes = some events → ∀ e ∈ events, ∀ f ∈ e, f.found = f.value

theorem newScanner_length (body : Bytes) (sizes : List ℕ) : (newScanner body sizes).buf.length = 64 * 2 ^ 10 :=
  List.length_replicate

theorem newScanner_remaining (body : Bytes) (sizes : List ℕ) : (newScanner body sizes).remaining = body := by
  rw [Scanner.remaining, Scanner.pending, newScanner, List.take_zero, List.drop_nil, List.nil_append]

theorem intact_of_length_le (h : body.length ≤ 32 * 2 ^ 10) (sizes : List ℕ) : Intact body sizes := by
  intro events hrun
  have hlen := newScanner_length body sizes
  have hroomy : Roomy (newScanner body sizes) := by
    refine ⟨rfl, le_rfl, ?_, ?_⟩
    · show 0 + body.length ≤ (newScanner body sizes).buf.length / 2
      omega
    · omega
  exact scanEvents_intact hroomy (fun d hd => absurd hd List.not_mem_nil) hrun

/-- The candidates of a stream are its events. -/
theorem parseSSE_eq (hlt : body.length < bodyLimit) (h : Intact body sizes) :
    parseSSE body sizes wantID = matchResponse ((eventsFrom [] (splitLines body)).map joinLines) wantID := by
  have hlen := newScanner_length body sizes
  have hlimit : bodyLimit = 8 * 2 ^ 20 := rfl
  have hfits : LineScanner.Fits bodyLimit (newScanner body sizes) := ⟨le_rfl, Nat.zero_le _, by omega, by omega⟩
  have hremaining := newScanner_remaining body sizes
  have hspec : ∃ events, streamEvents body sizes = some events ∧
      events.map (·.map Flushed.value) = eventsFrom [] (splitLines body) := by
    rw [← hremaining] at hlt
    have hscan := scanEvents_spec [] (n := body.length + 2) hfits hlt (by rw [hremaining]; omega)
    rw [hremaining] at hscan
    exact hscan
  obtain ⟨events, hrun, hvalues⟩ := hspec
  have hfound : events.map (fun e => joinLines (e.map Flushed.found)) =
      (events.map (·.map Flushed.value)).map joinLines := by
    rw [List.map_map]
    refine List.map_congr_left fun e he => congrArg joinLines ?_
    exact List.map_congr_left (h events hrun e he)
  rw [parseSSE, hrun, Option.elim_some, hfound, hvalues]

/-- A line that is neither blank nor has data: another field, or a comment. -/
def OtherLine (l : Bytes) : Prop := ∃ b t, l = b :: t ∧ isSolid b = true ∧ ¬ dataPrefix <+: l

/-- The lines of an event whose data are these lines: each behind `data:`, with white space around it, and other
lines among them. -/
inductive Framed : List Bytes → List Bytes → Prop
  | nil : Framed [] []
  | data {g l g' : Bytes} {ts ls : List Bytes} (hg : Gap g) (hg' : Gap g') (h : Framed ts ls) :
    Framed (l :: ts) ((dataPrefix ++ (g ++ (l ++ g'))) :: ls)
  | other {l : Bytes} {ts ls : List Bytes} (hl : OtherLine l) (h : Framed ts ls) : Framed ts (l :: ls)

/-- Lines up to the end of an event, or none. -/
def Ended (before : List Bytes) : Prop := ∀ l ∈ before.getLast?, Json.trimSpace l = []

/-- Lines that begin with the end of an event, or none. -/
def Ends (after : List Bytes) : Prop := ∀ l ∈ after.head?, Json.trimSpace l = []

theorem eventsFrom_ended {before : List Bytes} (h : Ended before) (rest : List Bytes) :
    eventsFrom [] (before ++ rest) = eventsFrom [] before ++ eventsFrom [] rest := by
  -- a blank line ends the event that is being collected, so nothing of it is carried on
  have hrun : ∀ (ls : List Bytes) (data : List Bytes) {l : Bytes}, Json.trimSpace l = [] →
      eventsFrom data (ls ++ [l] ++ rest) = eventsFrom data (ls ++ [l]) ++ eventsFrom [] rest := by
    intro ls
    induction ls with
    | nil =>
      intro data l hl
      show eventsFrom data (l :: rest) = eventsFrom data [l] ++ _
      rw [eventsFrom, if_pos hl, eventsFrom, if_pos hl]
      exact congrArg (· ++ _) (List.append_nil _).symm
    | cons m ls ih =>
      intro data l hl
      show eventsFrom data (m :: (ls ++ [l] ++ rest)) = eventsFrom data (m :: (ls ++ [l])) ++ _
      rw [eventsFrom, eventsFrom]
      split
      · rw [ih [] hl, List.append_assoc]
      · exact ih _ hl
  rcases List.eq_nil_or_concat before with rfl | ⟨ls, l, rfl⟩
  · rfl
  · rw [List.concat_eq_append] at h ⊢
    exact hrun ls [] (h l List.getLast?_concat)

/-- The data of a line are trimmed. -/
def TrimsAlike (l : Bytes) : Prop :=
  ∀ g g', Gap g → Gap g' → Json.trimSpace (trimRight (g ++ (l ++ g'))) = Json.trimSpace l

theorem dataPrefix_eq : dataPrefix = bytes "data" ++ [byte ':'] := rfl

theorem trimSpace_dataPrefix (x : Bytes) : Json.trimSpace (dataPrefix ++ x) = dataPrefix ++ trimRight x := by
  have htext : dataPrefix ++ x = [] ++ byte 'd' :: (bytes "ata:" ++ x) := rfl
  have hend : byte 'd' :: (bytes "ata:" ++ x) = bytes "data" ++ byte ':' :: x := rfl
  rw [htext, trimSpace_append gap_nil (by decide), hend, trimRight_append (by decide), dataPrefix_eq, List.append_assoc]
  rfl

theorem lineData_data {g l g' : Bytes} (hl : TrimsAlike l) (hg : Gap g) (hg' : Gap g') :
    lineData (dataPrefix ++ (g ++ (l ++ g'))) = some (Json.trimSpace l) := by
  rw [lineData, trimSpace_dataPrefix, if_pos (List.isPrefixOf_iff_prefix.mpr (List.prefix_append _ _)),
    List.drop_left, hl g g' hg hg']

theorem OtherLine.lineData_eq {l : Bytes} (h : OtherLine l) : Json.trimSpace l ≠ [] ∧ lineData l = none := by
  obtain ⟨b, t, rfl, hb, hdata⟩ := h
  have htrim : Json.trimSpace (b :: t) = b :: trimRight t := by
    have hleft := trimSpace_append gap_nil hb t
    rw [List.nil_append] at hleft
    rw [hleft]
    exact trimRight_append hb [] t
  rw [htrim, lineData, htrim, if_neg]
  · exact ⟨List.cons_ne_nil _ _, rfl⟩
  · intro hif
    have hpre : dataPrefix <+: b :: trimRight t := List.isPrefixOf_iff_prefix.mp hif
    exact hdata (hpre.trans ((List.prefix_cons_inj b).mpr (isPrefix_trimRight t)))

/-- The data of a framed event. -/
theorem Framed.eventsFrom_eq {ts ls after : List Bytes} (h : Framed ts ls) (hts : ∀ l ∈ ts, TrimsAlike l)
    (data : List Bytes) : eventsFrom data (ls ++ after) = eventsFrom (data ++ ts.map Json.trimSpace) after := by
  induction h generalizing data with
  | nil => rw [List.map_nil, List.append_nil, List.nil_append]
  | @data g l g' ts ls hg hg' h ih =>
    obtain ⟨hl, hts⟩ := List.forall_mem_cons.mp hts
    have hne : Json.trimSpace (dataPrefix ++ (g ++ (l ++ g'))) ≠ [] := by
      rw [trimSpace_dataPrefix]
      exact List.cons_ne_nil _ _
    rw [List.cons_append, eventsFrom, if_neg hne, lineData_data hl hg hg', ih hts, List.map_cons]
    exact congrArg (eventsFrom · after) (List.append_assoc data [Json.trimSpace l] _)
  | other hl h ih =>
    obtain ⟨hne, hnone⟩ := hl.lineData_eq
    rw [List.cons_append, eventsFrom, if_neg hne, hnone, ih hts]
    exact congrArg (eventsFrom · after) (congrArg (· ++ _) (List.append_nil data))

/-- The lines of a text of JSON are trimmed alike. -/
theorem Laid.trimsAlike {toks : List Bytes} {v g g' : Bytes} (h : Laid toks v) (hg : Gap g) (hg' : Gap g') :
    ∀ l ∈ splitLines (g ++ v ++ g'), TrimsAlike l := by
  have hempty : trimRight [] = [] := trimRight_gap gap_nil
  refine h.forall_lines (Q := fun l => ∀ g', Gap g' → trimRight (trimRight (l ++ g')) = trimRight l) ?_ ?_ hg hg'
  · intro u hu
    constructor
    · intro a a' ha ha'
      rw [trimRight_gap (ha.append (hu.append ha')), trimSpace_gap gap_nil, trimSpace_gap hu]
    · intro a ha
      rw [trimRight_gap (hu.append ha), hempty, trimRight_gap hu]
  · intro u tok l hu htok hl
    constructor
    · intro a a' ha ha'
      have htext : a ++ (u ++ (tok ++ l) ++ a') = (a ++ u) ++ (tok ++ (l ++ a')) := by simp only [List.append_assoc]
      rw [htext, htok.trimRight_append, List.append_assoc, htok.trimSpace_append (ha.append hu), hl a' ha',
        htok.trimSpace_append hu]
    · intro a ha
      have htext : u ++ (tok ++ l) ++ a = u ++ (tok ++ (l ++ a)) := by simp only [List.append_assoc]
      rw [htext, htok.trimRight_append, List.append_assoc, htok.trimRight_append, hl a ha, htok.trimRight_append]

/-- An event whose data are a response is a candidate that decodes to it. -/
theorem decode_framed {text : Bytes} {r : RpcResponse} {event after : List Bytes} (htext : IsText text r)
    (h : Framed (splitLines text) event) (hafter : Ends after) : ∃ r' rest,
      eventsFrom [] (event ++ after) = (splitLines text).map Json.trimSpace :: rest ∧
        decode (relines text) = some r' ∧ r.Alike (maxNestingDepth - 1) r' := by
  -- the text is laid anew over the lines of the event, with the same tokens
  obtain ⟨g, v, g', toks, hg, hg', rfl, hlaid, hread⟩ := decode_relaid htext
  obtain ⟨u, v', u', hu, hv', hu', hlines⟩ := relines_laid hlaid hg hg'
  obtain ⟨r', hr', halike⟩ := hread v' hv' u u' hu hu'
  have hne : (splitLines (g ++ v ++ g')).map Json.trimSpace ≠ [] := by
    rw [Ne, List.map_eq_nil_iff]
    exact List.splitOn_ne_nil _ _
  have hend : endEvent ((splitLines (g ++ v ++ g')).map Json.trimSpace) =
      [(splitLines (g ++ v ++ g')).map Json.trimSpace] := by
    rw [endEvent, if_neg]
    rwa [List.isEmpty_iff]
  have hevents : eventsFrom [] (event ++ after) =
      eventsFrom ((splitLines (g ++ v ++ g')).map Json.trimSpace) after := h.eventsFrom_eq (Laid.trimsAlike hlaid hg hg') []
  rw [hlines, hr', hevents]
  cases after with
  | nil => exact ⟨r', [], hend, rfl, halike⟩
  | cons l after =>
    -- the event is ended by a blank line, or by the end of the body
    have hblank := hafter l rfl
    refine ⟨r', eventsFrom [] after, ?_, rfl, halike⟩
    rw [eventsFrom, if_pos hblank, hend]
    rfl

/-- **Responses are parsed whatever the layout**, but for a body of type `application/json` with a line break in its
text, of which no line is the response, and for a stream whose lines are overwritten before their event ends. A body
with no response is an error. -/
theorem parseRPCResponse_returns (contentType : String) (body : Bytes) (sizes : List ℕ) (wantID : ℤ) :
    (isEventStream contentType = false → body.length ≤ bodyLimit →
      (∀ r, IsText body r → idMatches r.id wantID = true →
        (Returns (parseRPCResponse contentType body sizes wantID) r ↔ OneLine body ∨ LineReturns wantID body r)) ∧
      ((∃ e, parseRPCResponse contentType body sizes wantID = .error e) ↔ ∀ l ∈ splitLines body, decode l = none)) ∧
    (isEventStream contentType = true → body.length < bodyLimit → Intact body sizes →
      (∀ text r before event after, splitLines body = before ++ (event ++ after) → Ended before → Ends after →
        Framed (splitLines text) event → IsText text r → idMatches r.id wantID = true →
        (∀ e ∈ eventsFrom [] before, ¬ Answers wantID (joinLines e)) →
        Returns (parseRPCResponse contentType body sizes wantID) r) ∧
      ((∃ e, parseRPCResponse contentType body sizes wantID = .error e) ↔
        ∀ e ∈ eventsFrom [] (splitLines body), decode (joinLines e) = none)) := by
  constructor
  · -- a JSON body is read line by line
    intro hkind hle
    have hparse : parseRPCResponse contentType body sizes wantID = parseJSON body wantID := by
      simp only [parseRPCResponse, hkind, List.take_of_length_le hle, Bool.false_eq_true, if_false]
    rw [hparse]
    exact ⟨fun r hbody hid => parseJSON_returns_iff hbody hid, matchResponse_error_iff⟩
  · -- an event stream is read event by event
    intro hkind hlt hintact
    have hparse : parseRPCResponse contentType body sizes wantID =
        matchResponse ((eventsFrom [] (splitLines body)).map joinLines) wantID := by
      simp only [parseRPCResponse, hkind, List.take_of_length_le hlt.le, if_true]
      exact parseSSE_eq hlt hintact
    rw [hparse]
    refine ⟨fun text r before event after hlines hbefore hafter hframed htext hid hother => ?_, ?_⟩
    · -- the event's data is the response's text laid anew
      obtain ⟨r', rest, hevents, hr', halike⟩ := decode_framed htext hframed hafter
      have hsame := halike.same hid
      have hcandidates : (eventsFrom [] (splitLines body)).map joinLines =
          (eventsFrom [] before).map joinLines ++ relines text :: rest.map joinLines := by
        rw [hlines, eventsFrom_ended hbefore, hevents, List.map_append, List.map_cons]
        rfl
      -- none of the events before it answers
      have hnone : ∀ c ∈ (eventsFrom [] before).map joinLines, ¬ Answers wantID c := List.forall_mem_map.mpr hother
      refine ⟨r', ?_, hsame⟩
      rw [matchResponse, hcandidates, matchFrom_answer hnone hr' (hsame.id ▸ hid)]
    · rw [matchResponse_error_iff, List.forall_mem_map]

/-- A response on two lines. -/
def twoLines : Bytes := bytes "\x7b\n\"jsonrpc\":\"2.0\",\"id\":1,\"result\":[]\x7d"

def twoLinesResponse : RpcResponse := ⟨"2.0", bytes "1", some (bytes "[]"), none⟩

theorem twoLines_isText : IsText twoLines twoLinesResponse ∧ idMatches twoLinesResponse.id 1 = true := by
  refine ⟨⟨?_, rfl⟩, ?_⟩ <;> decide +kernel

/-- The two lines as the data of an event. -/
def twoLinesEvent : List Bytes := (splitLines twoLines).map fun l => dataPrefix ++ (bytes " " ++ (l ++ []))

theorem parseRPCResponse_returns_twoLines :
    Returns (parseRPCResponse "text/event-stream" (joinLines (twoLinesEvent ++ [[]])) [] 1) twoLinesResponse := by
  have hspace : ∀ b ∈ bytes " ", isSpaceByte b = true := by decide +kernel
  have hframed : ∀ ls : List Bytes, Framed ls (ls.map fun l => dataPrefix ++ (bytes " " ++ (l ++ []))) := by
    intro ls
    induction ls with
    | nil => exact .nil
    | cons l ls ih => exact .data hspace gap_nil ih
  have hlines : splitLines (joinLines (twoLinesEvent ++ [[]])) = [] ++ (twoLinesEvent ++ [[]]) := by decide +kernel
  have hlength : (joinLines (twoLinesEvent ++ [[]])).length ≤ 32 * 2 ^ 10 := by decide +kernel
  have hlimit : bodyLimit = 8 * 2 ^ 20 := rfl
  have hends : Ends [[]] := by
    rintro l ⟨⟩
    exact trimSpace_gap gap_nil
  exact ((parseRPCResponse_returns "text/event-stream" (joinLines (twoLinesEvent ++ [[]])) [] 1).2 (by decide +kernel)
    (by omega) (intact_of_length_le hlength [])).1 twoLines twoLinesResponse [] twoLinesEvent [[]] hlines
    (fun _ hl => nomatch hl) hends (hframed _) twoLines_isText.1 twoLines_isText.2 (fun _ he => nomatch he)

/-- As a body of type `application/json` the two lines are an error. -/
theorem twoLines_not_returned : IsText twoLines twoLinesResponse ∧ idMatches twoLinesResponse.id 1 = true ∧
    parseRPCResponse "application/json" twoLines [] 1 = .error "no JSON-RPC response found" := by
  refine ⟨twoLines_isText.1, twoLines_isText.2, ?_⟩
  decide +kernel

end Streams

end Devrouter.McpSource
