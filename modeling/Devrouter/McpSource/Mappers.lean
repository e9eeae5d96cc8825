import Devrouter.Lib.JsonFirst

/-!
# Tool results and documents

Model of `extractText` of `internal/mcpsource/transport.go` and of `genericMapper` of `internal/mcpsource/mappers.go`,
with what they call. Strings are bytes: a document's content may be cut inside of a rune. Numbers are kept as they
stand (`UseNumber`), so no value is a `float64`.

`genericMapper_documents` says when every object of a result becomes a document, and when what is no recognised object
becomes one.
-/

namespace Devrouter.McpSource

open Json

/-! ### Tool results -/

structure TextBlock where
  type : String
  text : String
  deriving DecidableEq

/-- A slice of blocks, with the cells of its array that were ever set. -/
structure TextBlocks where
  cells : List TextBlock
  len : ℕ
  deriving DecidableEq

def TextBlocks.blocks (b : TextBlocks) : List TextBlock := b.cells.take b.len

/-- A field that is missing has no bytes. -/
structure ToolCallResult where
  content : TextBlocks
  structuredContent : Bytes
  isError : Bool
  deriving DecidableEq

def TextBlock.setField (b : TextBlock) (m : Member) : Option TextBlock :=
  if isField "type" m.key then (intoString b.type m.value).map fun v => { b with type := v }
  else if isField "text" m.key then (intoString b.text m.value).map fun v => { b with text := v }
  else some b

def intoBlock (old : TextBlock) (value : Bytes) : Option TextBlock :=
  if isNull value then some old else (membersOf value).bind fun ms => ms.foldlM TextBlock.setField old

/-- The elements are decoded into the cells that are there. -/
def intoCells : List TextBlock → List Bytes → Option (List TextBlock)
  | cells, [] => some cells
  | [], v :: vs => do
    let b ← intoBlock ⟨"", ""⟩ v
    let bs ← intoCells [] vs
    return b :: bs
  | c :: cells, v :: vs => do
    let b ← intoBlock c v
    let bs ← intoCells cells vs
    return b :: bs

def intoBlocks (old : TextBlocks) (value : Bytes) : Option TextBlocks :=
  if isNull value then some ⟨[], 0⟩
  else (elementsOf value).bind fun vs =>
    if vs = [] then some ⟨[], 0⟩ else (intoCells old.cells vs).map fun cells => ⟨cells, vs.length⟩

def intoBool (old : Bool) (value : Bytes) : Option Bool :=
  if isNull value then some old
  else if value = bytes "true" then some true
  else if value = bytes "false" then some false
  else none

def ToolCallResult.setField (tc : ToolCallResult) (m : Member) : Option ToolCallResult :=
  if isField "content" m.key then (intoBlocks tc.content m.value).map fun v => { tc with content := v }
  else if isField "structuredContent" m.key then some { tc with structuredContent := m.value }
  else if isField "isError" m.key then (intoBool tc.isError m.value).map fun v => { tc with isError := v }
  else some tc

/-- `json.Unmarshal` into a `toolCallResult`; none when it fails. -/
def unmarshalToolCall (result : Bytes) : Option ToolCallResult := do
  let value ← wholeValue result
  if isNull value then return ⟨⟨[], 0⟩, [], false⟩
  let members ← membersOf value
  members.foldlM ToolCallResult.setField ⟨⟨[], 0⟩, [], false⟩

def isJSONNull (raw : Bytes) : Bool := Json.trimSpace raw = bytes "null"

/-- The text of the blocks that have any, with line breaks between. -/
def joinTexts (blocks : List TextBlock) : Bytes :=
  blocks.foldl (fun sb c =>
    if c.text = "" then sb
    else if sb = [] then utf8 c.text
    else sb ++ byte '\n' :: utf8 c.text) []

def extractText (result : Bytes) : Bytes :=
  match unmarshalToolCall result with
  | none => result
  | some tc =>
    if tc.structuredContent ≠ [] ∧ isJSONNull tc.structuredContent = false then tc.structuredContent
    else if tc.content.blocks = [] then result
    else joinTexts tc.content.blocks

/-! ### Documents -/

structure DocEntry where
  source : Bytes
  id : Bytes
  title : Bytes
  collection : Bytes
  url : Bytes
  content : Bytes
  deriving DecidableEq

def maxDocContent : ℕ := 4000

def clip (s : Bytes) (n : ℕ) : Bytes :=
  if (Json.trimSpace s).length ≤ n then Json.trimSpace s else (Json.trimSpace s).take n ++ utf8 "…"

def containerKeys : List String :=
  ["items", "results", "data", "documents", "docs", "issues", "merge_requests", "nodes", "sections", "hits", "matches"]

def idAliases : List String := ["id", "iid", "doc_id", "key", "number"]

def titleAliases : List String := ["title", "name", "summary", "heading", "doc_name"]

def urlAliases : List String := ["url", "web_url", "html_url", "link", "permalink"]

def collAliases : List String := ["collection", "project", "list", "repository", "namespace"]

def contentAliases : List String := ["content", "description", "body", "text", "snippet", "excerpt"]

/-- An object: the members of a `map[string]any`. -/
abbrev Item := List Member

/-- Strings are trimmed, numbers and booleans stay; anything else has no text. -/
def anyToString (v : Bytes) : Bytes :=
  match v with
  | [] => []
  | b :: rest =>
    if b = byte '"' then Json.trimSpace (utf8 (unquote rest))
    else if isNull v ∨ b = byte '[' ∨ b = byte '\x7b' then []
    else v

def firstString (it : Item) (keys : List String) : Bytes :=
  (keys.findSome? fun k => ((lookup it k).map anyToString).filter fun s => decide (s ≠ [])).getD []

def nestedString (it : Item) (outer inner : String) : Bytes :=
  (((lookup it outer).bind membersOf).bind fun sub => (lookup sub inner).map anyToString).getD []

/-- The content of the sections that have any, with blank lines between. -/
def joinSections (it : Item) : Bytes :=
  (((lookup it "sections").bind elementsOf).getD []).foldl (fun sb e =>
    match membersOf e with
    | none => sb
    | some sec =>
      let c := ((lookup sec "content").map anyToString).getD []
      if c = [] then sb
      else if sb = [] then c
      else sb ++ bytes "\n\n" ++ c) []

def itemToDoc (it : Item) : DocEntry :=
  let collection := firstString it collAliases
  let content := firstString it contentAliases
  { source := []
    id := firstString it idAliases
    title := firstString it titleAliases
    url := firstString it urlAliases
    collection := if collection = [] then nestedString it "references" "full" else collection
    content := clip (if content = [] then joinSections it else content) maxDocContent }

/-- A value as a slice of objects; a `null` is no elements, or an object without members. -/
def asMaps (value : Bytes) : Option (List Item) :=
  if isNull value then some []
  else (elementsOf value).bind fun vs => vs.mapM fun v => if isNull v then some [] else membersOf v

/-- The objects under the first of the container keys that has any. -/
def containerItems (obj : Item) : Option (List Item) :=
  containerKeys.findSome? fun key => ((lookup obj key).bind asMaps).filter fun arr => decide (arr ≠ [])

def extractItems (raw : Bytes) : Option (List Item) :=
  match Json.trimSpace raw with
  | [] => none
  | b :: t =>
    if b = byte '[' then (firstValue (b :: t)).bind asMaps
    else if b = byte '\x7b' then ((firstValue (b :: t)).bind membersOf).map fun obj => (containerItems obj).getD [obj]
    else none

/-- A document with a title, a content or a URL. -/
def DocEntry.Recognised (d : DocEntry) : Prop := ¬ (d.title = [] ∧ d.content = [] ∧ d.url = [])

instance (d : DocEntry) : Decidable d.Recognised := inferInstanceAs (Decidable (¬ _))

def plainDoc (text : Bytes) : DocEntry := ⟨[], [], [], [], [], clip text maxDocContent⟩

def genericMapper (text : Bytes) : List DocEntry :=
  let text := Json.trimSpace text
  if text = [] then []
  else match extractItems text with
    | none => [plainDoc text]
    | some items => (items.map itemToDoc).filter fun d => decide d.Recognised

/-! ### What becomes of a text -/

section Texts

variable {text v rest : Bytes} {obj : Item} {objs items : List Item}

/-- The documents of the objects that have any. -/
def mapped (items : List Item) : List DocEntry := (items.map itemToDoc).filter fun d => decide d.Recognised

theorem mapped_of_recognised (h : ∀ o ∈ objs, (itemToDoc o).Recognised) : mapped objs = objs.map itemToDoc := by
  rw [mapped, List.filter_eq_self]
  intro d hd
  obtain ⟨o, ho, rfl⟩ := List.mem_map.mp hd
  exact decide_eq_true (h o ho)

theorem mapped_eq_nil_iff : mapped items = [] ↔ ∀ it ∈ items, ¬ (itemToDoc it).Recognised := by
  simp [mapped, List.filter_eq_nil_iff]

theorem genericMapper_of_items (hne : Json.trimSpace text ≠ []) (h : extractItems (Json.trimSpace text) = some items) :
    genericMapper text = mapped items := by
  unfold genericMapper
  simp only [if_neg hne, h]
  rfl

theorem genericMapper_of_none (hne : Json.trimSpace text ≠ []) (h : extractItems (Json.trimSpace text) = none) :
    genericMapper text = [plainDoc (Json.trimSpace text)] := by
  unfold genericMapper
  simp only [if_neg hne, h]

theorem membersOf_head (h : membersOf v = some obj) : ∃ s, v = byte '\x7b' :: s := by
  cases v with
  | nil => cases h
  | cons b s =>
    rw [membersOf] at h
    obtain ⟨rfl, -⟩ := Option.ite_none_right_eq_some.mp h
    exact ⟨s, rfl⟩

/-- The items of a text that begins with an object. -/
theorem extractItems_object (hv : Standing v) (h : Begins v text) (hobj : membersOf v = some obj) :
    extractItems text = some ((containerItems obj).getD [obj]) := by
  have hbegins := h.trimSpace hv
  have hfirst := hbegins.firstValue hv
  obtain ⟨s, rfl⟩ := membersOf_head hobj
  obtain ⟨x, hx, -⟩ := hbegins
  have hbrackets : byte '\x7b' ≠ byte '[' := by decide
  rw [List.cons_append] at hx
  rw [hx] at hfirst
  rw [extractItems, hx]
  show (if byte '\x7b' = byte '[' then _ else if byte '\x7b' = byte '\x7b' then _ else _) = _
  rw [if_neg hbrackets, if_pos rfl, hfirst, Option.bind_some, hobj, Option.map_some]

/-- The items of a text that begins with an array. -/
theorem extractItems_array (hv : Standing v) (h : Begins v text) (hhead : v.head? = some (byte '[')) :
    extractItems text = asMaps v := by
  have hbegins := h.trimSpace hv
  have hfirst := hbegins.firstValue hv
  obtain ⟨s, rfl⟩ := List.head?_eq_some_iff.mp hhead
  obtain ⟨x, hx, -⟩ := hbegins
  rw [List.cons_append] at hx
  rw [hx] at hfirst
  rw [extractItems, hx]
  show (if byte '[' = byte '[' then _ else _) = _
  rw [if_pos rfl, hfirst, Option.bind_some]

/-- A text that is trimmed begins with its first value. -/
theorem begins_of_wholeValue (h : wholeValue text = some v) (hrest : Follows rest) :
    Standing v ∧ Begins v (Json.trimSpace (text ++ rest)) ∧ Json.trimSpace (text ++ rest) ≠ [] := by
  obtain ⟨hv, g, g', hg, hg', rfl⟩ := standing_of_wholeValue h
  have htext : g ++ v ++ g' ++ rest = g ++ (v ++ (g' ++ rest)) := by simp only [List.append_assoc]
  have hbegins := hv.trimSpace hg (follows_append hg' hrest)
  rw [htext]
  refine ⟨hv, hbegins, ?_⟩
  obtain ⟨x, hx, -⟩ := hbegins
  obtain ⟨b, t, rfl, -⟩ := hv.first
  rw [hx]
  exact List.cons_ne_nil _ _

theorem genericMapper_object (h : objectMembers text = some obj) (hrest : Follows rest) :
    genericMapper (text ++ rest) = mapped ((containerItems obj).getD [obj]) := by
  obtain ⟨v, hv, hobj⟩ := Option.bind_eq_some_iff.mp h
  obtain ⟨hstanding, hbegins, hne⟩ := begins_of_wholeValue hv hrest
  exact genericMapper_of_items hne (extractItems_object hstanding hbegins hobj)

/-- **Arrays**: every object is a document. -/
theorem genericMapper_array (h : wholeValue text = some v) (hhead : v.head? = some (byte '['))
    (hobjs : asMaps v = some objs) (hrec : ∀ o ∈ objs, (itemToDoc o).Recognised) :
    genericMapper text = objs.map itemToDoc := by
  have hbegins := begins_of_wholeValue h gap_nil.follows
  rw [List.append_nil] at hbegins
  obtain ⟨hstanding, hbegins, hne⟩ := hbegins
  rw [genericMapper_of_items hne ((extractItems_array hstanding hbegins hhead).trans hobjs), mapped_of_recognised hrec]

/-- The objects under a key are those of the container: no other of the keys has any. -/
structure Contains (obj : Item) (key : String) (objs : List Item) : Prop where
  mem : key ∈ containerKeys
  objects : (lookup obj key).bind asMaps = some objs
  only : ∀ key' ∈ containerKeys, key' ≠ key → ∀ arr, (lookup obj key').bind asMaps = some arr → arr = []

theorem Contains.containerItems_eq {key : String} (h : Contains obj key objs) :
    containerItems obj = if objs = [] then none else some objs := by
  -- the other keys hold no list, or an empty one
  have hother : ∀ key' ∈ containerKeys, key' ≠ key ∨ objs = [] →
      ((lookup obj key').bind asMaps).filter (fun arr => decide (arr ≠ [])) = none := by
    intro key' hmem hcase
    rw [Option.filter_eq_none_iff]
    intro arr harr
    have hnil : arr = [] := by
      by_cases hkey : key' = key
      · subst hkey
        rw [h.objects] at harr
        exact (Option.some.inj harr).symm.trans (hcase.resolve_left fun hne => hne rfl)
      · exact h.only key' hmem hkey arr harr
    simp [hnil]
  by_cases hnil : objs = []
  · rw [if_pos hnil, containerItems, List.findSome?_eq_none_iff]
    exact fun key' hmem => hother key' hmem (.inr hnil)
  · -- the first key that holds a list is the one of the objects
    rw [if_neg hnil, containerItems, List.findSome?_eq_some_iff]
    obtain ⟨before, after, hkeys, hbefore⟩ := List.eq_append_cons_of_mem h.mem
    refine ⟨before, key, after, hkeys, ?_, fun key' hmem => hother key' ?_ (.inl ?_)⟩
    · rw [h.objects]
      exact Option.filter_some_pos (decide_eq_true hnil)
    · rw [hkeys]
      exact List.mem_append_left _ hmem
    · rintro rfl
      exact hbefore hmem

/-- **Containers**: every object is a document; an empty one has none where the container is none itself. -/
theorem genericMapper_container_iff {key : String} (h : objectMembers text = some obj) (hobjs : Contains obj key objs)
    (hrec : ∀ o ∈ objs, (itemToDoc o).Recognised) :
    genericMapper text = objs.map itemToDoc ↔ (objs = [] → ¬ (itemToDoc obj).Recognised) := by
  have hmapper := genericMapper_object h gap_nil.follows
  rw [List.append_nil] at hmapper
  rw [hmapper, hobjs.containerItems_eq]
  by_cases hnil : objs = []
  · subst hnil
    rw [if_pos rfl]
    show mapped [obj] = [] ↔ _
    rw [mapped_eq_nil_iff, List.forall_mem_singleton]
    exact ⟨fun hno _ => hno, fun hno => hno rfl⟩
  · rw [if_neg hnil]
    exact iff_of_true (mapped_of_recognised hrec) fun heq => absurd heq hnil

/-- **Other texts**: a text without a recognised object is a document where it has no objects at all. -/
theorem genericMapper_plain_iff (hne : Json.trimSpace text ≠ [])
    (hnone : ∀ items, extractItems (Json.trimSpace text) = some items → ∀ it ∈ items, ¬ (itemToDoc it).Recognised) :
    (∃ d ∈ genericMapper text, d.content = clip (Json.trimSpace text) maxDocContent) ↔
      extractItems (Json.trimSpace text) = none := by
  cases hitems : extractItems (Json.trimSpace text) with
  | none =>
    rw [genericMapper_of_none hne hitems]
    exact iff_of_true ⟨_, List.mem_singleton_self _, rfl⟩ rfl
  | some items =>
    rw [genericMapper_of_items hne hitems, mapped_eq_nil_iff.mpr (hnone items hitems)]
    exact iff_of_false (fun ⟨d, hd, _⟩ => absurd hd List.not_mem_nil) (Option.some_ne_none items)

end Texts

/-! ### Blocks of text -/

section Blocks

variable {result : Bytes} {tc : ToolCallResult} {os : List Item}

/-- The text of blocks begins with that of the first, if it has any. -/
theorem joinTexts_cons {b : TextBlock} (hb : utf8 b.text ≠ []) (bs : List TextBlock) :
    ∃ rest, joinTexts (b :: bs) = utf8 b.text ++ rest ∧ Follows rest := by
  -- once something is written, each further text is put behind a line break
  have hrun : ∀ (bs : List TextBlock) (sb : Bytes), sb ≠ [] → ∃ rest, bs.foldl (fun sb c =>
      if c.text = "" then sb
      else if sb = [] then utf8 c.text
      else sb ++ byte '\n' :: utf8 c.text) sb = sb ++ rest ∧ Follows rest := by
    intro bs
    induction bs with
    | nil => exact fun sb _ => ⟨[], (List.append_nil sb).symm, gap_nil.follows⟩
    | cons c bs ih =>
      intro sb hsb
      rw [List.foldl_cons]
      by_cases hc : c.text = ""
      · rw [if_pos hc]
        exact ih sb hsb
      · rw [if_neg hc, if_neg hsb]
        obtain ⟨rest, hrest, -⟩ := ih (sb ++ byte '\n' :: utf8 c.text) (by simp)
        refine ⟨byte '\n' :: (utf8 c.text ++ rest), ?_, ?_⟩
        · rw [hrest, List.append_assoc, List.cons_append]
        · rintro d ⟨⟩
          exact .inl (by decide)
  have htext : b.text ≠ "" := by
    intro hempty
    rw [hempty] at hb
    exact hb rfl
  obtain ⟨rest, hrest, hfollows⟩ := hrun bs (utf8 b.text) hb
  refine ⟨rest, ?_, hfollows⟩
  rw [joinTexts, List.foldl_cons, if_neg htext, if_pos rfl]
  exact hrest

/-- One block whose object is no container, or none at all; otherwise the objects that are found in the first block
are what counts. -/
def BlocksKept (result : Bytes) (os : List Item) : Prop :=
  (os = [] ∧ ∃ items, extractItems (Json.trimSpace result) = some items ∧ ∀ it ∈ items, ¬ (itemToDoc it).Recognised) ∨
  (∃ o, os = [o] ∧ containerItems o = none) ∨
  ∃ o rest items, os = o :: rest ∧ containerItems o = some items ∧ mapped items = os.map itemToDoc

/-- **Blocks of text**, each of them a recognised object. -/
theorem genericMapper_blocks_iff (htc : unmarshalToolCall result = some tc)
    (hstructured : tc.structuredContent = [] ∨ isJSONNull tc.structuredContent = true)
    (hblocks : List.Forall₂ (fun b o => objectMembers (utf8 b.text) = some o) tc.content.blocks os)
    (hrec : ∀ o ∈ os, (itemToDoc o).Recognised) :
    genericMapper (extractText result) = os.map itemToDoc ↔ BlocksKept result os := by
  have hplain : ¬ (tc.structuredContent ≠ [] ∧ isJSONNull tc.structuredContent = false) := by
    rintro ⟨hne, hnull⟩
    exact hstructured.elim hne fun h => by rw [h] at hnull; cases hnull
  rw [extractText, htc]
  show genericMapper (if _ then _ else _) = _ ↔ _
  rw [if_neg hplain]
  generalize tc.content.blocks = blocks at hblocks
  cases hblocks with
  | nil =>
    -- the raw result is the text
    obtain ⟨v, hv, -⟩ := Option.bind_eq_some_iff.mp htc
    have hbegins := begins_of_wholeValue hv gap_nil.follows
    rw [List.append_nil] at hbegins
    obtain ⟨-, -, hne⟩ := hbegins
    rw [if_pos rfl, List.map_nil]
    cases hitems : extractItems (Json.trimSpace result) with
    | none =>
      rw [genericMapper_of_none hne hitems]
      refine iff_of_false (List.cons_ne_nil _ _) ?_
      rintro (⟨-, items, hsome, -⟩ | ⟨o, hos, -⟩ | ⟨o, rest, items, hos, -⟩)
      · rw [hitems] at hsome
        cases hsome
      · cases hos
      · cases hos
    | some items =>
      rw [genericMapper_of_items hne hitems, mapped_eq_nil_iff]
      constructor
      · exact fun hno => .inl ⟨rfl, items, hitems, hno⟩
      · rintro (⟨-, items', hsome, hno⟩ | ⟨o, hos, -⟩ | ⟨o, rest, items', hos, -⟩)
        · rw [hitems] at hsome
          obtain rfl := Option.some.inj hsome
          exact hno
        · cases hos
        · cases hos
  | @cons b o bs os hb hbs =>
    have hne : utf8 b.text ≠ [] := by
      intro hempty
      rw [hempty] at hb
      cases hb
    obtain ⟨rest, hrest, hfollows⟩ := joinTexts_cons hne bs
    rw [if_neg (List.cons_ne_nil _ _), hrest, genericMapper_object hb hfollows]
    obtain ⟨ho, -⟩ := List.forall_mem_cons.mp hrec
    cases hitems : containerItems o with
    | none =>
      have hone : mapped [o] = [itemToDoc o] := mapped_of_recognised (List.forall_mem_singleton.mpr ho)
      show mapped [o] = _ ↔ _
      rw [hone, List.map_cons]
      constructor
      · intro heq
        obtain rfl : os = [] := List.map_eq_nil_iff.mp (List.cons.inj heq).2.symm
        exact .inr (.inl ⟨o, rfl, hitems⟩)
      · rintro (⟨hos, -⟩ | ⟨o', hos, -⟩ | ⟨o', rest', items, hos, hsome, -⟩)
        · cases hos
        · obtain ⟨-, rfl⟩ := List.cons.inj hos
          rfl
        · obtain ⟨rfl, -⟩ := List.cons.inj hos
          rw [hitems] at hsome
          cases hsome
    | some items =>
      show mapped items = _ ↔ _
      constructor
      · exact fun heq => .inr (.inr ⟨o, os, items, rfl, hitems, heq⟩)
      · rintro (⟨hos, -⟩ | ⟨o', hos, hnone⟩ | ⟨o', rest', items', hos, hsome, heq⟩)
        · cases hos
        · obtain ⟨rfl, -⟩ := List.cons.inj hos
          rw [hitems] at hnone
          cases hnone
        · obtain ⟨rfl, -⟩ := List.cons.inj hos
          rw [hitems] at hsome
          obtain rfl := Option.some.inj hsome
          exact heq

end Blocks

/-! ### Tool results and their documents -/

section Documents

/-- **Nothing of a tool result is dropped** in these cases and in no others: blocks of text that are recognised objects
(`BlocksKept`), arrays of recognised objects, containers of them, and texts without a recognised object. -/
theorem genericMapper_documents (result : Bytes) :
    (∀ tc os, unmarshalToolCall result = some tc →
      (tc.structuredContent = [] ∨ isJSONNull tc.structuredContent = true) →
      List.Forall₂ (fun b o => objectMembers (utf8 b.text) = some o) tc.content.blocks os →
      (∀ o ∈ os, (itemToDoc o).Recognised) →
      (genericMapper (extractText result) = os.map itemToDoc ↔ BlocksKept result os)) ∧
    (∀ v objs, wholeValue (extractText result) = some v → v.head? = some (byte '[') → asMaps v = some objs →
      (∀ o ∈ objs, (itemToDoc o).Recognised) → genericMapper (extractText result) = objs.map itemToDoc) ∧
    (∀ obj key objs, objectMembers (extractText result) = some obj → Contains obj key objs →
      (∀ o ∈ objs, (itemToDoc o).Recognised) →
      (genericMapper (extractText result) = objs.map itemToDoc ↔ (objs = [] → ¬ (itemToDoc obj).Recognised))) ∧
    (Json.trimSpace (extractText result) ≠ [] →
      (∀ items, extractItems (Json.trimSpace (extractText result)) = some items →
        ∀ it ∈ items, ¬ (itemToDoc it).Recognised) →
      ((∃ d ∈ genericMapper (extractText result), d.content = clip (Json.trimSpace (extractText result)) maxDocContent) ↔
        extractItems (Json.trimSpace (extractText result)) = none)) :=
  ⟨fun _ _ htc hstructured hblocks hrec => genericMapper_blocks_iff htc hstructured hblocks hrec,
    fun _ _ hv hhead hobjs hrec => genericMapper_array hv hhead hobjs hrec,
    fun _ _ _ hobj hobjs hrec => genericMapper_container_iff hobj hobjs hrec, genericMapper_plain_iff⟩

/-- A result of blocks with these texts. -/
def textResult (texts : List String) : Bytes :=
  bytes "\x7b\"content\":[" ++
    [byte ','].intercalate (texts.map fun t => bytes "\x7b\"type\":\"text\",\"text\":\"" ++ utf8 t ++ bytes "\"\x7d") ++
    bytes "]\x7d"

/-- The text of an object with a title, escaped, and its members. -/
def titled (title : String) : String := "\x7b\\\"title\\\":\\\"" ++ title ++ "\\\"\x7d"

def titledItem (title : String) : Item := [⟨bytes "title\"", bytes "\"" ++ utf8 title ++ bytes "\""⟩]

def titledBlock (title : String) : TextBlock := ⟨"text", "\x7b\"title\":\"" ++ title ++ "\"\x7d"⟩

theorem genericMapper_documents_titled :
    genericMapper (extractText (textResult [titled "a"])) = [itemToDoc (titledItem "a")] := by
  have htc : unmarshalToolCall (textResult [titled "a"]) = some ⟨⟨[titledBlock "a"], 1⟩, [], false⟩ := by
    decide +kernel
  have hobj : objectMembers (utf8 (titledBlock "a").text) = some (titledItem "a") := by decide +kernel
  have hrec : (itemToDoc (titledItem "a")).Recognised := by decide +kernel
  have hnone : containerItems (titledItem "a") = none := by decide +kernel
  exact ((genericMapper_documents _).1 _ [titledItem "a"] htc (.inl rfl) (.cons hobj .nil)
    (List.forall_mem_singleton.mpr hrec)).mpr (.inr (.inl ⟨_, rfl, hnone⟩))

/-- Two blocks with a title each are one document. -/
theorem blocks_dropped : ∃ tc, unmarshalToolCall (textResult [titled "a", titled "b"]) = some tc ∧
    tc.structuredContent = [] ∧ List.Forall₂ (fun b o => objectMembers (utf8 b.text) = some o) tc.content.blocks
      [titledItem "a", titledItem "b"] ∧
    (∀ o ∈ [titledItem "a", titledItem "b"], (itemToDoc o).Recognised) ∧
    (genericMapper (extractText (textResult [titled "a", titled "b"]))).map DocEntry.title = [utf8 "a"] := by
  have htc : unmarshalToolCall (textResult [titled "a", titled "b"]) =
      some ⟨⟨[titledBlock "a", titledBlock "b"], 2⟩, [], false⟩ := by decide +kernel
  have hfirst : objectMembers (utf8 (titledBlock "a").text) = some (titledItem "a") := by decide +kernel
  have hsecond : objectMembers (utf8 (titledBlock "b").text) = some (titledItem "b") := by decide +kernel
  refine ⟨_, htc, rfl, .cons hfirst (.cons hsecond .nil), ?_, ?_⟩ <;> decide +kernel

/-- An object without a recognised field is no document. -/
example : genericMapper (extractText (bytes "\x7b\"structuredContent\":\x7b\"status\":\"down\"\x7d\x7d")) = [] := by
  decide +kernel

end Documents

end Devrouter.McpSource
