import Mathlib.Data.List.Infix
import Mathlib.Data.List.Nodup
import Devrouter.Memory.Filed
import Devrouter.Memory.Search

/-!
# Conflicts of decisions

Model of `ListDecisions`, `detectDecisionConflicts` and `hasFileOverlap` in `internal/memory/store.go`: a save of a
decision lists the decisions of its repository, the one just saved among them, and warns about those of another type
that overlap with it in scope or files.

What the search answers is a parameter, taken to list the decisions of the repository (`ListsDecisions`). Two decisions
should be reported when they share a path or their scopes overlap (`Conflicting`). The file lists are compared with
their blank items, so two lists with a blank item each overlap as well. `warnings_exact_iff` says that this is the only
way in which the warnings of a save go wrong.
-/

open Prog

namespace Devrouter.Memory

variable {F S : Type}

/-! ### Quoting -/

/-- A hexadecimal number of so many digits. -/
def hexDigits (n : ℕ) (width : ℕ) : List Char :=
  let digits := Nat.toDigits 16 n
  List.replicate (width - digits.length) '0' ++ digits

/-- One rune of a quoted text. -/
def quoteRune (isPrint : Char → Bool) (r : Char) : List Char :=
  if r = '"' ∨ r = '\\' then ['\\', r]
  else if isPrint r then [r]
  else if r = '\x07' then ['\\', 'a']
  else if r = '\x08' then ['\\', 'b']
  else if r = '\x0c' then ['\\', 'f']
  else if r = '\n' then ['\\', 'n']
  else if r = '\r' then ['\\', 'r']
  else if r = '\t' then ['\\', 't']
  else if r = '\x0b' then ['\\', 'v']
  -- what cannot be printed is written by its number, in two, four or eight digits
  else if r.toNat < 32 ∨ r.toNat = 127 then '\\' :: 'x' :: hexDigits r.toNat 2
  else if r.toNat < 65536 then '\\' :: 'u' :: hexDigits r.toNat 4
  else '\\' :: 'U' :: hexDigits r.toNat 8

/-- `%q`; which runes can be printed is a table of Unicode. -/
def quote (isPrint : Char → Bool) (s : String) : String :=
  String.ofList ('"' :: s.toList.flatMap (quoteRune isPrint) ++ ['"'])

/-! ### Listing decisions -/

/-- An `FT.SEARCH` without a vector: `LIMIT 0 <limit> DIALECT 2`. -/
structure FtList where
  index : String
  query : String
  limit : ℕ
  deriving DecidableEq, Repr

def listCommand (K : Keyspace) (repo decisionType : String) (includeSuperseded : Bool) : FtList where
  index := indexNameFor K "decision"
  query := tagClause "mem_type" "decision"
    ++ (if repo ≠ "" then " " ++ tagClause "repo" (escapeTag repo) else "")
    ++ (if decisionType ≠ "" then " " ++ tagClause "decision_type" (escapeTag decisionType) else "")
    ++ (if includeSuperseded then "" else " " ++ tagClause "status" "active")
  limit := 500

/-- A field of a hit; empty when it is missing. -/
def MemoryHit.text (hit : MemoryHit S) (field : String) : String := (hit.fields field).getD ""

/-- The items of a file list, without the spaces around them. -/
def filePaths (files : String) : List String := (files.toList.splitOn ',').map fun f => trimSpace (String.ofList f)

def hasFileOverlap (filesA filesB : String) : Bool := (filePaths filesB).any (· ∈ filePaths filesA)

section Listing

variable [Zero S] (parseFloat : String → S) (ftList : FtList → Option Raw) (L : RuneLower) (K : Keyspace)

/-- `ListDecisions`. An error of the server is no hits. -/
def listDecisions (repo decisionType scope files : String) (includeSuperseded : Bool) : List (MemoryHit S) :=
  let hits := (ftList (listCommand K repo decisionType includeSuperseded)).elim [] (parseMemoryHits parseFloat)
  if scope = "" ∧ files = "" then hits
  else hits.filter fun h =>
    (decide (scope = "") || contains (L.lower (h.text "scope")) (L.lower scope)) &&
      (decide (files = "") || hasFileOverlap (h.text "files") files)

/-! ### Detecting conflicts -/

def scopeOverlap (scope existingScope : String) : Bool :=
  decide (scope ≠ "") && decide (existingScope ≠ "") &&
    (decide (scope = existingScope) || contains existingScope scope || contains scope existingScope)

def filesOverlap (files existingFiles : String) : Bool :=
  decide (files ≠ "") && decide (existingFiles ≠ "") && hasFileOverlap files existingFiles

def conflictWarning (isPrint : Char → Bool) (m : DecisionMemory) (name existingType existingDecision : String) :
    String :=
  "conflict: decision " ++ quote isPrint m.name ++ " (type=" ++ m.decisionType ++ ") overlaps scope/files with "
    ++ quote isPrint name ++ " (type=" ++ existingType ++ "): " ++ existingDecision

/-- `detectDecisionConflicts`. -/
def detectDecisionConflicts (isPrint : Char → Bool) (m : DecisionMemory) : List String :=
  (listDecisions parseFloat ftList L K m.repo "" "" "" true).filterMap fun hit =>
    let name := hit.text "name"
    -- the decision that was just saved
    if name = m.name then none
    else if scopeOverlap m.scope (hit.text "scope") || filesOverlap m.files (hit.text "files") then
      if hit.text "decision_type" ≠ m.decisionType then
        some (conflictWarning isPrint m name (hit.text "decision_type") (hit.text "decision"))
      else none
    else none

end Listing

/-- `SaveDecision`: the warnings and the error, and the server afterwards. What the search answers depends on what the
server holds. -/
def saveDecisionWarned [Zero S] (parseFloat : String → S) (ftList : Server F → FtList → Option Raw)
    (L : RuneLower) (isPrint : Char → Bool) (env : Env F) (K : Keyspace) (m : DecisionMemory) (s : Server F) :
    (List String × Option SaveErr) × Server F :=
  let (err, s') := (saveDecision env K m).run s
  match err with
  | some e => (([], some e), s')
  | none => ((detectDecisionConflicts parseFloat (ftList s') L K isPrint m, none), s')

example : quote (fun c => decide (' ' ≤ c ∧ c ≤ '~')) "a\"\n\x01é" = "\"a\\\"\\n\\x01\\u00e9\"" := by decide +kernel

/-! ### What should be reported -/

/-- A path that is not empty is in both lists. -/
def SharesPath (a b : String) : Prop := ∃ p, p ≠ "" ∧ p ∈ filePaths a ∧ p ∈ filePaths b

/-- The scopes are equal, or one is part of the other. -/
def ScopesOverlap (a b : String) : Prop :=
  a ≠ "" ∧ b ≠ "" ∧ (a = b ∨ a.toList <:+: b.toList ∨ b.toList <:+: a.toList)

/-- **Two decisions conflict.** -/
def Conflicting (a b : DecisionMemory) : Prop :=
  b.decisionType ≠ a.decisionType ∧ (SharesPath a.files b.files ∨ ScopesOverlap a.scope b.scope)

/-- A list that is not empty and has an item with nothing but spaces. -/
def HasBlank (files : String) : Prop := files ≠ "" ∧ "" ∈ filePaths files

/-- Two decisions of different types whose lists have nothing in common but that each has a blank item. -/
def BlankClash (a b : DecisionMemory) : Prop :=
  b.decisionType ≠ a.decisionType ∧ HasBlank a.files ∧ HasBlank b.files ∧ ¬ SharesPath a.files b.files ∧
    ¬ ScopesOverlap a.scope b.scope

instance (a b : String) : Decidable (SharesPath a b) :=
  decidable_of_iff (∃ p ∈ filePaths a, p ≠ "" ∧ p ∈ filePaths b) <| by
    refine exists_congr fun p => ?_
    rw [and_left_comm]

instance (a b : String) : Decidable (ScopesOverlap a b) :=
  inferInstanceAs (Decidable (a ≠ "" ∧ b ≠ "" ∧ (a = b ∨ a.toList <:+: b.toList ∨ b.toList <:+: a.toList)))

instance (a b : DecisionMemory) : Decidable (Conflicting a b) := inferInstanceAs (Decidable (_ ∧ _))

instance (a b : DecisionMemory) : Decidable (BlankClash a b) :=
  inferInstanceAs (Decidable (_ ∧ (_ ∧ _) ∧ (_ ∧ _) ∧ _ ∧ _))

/-- The comparison of the code. -/
def clashes (a b : DecisionMemory) : Bool :=
  (scopeOverlap a.scope b.scope || filesOverlap a.files b.files) && decide (b.decisionType ≠ a.decisionType)

theorem SharesPath.symm {a b : String} (h : SharesPath a b) : SharesPath b a := by
  obtain ⟨p, hp, ha, hb⟩ := h
  exact ⟨p, hp, hb, ha⟩

theorem SharesPath.ne_empty {a b : String} (h : SharesPath a b) : a ≠ "" := by
  rintro rfl
  obtain ⟨p, hp, ha, -⟩ := h
  have hnone : filePaths "" = [""] := by decide
  rw [hnone] at ha
  exact hp (List.mem_singleton.mp ha)

theorem scopeOverlap_iff {a b : String} : scopeOverlap a b = true ↔ ScopesOverlap a b := by
  simp only [scopeOverlap, ScopesOverlap, contains, Bool.and_eq_true, Bool.or_eq_true, decide_eq_true_eq, and_assoc,
    or_assoc]

theorem filesOverlap_iff {a b : String} :
    filesOverlap a b = true ↔ SharesPath a b ∨ (HasBlank a ∧ HasBlank b) := by
  have hsame : hasFileOverlap a b = true ↔ ∃ p, p ∈ filePaths a ∧ p ∈ filePaths b := by
    simp only [hasFileOverlap, List.any_eq_true, decide_eq_true_eq]
    exact exists_congr fun p => and_comm
  simp only [filesOverlap, Bool.and_eq_true, decide_eq_true_eq, hsame]
  constructor
  · rintro ⟨⟨ha, hb⟩, p, hpa, hpb⟩
    by_cases hp : p = ""
    · subst hp
      exact .inr ⟨⟨ha, hpa⟩, ⟨hb, hpb⟩⟩
    · exact .inl ⟨p, hp, hpa, hpb⟩
  · rintro (h | ⟨⟨ha, hblank⟩, ⟨hb, hblank'⟩⟩)
    · obtain ⟨p, -, hpa, hpb⟩ := id h
      exact ⟨⟨h.ne_empty, h.symm.ne_empty⟩, p, hpa, hpb⟩
    · exact ⟨⟨ha, hb⟩, "", hblank, hblank'⟩

/-- **The code reports the conflicts, and the clashes of blank items.** -/
theorem clashes_iff {a b : DecisionMemory} : clashes a b = true ↔ Conflicting a b ∨ BlankClash a b := by
  simp only [clashes, Bool.and_eq_true, Bool.or_eq_true, decide_eq_true_eq, scopeOverlap_iff, filesOverlap_iff,
    Conflicting, BlankClash]
  by_cases hpath : SharesPath a.files b.files
  · simp [hpath, and_comm]
  · by_cases hscope : ScopesOverlap a.scope b.scope
    · simp [hscope, and_comm]
    · simp [hpath, hscope, and_comm]

theorem ScopesOverlap.symm {a b : String} (h : ScopesOverlap a b) : ScopesOverlap b a := by
  obtain ⟨ha, hb, heq | hin | hin⟩ := h
  · exact ⟨hb, ha, .inl heq.symm⟩
  · exact ⟨hb, ha, .inr (.inr hin)⟩
  · exact ⟨hb, ha, .inr (.inl hin)⟩

theorem Conflicting.symm {a b : DecisionMemory} (h : Conflicting a b) : Conflicting b a :=
  ⟨h.1.symm, h.2.imp SharesPath.symm ScopesOverlap.symm⟩

theorem BlankClash.symm {a b : DecisionMemory} (h : BlankClash a b) : BlankClash b a := by
  obtain ⟨htype, ha, hb, hpath, hscope⟩ := h
  exact ⟨htype.symm, hb, ha, fun hs => hpath hs.symm, fun hs => hscope hs.symm⟩

/-- **Who is warned about whom** does not depend on the order of the saves. -/
theorem clashes_comm (a b : DecisionMemory) : clashes a b = clashes b a := by
  rw [Bool.eq_iff_iff, clashes_iff, clashes_iff]
  exact ⟨Or.imp Conflicting.symm BlankClash.symm, Or.imp Conflicting.symm BlankClash.symm⟩

/-! ### What is listed -/

/-- What a hash holds of a decision. -/
def decisionOf (h : Hash F) : DecisionMemory where
  repo := h.text "repo"
  name := h.text "name"
  decisionType := h.text "decision_type"
  decision := h.text "decision"
  rationale := h.text "rationale"
  alternatives := h.text "alternatives"
  constraint := h.text "constraint"
  scope := h.text "scope"
  files := h.text "files"
  status := h.text "status"
  supersedes := h.text "supersedes"
  supersededBy := h.text "superseded_by"

/-- A decision of the repository that is stored at the key. -/
def IsDecision (K : Keyspace) (s : Server F) (repo key : String) (h : Hash F) : Prop :=
  s.keys.lookup key = some (.hash h) ∧ (keyPrefix K).toList <+: key.toList ∧ h.text "mem_type" = "decision" ∧
    h.text "repo" = repo

/-- The fields of a hash in a row, in some order of their names. -/
def rowFields (h : Hash F) (names : List String) : List Raw := names.flatMap fun f => [.str f, .str (h.text f)]

/-- **The server lists the decisions of a repository**: each once with its fields, and all of them unless the limit is
reached. -/
def ListsDecisions (ftList : FtList → Option Raw) (K : Keyspace) (s : Server F) (repo : String) : Prop :=
  ∃ rows, ftList (listCommand K repo "" true) = some (reply rows) ∧ (rows.map Prod.fst).Nodup ∧
    (∀ row ∈ rows, ∃ h names, IsDecision K s repo row.1 h ∧ (∀ f, f ∈ names ↔ h f ≠ none) ∧
      row.2 = rowFields h names) ∧
    ((∀ key h, IsDecision K s repo key h → key ∈ rows.map Prod.fst) ∨
      rows.length = (listCommand K repo "" true).limit)

/-- There are at most as many decisions as the list can hold. -/
def WithinLimit (K : Keyspace) (s : Server F) (repo : String) : Prop :=
  ∀ keys : List String, keys.Nodup → (∀ key ∈ keys, ∃ h, IsDecision K s repo key h) →
    keys.length ≤ (listCommand K repo "" true).limit

section Listed

variable [Zero S] (parseFloat : String → S)

omit [Zero S] in
/-- A field that is read from a row, name by name: it is the hash's when the row has it. -/
theorem read_rowFields {σ β : Type} (read : σ → List Raw → σ) (step : σ → String → String → σ) (get : σ → β)
    (val : String → β) {f : String} (hnil : ∀ m, read m [] = m)
    (hread : ∀ m n t rest, read m (.str n :: .str t :: rest) = read (step m n t) rest)
    (hself : ∀ m t, get (step m f t) = val t) (hother : ∀ m n t, f ≠ n → get (step m n t) = get m)
    (h : Hash F) (names : List String) (m : σ) :
    get (read m (rowFields h names)) = if f ∈ names then val (h.text f) else get m := by
  induction names generalizing m with
  | nil => exact congrArg get (hnil m)
  | cons n names ih =>
    have hstep : read m (rowFields h (n :: names)) = read (step m n (h.text n)) (rowFields h names) := hread _ _ _ _
    rw [hstep, ih]
    -- the last reading of a name wins, so the rest is looked at first
    by_cases hf : f ∈ names
    · rw [if_pos hf, if_pos (List.mem_cons_of_mem n hf)]
    · rw [if_neg hf]
      by_cases hn : f = n
      · subst hn
        rw [if_pos List.mem_cons_self, hself]
      · rw [if_neg fun h => (List.mem_cons.mp h).elim hn hf, hother m n _ hn]

omit [Zero S] in
/-- The fields that are kept read as those of the hash. -/
theorem fields_setFields_rowFields (h : Hash F) {f : String} (hscore : f ≠ "score") (hembedding : f ≠ "embedding")
    (names : List String) (hit : MemoryHit S) :
    (hit.setFields parseFloat (rowFields h names)).fields f = if f ∈ names then some (h.text f) else hit.fields f := by
  have hself : ∀ (m : MemoryHit S) (t : String), (m.setField parseFloat f t).fields f = some t := by
    intro m t
    unfold MemoryHit.setField
    rw [if_neg hscore, if_pos hembedding]
    exact Function.update_self _ _ _
  have hother : ∀ (m : MemoryHit S) (n t : String), f ≠ n → (m.setField parseFloat n t).fields f = m.fields f := by
    intro m n t hn
    unfold MemoryHit.setField
    split_ifs
    · rfl
    · exact Function.update_of_ne hn _ _
    · rfl
  exact read_rowFields (MemoryHit.setFields parseFloat) (MemoryHit.setField parseFloat) (fun hit => hit.fields f) some
    (fun _ => rfl) (fun _ _ _ _ => rfl) hself hother h names hit

theorem text_setFields_rowFields {h : Hash F} {names : List String} (hnames : ∀ f, f ∈ names ↔ h f ≠ none)
    (key : String) {f : String} (hscore : f ≠ "score") (hembedding : f ≠ "embedding") :
    ((MemoryHit.ofKey key).setFields parseFloat (rowFields h names)).text f = h.text f := by
  unfold MemoryHit.text
  rw [fields_setFields_rowFields parseFloat h hscore hembedding]
  by_cases hf : f ∈ names
  · rw [if_pos hf]
    rfl
  · have hnone : h f = none := Decidable.not_not.mp fun hne => hf ((hnames f).mpr hne)
    rw [if_neg hf]
    unfold Hash.text
    rw [hnone]
    rfl

end Listed

/-- A choice and then a map, as a map and then a choice. -/
theorem filterMap_eq_map_filter {α β γ : Type} {f : α → Option γ} {g : α → β} {p : β → Bool} {w : β → γ} {l : List α}
    (h : ∀ a ∈ l, f a = if p (g a) then some (w (g a)) else none) : l.filterMap f = ((l.map g).filter p).map w := by
  induction l with
  | nil => rfl
  | cons a l ih =>
    have hrest := ih fun b hb => h b (List.mem_cons_of_mem a hb)
    have hhead := h a List.mem_cons_self
    by_cases hp : p (g a) = true
    · rw [if_pos hp] at hhead
      rw [List.filterMap_cons_some hhead, List.map_cons, List.filter_cons_of_pos hp, List.map_cons, hrest]
    · rw [if_neg hp] at hhead
      rw [List.filterMap_cons_none hhead, List.map_cons, List.filter_cons_of_neg hp, hrest]

/-! ### The warnings of a save -/

/-- The warning about a decision. -/
def warningAbout (isPrint : Char → Bool) (m d : DecisionMemory) : String :=
  conflictWarning isPrint m d.name d.decisionType d.decision

/-- **Exactly one warning for each other decision of the repository that conflicts**, and no other. -/
def ExactWarnings (isPrint : Char → Bool) (K : Keyspace) (s : Server F) (m : DecisionMemory) (warnings : List String) :
    Prop :=
  ∃ ds : List (String × Hash F), (ds.map Prod.fst).Nodup ∧
    (∀ key h, (key, h) ∈ ds ↔
      IsDecision K s m.repo key h ∧ key ≠ decisionKey K m.repo m.name ∧ Conflicting m (decisionOf h)) ∧
    warnings = ds.map fun p => warningAbout isPrint m (decisionOf p.2)

section Warnings

variable {K : Keyspace} {s : Server F} {repo : String}

/-- All decisions of the repository in the order of the list, and how the hits of the rows read. -/
theorem ListsDecisions.all {ftList : FtList → Option Raw} (hlists : ListsDecisions ftList K s repo)
    (hlimit : WithinLimit K s repo) :
    ∃ rows, ∃ hashOf : String × List Raw → String × Hash F,
      ftList (listCommand K repo "" true) = some (reply rows) ∧ ((rows.map hashOf).map Prod.fst).Nodup ∧
      (∀ key h, (key, h) ∈ rows.map hashOf ↔ IsDecision K s repo key h) ∧
      ∀ row ∈ rows, ∃ names, (∀ f, f ∈ names ↔ (hashOf row).2 f ≠ none) ∧ row.2 = rowFields (hashOf row).2 names := by
  obtain ⟨rows, hreply, hnodup, hrows, hall⟩ := hlists
  -- a decision that is not listed would be one more than the limit
  have hevery : ∀ key h, IsDecision K s repo key h → key ∈ rows.map Prod.fst := by
    rcases hall with hall | hfull
    · exact hall
    · intro key h hdec
      by_contra hmiss
      have hmany := hlimit (key :: rows.map Prod.fst) (List.nodup_cons.mpr ⟨hmiss, hnodup⟩) fun k hk => by
        rcases List.mem_cons.mp hk with rfl | hk
        · exact ⟨h, hdec⟩
        · obtain ⟨row, hrow, rfl⟩ := List.mem_map.mp hk
          obtain ⟨h', -, hdec', -⟩ := hrows row hrow
          exact ⟨h', hdec'⟩
      rw [List.length_cons, List.length_map, hfull] at hmany
      omega
  let hashOf : String × List Raw → String × Hash F := fun row => (row.1, (s.hashAt row.1).getD fun _ => none)
  have hhash : ∀ {row : String × List Raw} {h : Hash F}, IsDecision K s repo row.1 h → hashOf row = (row.1, h) := by
    intro row h hdec
    have hat : s.hashAt row.1 = some h := by
      unfold Server.hashAt
      rw [hdec.1]
    show (row.1, (s.hashAt row.1).getD fun _ => none) = _
    rw [hat]
    rfl
  refine ⟨rows, hashOf, hreply, ?_, ?_, ?_⟩
  · rw [List.map_map]
    exact hnodup
  · intro key h
    constructor
    · intro hmem
      obtain ⟨row, hrow, heq⟩ := List.mem_map.mp hmem
      obtain ⟨h', -, hdec, -⟩ := hrows row hrow
      obtain ⟨rfl, rfl⟩ := Prod.mk.inj ((hhash hdec).symm.trans heq)
      exact hdec
    · intro hdec
      obtain ⟨row, hrow, rfl⟩ := List.mem_map.mp (hevery key h hdec)
      exact List.mem_map.mpr ⟨row, hrow, hhash hdec⟩
  · intro row hrow
    obtain ⟨h, names, hdec, hnames, hfields⟩ := hrows row hrow
    rw [hhash hdec]
    exact ⟨names, hnames, hfields⟩

variable [Zero S] (parseFloat : String → S) (L : RuneLower) (isPrint : Char → Bool)

/-- **The warnings** are those about the other decisions that clash, in the order of the list. -/
theorem detectDecisionConflicts_eq {ftList : FtList → Option Raw} {m : DecisionMemory}
    (hlists : ListsDecisions ftList K s m.repo) (hlimit : WithinLimit K s m.repo) (hfiled : Filed K s)
    (hown : ∀ h, s.keys.lookup (decisionKey K m.repo m.name) = some (.hash h) → h.text "name" = m.name) :
    ∃ ds : List (String × Hash F), (ds.map Prod.fst).Nodup ∧
      (∀ key h, (key, h) ∈ ds ↔ IsDecision K s m.repo key h) ∧
      detectDecisionConflicts parseFloat ftList L K isPrint m
        = (ds.filter fun p => decide (p.1 ≠ decisionKey K m.repo m.name) && clashes m (decisionOf p.2)).map
            fun p => warningAbout isPrint m (decisionOf p.2) := by
  obtain ⟨rows, hashOf, hreply, hnodup, hmem, hrows⟩ := hlists.all hlimit
  refine ⟨rows.map hashOf, hnodup, hmem, ?_⟩
  have hlist : listDecisions parseFloat ftList L K m.repo "" "" "" true
      = rows.map fun row => (MemoryHit.ofKey row.1).setFields parseFloat row.2 := by
    unfold listDecisions
    rw [hreply, Option.elim_some, parseMemoryHits_reply]
    exact if_pos ⟨rfl, rfl⟩
  unfold detectDecisionConflicts
  rw [hlist, List.filterMap_map]
  refine filterMap_eq_map_filter fun row hrow => ?_
  obtain ⟨names, hnames, hfields⟩ := hrows row hrow
  obtain ⟨key, h, hkey⟩ : ∃ key h, hashOf row = (key, h) := ⟨_, _, rfl⟩
  rw [hkey] at hnames hfields ⊢
  have hdec : IsDecision K s m.repo key h := (hmem key h).mp (List.mem_map.mpr ⟨row, hrow, hkey⟩)
  have htext : ∀ f, f ≠ "score" → f ≠ "embedding" →
      ((MemoryHit.ofKey row.1).setFields parseFloat row.2).text f = h.text f := by
    intro f hscore hembedding
    rw [hfields]
    exact text_setFields_rowFields parseFloat hnames row.1 hscore hembedding
  -- the name tells the decision that was just saved
  have hname : h.text "name" = m.name ↔ key = decisionKey K m.repo m.name := by
    constructor
    · intro hname
      have hfile := hfiled key h hdec.1 hdec.2.1 hdec.2.2.1
      rwa [hdec.2.2.2, hname] at hfile
    · rintro rfl
      exact hown h hdec.1
  simp only [Function.comp_apply, htext _ (by decide : "name" ≠ "score") (by decide),
    htext _ (by decide : "scope" ≠ "score") (by decide), htext _ (by decide : "files" ≠ "score") (by decide),
    htext _ (by decide : "decision_type" ≠ "score") (by decide), htext _ (by decide : "decision" ≠ "score") (by decide)]
  have hclash : clashes m (decisionOf h) = true ↔
      (scopeOverlap m.scope (h.text "scope") || filesOverlap m.files (h.text "files")) = true ∧
        h.text "decision_type" ≠ m.decisionType := by
    unfold clashes
    rw [Bool.and_eq_true, decide_eq_true_eq]
    exact Iff.rfl
  have hcond : (decide (key ≠ decisionKey K m.repo m.name) && clashes m (decisionOf h)) = true ↔
      h.text "name" ≠ m.name ∧ ((scopeOverlap m.scope (h.text "scope") || filesOverlap m.files (h.text "files")) = true ∧
        h.text "decision_type" ≠ m.decisionType) := by
    rw [Bool.and_eq_true, decide_eq_true_eq, hclash, ne_eq (h.text "name"), hname]
  rw [if_congr hcond rfl rfl]
  split_ifs with h₁ h₂ h₃ h₄ h₅ h₆ <;> first | rfl | (exfalso; tauto)

/-- A save without an error. -/
theorem saveDecisionWarned_ok {ftList : Server F → FtList → Option Raw} {env : Env F} {m : DecisionMemory}
    (hok : (saveDecisionWarned parseFloat ftList L isPrint env K m s).1.2 = none) :
    ((saveDecision env K m).run s).1 = none ∧ saveDecisionWarned parseFloat ftList L isPrint env K m s
      = ((detectDecisionConflicts parseFloat (ftList ((saveDecision env K m).run s).2) L K isPrint m, none),
        ((saveDecision env K m).run s).2) := by
  unfold saveDecisionWarned at hok ⊢
  generalize (saveDecision env K m).run s = r at hok ⊢
  obtain ⟨err, t⟩ := r
  cases err with
  | some e => exact absurd hok (by simp)
  | none => exact ⟨rfl, rfl⟩

/-- After a save without an error the decision stands at its key. -/
theorem saveDecision_name {env : Env F} {m : DecisionMemory} (hok : ((saveDecision env K m).run s).1 = none)
    {h : Hash F} (hh : ((saveDecision env K m).run s).2.keys.lookup (decisionKey K m.repo m.name) = some (.hash h)) :
    h.text "name" = m.name := by
  obtain ⟨h₀, vec, -, -, hput⟩ := embedAndWrite_ok hok
  have hlookup : ((saveDecision env K m).run s).2.keys.lookup (decisionKey K m.repo m.name)
      = some (.hash (hsetFields h₀ (m.fields env vec))) := by
    unfold saveDecision
    rw [hput, Server.lookup_putHash_self]
  obtain rfl := Entry.hash.inj (Option.some.inj (hlookup.symm.trans hh))
  exact text_hsetFields (m.fields_nodup env vec) (by simp [DecisionMemory.fields]) h₀

/-- **The warnings of a save are exact** just when no other decision clashes with it over blank items alone; and what is
compared does not depend on which of two decisions is saved. -/
theorem warnings_exact_iff (ftList : Server F → FtList → Option Raw) (env : Env F) (m : DecisionMemory)
    (hfiled : Filed K s) (hok : (saveDecisionWarned parseFloat ftList L isPrint env K m s).1.2 = none)
    (hlimit : WithinLimit K (saveDecisionWarned parseFloat ftList L isPrint env K m s).2 m.repo)
    (hlists : ListsDecisions (ftList (saveDecisionWarned parseFloat ftList L isPrint env K m s).2) K
      (saveDecisionWarned parseFloat ftList L isPrint env K m s).2 m.repo) :
    (ExactWarnings isPrint K (saveDecisionWarned parseFloat ftList L isPrint env K m s).2 m
        (saveDecisionWarned parseFloat ftList L isPrint env K m s).1.1 ↔
      ∀ key h, IsDecision K (saveDecisionWarned parseFloat ftList L isPrint env K m s).2 m.repo key h →
        key ≠ decisionKey K m.repo m.name → ¬ BlankClash m (decisionOf h)) ∧
      ∀ a b : DecisionMemory, clashes a b = clashes b a := by
  refine ⟨?_, clashes_comm⟩
  obtain ⟨hsaved, heq⟩ := saveDecisionWarned_ok parseFloat L isPrint hok
  rw [heq] at hlimit hlists ⊢
  have hfiled' : Filed K ((saveDecision env K m).run s).2 := run_of_wp (save_refiles env (.decision m) s) hfiled
  obtain ⟨all, hnodup, hall, hdetect⟩ := detectDecisionConflicts_eq parseFloat L isPrint hlists hlimit hfiled'
    fun h => saveDecision_name hsaved
  rw [hdetect]
  have hmem : ∀ key h, (key, h) ∈ all.filter (fun p =>
        decide (p.1 ≠ decisionKey K m.repo m.name) && clashes m (decisionOf p.2)) ↔
      IsDecision K ((saveDecision env K m).run s).2 m.repo key h ∧ key ≠ decisionKey K m.repo m.name ∧
        (Conflicting m (decisionOf h) ∨ BlankClash m (decisionOf h)) := by
    intro key h
    rw [List.mem_filter, hall, Bool.and_eq_true, decide_eq_true_eq, clashes_iff]
  have hsub : ((all.filter fun p =>
      decide (p.1 ≠ decisionKey K m.repo m.name) && clashes m (decisionOf p.2)).map Prod.fst).Nodup :=
    hnodup.sublist (List.filter_sublist.map _)
  constructor
  · -- a clash over blank items is one warning too many
    rintro ⟨ds, hds, hiff, hwarnings⟩ key h hdec hother hclash
    have hnot : ¬ Conflicting m (decisionOf h) := fun hc =>
      hc.2.elim hclash.2.2.2.1 hclash.2.2.2.2
    have hnew : key ∉ ds.map Prod.fst := by
      intro hkey
      obtain ⟨⟨key', h'⟩, hp, rfl⟩ := List.mem_map.mp hkey
      obtain ⟨hdec', -, hconf⟩ := (hiff key' h').mp hp
      obtain rfl := Entry.hash.inj (Option.some.inj (hdec.1.symm.trans hdec'.1))
      exact hnot hconf
    have hsubset : key :: ds.map Prod.fst ⊆ (all.filter fun p =>
        decide (p.1 ≠ decisionKey K m.repo m.name) && clashes m (decisionOf p.2)).map Prod.fst := by
      intro k hk
      rcases List.mem_cons.mp hk with rfl | hk
      · exact List.mem_map.mpr ⟨(k, h), (hmem k h).mpr ⟨hdec, hother, .inr hclash⟩, rfl⟩
      · obtain ⟨⟨k', h'⟩, hp, rfl⟩ := List.mem_map.mp hk
        obtain ⟨hdec', hother', hconf⟩ := (hiff k' h').mp hp
        exact List.mem_map.mpr ⟨(k', h'), (hmem k' h').mpr ⟨hdec', hother', .inl hconf⟩, rfl⟩
    have hle := ((List.nodup_cons.mpr ⟨hnew, hds⟩).subperm hsubset).length_le
    have hlen := congrArg List.length hwarnings
    simp only [List.length_map, List.length_cons] at hle hlen
    omega
  · intro hnone
    refine ⟨_, hsub, fun key h => ?_, rfl⟩
    rw [hmem]
    constructor
    · rintro ⟨hdec, hother, hconf⟩
      exact ⟨hdec, hother, hconf.resolve_right (hnone key h hdec hother)⟩
    · rintro ⟨hdec, hother, hconf⟩
      exact ⟨hdec, hother, .inl hconf⟩

end Warnings

/-! ### Two decisions -/

/-- The names of the fields of a decision. -/
def decisionFields : List String :=
  ["mem_type", "repo", "decision_type", "name", "decision", "rationale", "alternatives", "constraint", "scope", "files",
    "status", "supersedes", "superseded_by", "source", "updated_at", "embedding"]

/-- A search that lists the hashes at these keys. -/
def listKeys (keys : List String) (s : Server F) (_ : FtList) : Option Raw :=
  some (reply (keys.map fun key => (key, rowFields ((s.hashAt key).getD fun _ => none) decisionFields)))

/-- It lists the decisions of the repository when they stand at these keys. -/
theorem listsDecisions_listKeys {K : Keyspace} {s : Server F} {repo : String} {keys : List String}
    (hnodup : keys.Nodup)
    (hkeys : ∀ key ∈ keys, ∃ (env : Env F) (m : DecisionMemory) (vec : List F),
      IsDecision K s repo key (hsetFields (fun _ => none) (m.fields env vec)))
    (hall : ∀ key h, IsDecision K s repo key h → key ∈ keys) : ListsDecisions (listKeys keys s) K s repo := by
  have hfst : (keys.map fun key => (key, rowFields ((s.hashAt key).getD fun _ => none) decisionFields)).map Prod.fst
      = keys := by
    rw [List.map_map]
    exact List.map_id keys
  refine ⟨_, rfl, ?_, ?_, .inl ?_⟩
  · rwa [hfst]
  · -- each key's row holds what was saved there
    intro row hrow
    obtain ⟨key, hkey, rfl⟩ := List.mem_map.mp hrow
    obtain ⟨env, m, vec, hdec⟩ := hkeys key hkey
    refine ⟨_, decisionFields, hdec, fun f => ?_, ?_⟩
    · have hnames : (m.fields env vec).map Prod.fst = decisionFields := rfl
      rw [hsetFields_ne_none_iff, hnames]
      simp
    · have hat : s.hashAt key = some (hsetFields (fun _ => none) (m.fields env vec)) := by
        unfold Server.hashAt
        rw [hdec.1]
      show rowFields ((s.hashAt key).getD fun _ => none) decisionFields = _
      rw [hat, Option.getD_some]
  · -- no decision of the repository is missed
    intro key h hdec
    rw [hfst]
    exact hall key h hdec

/-- A decision of the repository `r` about some files. -/
def decisionAbout (name decisionType files scope : String) : DecisionMemory where
  repo := "r"
  name := name
  decisionType := decisionType
  decision := "d"
  rationale := "w"
  alternatives := ""
  constraint := ""
  scope := scope
  files := files
  status := ""
  supersedes := ""
  supersededBy := ""

/-- The hash of a decision that is new. -/
def newHash (m : DecisionMemory) : Hash ℕ := hsetFields (fun _ => none) (m.fields .still [])

/-- A save of a new decision. -/
theorem saveDecision_new {s : Server ℕ} {m : DecisionMemory}
    (hnew : s.keys.lookup (decisionKey .mem m.repo m.name) = none) :
    (saveDecision .still .mem m).run s = (none, s.putHash (decisionKey .mem m.repo m.name) (newHash m)) := by
  have hat : s.hashAt (decisionKey .mem m.repo m.name) = some fun _ => none := by
    unfold Server.hashAt
    rw [hnew]
  have hwrite : saveDecision .still .mem m
      = errOf <$> Mdb.hset (decisionKey .mem m.repo m.name) (m.fields .still []) := rfl
  rw [hwrite, run_map, Mdb.hset_run, hat]
  rfl

/-- The store with one decision. -/
def oneDecision (m : DecisionMemory) : Server ℕ :=
  (Server.empty ℕ).putHash (decisionKey .mem m.repo m.name) (newHash m)

section Two

variable {m m' : DecisionMemory}

/-- The save of a second decision. -/
theorem save_second (hne : decisionKey .mem m'.repo m'.name ≠ decisionKey .mem m.repo m.name) :
    (saveDecision .still .mem m').run (oneDecision m)
      = (none, (oneDecision m).putHash (decisionKey .mem m'.repo m'.name) (newHash m')) :=
  saveDecision_new ((Server.lookup_putHash_ne _ _ hne).trans rfl)

/-- There are these two decisions then. -/
theorem isDecision_two (hrepo : m.repo = m'.repo)
    (hne : decisionKey .mem m'.repo m'.name ≠ decisionKey .mem m.repo m.name) {key : String} {h : Hash ℕ} :
    IsDecision .mem ((oneDecision m).putHash (decisionKey .mem m'.repo m'.name) (newHash m')) m'.repo key h ↔
      (key = decisionKey .mem m.repo m.name ∧ h = newHash m) ∨
        (key = decisionKey .mem m'.repo m'.name ∧ h = newHash m') := by
  have hprefix : ∀ repo name, (keyPrefix .mem).toList <+: (decisionKey .mem repo name).toList := by
    intro repo name
    simp only [decisionKey, String.toList_append, List.append_assoc]
    exact List.prefix_append _ _
  have hhash : ∀ m : DecisionMemory, (newHash m).text "mem_type" = "decision" ∧ (newHash m).text "repo" = m.repo :=
    fun m => ⟨rfl, rfl⟩
  constructor
  · rintro ⟨hlookup, -, -, -⟩
    -- the second decision was written last, the first before it, and nothing else
    by_cases hkey : key = decisionKey .mem m'.repo m'.name
    · subst hkey
      rw [Server.lookup_putHash_self] at hlookup
      exact .inr ⟨rfl, (Entry.hash.inj (Option.some.inj hlookup)).symm⟩
    · rw [Server.lookup_putHash_ne _ _ hkey] at hlookup
      by_cases hkey' : key = decisionKey .mem m.repo m.name
      · subst hkey'
        unfold oneDecision at hlookup
        rw [Server.lookup_putHash_self] at hlookup
        exact .inl ⟨rfl, (Entry.hash.inj (Option.some.inj hlookup)).symm⟩
      · unfold oneDecision at hlookup
        rw [Server.lookup_putHash_ne _ _ hkey'] at hlookup
        cases hlookup
  · rintro (⟨rfl, rfl⟩ | ⟨rfl, rfl⟩)
    · -- the first one is still there, as the second has another key
      refine ⟨?_, hprefix _ _, (hhash m).1, (hhash m).2.trans hrepo⟩
      rw [Server.lookup_putHash_ne _ _ hne.symm]
      exact Server.lookup_putHash_self _ _
    · exact ⟨Server.lookup_putHash_self _ _, hprefix _ _, (hhash m').1, (hhash m').2⟩

/-- What can be printed, in ASCII. -/
def asciiPrint (c : Char) : Bool := decide (' ' ≤ c ∧ c ≤ '~')

/-- The keys of the two. -/
def keysOf (m m' : DecisionMemory) : List String :=
  [decisionKey .mem m.repo m.name, decisionKey .mem m'.repo m'.name]

/-- The save of the second of two decisions, with the warnings. -/
def saveTwo (m m' : DecisionMemory) : (List String × Option SaveErr) × Server ℕ :=
  saveDecisionWarned (fun _ => (0 : ℕ)) (listKeys (keysOf m m')) asciiRunes asciiPrint .still .mem m' (oneDecision m)

theorem saveTwo_server (hne : decisionKey .mem m'.repo m'.name ≠ decisionKey .mem m.repo m.name) :
    (saveTwo m m').1.2 = none ∧
      (saveTwo m m').2 = (oneDecision m).putHash (decisionKey .mem m'.repo m'.name) (newHash m') := by
  unfold saveTwo saveDecisionWarned
  rw [save_second hne]
  exact ⟨rfl, rfl⟩

/-- They are listed, and are within the limit. -/
theorem lists_two (hrepo : m.repo = m'.repo)
    (hne : decisionKey .mem m'.repo m'.name ≠ decisionKey .mem m.repo m.name) :
    WithinLimit .mem (saveTwo m m').2 m'.repo ∧
      ListsDecisions (listKeys (keysOf m m') (saveTwo m m').2) .mem (saveTwo m m').2 m'.repo := by
  rw [(saveTwo_server hne).2]
  -- the server holds the two decisions and no third
  have hall : ∀ key h, IsDecision .mem ((oneDecision m).putHash (decisionKey .mem m'.repo m'.name) (newHash m'))
      m'.repo key h → key ∈ keysOf m m' := by
    intro key h hdec
    rcases (isDecision_two hrepo hne).mp hdec with ⟨rfl, -⟩ | ⟨rfl, -⟩
    · exact List.mem_cons_self
    · exact List.mem_cons_of_mem _ List.mem_cons_self
  constructor
  · -- two keys are fewer than the 500 that the search returns
    intro keys hnodup hkeys
    have hsub : keys ⊆ keysOf m m' := fun key hkey => (hkeys key hkey).elim fun h hdec => hall key h hdec
    have hle := (hnodup.subperm hsub).length_le
    have htwo : (keysOf m m').length = 2 := rfl
    have hlimit : (listCommand .mem m'.repo "" true).limit = 500 := rfl
    omega
  · refine listsDecisions_listKeys ?_ (fun key hkey => ?_) hall
    · exact List.nodup_cons.mpr ⟨fun h => hne (List.mem_singleton.mp h).symm, List.nodup_singleton _⟩
    · rcases List.mem_cons.mp hkey with rfl | hkey
      · exact ⟨.still, m, [], (isDecision_two hrepo hne).mpr (.inl ⟨rfl, rfl⟩)⟩
      · obtain rfl := List.mem_singleton.mp hkey
        exact ⟨.still, m', [], (isDecision_two hrepo hne).mpr (.inr ⟨rfl, rfl⟩)⟩

theorem filed_oneDecision (m : DecisionMemory) : Filed .mem (oneDecision m) :=
  (Filed.empty .mem).putHash fun _ => rfl

end Two

def useRedis (files : String) : DecisionMemory := decisionAbout "use-redis" "architecture" files "main"

def noCache (files : String) : DecisionMemory := decisionAbout "no-cache" "constraint" files "dev"

theorem noCache_key_ne (files files' : String) : decisionKey .mem (noCache files').repo (noCache files').name ≠
    decisionKey .mem (useRedis files).repo (useRedis files).name := by
  show decisionKey .mem "r" "no-cache" ≠ decisionKey .mem "r" "use-redis"
  decide

theorem useRedis_repo (files files' : String) : (useRedis files).repo = (noCache files').repo := rfl

/-- The other decision is the first one. -/
theorem eq_useRedis {files files' key : String} {h : Hash ℕ}
    (hdec : IsDecision .mem (saveTwo (useRedis files) (noCache files')).2 (noCache files').repo key h)
    (hother : key ≠ decisionKey .mem (noCache files').repo (noCache files').name) :
    h = newHash (useRedis files) := by
  have hne := noCache_key_ne files files'
  rw [(saveTwo_server hne).2] at hdec
  rcases (isDecision_two (useRedis_repo files files') hne).mp hdec with ⟨-, rfl⟩ | ⟨hkey, -⟩
  · rfl
  · exact absurd hkey hother

/-- Two decisions about one file: the save warns, and exactly. -/
theorem warnings_exact_shared :
    (saveTwo (useRedis "a.go") (noCache "b.go, a.go,")).1.1.length = 1 ∧
      ExactWarnings asciiPrint .mem (saveTwo (useRedis "a.go") (noCache "b.go, a.go,")).2 (noCache "b.go, a.go,")
        (saveTwo (useRedis "a.go") (noCache "b.go, a.go,")).1.1 := by
  have hne := noCache_key_ne "a.go" "b.go, a.go,"
  obtain ⟨hlimit, hlists⟩ := lists_two (useRedis_repo "a.go" "b.go, a.go,") hne
  refine ⟨by decide +kernel, (warnings_exact_iff (K := .mem) (fun _ => (0 : ℕ)) asciiRunes asciiPrint
    (listKeys (keysOf (useRedis "a.go") (noCache "b.go, a.go,"))) .still (noCache "b.go, a.go,")
    (filed_oneDecision (useRedis "a.go")) (saveTwo_server hne).1 hlimit hlists).1.mpr ?_⟩
  intro key h hdec hother
  obtain rfl := eq_useRedis hdec hother
  decide +kernel

/-- Two decisions with nothing in common but a comma at the end of their lists: the save warns. -/
theorem trailing_comma_warned :
    (saveTwo (useRedis "a.go,") (noCache "b.go,")).1.1 = ["conflict: decision \"no-cache\" (type=constraint) " ++
        "overlaps scope/files with \"use-redis\" (type=architecture): d"] ∧
      ¬ ExactWarnings asciiPrint .mem (saveTwo (useRedis "a.go,") (noCache "b.go,")).2 (noCache "b.go,")
        (saveTwo (useRedis "a.go,") (noCache "b.go,")).1.1 := by
  have hwarnings : (saveTwo (useRedis "a.go,") (noCache "b.go,")).1.1 = ["conflict: decision \"no-cache\" " ++
      "(type=constraint) overlaps scope/files with \"use-redis\" (type=architecture): d"] := by decide +kernel
  refine ⟨hwarnings, ?_⟩
  rintro ⟨ds, -, hiff, heq⟩
  rw [hwarnings] at heq
  obtain ⟨⟨key, h⟩, hmem⟩ : ∃ p, p ∈ ds := by
    cases ds with
    | nil => cases heq
    | cons p ds => exact ⟨p, List.mem_cons_self⟩
  obtain ⟨hdec, hother, hconf⟩ := (hiff key h).mp hmem
  obtain rfl := eq_useRedis hdec hother
  exact absurd hconf (by decide +kernel)

end Devrouter.Memory
