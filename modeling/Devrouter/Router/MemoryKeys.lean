import Devrouter.Lib.Trim
import Devrouter.Memory.Keys
import Devrouter.Router.Credit
import Devrouter.Router.TraceRecords

/-!
# The memory keys of a trace

The keys of the memories a query returned are joined by commas in its trace (`traceHashFields`) and split
again by `attributeFalsePositives` (`splitCSV`). A key holds the repo and the name of the memory;
`sanitizeKey` replaces colons, blanks and slashes in the name, and neither a comma nor any other white
space. `returnedKeys_iff` says for which memories the list survives.
-/

open Prog

namespace Devrouter

variable {F : Type}

/-! ### The list of a trace -/

/-- An entry of a comma-separated list that is read back as it is. -/
structure Plain (s : String) : Prop where
  ne_empty : s ≠ ""
  no_comma : ',' ∉ s.toList
  tight : s.toList.Tight goIsSpace

/-- What `splitCSV` returns is plain. -/
theorem plain_of_mem_splitCSV {s x : String} (hx : x ∈ splitCSV s) : Plain x := by
  unfold splitCSV at hx
  split_ifs at hx with hs
  · exact absurd hx List.not_mem_nil
  · obtain ⟨hmem, hne⟩ := List.mem_filter.mp hx
    obtain ⟨part, hpart, rfl⟩ := List.mem_map.mp hmem
    have htext : (trimSpace (String.ofList part)).toList = part.trimWhile goIsSpace := by
      rw [trimSpace_toList, String.toList_ofList]
    refine ⟨by simpa using hne, fun hcomma => ?_, ?_⟩
    · rw [htext] at hcomma
      exact List.notMem_of_mem_splitOn hpart (List.mem_of_mem_trimWhile hcomma)
    · rw [htext]
      exact List.tight_trimWhile _ _

/-- **A joined list is read back** exactly when its entries are plain. -/
theorem splitCSV_intercalate_iff (xs : List String) :
    splitCSV (",".intercalate xs) = xs ↔ ∀ x ∈ xs, Plain x := by
  constructor
  · intro h x hx
    exact plain_of_mem_splitCSV (h ▸ hx)
  · intro h
    unfold splitCSV
    split_ifs with hempty
    · -- a plain entry would make the text non-empty
      cases xs with
      | nil => rfl
      | cons x xs =>
        have hsplit : ((",".intercalate (x :: xs)).toList.splitOn ',').map String.ofList = x :: xs :=
          String.splitOn_intercalate_sep rfl (fun y hy => (h y hy).no_comma) (by simp)
        rw [hempty] at hsplit
        have hx : x = "" := (List.cons.inj hsplit).1.symm
        exact absurd hx (h x List.mem_cons_self).ne_empty
    · have hne : xs ≠ [] := by
        rintro rfl
        exact hempty rfl
      have hsplit : ((",".intercalate xs).toList.splitOn ',').map String.ofList = xs :=
        String.splitOn_intercalate_sep rfl (fun y hy => (h y hy).no_comma) hne
      have hmap : ((",".intercalate xs).toList.splitOn ',').map (fun p => trimSpace (String.ofList p)) =
          (((",".intercalate xs).toList.splitOn ',').map String.ofList).map trimSpace := by
        rw [List.map_map]
        rfl
      have htrim : xs.map trimSpace = xs := by
        refine (List.map_congr_left fun x hx => ?_).trans (List.map_id xs)
        exact trimSpace_eq_self_iff.mpr (h x hx).tight
      rw [hmap, hsplit, htrim, List.filter_eq_self]
      exact fun x hx => decide_eq_true (h x hx).ne_empty

theorem splitCSV_eq (s : String) :
    splitCSV s = ((s.toList.splitOn ',').map fun p => trimSpace (String.ofList p)).filter (· ≠ "") := by
  unfold splitCSV
  split_ifs with hs
  · subst hs
    decide +kernel
  · rfl

theorem splitCSV_comma (s t : String) : splitCSV (s ++ "," ++ t) = splitCSV s ++ splitCSV t := by
  have hlist : (s ++ "," ++ t).toList = s.toList ++ ',' :: t.toList := by simp
  rw [splitCSV_eq, splitCSV_eq, splitCSV_eq, hlist, List.splitOn_append_cons_self, List.map_append, List.filter_append]

/-- A joined list is split entry by entry. -/
theorem splitCSV_intercalate (xs : List String) : splitCSV (",".intercalate xs) = xs.flatMap splitCSV := by
  induction xs with
  | nil => rfl
  | cons x xs ih =>
    rw [List.flatMap_cons, ← ih]
    by_cases hxs : xs = []
    · subst hxs
      rw [String.intercalate_singleton, String.intercalate_nil]
      exact (List.append_nil _).symm
    · rw [String.intercalate_cons_of_ne_nil hxs, splitCSV_comma]

/-- An entry that is split off is a part of the text. -/
theorem isInfix_of_mem_splitCSV {s x : String} (hx : x ∈ splitCSV s) : x.toList <:+: s.toList := by
  rw [splitCSV_eq] at hx
  obtain ⟨part, hpart, rfl⟩ := List.mem_map.mp (List.mem_filter.mp hx).1
  rw [trimSpace_toList, String.toList_ofList]
  exact (List.trimWhile_isInfix _ _).trans (List.isInfix_of_mem_splitOnP hpart)

theorem splitCSV_of_plain {s : String} (hs : Plain s) : splitCSV s = [s] := by
  have hone := (splitCSV_intercalate_iff [s]).mpr (List.forall_mem_singleton.mpr hs)
  rwa [String.intercalate_singleton] at hone

/-! ### The keys of returned memories -/

/-- A returned memory: what its record is stored under. -/
structure ReturnedMemory where
  repo : String
  ident : Memory.Ident
  deriving DecidableEq, Repr

def ReturnedMemory.key (K : Memory.Keyspace) (m : ReturnedMemory) : String := m.ident.key K m.repo

/-- The agent memories of a response. -/
structure AgentMemories where
  files : List ReturnedMemory
  functions : List ReturnedMemory
  flows : List ReturnedMemory

def AgentMemories.all (m : AgentMemories) : List ReturnedMemory := m.files ++ m.functions ++ m.flows

/-- `agentMemoryKeys`: the keys that are not empty. -/
def agentMemoryKeys (K : Memory.Keyspace) (m : AgentMemories) : List String :=
  (m.files.map (·.key K)).filter (· ≠ "") ++ (m.functions.map (·.key K)).filter (· ≠ "") ++
    (m.flows.map (·.key K)).filter (· ≠ "")

/-- The key of the memory holds no comma, and no white space at its ends: it starts with the keyspace, and
its last rune is that of the name unless `sanitizeKey` replaced it. -/
structure ReturnedMemory.CsvSafe (K : Memory.Keyspace) (m : ReturnedMemory) : Prop where
  keyspace_no_comma : ',' ∉ K.str.toList
  keyspace_head : ∀ c, K.str.toList.head? = some c → goIsSpace c = false
  repo_no_comma : ',' ∉ m.repo.toList
  name_no_comma : ',' ∉ m.ident.text.toList
  name_last : ∀ c, m.ident.text.toList.getLast? = some c → goIsSpace c = false ∨ c = ' '

theorem ReturnedMemory.key_toList (K : Memory.Keyspace) (m : ReturnedMemory) :
    (m.key K).toList = K.str.toList ++ ':' :: (m.repo.toList ++ ':' :: (m.ident.kind.toList ++
      ':' :: m.ident.text.toList.map Memory.sanitizeRune)) := by
  unfold ReturnedMemory.key
  rw [Memory.Ident.key_eq]
  simp [Memory.keyPrefix, Memory.sanitizeKey]

theorem ReturnedMemory.key_ne_empty (K : Memory.Keyspace) (m : ReturnedMemory) : m.key K ≠ "" := by
  intro h
  have hlist := congrArg String.toList h
  rw [m.key_toList] at hlist
  simp at hlist

theorem sanitizeRune_eq_comma {c : Char} : Memory.sanitizeRune c = ',' ↔ c = ',' := by
  unfold Memory.sanitizeRune
  split_ifs with h
  · constructor
    · intro heq
      exact absurd heq (by decide)
    · rintro rfl
      exact absurd h (by decide)
  · exact Iff.rfl

/-- The runes that are still white space once sanitised: all but the blank. -/
theorem goIsSpace_sanitizeRune {c : Char} :
    goIsSpace (Memory.sanitizeRune c) = false ↔ goIsSpace c = false ∨ c = ' ' := by
  unfold Memory.sanitizeRune
  split_ifs with h
  · refine iff_of_true (by decide) ?_
    simp only [Bool.or_eq_true, decide_eq_true_eq] at h
    rcases h with ((rfl | rfl) | rfl) | rfl
    · exact .inl (by decide)
    · exact .inr rfl
    · exact .inl (by decide)
    · exact .inl (by decide)
  · refine (or_iff_left fun hblank => h ?_).symm
    rw [hblank]
    decide

theorem kind_no_comma (i : Memory.Ident) : ',' ∉ i.kind.toList := by
  cases i <;> simp [Memory.Ident.kind]

/-- **A key is read back** from the list exactly when its memory is safe. -/
theorem ReturnedMemory.plain_key_iff (K : Memory.Keyspace) (m : ReturnedMemory) :
    Plain (m.key K) ↔ m.CsvSafe K := by
  have hK : K.str.toList ≠ [] := fun h => K.ne_empty (by rw [← String.toList_inj, h]; rfl)
  -- the kind has no comma, and sanitizing makes none
  have hcomma : ',' ∉ (m.key K).toList ↔
      ',' ∉ K.str.toList ∧ ',' ∉ m.repo.toList ∧ ',' ∉ m.ident.text.toList := by
    have hname : ',' ∈ m.ident.text.toList.map Memory.sanitizeRune ↔ ',' ∈ m.ident.text.toList := by
      simp only [List.mem_map, sanitizeRune_eq_comma, exists_eq_right]
    rw [m.key_toList]
    simp only [List.mem_append, List.mem_cons, hname, kind_no_comma, not_or]
    simp
  have hhead : (m.key K).toList.head? = K.str.toList.head? := by
    rw [m.key_toList, List.head?_append_of_ne_nil _ hK]
  -- the last rune of the name is the last of the key, with a blank made an underscore
  have hlast : (∀ c, (m.key K).toList.getLast? = some c → goIsSpace c = false) ↔
      ∀ c, m.ident.text.toList.getLast? = some c → goIsSpace c = false ∨ c = ' ' := by
    rw [m.key_toList]
    simp only [List.getLast?_append, List.getLast?_cons, List.getLast?_map]
    cases hl : m.ident.text.toList.getLast? with
    | none => simp [goIsSpace]
    | some c => simp [goIsSpace_sanitizeRune]
  constructor
  · intro h
    obtain ⟨h₁, h₂, h₃⟩ := hcomma.mp h.no_comma
    exact ⟨h₁, fun c hc => h.tight.head c (hhead.trans hc), h₂, h₃, hlast.mp h.tight.last⟩
  · intro h
    refine ⟨m.key_ne_empty K, hcomma.mpr ⟨h.keyspace_no_comma, h.repo_no_comma, h.name_no_comma⟩, ?_, ?_⟩
    · intro c hc
      exact h.keyspace_head c (hhead.symm.trans hc)
    · exact hlast.mpr h.name_last

theorem agentMemoryKeys_eq (K : Memory.Keyspace) (m : AgentMemories) :
    agentMemoryKeys K m = m.all.map (·.key K) := by
  have hfilter : ∀ ms : List ReturnedMemory, (ms.map (·.key K)).filter (· ≠ "") = ms.map (·.key K) := by
    intro ms
    rw [List.filter_eq_self]
    intro k hk
    obtain ⟨m', -, rfl⟩ := List.mem_map.mp hk
    exact decide_eq_true (m'.key_ne_empty K)
  unfold agentMemoryKeys AgentMemories.all
  rw [hfilter, hfilter, hfilter, List.map_append, List.map_append]

/-! ### The trace -/

/-- The parts of a served query that do not name a field have none of it. -/
theorem find?_eq_none_of_names {fields : List (String × TraceValue)} {names : List String} {name : String}
    (hnames : (fields.map Prod.fst).Sublist names) (hname : name ∉ names) : fields.find? (·.1 = name) = none := by
  rw [List.find?_eq_none]
  intro f hf heq
  have hmem : f.1 ∈ names := hnames.subset (List.mem_map_of_mem hf)
  exact hname (of_decide_eq_true heq ▸ hmem)

theorem find?_csvField (xs : List String) (name : String) :
    (csvField name xs).find? (·.1 = name) = if xs = [] then none else some (name, .text (",".intercalate xs)) := by
  unfold csvField
  by_cases hxs : xs = []
  · subst hxs
    rfl
  · simp [hxs]

theorem find?_textField (name value : String) :
    (textField name value).find? (·.1 = name) = if value = "" then none else some (name, .text value) := by
  unfold textField
  split_ifs
  · rfl
  · simp

section Served

variable (formatG : ℚ → String) (encode : List String → String) (t : ServedQuery)

/-- The fields of a trace that say which memories were returned under which topic. -/
def topicFields : List String := ["memory_keys", "topic_id", "topic_label"]

/-- The other parts of a served query have none of these fields. -/
theorem find?_traceHashFields {name : String} (hname : name ∈ topicFields) :
    (traceHashFields encode t).find? (·.1 = name) = ((csvField "memory_keys" t.memKeys).find? (·.1 = name)).or
      (((textField "topic_id" t.topicID).find? (·.1 = name)).or
        ((textField "topic_label" t.topicLabel).find? (·.1 = name))) := by
  -- none of the other fields has one of these names
  have hcsv : ∀ (other : String) (xs : List String), other ∉ topicFields →
      (csvField other xs).find? (·.1 = name) = none := fun other xs hother =>
    find?_eq_none_of_names (csvField_names other xs) fun h => hother (List.mem_singleton.mp h ▸ hname)
  have htext : ∀ other value : String, other ∉ topicFields →
      (textField other value).find? (·.1 = name) = none := fun other value hother =>
    find?_eq_none_of_names (textField_names other value) fun h => hother (List.mem_singleton.mp h ▸ hname)
  have hfixed : ∀ {fields : List (String × TraceValue)}, (∀ n ∈ topicFields, n ∉ fields.map Prod.fst) →
      fields.find? (·.1 = name) = none := fun h => find?_eq_none_of_names (List.Sublist.refl _) (h name hname)
  have hsource : ((t.sourceExplore.map sourceFields).getD []).find? (·.1 = name) = none := by
    cases t.sourceExplore with
    | none => rfl
    | some e => exact hfixed (by simp [topicFields, sourceFields])
  have houtcome : ((t.outcome.map outcomeFields).getD []).find? (·.1 = name) = none := by
    cases t.outcome with
    | none => rfl
    | some o => exact hfixed (by simp [topicFields, outcomeFields])
  have hflag : (if t.heuristicFromTopic then [("heuristic_from_topic", TraceValue.text "true")] else []).find?
      (·.1 = name) = none := by
    split_ifs
    · exact hfixed (by decide)
    · rfl
  unfold traceHashFields
  simp only [List.find?_append, hcsv "search_files" _ (by decide), hcsv "graph_files" _ (by decide),
    htext "repeated_exploration_of" _ (by decide), hsource, houtcome, hflag, Option.or_none]
  rw [hfixed (by simp [topicFields]), Option.none_or, Option.or_assoc]

/-- The trace of a query holds the joined keys, and no field when there are none. -/
theorem traceField_memory_keys :
    traceField formatG (traceHashFields encode t) "memory_keys" = ",".intercalate t.memKeys := by
  unfold traceField
  rw [find?_traceHashFields encode t (by decide), find?_csvField,
    find?_eq_none_of_names (textField_names "topic_id" t.topicID) (by decide),
    find?_eq_none_of_names (textField_names "topic_label" t.topicLabel) (by decide)]
  by_cases hkeys : t.memKeys = []
  · rw [hkeys]
    rfl
  · simp [hkeys]

theorem traceField_topic_id : traceField formatG (traceHashFields encode t) "topic_id" = t.topicID := by
  unfold traceField
  rw [find?_traceHashFields encode t (by decide), find?_textField,
    find?_eq_none_of_names (csvField_names "memory_keys" t.memKeys) (by decide),
    find?_eq_none_of_names (textField_names "topic_label" t.topicLabel) (by decide)]
  by_cases hid : t.topicID = ""
  · rw [hid]
    rfl
  · simp [hid]

theorem traceField_topic_label : traceField formatG (traceHashFields encode t) "topic_label" = t.topicLabel := by
  unfold traceField
  rw [find?_traceHashFields encode t (by decide), find?_textField,
    find?_eq_none_of_names (csvField_names "memory_keys" t.memKeys) (by decide),
    find?_eq_none_of_names (textField_names "topic_id" t.topicID) (by decide)]
  by_cases hlabel : t.topicLabel = ""
  · rw [hlabel]
    rfl
  · simp [hlabel]

end Served

/-! ### The attribution -/

section Attribution

open Memory

theorem hgetall_run (s : Server F) (k : String) : (Mdb.hgetall (F := F) k).run s = (s.hashAt k, s) := by
  unfold Mdb.hgetall
  rw [run_map, run_call]
  rfl

/-- `LoadMemoryFiles` reads the record of each key, when each holds a hash. -/
theorem readMemoryFiles_run (s : Server F) {keys : List String}
    (hs : ∀ k ∈ keys, (s.hashAt k).isSome = true) :
    ∃ m, (readMemoryFiles (F := F) keys).run s = (some m, s) ∧
      ∀ k ∈ keys, ∀ h, s.hashAt k = some h → m k = memoryFiles h := by
  induction keys with
  | nil => exact ⟨fun _ => [], rfl, fun k hk => absurd hk List.not_mem_nil⟩
  | cons k ks ih =>
    obtain ⟨m, hm, hfiles⟩ := ih fun k' hk' => hs k' (List.mem_cons_of_mem k hk')
    obtain ⟨h, hh⟩ := Option.isSome_iff_exists.mp (hs k List.mem_cons_self)
    refine ⟨Function.update m k (memoryFiles h), ?_, fun k' hk' h' hh' => ?_⟩
    · -- the key is there, so its files are read
      unfold readMemoryFiles
      rw [run_bind, hgetall_run, run_bind]
      dsimp only
      rw [hm, hh]
      rfl
    · -- a key that comes again is read again, with the same result
      by_cases hkk : k' = k
      · subst hkk
        rw [Function.update_self, Option.some.inj (hh.symm.trans hh')]
      · rw [Function.update_of_ne hkk]
        exact hfiles k' ((List.mem_cons.mp hk').resolve_left hkk) h' hh'

/-- The memories a list of keys is attributed to: the list is that of the returned memories, the false
positives of no other memory are written, whatever fails, and the files of each are found. -/
structure AttributesReturned (env : FeedbackEnv F) (fields : TraceFields) (m : AgentMemories) : Prop where
  keys_eq : splitCSV (traceField env.formatG fields "memory_keys") = agentMemoryKeys env.keyspace m
  writes : ∀ call : FeedbackCall, (attributeFalsePositives env fields call.toFeedbackInput).Within
    (Spares fun key => ∃ r ∈ m.all, key = fpKey (r.key env.keyspace))
  finds : ∀ s : Server F, (∀ r ∈ m.all, (s.hashAt (r.key env.keyspace)).isSome = true) →
    ∀ r ∈ m.all, ∀ h, s.hashAt (r.key env.keyspace) = some h →
      ((loadMemoryFiles (splitCSV (traceField env.formatG fields "memory_keys"))).run s).1 (r.key env.keyspace) =
        memoryFiles h

/-- Once the list is read back, the rest follows. -/
theorem attributesReturned_of_keys (env : FeedbackEnv F) {fields : TraceFields} {m : AgentMemories}
    (hkeys : splitCSV (traceField env.formatG fields "memory_keys") = agentMemoryKeys env.keyspace m) :
    AttributesReturned env fields m := by
  have hmem : ∀ k, k ∈ splitCSV (traceField env.formatG fields "memory_keys") ↔
      ∃ r ∈ m.all, r.key env.keyspace = k := by
    intro k
    rw [hkeys, agentMemoryKeys_eq, List.mem_map]
  refine ⟨hkeys, fun call => ?_, fun s hs r hr h hh => ?_⟩
  · -- a feedback without a flow credits the false positives of the listed keys only
    have hspares := attributeFalsePositives_spares env { call with flowID := "" } fields
    intro s
    refine wp_mono (hspares s) fun _ s' h key hkey => h key fun hcredit => hkey ?_
    rcases hcredit with ⟨mk, hmk, rfl⟩ | ⟨repo, name, hcut, -⟩
    · obtain ⟨r, hr, rfl⟩ := (hmem mk).mp hmk
      exact ⟨r, hr, rfl⟩
    · exact absurd hcut (by simp [cutSlash])
  · obtain ⟨f, hrun, hfiles⟩ := readMemoryFiles_run s fun k hk => by
      obtain ⟨r', hr', rfl⟩ := (hmem k).mp hk
      exact hs r' hr'
    unfold loadMemoryFiles
    rw [run_bind, hrun]
    exact hfiles _ ((hmem _).mpr ⟨r, hr, rfl⟩) h hh

end Attribution

/-- **The keys in a trace** are attributed to the returned memories exactly when each of these is safe: no
comma in the keyspace, the repo or the name, no white space in front of the keyspace, and none but blanks
at the end of the name. -/
theorem returnedKeys_iff (env : FeedbackEnv F) (encode : List String → String) (t : ServedQuery)
    (m : AgentMemories) :
    AttributesReturned env (traceHashFields encode { t with memKeys := agentMemoryKeys env.keyspace m }) m ↔
      ∀ r ∈ m.all, r.CsvSafe env.keyspace := by
  have hkeys : splitCSV (traceField env.formatG
        (traceHashFields encode { t with memKeys := agentMemoryKeys env.keyspace m }) "memory_keys") =
      agentMemoryKeys env.keyspace m ↔ ∀ r ∈ m.all, r.CsvSafe env.keyspace := by
    rw [traceField_memory_keys, splitCSV_intercalate_iff, agentMemoryKeys_eq]
    simp only [List.forall_mem_map, ReturnedMemory.plain_key_iff]
  rw [← hkeys]
  exact ⟨fun h => h.keys_eq, attributesReturned_of_keys env⟩

/-! ### A file with a comma -/

/-- The memory of a file whose name holds a comma. -/
def commaFile : AgentMemories := ⟨[⟨"r", .file "a,b.go"⟩], [], []⟩

/-- An environment with one embedding. -/
def commaEnv : FeedbackEnv ℕ := ⟨fun _ => "", fun _ => some (List.replicate Memory.embedDim 0), fun _ x _ => x, id, .mem⟩

/-- Its key is split in two, neither of which is the key of a returned memory; a feedback that missed files
makes a centroid for `b.go`. -/
theorem commaFile_split :
    agentMemoryKeys .mem commaFile = ["mem:r:file:a,b.go"] ∧
      splitCSV (",".intercalate (agentMemoryKeys .mem commaFile)) = ["mem:r:file:a", "b.go"] ∧
      (((attributeFalsePositives commaEnv
          [("query", .text "q"), ("memory_keys", .text (",".intercalate (agentMemoryKeys .mem commaFile)))]
          ⟨"q1", 1, 0, "c.go", true⟩).run (Memory.Server.empty ℕ)).2.keys.lookup (Memory.fpKey "b.go")).isSome =
        true := by
  decide +kernel

end Devrouter
