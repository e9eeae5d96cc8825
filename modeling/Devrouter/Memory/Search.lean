import Devrouter.Lib.Quoting
import Devrouter.Memory.Store

/-!
# Memory search

Model of `SearchAllWithEmbed`, `vectorSearch`, `escapeTag` and `parseMemoryHits` in `internal/memory/store.go`. The
answers of `FT.SEARCH` are a parameter, on the command the source builds; the bytes of the query vector are the vector.
The scores are a parameter `S`, read by `strconv.ParseFloat`.
-/

namespace Devrouter.Memory

variable {F S : Type}

/-! ### Replies -/

/-- A reply of the client, as the `interface{}` it is decoded into. -/
inductive Raw where
  | str (s : String)
  | int (n : ℤ)
  | arr (xs : List Raw)
  | null

/-- `v, _ := x.(string)`. -/
def Raw.asString : Raw → String
  | .str s => s
  | _ => ""

structure MemoryHit (S : Type) where
  type : String
  key : String
  score : S
  fields : String → Option String

section Replies

variable [Zero S] (parseFloat : String → S)

/-- One field of a hit. The embedding is dropped. -/
def MemoryHit.setField (h : MemoryHit S) (name val : String) : MemoryHit S :=
  if name = "score" then { h with score := parseFloat val }
  else if name ≠ "embedding" then { h with fields := Function.update h.fields name (some val) }
  else h

def MemoryHit.setFields (h : MemoryHit S) : List Raw → MemoryHit S
  | name :: val :: rest => (h.setField parseFloat name.asString val.asString).setFields rest
  | _ => h

/-- The hit of a key, before its fields are read. -/
def MemoryHit.ofKey (key : String) : MemoryHit S where
  type := ""
  key := key
  score := 0
  fields := fun _ => none

/-- The loop of `parseMemoryHits`: keys and fields in turn. -/
def parseRows : List Raw → List (MemoryHit S)
  | key :: .arr fields :: rest => (MemoryHit.ofKey key.asString).setFields parseFloat fields :: parseRows rest
  | _ :: _ :: rest => parseRows rest
  | _ => []

def parseMemoryHits : Raw → List (MemoryHit S)
  | .arr arr => if arr.length < 2 then [] else parseRows parseFloat arr.tail
  | _ => []

/-- The reply of a search: the number of the rows, and for each its key and its fields. -/
def reply (rows : List (String × List Raw)) : Raw :=
  .arr (.int rows.length :: rows.flatMap fun row => [.str row.1, .arr row.2])

omit [Zero S] in
@[simp] theorem MemoryHit.setField_key (h : MemoryHit S) (name val : String) :
    (h.setField parseFloat name val).key = h.key := by
  unfold MemoryHit.setField
  split_ifs <;> rfl

omit [Zero S] in
@[simp] theorem MemoryHit.setFields_key (fields : List Raw) (h : MemoryHit S) :
    (h.setFields parseFloat fields).key = h.key := by
  induction h, fields using MemoryHit.setFields.induct parseFloat with
  | case1 h name val rest ih =>
    rw [MemoryHit.setFields, ih, MemoryHit.setField_key]
  | case2 h fields hfields =>
    unfold MemoryHit.setFields
    split
    · exact absurd rfl (hfields _ _ _)
    · rfl

omit [Zero S] in
/-- A reply is parsed row by row. -/
theorem parse_reply {β : Type} {parse : List Raw → List β} {read : String × List Raw → β} (hnil : parse [] = [])
    (hcons : ∀ row rest, parse (.str row.1 :: .arr row.2 :: rest) = read row :: parse rest)
    (rows : List (String × List Raw)) :
    (if (Raw.int rows.length :: rows.flatMap fun row => [.str row.1, .arr row.2]).length < 2 then []
      else parse (rows.flatMap fun row => [.str row.1, .arr row.2])) = rows.map read := by
  have hrows : ∀ rows : List (String × List Raw),
      parse (rows.flatMap fun row => [.str row.1, .arr row.2]) = rows.map read := by
    intro rows
    induction rows with
    | nil => exact hnil
    | cons row rows ih =>
      rw [List.flatMap_cons, List.cons_append, List.cons_append, List.nil_append, hcons, List.map_cons, ih]
  cases rows with
  -- an empty answer is its count alone
  | nil => rfl
  | cons row rows =>
    -- a row gives two elements, so the answer is not refused
    have hlen : ¬ (Raw.int (row :: rows).length
        :: (row :: rows).flatMap fun row => [Raw.str row.1, Raw.arr row.2]).length < 2 := by
      simp
    rw [if_neg hlen]
    exact hrows (row :: rows)

/-- The hits of a reply are its rows, in their order. -/
theorem parseMemoryHits_reply (rows : List (String × List Raw)) : parseMemoryHits parseFloat (reply rows)
    = rows.map fun row => (MemoryHit.ofKey row.1).setFields parseFloat row.2 :=
  parse_reply rfl (fun _ _ => rfl) rows

theorem map_key_parseMemoryHits (rows : List (String × List Raw)) :
    (parseMemoryHits parseFloat (reply rows)).map MemoryHit.key = rows.map Prod.fst := by
  rw [parseMemoryHits_reply, List.map_map]
  refine List.map_congr_left fun row _ => ?_
  exact MemoryHit.setFields_key parseFloat row.2 _

end Replies

/-! ### Queries -/

/-- The characters `escapeTag` puts a backslash before. -/
def escapedChar (c : Char) : Bool := c = '-' || c = '.' || c = '@' || c = ' '

/-- `escapeTag`: every pattern of the replacer is one character. -/
def escapeTag (s : String) : String :=
  String.ofList (s.toList.flatMap fun c => if escapedChar c then ['\\', c] else [c])

/-- A filter on a tag field. -/
def tagClause (field body : String) : String := "@" ++ field ++ ":\x7b" ++ body ++ "\x7d"

/-- The filter of `vectorSearch`. -/
def searchFilter (repo memType branch : String) : String :=
  tagClause "mem_type" memType
    ++ (if repo ≠ "" then " " ++ tagClause "repo" (escapeTag repo) else "")
    ++ (if branch ≠ "" then " " ++ tagClause "scope" ("global|" ++ escapeTag branch) else "")

/-- What follows the filter. -/
def knnClause (k : ℕ) : String := "=>[KNN " ++ toString k ++ " @embedding $vec AS score]"

/-- An `FT.SEARCH` of the package: `PARAMS 2 vec <vec> SORTBY score LIMIT 0 <limit> DIALECT 2`. -/
structure FtSearch (F : Type) where
  index : String
  query : String
  vec : List F
  limit : ℕ

/-- `indexNameFor`. -/
def indexNameFor (K : Keyspace) (memType : String) : String :=
  if memType = "func" then "idx:" ++ K.str ++ ":func"
  else if memType = "flow" then "idx:" ++ K.str ++ ":flow"
  else if memType = "decision" then "idx:" ++ K.str ++ ":decision"
  else "idx:" ++ K.str ++ ":file"

def searchCommand (K : Keyspace) (vec : List F) (k : ℕ) (repo memType branch : String) : FtSearch F where
  index := indexNameFor K memType
  query := "(" ++ searchFilter repo memType branch ++ ")" ++ knnClause k
  vec := vec
  limit := k

section Search

variable [Zero S] (parseFloat : String → S) (ftSearch : FtSearch F → Option Raw) (K : Keyspace)

/-- `vectorSearch`. An error of the server is no hits. -/
def vectorSearch (vec : List F) (k : ℕ) (repo memType branch : String) : List (MemoryHit S) :=
  (ftSearch (searchCommand K vec k repo memType branch)).elim [] (parseMemoryHits parseFloat)

/-- The memory types `SearchAllWithEmbed` asks for, in its order. -/
def searchedTypes : List String := ["file", "func", "flow", "decision"]

def searchAllWithEmbed (vec : List F) (repo branch : String) : List (MemoryHit S) :=
  if vec.isEmpty then []
  else searchedTypes.flatMap fun mt =>
    (vectorSearch parseFloat ftSearch K vec 5 repo mt branch).map fun r => { r with type := mt }

end Search

end Devrouter.Memory
