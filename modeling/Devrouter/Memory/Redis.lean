import Mathlib.Data.List.AList
import Devrouter.Lib.Prog
import Devrouter.Lib.GoText

/-!
# The Redis server behind the memory package

The part of Redis that `internal/memory` uses, as a `Service`: one keyspace of typed entries, with the
hash and string commands, `SCAN` by pattern, and the index commands of RediSearch. A key is the string
the source renders. A command on a key of another type is answered with an error and does nothing; the
client does not tell that error from a failure.

The fields of a hash are a function, so two hashes are equal when they hold the same fields. The
scalars of the embeddings are a parameter `F`. Expiry times and the schemas of the indexes are not
modelled.
-/

open Prog

namespace Devrouter.Memory

variable {F : Type}

/-- The value of a hash field. -/
inductive Value (F : Type) where
  | text (s : String)
  /-- A decimal number, kept as the number. -/
  | int (n : Int)
  /-- The bytes of an embedding, kept as the vector. -/
  | vec (v : List F)
  deriving DecidableEq, Repr

/-- A value read into a Go string. No field that is read as one holds an embedding. -/
def Value.str : Value F → String
  | .text s => s
  | .int n => toString n
  | .vec _ => ""

/-- The fields of a hash. -/
abbrev Hash (F : Type) := String → Option (Value F)

/-- `HSET` on the fields of a hash. -/
def hsetFields (h : Hash F) (fields : List (String × Value F)) : Hash F :=
  fields.foldl (fun h f => Function.update h f.1 (some f.2)) h

/-- A field that is not among those set keeps its value. -/
theorem hsetFields_of_notMem {fields : List (String × Value F)} {f : String}
    (hf : f ∉ fields.map Prod.fst) (h : Hash F) : hsetFields h fields f = h f := by
  induction fields generalizing h with
  | nil => rfl
  | cons p fields ih =>
    rw [List.map_cons, List.mem_cons, not_or] at hf
    calc hsetFields h (p :: fields) f = Function.update h p.1 (some p.2) f := ih hf.2 _
      _ = h f := Function.update_of_ne hf.1 _ _

/-- A field that is set does not depend on what was there. -/
theorem hsetFields_congr {fields : List (String × Value F)} {f : String}
    (hf : f ∈ fields.map Prod.fst) (h h' : Hash F) :
    hsetFields h fields f = hsetFields h' fields f := by
  induction fields generalizing h h' with
  | nil => exact absurd hf List.not_mem_nil
  | cons p fields ih =>
    by_cases htail : f ∈ fields.map Prod.fst
    · exact ih htail _ _
    · obtain rfl : f = p.1 := (List.mem_cons.mp hf).resolve_right htail
      have hself : ∀ h : Hash F, hsetFields h (p :: fields) p.1 = some p.2 := fun h =>
        calc hsetFields h (p :: fields) p.1 = Function.update h p.1 (some p.2) p.1 :=
              hsetFields_of_notMem htail _
          _ = some p.2 := Function.update_self _ _ _
      rw [hself, hself]

/-- A field that is set once holds what it was set to. -/
theorem hsetFields_of_mem {fields : List (String × Value F)}
    (hnodup : (fields.map Prod.fst).Nodup) {p : String × Value F} (hp : p ∈ fields) (h : Hash F) :
    hsetFields h fields p.1 = some p.2 := by
  induction fields generalizing h with
  | nil => exact absurd hp List.not_mem_nil
  | cons q fields ih =>
    rw [List.map_cons, List.nodup_cons] at hnodup
    rcases List.mem_cons.mp hp with rfl | hmem
    · calc hsetFields h (p :: fields) p.1 = Function.update h p.1 (some p.2) p.1 :=
            hsetFields_of_notMem hnodup.1 _
        _ = some p.2 := Function.update_self _ _ _
    · exact ih hnodup.2 hmem _

/-- A field read into a Go string; empty when it is missing. -/
def Hash.text (h : Hash F) (field : String) : String := ((h field).map Value.str).getD ""

/-- The value of a key. -/
inductive Entry (F : Type) where
  | hash (h : Hash F)
  | str (s : String)
  /-- A list or a sorted set of another package. -/
  | list (xs : List String)

/-- The server's data. -/
structure Server (F : Type) where
  keys : AList fun _ : String => Entry F
  /-- The names of the RediSearch indexes. -/
  indexes : List String

/-- The server of a fresh installation. -/
def Server.empty (F : Type) : Server F := ⟨∅, []⟩

/-- `MATCH` of `SCAN`, for patterns without character classes. -/
def globMatch : List Char → List Char → Bool
  | [], s => s.isEmpty
  -- a `*` takes any part of what is left
  | '*' :: p, s => s.tails.any (globMatch p)
  | '?' :: p, s =>
    match s with
    | [] => false
    | _ :: s => globMatch p s
  | '\\' :: c :: p, s =>
    match s with
    | [] => false
    | d :: s => c == d && globMatch p s
  | c :: p, s =>
    match s with
    | [] => false
    | d :: s => c == d && globMatch p s

/-- The commands the package issues. -/
inductive Cmd (F : Type) where
  | hget (key field : String)
  | hset (key : String) (fields : List (String × Value F))
  | hincrby (key field : String) (n : Int)
  | hgetall (key : String)
  | existsKey (key : String)
  | get (key : String)
  | set (key value : String)
  /-- A whole iteration of `SCAN`: the keys it returns. -/
  | scan (pattern : String)
  | del (keys : List String)
  | ftInfo (name : String)
  | ftCreate (name : String)
  | ftDropIndex (name : String)

/-- The answer to a command; `none` is an error answer. A missing field or key is the inner `none` of
`HGET` and `GET` (`redis.Nil`), and an empty hash of `HGETALL`. -/
abbrev Cmd.Reply {F : Type} : Cmd F → Type
  | .hget _ _ => Option (Option (Value F))
  | .hgetall _ => Option (Hash F)
  | .existsKey _ => Nat
  | .get _ => Option (Option String)
  | .scan _ => List String
  | .del _ => Unit
  | _ => Option Unit

/-- The fields of the hash at a key: none for a missing key, an error for a key of another type. -/
def Server.hashAt (s : Server F) (key : String) : Option (Hash F) :=
  match s.keys.lookup key with
  | none => some fun _ => none
  | some (.hash h) => some h
  | some _ => none

/-- The value of a field after `HINCRBY`; no text is read as a number. -/
def incrValue (n : Int) : Option (Value F) → Option (Value F)
  | none => some (.int n)
  | some (.int m) => some (.int (m + n))
  | some _ => none

/-- Write the hash at a key. -/
def Server.putHash (s : Server F) (key : String) (h : Hash F) : Server F :=
  { s with keys := s.keys.insert key (.hash h) }

/-- What a command does. -/
def Cmd.apply : (c : Cmd F) → Server F → c.Reply × Server F
  | .hget key field, s => ((s.hashAt key).map (· field), s)
  | .hset key fields, s =>
    match s.hashAt key with
    | none => (none, s)
    | some h => (some (), s.putHash key (hsetFields h fields))
  | .hincrby key field n, s =>
    match s.hashAt key with
    | none => (none, s)
    | some h =>
      match incrValue n (h field) with
      | none => (none, s)
      | some v => (some (), s.putHash key (Function.update h field (some v)))
  | .hgetall key, s => (s.hashAt key, s)
  | .existsKey key, s => ((if (s.keys.lookup key).isSome then 1 else 0 : Nat), s)
  | .get key, s =>
    (match s.keys.lookup key with
      | none => some none
      | some (.str v) => some (some v)
      | some _ => none, s)
  | .set key value, s => (some (), { s with keys := s.keys.insert key (.str value) })
  | .scan pattern, s =>
    (s.keys.keys.filter fun k => globMatch pattern.toList k.toList, s)
  | .del keys, s => ((), { s with keys := keys.foldl (fun db k => db.erase k) s.keys })
  | .ftInfo name, s => (if name ∈ s.indexes then some () else none, s)
  | .ftCreate name, s =>
    if name ∈ s.indexes then (none, s) else (some (), { s with indexes := name :: s.indexes })
  | .ftDropIndex name, s =>
    if name ∈ s.indexes then (some (), { s with indexes := s.indexes.erase name }) else (none, s)

/-- Redis as a service. -/
abbrev memdb (F : Type) : Service where
  State := Server F
  Cmd := Cmd F
  Reply := Cmd.Reply
  apply := Cmd.apply

/-! ### The commands as programs

A failed command and an error answer are both `none`. -/

namespace Mdb

def hget (key field : String) : Prog (memdb F) (Option (Option (Value F))) :=
  Option.join <$> call (V := memdb F) (.hget key field)

def hset (key : String) (fields : List (String × Value F)) : Prog (memdb F) (Option Unit) :=
  Option.join <$> call (V := memdb F) (.hset key fields)

def hincrby (key field : String) (n : Int) : Prog (memdb F) (Option Unit) :=
  Option.join <$> call (V := memdb F) (.hincrby key field n)

def hgetall (key : String) : Prog (memdb F) (Option (Hash F)) :=
  Option.join <$> call (V := memdb F) (.hgetall key)

def existsKey (key : String) : Prog (memdb F) (Option Nat) := call (V := memdb F) (.existsKey key)

def get (key : String) : Prog (memdb F) (Option (Option String)) :=
  Option.join <$> call (V := memdb F) (.get key)

def set (key value : String) : Prog (memdb F) (Option Unit) :=
  Option.join <$> call (V := memdb F) (.set key value)

def scan (pattern : String) : Prog (memdb F) (Option (List String)) :=
  call (V := memdb F) (.scan pattern)

def del (keys : List String) : Prog (memdb F) (Option Unit) := call (V := memdb F) (.del keys)

def ftInfo (name : String) : Prog (memdb F) (Option Unit) :=
  Option.join <$> call (V := memdb F) (.ftInfo name)

def ftCreate (name : String) : Prog (memdb F) (Option Unit) :=
  Option.join <$> call (V := memdb F) (.ftCreate name)

def ftDropIndex (name : String) : Prog (memdb F) (Option Unit) :=
  Option.join <$> call (V := memdb F) (.ftDropIndex name)

end Mdb

/-! ### What a key holds after a command -/

namespace Server

variable (s : Server F) {key key' : String}

@[simp] theorem lookup_putHash_self (h : Hash F) :
    (s.putHash key h).keys.lookup key = some (.hash h) := AList.lookup_insert _

theorem lookup_putHash_ne (h : Hash F) (hne : key' ≠ key) :
    (s.putHash key h).keys.lookup key' = s.keys.lookup key' := AList.lookup_insert_ne hne

@[simp] theorem hashAt_putHash_self (h : Hash F) : (s.putHash key h).hashAt key = some h := by
  unfold hashAt
  rw [lookup_putHash_self]

theorem hashAt_putHash_ne (h : Hash F) (hne : key' ≠ key) :
    (s.putHash key h).hashAt key' = s.hashAt key' := by
  unfold hashAt
  rw [lookup_putHash_ne s h hne]

end Server

/-! ### The sequential runs of the hash commands -/

namespace Mdb

variable (s : Server F) (key : String)

@[simp] theorem hget_run (field : String) :
    (hget key field).run s = ((s.hashAt key).map (· field), s) := rfl

theorem hset_run (fields : List (String × Value F)) :
    (hset key fields).run s
      = match s.hashAt key with
        | none => (none, s)
        | some h => (some (), s.putHash key (hsetFields h fields)) := by
  change (Option.join (some _), _) = _
  cases hs : s.hashAt key with
  | none => simp [Cmd.apply, hs]
  | some h => simp [Cmd.apply, hs]

theorem hincrby_run (field : String) (n : Int) :
    (hincrby key field n).run s
      = match s.hashAt key with
        | none => (none, s)
        | some h =>
          match incrValue n (h field) with
          | none => (none, s)
          | some v => (some (), s.putHash key (Function.update h field (some v))) := by
  change (Option.join (some _), _) = _
  cases hs : s.hashAt key with
  | none => simp [Cmd.apply, hs]
  | some h =>
    cases hv : incrValue n (h field) with
    | none => simp [Cmd.apply, hs, hv]
    | some v => simp [Cmd.apply, hs, hv]

@[simp] theorem existsKey_run :
    (existsKey key).run s = (some (if (s.keys.lookup key).isSome then 1 else 0), s) := rfl

@[simp] theorem scan_run (pattern : String) :
    (scan pattern).run s
      = (some (s.keys.keys.filter fun k => globMatch pattern.toList k.toList), s) := rfl

@[simp] theorem del_run (keys : List String) :
    (del keys).run s
      = (some (), { s with keys := keys.foldl (fun db k => db.erase k) s.keys }) := rfl

/-! Any command may fail. -/

theorem hgetall_wp {Q : Option (Hash F) → Server F → Prop} :
    (hgetall key).wp Q s ↔ Q none s ∧ Q (s.hashAt key) s := Iff.rfl

/-- An error answer is no different from a failure. -/
theorem hset_wp (fields : List (String × Value F)) {Q : Option Unit → Server F → Prop} :
    (hset key fields).wp Q s ↔
      Q none s ∧ ∀ h, s.hashAt key = some h → Q (some ()) (s.putHash key (hsetFields h fields)) := by
  show Q none s ∧ Q (Option.join (some _)) _ ↔ _
  cases hs : s.hashAt key with
  | none => simp [Cmd.apply, hs]
  | some h => simp [Cmd.apply, hs]

/-! Runs in which the commands named by `fails` fail. -/

variable {α : Type} {s key} (fails : ℕ → Bool)

theorem existsKey_bind_runFaults (f : Option ℕ → Prog (memdb F) α) :
    (existsKey key >>= f).runFaults fails s
      = (f (if fails 0 then none
          else some (if (s.keys.lookup key).isSome then 1 else 0))).runFaults
        (fun n => fails (n + 1)) s := by
  change (if fails 0 then _ else _ : α × Server F) = _
  by_cases hf : fails 0 = true
  · rw [if_pos hf, if_pos hf]
    rfl
  · rw [if_neg hf, if_neg hf]
    rfl

/-- On a key that holds a string. -/
theorem get_bind_runFaults {v : String} (hs : s.keys.lookup key = some (.str v))
    (f : Option (Option String) → Prog (memdb F) α) :
    (get key >>= f).runFaults fails s
      = (f (if fails 0 then none else some (some v))).runFaults (fun n => fails (n + 1)) s := by
  have happly : Cmd.apply (.get key) s = (some (some v), s) := by
    simp [Cmd.apply, hs]
  change (if fails 0 then _ else (f (Cmd.apply (.get key) s).1).runFaults _
    (Cmd.apply (.get key) s).2 : α × Server F) = _
  rw [happly]
  by_cases hf : fails 0 = true
  · rw [if_pos hf, if_pos hf]
    rfl
  · rw [if_neg hf, if_neg hf]

/-- On a key that holds a hash, or nothing. -/
theorem hset_bind_runFaults {h : Hash F} (hs : s.hashAt key = some h)
    (fields : List (String × Value F)) (f : Option Unit → Prog (memdb F) α) :
    (hset key fields >>= f).runFaults fails s
      = if fails 0 then (f none).runFaults (fun n => fails (n + 1)) s
        else (f (some ())).runFaults (fun n => fails (n + 1))
          (s.putHash key (hsetFields h fields)) := by
  have happly : Cmd.apply (.hset key fields) s = (some (), s.putHash key (hsetFields h fields)) := by
    simp [Cmd.apply, hs]
  change (if fails 0 then _ else (f (Cmd.apply (.hset key fields) s).1).runFaults _
    (Cmd.apply (.hset key fields) s).2) = _
  rw [happly]
  rfl

end Mdb

end Devrouter.Memory
