import Devrouter.Memory.Redis

/-!
# False positives

Model of `RecordFalsePositive` and `ResetFalsePositives` in `internal/memory/falsepositives.go`: for each
memory that was returned to no use, the running mean of the embeddings of the queries and their number.

`mean c x y` is one coordinate of the running mean in the arithmetic of the scalars: `(c * x + y) / (c + 1)`.
The record's time to live is not modelled.
-/

open Prog

namespace Devrouter.Memory

variable {F : Type} (mean : ℤ → F → F → F)

def fpKeyPrefix : String := "mem:fp"

def fpKey (memKey : String) : String := fpKeyPrefix ++ ":" ++ memKey

theorem fpKey_inj {mk mk' : String} : fpKey mk = fpKey mk' ↔ mk = mk' := by
  unfold fpKey
  exact String.append_right_inj _

/-- The dimension of the embeddings. -/
def embedDim : ℕ := 768

/-- `fmt.Sscanf` with `%d`: the number a text starts with, after spaces on its first line; 0 when there is
none. Numbers have no bound, neither here nor in the count that is written. -/
def scanInt (s : String) : ℤ :=
  let cs := s.toList.dropWhile fun c => goIsSpace c && c != '\n'
  let sign := cs.takeWhile fun c => c == '-' || c == '+'
  if 1 < sign.length then 0
  else (parseInt (String.ofList (sign ++ (cs.drop sign.length).takeWhile Char.isDigit))).getD 0

/-- `parseIntField`; its error is not used. -/
def parseIntField (s : String) : ℤ := if s = "" then 0 else scanInt s

/-- The centroid in a field; only an embedding is read as one. -/
def Value.floats : Value F → List F
  | .vec v => v
  | _ => []

@[simp] theorem Value.floats_vec (v : List F) : (Value.vec v).floats = v := rfl

/-- `incrementalMean`. -/
def incrementalMean (prev : List F) (count : ℤ) (sample : List F) : List F :=
  if prev.length ≠ sample.length || count = 0 then sample
  else List.zipWith (mean count) prev sample

/-- `getFP`: the centroid and the count of a record. A missing record has neither. -/
def getFP (key : String) : Prog (memdb F) (Option (List F × ℤ)) :=
  Option.map (fun h => (((h "cent").map Value.floats).getD [], parseIntField (Hash.text h "count")))
    <$> Mdb.hgetall key

inductive FPErr where
  | memKey | dim | redis
  deriving DecidableEq, Repr

/-- `RecordFalsePositive`. -/
def recordFalsePositive (memKey : String) (queryEmbedding : List F) :
    Prog (memdb F) (Option FPErr) :=
  if memKey = "" then return some .memKey
  else if queryEmbedding.length ≠ embedDim then return some .dim
  else do
    match ← getFP (fpKey memKey) with
    | none => return some .redis
    | some (prevCent, prevCount) =>
      -- the mean and its count are written in one command
      let r ← Mdb.hset (fpKey memKey)
        [("cent", .vec (incrementalMean mean prevCent prevCount queryEmbedding)),
          ("count", .int (prevCount + 1))]
      return r.elim (some .redis) fun _ => none

/-- `ResetFalsePositives`. -/
def resetFalsePositives (memKey : String) : Prog (memdb F) (Option FPErr) :=
  if memKey = "" then return some .memKey
  else do
    let r ← Mdb.del [fpKey memKey]
    return r.elim (some .redis) fun _ => none

example : scanInt " +12ab" = 12 ∧ scanInt "\n3" = 0 ∧ scanInt "--3" = 0 := by decide

end Devrouter.Memory
