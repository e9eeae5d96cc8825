import Mathlib.Data.List.AList
import Mathlib.Algebra.Order.Ring.Rat
import Devrouter.Lib.Prog
import Devrouter.Heuristics.Profile

/-!
# The Redis server behind the heuristics package

The values the package keeps in Redis and the commands it issues, as a `Service`. A key is the
string the source renders. The keys of the four value types are disjoint families of strings, so
each type has a table of its own.

Values are kept decoded: a profile's JSON text is the profile it decodes to (a knob missing from the
text decodes to 0) or `corrupt`, list elements are the rows they were marshalled from. Rewards are
rationals: `float64` rounding is not modelled. The scalar type `F` of the topic centroids is a
parameter. Expiry times are not modelled.
-/

namespace Devrouter

/-- The value of a profile key, as `json.Unmarshal` reads it into a zero `Profile`. -/
inductive Stored where
  | json (p : Profile)
  /-- A text that does not decode. -/
  | corrupt
  deriving DecidableEq, Repr

/-- `json.Unmarshal`. -/
def Stored.decode : Stored → Option Profile
  | .json p => some p
  | .corrupt => none

/-- The kinds of profile-change events. -/
inductive HistoryKind where
  | promote | discard | rollback
  deriving DecidableEq, Repr

/-- One profile-change event, for audit. -/
structure HistoryEntry where
  timestamp : Int
  kind : HistoryKind
  from_ : Profile
  to_ : Profile
  reason : String
  deriving DecidableEq, Repr

/-- One row of a daily reward list. -/
structure RewardRow where
  queryID : String
  profileID : String
  rawReward : ℚ
  adjustedReward : ℚ
  promptTokens : Int
  additionalFiles : Int
  source : String
  weight : ℚ
  timestamp : Int
  deriving DecidableEq, Repr

/-- The value of a field of a trace hash. -/
inductive TraceValue where
  | text (s : String)
  /-- A float printed with `%g`, kept as the number. -/
  | real (q : ℚ)
  deriving DecidableEq, Repr

/-- One centroid of the topic registry. -/
structure TopicEntry (F : Type) where
  id : String
  label : String
  centroid : List F
  samples : Int
  createdAt : Int
  lastSeen : Int
  deriving DecidableEq, Repr

/-- A registry hash: a field per topic. A value that does not decode is `none`. -/
abbrev TopicHash (F : Type) := AList fun _ : String => Option (TopicEntry F)

/-- The server's data. -/
structure Redis (F : Type) where
  /-- Profile keys (strings). -/
  str : String → Option Stored
  /-- History keys (lists, newest entry first). -/
  history : String → List HistoryEntry
  /-- Reward keys (lists, oldest row first). -/
  rewards : String → List RewardRow
  /-- Trace keys (hashes). -/
  trace : String → List (String × TraceValue)
  /-- Topic registries (hashes). -/
  topics : String → TopicHash F

/-- The server of a fresh installation. -/
def Redis.empty (F : Type) : Redis F where
  str _ := none
  history _ := []
  rewards _ := []
  trace _ := []
  topics _ := ∅

/-- The function that issues a `SET`. The server does not see it. -/
inductive Caller where
  | currentProfile | ensureDefault | currentProfileFor | promote | rollback | resetIntent
  deriving DecidableEq, Repr

/-- The commands the package issues. -/
inductive Cmd (F : Type) where
  | get (key : String)
  | set (caller : Caller) (key : String) (v : Stored)
  | existsKey (key : String)
  | lpush (key : String) (e : HistoryEntry)
  /-- `LTRIM key 0 stop`. -/
  | ltrim (key : String) (stop : Nat)
  | rpush (key : String) (row : RewardRow)
  /-- `LRANGE key 0 -1`. -/
  | lrange (key : String)
  | hgetallTrace (key : String)
  | hsetTrace (key : String) (fields : List (String × TraceValue))
  | hgetall (key : String)
  | hset (key field : String) (e : TopicEntry F)

/-- The answer to a command. `GET` answers `none` for a missing key (`redis.Nil`). -/
abbrev Cmd.Reply {F : Type} : Cmd F → Type
  | .get _ => Option Stored
  | .existsKey _ => Nat
  | .lrange _ => List RewardRow
  | .hgetallTrace _ => List (String × TraceValue)
  | .hgetall _ => TopicHash F
  | _ => Unit

/-- Set a field of a trace hash. -/
def hsetField (fields : List (String × TraceValue)) (f : String × TraceValue) :
    List (String × TraceValue) :=
  if fields.any (·.1 = f.1) then fields.map fun g => if g.1 = f.1 then f else g else fields ++ [f]

/-- What a command does. -/
def Cmd.apply {F : Type} : (c : Cmd F) → Redis F → c.Reply × Redis F
  | .get key, r => (r.str key, r)
  | .set _ key v, r => ((), { r with str := Function.update r.str key (some v) })
  -- the server answers with the number of keys that exist
  | .existsKey key, r => ((if (r.str key).isSome then 1 else 0 : Nat), r)
  | .lpush key e, r =>
    ((), { r with history := Function.update r.history key (e :: r.history key) })
  | .ltrim key stop, r =>
    ((), { r with history := Function.update r.history key ((r.history key).take (stop + 1)) })
  | .rpush key row, r =>
    ((), { r with rewards := Function.update r.rewards key (r.rewards key ++ [row]) })
  | .lrange key, r => (r.rewards key, r)
  | .hgetallTrace key, r => (r.trace key, r)
  | .hsetTrace key fields, r =>
    ((), { r with trace := Function.update r.trace key (fields.foldl hsetField (r.trace key)) })
  | .hgetall key, r => (r.topics key, r)
  | .hset key field e, r =>
    ((), { r with topics := Function.update r.topics key ((r.topics key).insert field (some e)) })

/-- Redis as a service. -/
abbrev redis (F : Type) : Service where
  State := Redis F
  Cmd := Cmd F
  Reply := Cmd.Reply
  apply := Cmd.apply

/-! ### The commands as programs

One program per command, with the types spelled out, and what it does alone and under a failure. -/

namespace Rdb

open Prog

variable {F : Type}

def get (key : String) : Prog (redis F) (Option (Option Stored)) := call (V := redis F) (.get key)

def set (caller : Caller) (key : String) (v : Stored) : Prog (redis F) (Option Unit) :=
  call (V := redis F) (.set caller key v)

def existsKey (key : String) : Prog (redis F) (Option Nat) := call (V := redis F) (.existsKey key)

def lpush (key : String) (e : HistoryEntry) : Prog (redis F) (Option Unit) :=
  call (V := redis F) (.lpush key e)

def ltrim (key : String) (stop : Nat) : Prog (redis F) (Option Unit) :=
  call (V := redis F) (.ltrim key stop)

def rpush (key : String) (row : RewardRow) : Prog (redis F) (Option Unit) :=
  call (V := redis F) (.rpush key row)

def lrange (key : String) : Prog (redis F) (Option (List RewardRow)) :=
  call (V := redis F) (.lrange key)

def hgetallTrace (key : String) : Prog (redis F) (Option (List (String × TraceValue))) :=
  call (V := redis F) (.hgetallTrace key)

def hsetTrace (key : String) (fields : List (String × TraceValue)) :
    Prog (redis F) (Option Unit) :=
  call (V := redis F) (.hsetTrace key fields)

def hgetall (key : String) : Prog (redis F) (Option (TopicHash F)) :=
  call (V := redis F) (.hgetall key)

def hset (key field : String) (e : TopicEntry F) : Prog (redis F) (Option Unit) :=
  call (V := redis F) (.hset key field e)

variable (r : Redis F) (key : String)

@[simp] theorem get_run : (get key).run r = (some (r.str key), r) := rfl

@[simp] theorem set_run (caller : Caller) (v : Stored) :
    (set caller key v).run r
      = (some (), { r with str := Function.update r.str key (some v) }) := rfl

@[simp] theorem existsKey_run :
    (existsKey key).run r = (some (if (r.str key).isSome then 1 else 0), r) := rfl

@[simp] theorem lpush_run (e : HistoryEntry) :
    (lpush key e).run r
      = (some (), { r with history := Function.update r.history key (e :: r.history key) }) := rfl

@[simp] theorem ltrim_run (stop : Nat) :
    (ltrim key stop).run r
      = (some (), { r with
          history := Function.update r.history key ((r.history key).take (stop + 1)) }) := rfl

@[simp] theorem rpush_run (row : RewardRow) :
    (rpush key row).run r
      = (some (), { r with rewards := Function.update r.rewards key (r.rewards key ++ [row]) }) :=
  rfl

@[simp] theorem lrange_run : (lrange key).run r = (some (r.rewards key), r) := rfl

@[simp] theorem hgetallTrace_run : (hgetallTrace key).run r = (some (r.trace key), r) := rfl

@[simp] theorem hsetTrace_run (fields : List (String × TraceValue)) :
    (hsetTrace key fields).run r
      = (some (), { r with
          trace := Function.update r.trace key (fields.foldl hsetField (r.trace key)) }) := rfl

@[simp] theorem hgetall_run : (hgetall key).run r = (some (r.topics key), r) := rfl

@[simp] theorem hset_run (field : String) (e : TopicEntry F) :
    (hset key field e).run r
      = (some (), { r with
          topics := Function.update r.topics key ((r.topics key).insert field (some e)) }) := rfl

/-! Under failures, a command either does what it does alone or answers nothing and does nothing. -/

variable {r} {key}

theorem get_wp {Q : Option (Option Stored) → Redis F → Prop} :
    (get key).wp Q r ↔ Q none r ∧ Q (some (r.str key)) r := Iff.rfl

theorem existsKey_wp {Q : Option Nat → Redis F → Prop} :
    (existsKey key).wp Q r
      ↔ Q none r ∧ Q (some (if (r.str key).isSome then 1 else 0)) r := Iff.rfl

end Rdb

end Devrouter
