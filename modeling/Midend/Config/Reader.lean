import Midend.Config
import Midend.Json.Record

/-!
# Configurations from JSON texts

A configuration is a record in which every field has a default and fields of other names are
ignored. Values of ignored fields only have to fit the grammar. What is read is checked before it is
handed on.
-/

namespace Midend.Config

open Json (Mismatch Reader Raw Piece)

/-! ### Records -/

/-- A pass, as its name or as an object with the name for its only key and `null` for its value. -/
def readPass : Reader Pass
  | .string s => named s
  | .object ((k, v) :: rest) => do
    let p ← named k
    Json.readUnit v
    if rest.isEmpty then .ok p else .error .noValue
  | _ => .error .noValue
where
  named (s : String) : Except Mismatch Pass :=
    match Pass.ofName? s with
    | some p => .ok p
    | none => .error (.unknownVariant s ["cse", "dde"])

/-- The fields of the record for one pass. -/
def readReportFields (before : Option Bool) : List (String × Json) → Except Mismatch (Option Bool)
  | [] => .ok before
  | (k, v) :: rest =>
    if k = "report_changes" then do
      let b ← Json.readOnce k before Json.readBool v
      readReportFields b rest
    else readReportFields before rest

/-- The record for one pass: whether it reports its changes. -/
def readReport (record : String) (default : Bool) : Reader Bool
  | .object fields => (readReportFields none fields).map (·.getD default)
  | .array items => do
    let b ← Json.readItem items 0 Json.readBool
    Json.noMoreItems items 1
    .ok (b.getD default)
  | v => Json.unexpected ("struct " ++ record) v

/-- The fields of a configuration that have been read. -/
structure Fields where
  passes : Option (List Pass) := none
  maxRounds : Option Nat := none
  merges : Option Bool := none
  cuts : Option Bool := none

/-- The configuration with defaults for the fields that are absent. -/
def Fields.config (f : Fields) : Config where
  passes := f.passes.getD [.merge, .cut]
  maxRounds := f.maxRounds.getD 16
  reportMerges := f.merges.getD true
  reportCuts := f.cuts.getD false

def readMerges : Reader Bool := readReport "CseConfig" true

def readCuts : Reader Bool := readReport "DdeConfig" false

def readField (f : Fields) (k : String) (v : Json) : Except Mismatch Fields :=
  if k = "passes" then do
    return { f with passes := ← Json.readOnce k f.passes (Json.readList readPass) v }
  else if k = "max_iterations" then do
    return { f with maxRounds := ← Json.readOnce k f.maxRounds Json.readNat v }
  else if k = "cse" then do
    return { f with merges := ← Json.readOnce k f.merges readMerges v }
  else if k = "dde" then do
    return { f with cuts := ← Json.readOnce k f.cuts readCuts v }
  else .ok f

def readFields (f : Fields) : List (String × Json) → Except Mismatch Fields
  | [] => .ok f
  | (k, v) :: rest =>
    match readField f k v with
    | .error e => .error e
    | .ok f => readFields f rest

def read : Reader Config
  | .object fields => (readFields {} fields).map Fields.config
  | .array items => do
    let passes ← Json.readItem items 0 (Json.readList readPass)
    let maxRounds ← Json.readItem items 1 Json.readNat
    let merges ← Json.readItem items 2 readMerges
    let cuts ← Json.readItem items 3 readCuts
    Json.noMoreItems items 4
    .ok (Fields.config { passes, maxRounds, merges, cuts })
  | v => Json.unexpected "struct OptConfig" v

/-! ### Ignored fields -/

/-- The fields of an object that are not ignored, each made a value by the function of its name;
`none` if that fails. -/
def keptFields (value? : String → Option (Raw → Option Json)) :
    List (List Piece × Raw) → Option (List (String × Json))
  | [] => some []
  | (ps, r) :: rest => do
    let k ← Json.string? ps
    let fields ← keptFields value? rest
    match value? k with
    | none => some fields
    | some f => do
      let v ← f r
      some ((k, v) :: fields)

/-- The record for one pass, its ignored fields left out. -/
def keptReport (room : Nat) : Raw → Option Json
  | .object fields => (keptFields (fun k => if k = "report_changes"
      then some (Json.ofRaw? (room - 1)) else none) fields).map .object
  | r => Json.ofRaw? room r

def kept (room : Nat) : Raw → Option Json
  | .object fields => (keptFields (fun k =>
      if k = "passes" ∨ k = "max_iterations" then some (Json.ofRaw? (room - 1))
      else if k = "cse" ∨ k = "dde" then some (keptReport (room - 1))
      else none) fields).map .object
  | .array (passes :: maxRounds :: reports) => do
    let v ← Json.ofRaw? (room - 1) passes
    let w ← Json.ofRaw? (room - 1) maxRounds
    let vs ← reports.mapM (keptReport (room - 1))
    some (.array (v :: w :: vs))
  | r => Json.ofRaw? room r

/-! ### Texts -/

/-- Reads the record that a text holds. A text that is no JSON is still read if all that is wrong
with it stands in ignored fields. -/
def readText (s : String) : Except ConfigError Config :=
  match Raw.ofText? s with
  | none => .error (.malformed Json.noJson)
  | some raw =>
    match Json.ofRaw? Json.maxDepth raw with
    | some v => (read v).mapError fun e => .malformed e.message
    | none =>
      match (kept Json.maxDepth raw).map read with
      | some (.ok c) => .ok c
      | _ => .error (.malformed Json.noJson)

/-- Reads a valid configuration from a text. -/
def ofText (s : String) : Except ConfigError Config :=
  match readText s with
  | .error e => .error e
  | .ok c => c.validate.map fun _ => c

end Midend.Config
