import LuaAnalysis.Json.Reader

/-!
# Options of an analysis

Options are read from JSON: from an object, where a missing key keeps its default and a key without
a meaning is ignored, or from the list of the first options in order.
-/

namespace LuaAnalysis

structure Config where
  /-- Whether the files of a change set may be analysed together; no answer depends on it. -/
  parallelBuild : Bool := true
  /-- Whether the occurrences of names, fields and types are recorded. -/
  indexNameExprs : Bool := true
  /-- Whether the returns of closures and files are found out from their bodies. -/
  inferReturns : Bool := true
  /-- How many levels of supertypes a search for a member goes up. -/
  maxSuperDepth : Nat := 16
deriving DecidableEq

/-- Why options are refused. -/
inductive ConfigError where
  | malformed
deriving DecidableEq

def ConfigError.message : ConfigError → String
  | .malformed => "invalid analysis configuration"

namespace Config

def keys : List String :=
  ["parallelBuild", "indexNameExprs", "inferReturns", "maxSuperDepth"]

/-- An unsigned number of 64 bits. -/
def count? (j : Json) : Option Nat :=
  j.nat?.filter (· < UInt64.size)

/-- Sets the option at a position among the keys. -/
def set? (c : Config) (position : Nat) (value : Json) : Option Config :=
  match position with
  | 0 => value.bool?.map fun b => { c with parallelBuild := b }
  | 1 => value.bool?.map fun b => { c with indexNameExprs := b }
  | 2 => value.bool?.map fun b => { c with inferReturns := b }
  | 3 => (count? value).map fun n => { c with maxSuperDepth := n }
  | _ => none

/-- Sets the options of an object's fields. A key must have a text, and no option may be set
twice. -/
def ofFields? (c : Config) (seen : List Nat) : List (Option String × Json) → Option Config
  | [] => some c
  | (none, _) :: _ => none
  | (some key, value) :: rest =>
    match keys.findIdx? (· = key) with
    | none => ofFields? c seen rest
    | some position =>
      if position ∈ seen then none
      else (c.set? position value).bind fun c => ofFields? c (position :: seen) rest

/-- Sets the options from a position on. -/
def ofItems? (c : Config) (position : Nat) : List Json → Option Config
  | [] => some c
  | value :: rest => (c.set? position value).bind fun c => ofItems? c (position + 1) rest

def ofJson (j : Json) : Except ConfigError Config :=
  let read? : Option Config :=
    match j with
    | .object fields => ofFields? {} [] fields
    | .array items => ofItems? {} 0 items
    | _ => none
  match read? with
  | some c => .ok c
  | none => .error .malformed

def ofText (s : String) : Except ConfigError Config :=
  match Json.read? s with
  | some j => ofJson j
  | none => .error .malformed

def toJson (c : Config) : Json :=
  .ofFields [("parallelBuild", .bool c.parallelBuild), ("indexNameExprs", .bool c.indexNameExprs),
    ("inferReturns", .bool c.inferReturns), ("maxSuperDepth", .ofNat c.maxSuperDepth)]

end Config

end LuaAnalysis
