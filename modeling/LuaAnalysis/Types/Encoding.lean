import LuaAnalysis.Types.Operator
import LuaAnalysis.Json.Basic

/-!
# Types and operators as JSON

A type without content is written as its name, any other as an object with its name as the only key.
A record may be read from an object, which may have more keys than are needed, or from the list of
its values in order. A generic application has two parts as well, but it is no record: it is read
from an object only.
-/

namespace LuaAnalysis

namespace Json

mutual
/-- How many levels deep a value is nested. -/
def depth : Json → Nat
  | array items => depthOfItems items + 1
  | object fields => depthOfFields fields + 1
  | _ => 1

def depthOfItems : List Json → Nat
  | [] => 0
  | j :: rest => max (depth j) (depthOfItems rest)

def depthOfFields : List (Option String × Json) → Nat
  | [] => 0
  | (_, j) :: rest => max (depth j) (depthOfFields rest)
end

/-- The values that an object has under the given keys. -/
def valuesAt? (keys : List String) (j : Json) : Option (List Json) :=
  match j with
  | object _ => keys.mapM j.field?
  | _ => none

/-- The values of a record with the given keys. -/
def record? (keys : List String) (j : Json) : Option (List Json) :=
  match j with
  | array items => if items.length = keys.length then some items else none
  | _ => j.valuesAt? keys

/-- An unsigned number of 32 bits. -/
def word? (j : Json) : Option Nat :=
  j.nat?.filter (· < UInt32.size)

end Json

namespace SyntaxId

def toJson (id : SyntaxId) : Json :=
  .ofFields [("source", .ofFields [("id", .ofNat id.source)]), ("node", .ofNat id.node)]

def ofJson? (j : Json) : Option SyntaxId := do
  let [source, node] ← j.record? ["source", "node"] | none
  let [id] ← source.record? ["id"] | none
  return ⟨← id.word?, ← node.word?⟩

end SyntaxId

namespace Ty

/-- The types without content, by name. -/
def simple : List (String × Ty) :=
  [("Unknown", unknown), ("Nil", nil), ("Any", any), ("Boolean", boolean), ("Integer", integer),
    ("Number", number), ("String", string), ("Table", table), ("Function", function)]

def ofSimpleName? (name : String) : Option Ty :=
  (simple.find? fun entry => entry.1 = name).map Prod.snd

mutual
def toJson : Ty → Json
  | unknown => .ofString "Unknown"
  | nil => .ofString "Nil"
  | any => .ofString "Any"
  | boolean => .ofString "Boolean"
  | integer => .ofString "Integer"
  | number => .ofString "Number"
  | string => .ofString "String"
  | table => .ofString "Table"
  | function => .ofString "Function"
  | named name => .ofFields [("Named", .ofString name)]
  | array element => .ofFields [("Array", toJson element)]
  | union ts => .ofFields [("Union", .array (toJsonAll ts))]
  | tuple ts => .ofFields [("Tuple", .array (toJsonAll ts))]
  | signature ⟨params, returns⟩ =>
    .ofFields [("Signature",
      .ofFields [("params", .array (toJsonParams params)),
        ("returns", .array (toJsonAll returns))])]
  | method id => .ofFields [("Method", id.toJson)]
  | tableLiteral id => .ofFields [("TableLiteral", id.toJson)]
  | genericApp name args =>
    .ofFields [("GenericApp",
      .ofFields [("name", .ofString name), ("args", .array (toJsonAll args))])]

def toJsonAll : List Ty → List Json
  | [] => []
  | t :: rest => toJson t :: toJsonAll rest

def toJsonParams : List (Param Ty) → List Json
  | [] => []
  | ⟨name, t⟩ :: rest =>
    .ofFields [("name", .ofString name), ("ty", toJson t)] :: toJsonParams rest
end

def paramOfJson? (type? : Json → Option Ty) (j : Json) : Option (Param Ty) := do
  let [name, type] ← j.record? ["name", "ty"] | none
  return ⟨← name.text?, ← type? type⟩

def signatureOfJson? (type? : Json → Option Ty) (j : Json) : Option (Signature Ty) := do
  let [params, returns] ← j.record? ["params", "returns"] | none
  return ⟨← (← params.items?).mapM (paramOfJson? type?), ← (← returns.items?).mapM type?⟩

/-- The type that the name of a type with content and that content stand for. -/
def ofContent? (type? : Json → Option Ty) (name : String) (content : Json) : Option Ty :=
  match name with
  | "Named" => content.text?.map named
  | "Array" => (type? content).map array
  | "Union" => do return union (← (← content.items?).mapM type?)
  | "Tuple" => do return tuple (← (← content.items?).mapM type?)
  | "Signature" => (signatureOfJson? type? content).map signature
  | "Method" => (SyntaxId.ofJson? content).map method
  | "TableLiteral" => (SyntaxId.ofJson? content).map tableLiteral
  | "GenericApp" => do
    let [head, args] ← content.valuesAt? ["name", "args"] | none
    return genericApp (← head.text?) (← (← args.items?).mapM type?)
  | _ =>
    match content with
    | .null => ofSimpleName? name
    | _ => none

/-- Reads a type that is nested at most a number of levels deep. -/
def ofJsonWithin : Nat → Json → Option Ty
  | 0, _ => none
  | levels + 1, j =>
    match j with
    | .string (some name) => ofSimpleName? name
    | .object [(some name, content)] => ofContent? (ofJsonWithin levels) name content
    | _ => none

def ofJson? (j : Json) : Option Ty :=
  ofJsonWithin j.depth j

end Ty

namespace Signature

def toJson (s : Signature Ty) : Json :=
  .ofFields [("params", .array (Ty.toJsonParams s.params)),
    ("returns", .array (Ty.toJsonAll s.returns))]

def ofJson? (j : Json) : Option (Signature Ty) :=
  Ty.signatureOfJson? Ty.ofJson? j

end Signature

namespace OperatorKind

def ofJson? : Json → Option OperatorKind
  | .string (some name) => ofText? name
  | .object [(some name, .null)] => ofText? name
  | _ => none

end OperatorKind

namespace Overload

def toJson (o : Overload) : Json :=
  .ofFields [("kind", .ofString o.kind.text), ("operands", .ofList Ty.toJson o.operands),
    ("ret", o.result.toJson)]

def ofJson? (j : Json) : Option Overload := do
  let [kind, operands, result] ← j.record? ["kind", "operands", "ret"] | none
  return ⟨← OperatorKind.ofJson? kind, ← (← operands.items?).mapM Ty.ofJson?, ← Ty.ofJson? result⟩

end Overload

end LuaAnalysis
