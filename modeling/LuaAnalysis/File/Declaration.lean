import LuaAnalysis.Types.Ty

/-!
# Declarations

A `Declaration` is one named binding of a file. Its type is written in an annotation, or it is found
out later and kept elsewhere; a `Method` holds what is written about the parameters and returns of a
closure in the same way.
-/

namespace LuaAnalysis

/-- The position of a declaration among those of its file. -/
abbrev DeclId := Nat

/-- Where a function statement stores its function. -/
inductive MethodFeature where
  | lexical
  | global
  | field
deriving DecidableEq

def MethodFeature.text : MethodFeature → String
  | .lexical => "local"
  | .global => "global"
  | .field => "field"

inductive TypeCategory where
  | classType
  | interfaceType
  | enumType
  | aliasType
deriving DecidableEq

def TypeCategory.text : TypeCategory → String
  | .classType => "class"
  | .interfaceType => "interface"
  | .enumType => "enum"
  | .aliasType => "alias"

inductive DeclKind where
  | localVar
  | parameter
  | docParameter
  | global
  | method (feature : MethodFeature) (closure : NodeId)
  | namedType (category : TypeCategory)
  | enumField
  | docField
  | tableField
  | label
  | genericParameter
  /-- A field that comes into being by an assignment. -/
  | index
deriving DecidableEq

namespace DeclKind

def text : DeclKind → String
  | localVar => "local"
  | parameter => "parameter"
  | docParameter => "doc parameter"
  | global => "global"
  | method feature _ => feature.text ++ " method"
  | namedType category => category.text
  | enumField => "enum field"
  | docField => "doc field"
  | tableField => "table field"
  | label => "label"
  | genericParameter => "generic parameter"
  | index => "index"

/-- Whether a name expression can refer to it. -/
def isValue : DeclKind → Bool
  | localVar | parameter | global | method .lexical _ | method .global _ => true
  | _ => false

/-- Whether it is half of a field that is declared twice, in an annotation and in a table. -/
def isField : DeclKind → Bool
  | docField | tableField => true
  | _ => false

/-- Whether it adds a member once the value that has the member is known. -/
def isAssignedField : DeclKind → Bool
  | index | tableField | method .field _ => true
  | _ => false

/-- Members of the same name and owner are chosen by the least rank. -/
def memberRank : DeclKind → Nat
  | docField => 0
  | enumField => 1
  | method _ _ => 2
  | tableField => 3
  | index => 4
  | _ => 5

def closure? : DeclKind → Option NodeId
  | method _ closure => some closure
  | _ => none

/-- The kinds, with a closure for the methods. -/
def all (closure : NodeId) : List DeclKind :=
  [localVar, parameter, docParameter, global, method .lexical closure, method .global closure,
    method .field closure, namedType .classType, namedType .interfaceType, namedType .enumType,
    namedType .aliasType, enumField, docField, tableField, label, genericParameter, index]

/-- The kind that a text shows. -/
def ofText? (closure : NodeId) (s : String) : Option DeclKind :=
  (all closure).find? fun kind => kind.text = s

end DeclKind

structure Declaration where
  name : String
  kind : DeclKind
  /-- The syntax that makes the declaration. -/
  node : NodeId
  /-- Where its name is written, or its node if the name is not. -/
  loc : Loc
  /-- The type that an annotation gives it. -/
  written : Option Ty := none
deriving DecidableEq

namespace Declaration

def position (d : Declaration) : Nat :=
  d.loc.start

/-- What is shown for a declaration of a type, if it has one. -/
def text (d : Declaration) (type : Option Ty) : String :=
  d.kind.text ++ " `" ++ d.name ++ "` at " ++ d.loc.text ++
    (match type with
      | some t => ": " ++ t.text
      | none => "")

end Declaration

/-- A declaration in one analysis of a file. Another analysis of the same file has another
generation. -/
structure DeclRef where
  source : SourceId
  generation : Nat
  decl : DeclId
deriving DecidableEq

def DeclRef.text (r : DeclRef) : String :=
  toString r.source ++ "@" ++ toString r.generation ++ "#" ++ toString r.decl

/-- What is written about a closure. -/
structure Method where
  closure : NodeId
  params : List DeclId := []
  overloads : List (Signature Ty) := []
  /-- The returns that annotations give it. -/
  declared : List Ty := []
deriving DecidableEq

namespace Method

def hasDeclaredReturns (m : Method) : Bool :=
  !m.declared.isEmpty

/-- The declared returns or else those found out from its body. -/
def returns? (m : Method) (inferred : Option (List Ty)) : Option (List Ty) :=
  if m.hasDeclaredReturns then some m.declared else inferred

/-- The value of a call, unknown as long as the returns are. -/
def returnType (m : Method) (inferred : Option (List Ty)) : Ty :=
  ((m.returns? inferred).map Ty.ofReturns).getD .unknown

end Method

end LuaAnalysis
