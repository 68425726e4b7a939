import LuaAnalysis.Data.Grouped
import LuaAnalysis.File.Declaration
import LuaAnalysis.Types.Operator

/-!
# What a file contributes to a project

`Entries` groups the globals, types, members and occurrences of one file by name or owner.
-/

namespace LuaAnalysis

/-- Whose member a declaration is: a named type's, or that of a table constructor or table type. -/
inductive Owner where
  | named (name : String)
  | anonymous (id : SyntaxId)
deriving DecidableEq

def Owner.text : Owner → String
  | .named name => name
  | .anonymous id => "table" ++ id.text

structure Entries where
  globals : Grouped String DeclId := {}
  types : Grouped String (DeclId × TypeCategory) := {}
  members : Grouped Owner DeclId := {}
  aliases : Grouped String (Ty × DeclId) := {}
  supers : Grouped String Ty := {}
  generics : Grouped String DeclId := {}
  operators : Grouped Owner Overload := {}
  /-- The name expressions of every name. -/
  nameExprs : Grouped String NodeId := {}
  /-- The index expressions of every field that one selects. -/
  indexExprs : Grouped String NodeId := {}
  /-- The occurrences of every type name. -/
  typeRefs : Grouped String NodeId := {}
deriving DecidableEq

namespace Entries

def addGlobal (e : Entries) (name : String) (decl : DeclId) : Entries :=
  { e with globals := e.globals.add name decl }

def addType (e : Entries) (name : String) (decl : DeclId) (category : TypeCategory) : Entries :=
  { e with types := e.types.add name (decl, category) }

/-- A declaration is a member of an owner once. -/
def addMember (e : Entries) (owner : Owner) (decl : DeclId) : Entries :=
  { e with members := e.members.addNew owner decl }

def addAlias (e : Entries) (name : String) (base : Ty) (decl : DeclId) : Entries :=
  { e with aliases := e.aliases.add name (base, decl) }

def addSuper (e : Entries) (name : String) (type : Ty) : Entries :=
  { e with supers := e.supers.add name type }

def addGeneric (e : Entries) (name : String) (decl : DeclId) : Entries :=
  { e with generics := e.generics.add name decl }

def addOperator (e : Entries) (owner : Owner) (overload : Overload) : Entries :=
  { e with operators := e.operators.add owner overload }

def addNameExpr (e : Entries) (name : String) (id : NodeId) : Entries :=
  { e with nameExprs := e.nameExprs.add name id }

def addIndexExpr (e : Entries) (field : String) (id : NodeId) : Entries :=
  { e with indexExprs := e.indexExprs.add field id }

def addTypeRef (e : Entries) (name : String) (id : NodeId) : Entries :=
  { e with typeRefs := e.typeRefs.add name id }

end Entries

end LuaAnalysis
