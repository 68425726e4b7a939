import LuaAnalysis.Data.WriteOnce
import LuaAnalysis.File.Model

/-!
# What has been found out

The types of declarations and the returns of bodies that no annotation gives are found out one by
one and kept here, under the revision of the model they belong to. What is found out once is never
replaced.
-/

namespace LuaAnalysis

structure Findings where
  types : WriteOnce (Revision × DeclId) Ty := {}
  /-- The returns of closures. -/
  returns : WriteOnce (Revision × NodeId) (List Ty) := {}
  moduleReturns : WriteOnce Revision (List Ty) := {}
deriving DecidableEq

namespace Findings

/-- The type of a declaration: the one an annotation gives it, or the one found out. -/
def type? (f : Findings) (m : FileModel) (id : DeclId) : Option Ty :=
  match m.decl? id with
  | some d => d.written.or (f.types.get? (m.revision, id))
  | none => none

def setType (f : Findings) (m : FileModel) (id : DeclId) (type : Ty) : Findings :=
  if (f.type? m id).isSome then f else { f with types := f.types.put (m.revision, id) type }

/-- The inferred returns of a closure. -/
def inferred? (f : Findings) (m : FileModel) (closure : NodeId) : Option (List Ty) :=
  f.returns.get? (m.revision, closure)

def setReturns (f : Findings) (m : FileModel) (closure : NodeId) (returns : List Ty) : Findings :=
  { f with returns := f.returns.put (m.revision, closure) returns }

/-- The value of a call of a closure, if the model has the closure. -/
def returnType? (f : Findings) (m : FileModel) (closure : NodeId) : Option Ty :=
  (m.method? closure).map fun method => method.returnType (f.inferred? m closure)

/-- The returns of a file, none as long as they are not found out. -/
def moduleReturnsOf (f : Findings) (m : FileModel) : List Ty :=
  (f.moduleReturns.get? m.revision).getD []

def setModuleReturns (f : Findings) (m : FileModel) (returns : List Ty) : Findings :=
  { f with moduleReturns := f.moduleReturns.put m.revision returns }

end Findings

end LuaAnalysis
