import LuaAnalysis.File.Scope
import LuaAnalysis.File.Entries
import LuaAnalysis.File.Task

/-!
# The model of one file

A `FileModel` is what one analysis of a file finds in it. It never changes: the types and returns
that are found out later are kept apart, under the revision of the model, which no other model has.
-/

namespace LuaAnalysis

/-- The number of an analysis; every analysis has its own. -/
abbrev Revision := Nat

structure FileModel where
  revision : Revision
  generation : Nat
  tree : SyntaxTree
  decls : Array Declaration
  scopes : ScopeTree
  /-- The declaration that a node makes or names, the latest first. -/
  anchors : List (NodeId × DeclId)
  /-- The closures of the file, the latest first. -/
  methods : List Method
deriving DecidableEq

namespace FileModel

def source (m : FileModel) : SourceId :=
  m.tree.source

def decl? (m : FileModel) (id : DeclId) : Option Declaration :=
  m.decls[id]?

def ref (m : FileModel) (id : DeclId) : DeclRef :=
  ⟨m.source, m.generation, id⟩

/-- The declaration that a node makes, or whose name it is. -/
def anchored? (m : FileModel) (node : NodeId) : Option DeclId :=
  (m.anchors.find? fun anchor => anchor.1 = node).map Prod.snd

def method? (m : FileModel) (closure : NodeId) : Option Method :=
  m.methods.find? fun method => method.closure = closure

/-- The declaration of a value that a use of `name` at a node sees. -/
def find? (m : FileModel) (node : NodeId) (name : String) : Option DeclId :=
  (m.scopes.scopeOf? m.tree node).bind
    (m.scopes.find? m.decls name (m.tree.span node).start)

end FileModel

/-- What an analysis of a file makes: the model, what it contributes, and what is left to do. -/
structure Analysis where
  model : FileModel
  entries : Entries
  worklist : Worklist
deriving DecidableEq

end LuaAnalysis
