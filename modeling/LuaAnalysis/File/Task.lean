import LuaAnalysis.File.Declaration

/-!
# Tasks

What cannot be read off annotations is left as a task. A `Worklist` keeps the tasks of a file in the
order of their creation; every task is taken at most once.
-/

namespace LuaAnalysis

/-- What a task still has to find out: the type of a declaration, the owner of an assigned field,
the returns of a body. -/
structure Open where
  type : Bool := false
  owner : Bool := false
  returns : Bool := false
deriving DecidableEq

namespace Open

/-- One bit for each thing. -/
def bits (o : Open) : Nat :=
  (if o.type then 1 else 0) + (if o.owner then 2 else 0) + (if o.returns then 4 else 0)

/-- Bits without a meaning are dropped. -/
def ofBits (n : Nat) : Open :=
  { type := n % 2 == 1, owner := n / 2 % 2 == 1, returns := n / 4 % 2 == 1 }

end Open

/-- One of the values that an expression gives. -/
structure ValueRef where
  expr : NodeId
  slot : Nat
deriving DecidableEq

inductive Task where
  /-- `definesType` says that a table which is the value defines the members of the type that an
  annotation of the statement defines. -/
  | declaration (decl : DeclId) (value : Option ValueRef) (todo : Open) (definesType : Bool)
  | method (closure : NodeId)
  | source (block : NodeId)
deriving DecidableEq

/-- What a task still has to find out. -/
def Task.todo : Task → Open
  | .declaration _ _ todo _ => todo
  | .method _ | .source _ => { returns := true }

/-- The tasks of one file; a task that has been taken leaves its place empty. -/
structure Worklist where
  places : List (Option Task) := []
deriving DecidableEq

namespace Worklist

def push (w : Worklist) (task : Task) : Worklist :=
  ⟨w.places ++ [some task]⟩

/-- How many tasks there ever were. -/
def size (w : Worklist) : Nat :=
  w.places.length

def get? (w : Worklist) (i : Nat) : Option Task :=
  w.places[i]?.join

/-- The tasks that have not been taken, with their places. -/
def pending (w : Worklist) : List (Nat × Task) :=
  w.places.zipIdx.filterMap fun (place, i) => place.map fun task => (i, task)

def take (w : Worklist) (i : Nat) : Option Task × Worklist :=
  (w.get? i, ⟨w.places.set i none⟩)

end Worklist

end LuaAnalysis
