import LuaAnalysis.Project.Typing

/-!
# References

The references of a declaration are the places that refer to it, the place that declares it first.
Every candidate is looked up again, and it counts when it leads to the declaration asked for.

An annotated field and a table field of the same name and owner are one symbol; the references of
either are those of both.
-/

namespace LuaAnalysis

structure Reference where
  loc : Loc
  node : NodeId
deriving DecidableEq

/-- Each member of a list once, where it comes first. -/
def distinctReferences (rs : List Reference) : List Reference :=
  rs.foldl (fun seen r => if r ∈ seen then seen else seen ++ [r]) []

def Declaration.reference (d : Declaration) : Reference :=
  ⟨d.loc, d.node⟩

namespace Project

variable (p : Project)

/-- The declaration that the place of a declaration refers to. For the second `t.x = ...` of a file,
that is the member which the first one declares. -/
def canonical (ref : DeclRef) : DeclRef :=
  ((p.index.decl? ref).bind fun (m, d) => p.declaration? m d.node).getD ref

/-- The nodes among some candidates that refer to a declaration. -/
def referring (ref : DeclRef) (candidates : List (FileModel × NodeId)) : List Reference :=
  (candidates.filter fun (m, id) => p.declaration? m id = some ref).map fun (m, id) =>
    ⟨m.tree.loc id, id⟩

/-- The name expressions of a file that are written behind a declaration and have its name. -/
def laterNames (m : FileModel) (d : Declaration) : List (FileModel × NodeId) :=
  ((m.tree.descendants m.tree.root).filter fun id =>
    m.tree.node? id = some (.nameExpr d.name) && d.position < (m.tree.span id).start).map (m, ·)

/-- The other fields that are one symbol with a field, each with its declaration. -/
def siblings (ref : DeclRef) (d : Declaration) : List (DeclRef × Declaration) :=
  if d.kind.isField then
    ((p.index.ownersOf ref).flatMap p.index.members).foldl (fun found member =>
      if member = ref ∨ member ∈ found.map Prod.fst then found
      else
        match p.index.decl? member with
        | some (_, s) => if s.kind.isField ∧ s.name = d.name then found ++ [(member, s)] else found
        | none => found) []
  else []

/-- Where an index expression names a field: at its key. -/
def keyReference (m : FileModel) (id : NodeId) : Reference :=
  match m.tree.node? id with
  | some (.indexExpr _ (some key) _) => ⟨m.tree.loc key, id⟩
  | _ => ⟨m.tree.loc id, id⟩

/-- The references of a field besides its own place. -/
def fieldReferences (ref : DeclRef) (d : Declaration) : List Reference :=
  let siblings := p.siblings ref d
  let family := ref :: siblings.map Prod.fst
  siblings.map (fun s => s.2.reference) ++
    ((p.index.indexExprs d.name).filter fun (m, id) =>
      match p.declaration? m id with
      | some found => found ∈ family
      | none => false).map fun (m, id) => keyReference m id

/-- Every place that refers to a declaration, the place that declares it first. -/
def references (ref : DeclRef) : List Reference :=
  let ref := p.canonical ref
  match p.index.decl? ref with
  | none => []
  | some (m, d) =>
    let others :=
      match d.kind with
      | .localVar | .parameter | .method .lexical _ => p.referring ref (laterNames m d)
      | .global | .method .global _ => p.referring ref (p.index.nameExprs d.name)
      | .docField | .tableField | .enumField | .index | .method .field _ => p.fieldReferences ref d
      | .namedType _ => p.referring ref (p.index.typeRefs d.name)
      | .docParameter | .label | .genericParameter => []
    distinctReferences (d.reference :: others)

/-- The references of what a node refers to. -/
def findReferences (m : FileModel) (node : NodeId) : List Reference :=
  match p.declaration? m node with
  | some ref => p.references ref
  | none => []

/-- The place that declares what a node refers to. -/
def definition? (m : FileModel) (node : NodeId) : Option Reference :=
  ((p.declaration? m node).bind p.index.decl?).map fun (_, d) => d.reference

end Project

end LuaAnalysis
