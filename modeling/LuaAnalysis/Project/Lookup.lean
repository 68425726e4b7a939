import LuaAnalysis.Project.Index

/-!
# Looking up globals, types and members

A global or a named type is chosen by file and position. A member is searched among the members of
an owner, then among those of the owners that its supertypes have, level by level; the search ends
after `maxSuperDepth` levels, and it looks at every owner once.
-/

namespace LuaAnalysis

/-- A project with the number of levels that searches through types may go. -/
structure Lookup where
  index : ProjectIndex
  maxSuperDepth : Nat

/-- The first of the values with the least key, for keys compared by `before`. -/
def firstLeast? {α κ : Type} (before : κ → κ → Bool) (key : α → κ) : List α → Option α
  | [] => none
  | a :: rest =>
    match firstLeast? before key rest with
    | some b => if before (key b) (key a) then some b else some a
    | none => some a

/-- Whether one triple of numbers stands before another in lexicographic order. -/
def tripleBefore (a b : Nat × Nat × Nat) : Bool :=
  a.1 < b.1 || (a.1 == b.1 && (a.2.1 < b.2.1 || (a.2.1 == b.2.1 && a.2.2 < b.2.2)))

namespace Lookup

variable (l : Lookup)

/-- The declaration to take from `source`: one of the same file, else of the file with the least
source, and in a file the first. -/
def prefer? (candidates : List DeclRef) (source : SourceId) : Option DeclRef :=
  let placed := candidates.filterMap fun ref =>
    (l.index.decl? ref).map fun (_, d) =>
      (ref, (if ref.source = source then 0 else 1), ref.source, d.position)
  (firstLeast? tripleBefore Prod.snd placed).map Prod.fst

def global? (name : String) (source : SourceId) : Option DeclRef :=
  l.prefer? (l.index.globals name) source

/-- The class, interface, enum or alias with a name. -/
def namedType? (name : String) (source : SourceId) : Option DeclRef :=
  l.prefer? ((l.index.types name).map Prod.fst) source

/-! ## Owners -/

/-- Adds the owners of a type to those found already, through at most a number of levels of unions
and aliases. An owner found already is not gone into again. -/
def collectOwners : Nat → Ty → List Owner → List Owner
  | 0, _, owners => owners
  | levels + 1, type, owners =>
    match type with
    | .named name | .genericApp name _ =>
      if .named name ∈ owners then owners
      else
        (l.index.aliases name).foldl (fun owners base => collectOwners levels base.1 owners)
          (owners ++ [.named name])
    | .tableLiteral id => if .anonymous id ∈ owners then owners else owners ++ [.anonymous id]
    | .union alternatives =>
      alternatives.foldl (fun owners t => collectOwners levels t owners) owners
    | _ => owners

/-- The owners whose members a value of a type has. -/
def ownersOfType (type : Ty) : List Owner :=
  l.collectOwners (l.maxSuperDepth + 1) type []

/-! ## Members -/

/-- The member of an owner itself: by rank of its kind, then by source and position. -/
def directMember? (owner : Owner) (name : String) : Option DeclRef :=
  let placed := (l.index.members owner).filterMap fun ref =>
    match l.index.decl? ref with
    | some (_, d) =>
      if d.name = name then some (ref, d.kind.memberRank, ref.source, d.position) else none
    | none => none
  (firstLeast? tripleBefore Prod.snd placed).map Prod.fst

/-- The owners that the supertypes of an owner have. -/
def superOwners (owner : Owner) : List Owner :=
  match owner with
  | .named name => (l.index.supers name).flatMap l.ownersOfType
  | .anonymous _ => []

/-- Each of the owners that have not been looked at, once. -/
def unseen (seen : List Owner) : List Owner → List Owner
  | [] => []
  | owner :: rest => if owner ∈ seen then unseen seen rest else owner :: unseen (owner :: seen) rest

/-- Searches the owners of one level, then those of the level above it, at most a number of levels
up. -/
def memberAbove? (name : String) : Nat → List Owner → List Owner → Option DeclRef
  | levels, seen, level =>
    let new := unseen seen level
    match new.findSome? fun owner => l.directMember? owner name with
    | some found => some found
    | none =>
      match levels with
      | 0 => none
      | levels + 1 =>
        if new.isEmpty then none
        else memberAbove? name levels (new ++ seen) (new.flatMap l.superOwners)

theorem memberAbove?_nil (name : String) (levels : Nat) (seen : List Owner) :
    l.memberAbove? name levels seen [] = none := by
  unfold memberAbove?
  cases levels <;> rfl

def member? (owner : Owner) (name : String) : Option DeclRef :=
  l.memberAbove? name l.maxSuperDepth [] [owner]

end Lookup

end LuaAnalysis
