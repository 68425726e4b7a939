import LuaAnalysis.Project.Typing
import Mathlib.Data.List.Basic
import Mathlib.Data.List.Find

/-!
# What look-ups read

A look-up of a name, of the owners of a type or of a member reads names, kinds and places of
declarations, but never a type of one. So it finds the same in two projects whose declarations
differ in nothing but their types.

Main statements: `FileModel.SameButTypes.find?`, `Lookup.global?_congr`,
`Project.memberOfType?_congr`.
-/

namespace LuaAnalysis

/-- A declaration without the type that an annotation gives it. -/
def Declaration.untyped (d : Declaration) : Declaration :=
  { d with written := none }

namespace Declaration

@[simp] theorem untyped_name (d : Declaration) : d.untyped.name = d.name :=
  rfl

@[simp] theorem untyped_kind (d : Declaration) : d.untyped.kind = d.kind :=
  rfl

@[simp] theorem untyped_position (d : Declaration) : d.untyped.position = d.position :=
  rfl

end Declaration

/-! ## Names of a file -/

namespace ScopeTree

variable {t : ScopeTree} {decls : Array Declaration} {name : String} {position : Nat}

theorem lastSeen?_untyped (ids : List DeclId) :
    lastSeen? (decls.map Declaration.untyped) name position ids =
      lastSeen? decls name position ids := by
  unfold lastSeen?
  apply List.find?_congr
  intro id _
  rw [Array.getElem?_map, Option.any_map]
  rfl

theorem findItem?_untyped (shown? : ScopeId → Option DeclId) (s : Scope) :
    findItem? (decls.map Declaration.untyped) name position shown? s =
      findItem? decls name position shown? s := by
  simp only [findItem?, lastSeen?_untyped]

theorem shownByEnded?_untyped :
    t.shownByEnded? (decls.map Declaration.untyped) name position =
      t.shownByEnded? decls name position := by
  funext inner
  simp only [shownByEnded?, lastSeen?_untyped]

theorem shownToCondition?_untyped :
    t.shownToCondition? (decls.map Declaration.untyped) name position =
      t.shownToCondition? decls name position := by
  funext inner
  simp only [shownToCondition?, findItem?_untyped, shownByEnded?_untyped]

theorem findAround?_untyped (s : Scope) :
    t.findAround? (decls.map Declaration.untyped) name position s =
      t.findAround? decls name position s := by
  simp only [findAround?, findItem?_untyped, shownByEnded?_untyped, shownToCondition?_untyped]

theorem findWithin?_untyped (steps : Nat) (id : ScopeId) :
    t.findWithin? (decls.map Declaration.untyped) name position steps id =
      t.findWithin? decls name position steps id := by
  induction steps generalizing id with
  | zero => rfl
  | succ steps ih =>
    have hout : t.findWithin? (decls.map Declaration.untyped) name position steps =
        t.findWithin? decls name position steps := funext ih
    simp only [findWithin?, findAround?_untyped, hout]

theorem find?_untyped (id : ScopeId) :
    t.find? (decls.map Declaration.untyped) name position id = t.find? decls name position id :=
  findWithin?_untyped (id + 1) id

end ScopeTree

/-- Two analyses of a file that differ in nothing but their numbers and the types that annotations
give. -/
structure FileModel.SameButTypes (m m' : FileModel) : Prop where
  generation : m'.generation = m.generation
  tree : m'.tree = m.tree
  decls : m'.decls.map Declaration.untyped = m.decls.map Declaration.untyped
  scopes : m'.scopes = m.scopes
  anchors : m'.anchors = m.anchors
  methods : m'.methods = m.methods

namespace FileModel.SameButTypes

theorem refl (m : FileModel) : m.SameButTypes m :=
  ⟨rfl, rfl, rfl, rfl, rfl, rfl⟩

variable {m m' : FileModel} (h : m.SameButTypes m')
include h

theorem source : m'.source = m.source :=
  congrArg SyntaxTree.source h.tree

theorem ref (i : DeclId) : m'.ref i = m.ref i := by
  rw [FileModel.ref, FileModel.ref, h.source, h.generation]

theorem anchored? (node : NodeId) : m'.anchored? node = m.anchored? node := by
  rw [FileModel.anchored?, FileModel.anchored?, h.anchors]

theorem method? (closure : NodeId) : m'.method? closure = m.method? closure := by
  rw [FileModel.method?, FileModel.method?, h.methods]

theorem decl? (i : DeclId) :
    Option.Rel (fun d d' => d.untyped = d'.untyped) (m.decl? i) (m'.decl? i) := by
  have hdecl : (m'.decl? i).map Declaration.untyped = (m.decl? i).map Declaration.untyped := by
    unfold FileModel.decl?
    rw [← Array.getElem?_map, ← Array.getElem?_map, h.decls]
  cases hd : m.decl? i <;> cases hd' : m'.decl? i <;> rw [hd, hd'] at hdecl
  · exact .none
  · cases hdecl
  · cases hdecl
  · exact .some (Option.some.inj hdecl).symm

theorem find? (node : NodeId) (name : String) : m'.find? node name = m.find? node name := by
  have hscope (id : ScopeId) : m.scopes.find? m'.decls name (m.tree.span node).start id =
      m.scopes.find? m.decls name (m.tree.span node).start id := by
    rw [← ScopeTree.find?_untyped, h.decls, ScopeTree.find?_untyped]
  unfold FileModel.find?
  rw [h.scopes, h.tree, funext hscope]

end FileModel.SameButTypes

/-! ## Names and owners of a project -/

/-- Two indexes that know the same names. Their declarations may differ in their types, and their
owners in their members. -/
structure ProjectIndex.SameNames (idx idx' : ProjectIndex) : Prop where
  decl : ∀ ref, Option.Rel (fun x y => x.2.untyped = y.2.untyped) (idx.decl? ref) (idx'.decl? ref)
  globals : ∀ name, idx.globals name = idx'.globals name
  aliases : ∀ name, idx.aliases name = idx'.aliases name
  supers : ∀ name, idx.supers name = idx'.supers name
  operators : ∀ owner, idx.operators owner = idx'.operators owner

theorem ProjectIndex.SameNames.refl (idx : ProjectIndex) : idx.SameNames idx := by
  refine ⟨fun ref => ?_, fun _ => rfl, fun _ => rfl, fun _ => rfl, fun _ => rfl⟩
  cases idx.decl? ref with
  | none => exact .none
  | some found => exact .some rfl

namespace Lookup

variable {l l' : Lookup} (h : l.index.SameNames l'.index)
include h

theorem prefer?_congr (candidates : List DeclRef) (source : SourceId) :
    l.prefer? candidates source = l'.prefer? candidates source := by
  unfold prefer?
  dsimp only
  congr 2
  refine List.filterMap_congr fun ref _ => ?_
  have hdecl := h.decl ref
  generalize l.index.decl? ref = found at hdecl
  generalize l'.index.decl? ref = found' at hdecl
  cases hdecl with
  | none => rfl
  | @some x y hd =>
    have hposition : x.2.position = y.2.position := by simpa using congrArg Declaration.position hd
    exact congrArg (fun position => some (ref, _, ref.source, position)) hposition

theorem global?_congr (name : String) (source : SourceId) :
    l.global? name source = l'.global? name source := by
  rw [global?, global?, prefer?_congr h, h.globals]

/-- The member of an owner is the same where the owner has the same members. -/
theorem directMember?_of_members {owner : Owner}
    (hmembers : l.index.members owner = l'.index.members owner) (name : String) :
    l.directMember? owner name = l'.directMember? owner name := by
  unfold directMember?
  rw [hmembers]
  dsimp only
  congr 2
  refine List.filterMap_congr fun ref _ => ?_
  have hdecl := h.decl ref
  generalize l.index.decl? ref = found at hdecl
  generalize l'.index.decl? ref = found' at hdecl
  cases hdecl with
  | none => rfl
  | @some x y hd =>
    have hname : x.2.name = y.2.name := by simpa using congrArg Declaration.name hd
    have hkind : x.2.kind = y.2.kind := by simpa using congrArg Declaration.kind hd
    have hposition : x.2.position = y.2.position := by simpa using congrArg Declaration.position hd
    dsimp only
    rw [hname, hkind, hposition]

theorem collectOwners_congr (levels : Nat) (type : Ty) (owners : List Owner) :
    l.collectOwners levels type owners = l'.collectOwners levels type owners := by
  induction levels generalizing type owners with
  | zero => rfl
  | succ levels ih =>
    have hsame : l.collectOwners levels = l'.collectOwners levels := by
      funext type owners
      exact ih type owners
    unfold collectOwners
    rw [hsame]
    split <;> first | rfl | rw [h.aliases]

variable (hdepth : l.maxSuperDepth = l'.maxSuperDepth)
include hdepth

theorem ownersOfType_congr (type : Ty) : l.ownersOfType type = l'.ownersOfType type := by
  rw [ownersOfType, ownersOfType, hdepth, collectOwners_congr h]

theorem superOwners_congr (owner : Owner) : l.superOwners owner = l'.superOwners owner := by
  unfold superOwners
  cases owner with
  | anonymous => rfl
  | named name =>
    dsimp only
    rw [h.supers]
    exact List.flatMap_congr fun type _ => ownersOfType_congr h hdepth type

/-- Members are found alike where the owners themselves have the same members of the name. -/
theorem member?_congr {name : String}
    (hdirect : ∀ owner, l.directMember? owner name = l'.directMember? owner name) (owner : Owner) :
    l.member? owner name = l'.member? owner name := by
  have habove (levels : Nat) (seen level : List Owner) :
      l.memberAbove? name levels seen level = l'.memberAbove? name levels seen level := by
    have hdirect : (fun owner => l.directMember? owner name) =
        fun owner => l'.directMember? owner name := funext hdirect
    have hsuper : l.superOwners = l'.superOwners := funext (superOwners_congr h hdepth)
    induction levels generalizing seen level with
    | zero => rw [memberAbove?, memberAbove?, hdirect]
    | succ levels ih => rw [memberAbove?, memberAbove?, hdirect, hsuper, ih]
  rw [member?, member?, hdepth, habove]

end Lookup

namespace Project

variable {p q : Project} (h : p.index.SameNames q.index)
  (hdepth : p.maxSuperDepth = q.maxSuperDepth)
include h hdepth

theorem overloadResult?_congr (type : Ty) (kind : OperatorKind) (operand : Option Ty) :
    p.overloadResult? type kind operand = q.overloadResult? type kind operand := by
  have howners : p.ownersOfType type = q.ownersOfType type :=
    Lookup.ownersOfType_congr h hdepth type
  have hoperators : p.index.operators = q.index.operators := funext h.operators
  rw [overloadResult?, overloadResult?, howners, hoperators]

theorem memberOfType?_congr {name : String}
    (hdirect : ∀ owner, p.directMember? owner name = q.directMember? owner name) (type : Ty) :
    p.memberOfType? type name = q.memberOfType? type name := by
  have howners : p.ownersOfType type = q.ownersOfType type :=
    Lookup.ownersOfType_congr h hdepth type
  have hmember : (fun owner => p.member? owner name) = fun owner => q.member? owner name :=
    funext (Lookup.member?_congr h hdepth hdirect)
  rw [memberOfType?, memberOfType?, howners, hmember]

end Project

end LuaAnalysis
