import LuaAnalysis.Config
import LuaAnalysis.File.Model
import LuaAnalysis.Syntax.Walk
import LuaAnalysis.Types.Annotation

/-!
# Analysing one file

`SyntaxTree.analyse` goes through a tree once. On the way it opens the scopes, makes the
declarations, collects what the file contributes to the project and notes what is left to find out.
A construct with missing parts is passed over, the rest of the file is analysed all the same.

An `Outline` is the model of a file as far as the walk has come.
-/

namespace LuaAnalysis

structure Outline where
  decls : Array Declaration := #[]
  scopes : ScopeTree := {}
  /-- The scopes that have been entered and not left, the innermost first. -/
  around : List ScopeId := []
  anchors : List (NodeId × DeclId) := []
  methods : List Method := []
  entries : Entries := {}
  worklist : Worklist := {}

/-! ## Comments of statements -/

namespace SyntaxTree

/-- The tags of a comment. -/
def tagsOf (t : SyntaxTree) (comment : NodeId) : List NodeId :=
  match t.node? comment with
  | some (.comment tags) => tags
  | _ => []

/-- The tags of every comment above a statement. -/
def tags (t : SyntaxTree) (stat : NodeId) : List NodeId :=
  (t.comments stat).flatMap t.tagsOf

/-- The types of the type tags above a statement, one for each target. -/
def taggedTypes (t : SyntaxTree) (stat : NodeId) : List Ty :=
  (t.tags stat).flatMap fun tag =>
    match t.node? tag with
    | some (.docTypeTag types) => types.map t.annotatedType
    | _ => []

/-- The name that a class, interface, enum or alias tag defines. -/
def definedName? (t : SyntaxTree) (tag : NodeId) : Option String :=
  match t.node? tag with
  | some (.docClass _ name _ _ _) => name.map t.nameText
  | some (.docEnum name _ _) => name.map t.nameText
  | some (.docAlias name _) => name.map t.nameText
  | _ => none

/-- Whether a tag begins the definition of a type. -/
def isDefinition (t : SyntaxTree) (tag : NodeId) : Bool :=
  match t.node? tag with
  | some (.docClass ..) | some (.docEnum ..) | some (.docAlias ..) => true
  | _ => false

/-- The type that the tags above a statement define first. -/
def definedType? (t : SyntaxTree) (stat : NodeId) : Option String :=
  (t.tags stat).findSome? t.definedName?

/-- The tags after a tag in its comment, up to the next definition of a type. -/
def followingTags (t : SyntaxTree) (tag : NodeId) : List NodeId :=
  match t.parent? tag with
  | some comment => (((t.tagsOf comment).dropWhile (· ≠ tag)).drop 1).takeWhile fun other =>
      !t.isDefinition other
  | none => []

/-- The type of a part that may be written as nullable. -/
def nullableType (t : SyntaxTree) (type : NodeId) (nullable : Bool) : Ty :=
  if nullable then (t.annotatedType type).nullable else t.annotatedType type

end SyntaxTree

/-- The value of the target at a position. Targets past the last expression take the further values
of that expression. -/
def valueAt (exprs : List NodeId) (i : Nat) : Option ValueRef :=
  match exprs[i]? with
  | some e => some ⟨e, 0⟩
  | none => exprs.getLast?.map fun e => ⟨e, i - (exprs.length - 1)⟩

/-- The type that annotations give the target at a position, and whether they define it. A defined
type belongs to the first target. -/
def typeAt (types : List Ty) (defined : Option String) (i : Nat) : Option Ty × Bool :=
  match defined, i with
  | some name, 0 => (some (.named name), true)
  | _, _ => (types[i]?, false)

namespace Outline

variable (config : Config) (tree : SyntaxTree)

def currentScope? (o : Outline) : Option ScopeId :=
  match o.around with
  | id :: _ => some id
  | [] => o.scopes.root?

def enterScope (o : Outline) (owner : NodeId) (kind : ScopeKind) : Outline :=
  let (id, scopes) := o.scopes.opened kind owner (tree.span owner) o.currentScope?
  { o with scopes, around := id :: o.around }

/-- Makes a declaration in the current scope. `token` is its name where that is another node. -/
def declare (o : Outline) (d : Declaration) (token : Option NodeId) : Outline :=
  let id := o.decls.size
  { o with
    decls := o.decls.push d
    anchors := (token.toList.map fun node => (node, id)) ++ (d.node, id) :: o.anchors
    scopes :=
      match o.currentScope? with
      | some scope => o.scopes.addItem scope (.decl id)
      | none => o.scopes }

/-- The declaration that `declare` makes next. -/
def nextDecl (o : Outline) : DeclId :=
  o.decls.size

def schedule (o : Outline) (task : Task) : Outline :=
  { o with worklist := o.worklist.push task }

def record (o : Outline) (change : Entries → Entries) : Outline :=
  { o with entries := change o.entries }

/-- The declaration that a name at a node sees among those made so far. -/
def find? (o : Outline) (node : NodeId) (name : String) : Option DeclId :=
  (o.scopes.scopeOf? tree node).bind (o.scopes.find? o.decls name (tree.span node).start)

/-- Makes a declaration whose node is its name. -/
def declareName (o : Outline) (kind : DeclKind) (node : NodeId) (name : String)
    (written : Option Ty) : Outline :=
  o.declare { name, kind, node, loc := tree.loc node, written } none

/-! ## Statements -/

def localStat (o : Outline) (stat : NodeId) (names exprs : List NodeId) : Outline :=
  let types := tree.taggedTypes stat
  let defined := tree.definedType? stat
  names.zipIdx.foldl (fun o (name, i) =>
    let (written, definesType) := typeAt types defined i
    (o.declareName tree .localVar name (tree.nameText name) written).schedule
      (.declaration o.nextDecl (valueAt exprs i) { type := true } definesType)) o

/-- A target of an assignment: a name that nothing declares yet becomes a global, a field that is
named becomes a member later. -/
def assignTarget (o : Outline) (target : NodeId) (value : Option ValueRef)
    (written : Option Ty) (definesType : Bool) : Outline :=
  match tree.node? target with
  | some (.nameExpr name) =>
    if (o.find? tree target name).isSome then o
    else
      let id := o.nextDecl
      ((o.declareName tree .global target name written).record (·.addGlobal name id)).schedule
        (.declaration id value { type := true } definesType)
  | some (.indexExpr _ (some key) _) =>
    match tree.keyText? key with
    | some name =>
      (o.declare { name, kind := .index, node := target, loc := tree.loc key, written }
        (some key)).schedule
        (.declaration o.nextDecl value { type := true, owner := true } definesType)
    | none => o
  | _ => o

def assignStat (o : Outline) (stat : NodeId) (targets exprs : List NodeId) : Outline :=
  let types := tree.taggedTypes stat
  let defined := tree.definedType? stat
  targets.zipIdx.foldl (fun o (target, i) =>
    let (written, definesType) := typeAt types defined i
    o.assignTarget tree target (valueAt exprs i) written definesType) o

def funcStat (o : Outline) (target closure : NodeId) : Outline :=
  let value := some ⟨closure, 0⟩
  let id := o.nextDecl
  match tree.node? target with
  | some (.name name) =>
    (o.declareName tree (.method .lexical closure) target name none).schedule
      (.declaration id value { type := true } false)
  | some (.nameExpr name) =>
    if (o.find? tree target name).isSome then o
    else
      ((o.declareName tree (.method .global closure) target name none).record
        (·.addGlobal name id)).schedule (.declaration id value { type := true } false)
  | some (.indexExpr _ (some key) _) =>
    match tree.keyText? key with
    | some name =>
      (o.declare { name, kind := .method .field closure, node := target, loc := tree.loc key }
        (some key)).schedule (.declaration id value { type := true, owner := true } false)
    | none => o
  | _ => o

def forStat (o : Outline) (var : NodeId) : Outline :=
  o.declareName tree .parameter var (tree.nameText var) (some .integer)

/-- The parameter tags among some tags, each with its name and type. -/
def paramTags (tags : List NodeId) : List (NodeId × Ty) :=
  tags.filterMap fun tag =>
    match tree.node? tag with
    | some (.docParam (some name) (some type) nullable) =>
      some (name, tree.nullableType type nullable)
    | _ => none

/-- The type that the last parameter tag of a name gives it. -/
def paramType? (params : List (NodeId × Ty)) (name : String) : Option Ty :=
  (params.reverse.find? fun p => tree.nameText p.1 = name).map Prod.snd

def declareParamTags (o : Outline) (params : List (NodeId × Ty)) : Outline :=
  params.foldl (fun o (name, type) =>
    o.declareName tree .docParameter name (tree.nameText name) (some type)) o

/-- Declares names as parameters, with the types of the parameter tags. -/
def declareParams (o : Outline) (params : List (NodeId × Ty)) (names : List NodeId) : Outline :=
  names.foldl (fun o name =>
    o.declareName tree .parameter name (tree.nameText name)
      (paramType? tree params (tree.nameText name))) o

def forRangeStat (o : Outline) (stat : NodeId) (names : List NodeId) : Outline :=
  let params := paramTags tree (tree.tags stat)
  (o.declareParamTags tree params).declareParams tree params names

def labelStat (o : Outline) (stat name : NodeId) : Outline :=
  o.declare { name := tree.nameText name, kind := .label, node := stat, loc := tree.loc name }
    (some name)

/-! ## Closures and tables -/

/-- Declares a generic parameter if it has a name. -/
def genericParam (o : Outline) (param : NodeId) : Outline :=
  match tree.node? param with
  | some (.docGenericParam (some name) bound) =>
    o.declare
      { name := tree.nameText name, kind := .genericParameter, node := param, loc := tree.loc name
        written := bound.map tree.annotatedType }
      (some name)
  | _ => o

/-- The signatures of the overload tags among some tags. -/
def overloads (tags : List NodeId) : List (Signature Ty) :=
  tags.filterMap fun tag =>
    match tree.node? tag with
    | some (.docOverload type) =>
      match tree.annotatedType? type with
      | .signature s => some s
      | _ => none
    | _ => none

/-- The types of the return tags among some tags. -/
def declaredReturns (tags : List NodeId) : List Ty :=
  tags.flatMap fun tag =>
    match tree.node? tag with
    | some (.docReturn types) => types.map tree.annotatedType
    | _ => []

/-- The parameters of the generic tags among some tags. -/
def genericParams (tags : List NodeId) : List NodeId :=
  tags.flatMap fun tag =>
    match tree.node? tag with
    | some (.docGeneric params) => params
    | _ => []

/-- A closure takes the tags of the statement around it. -/
def closure (o : Outline) (id : NodeId) (names : List NodeId) (body : Option NodeId) : Outline :=
  let tags := ((tree.enclosingStat? id).map tree.tags).getD []
  let o := (genericParams tree tags).foldl (fun o param => o.genericParam tree param) o
  let params := paramTags tree tags
  let o := o.declareParamTags tree params
  let first := o.nextDecl
  let o := o.declareParams tree params names
  let method : Method :=
    { closure := id, params := List.range' first names.length, overloads := overloads tree tags
      declared := declaredReturns tree tags }
  let o := { o with methods := method :: o.methods }
  if config.inferReturns && body.isSome then o.schedule (.method id) else o

def tableField (o : Outline) (field : NodeId) (key value : Option NodeId) : Outline :=
  match key, value, tree.parent? field with
  | some key, some value, some table =>
    match tree.keyText? key with
    | some name =>
      let id := o.nextDecl
      let d : Declaration := { name, kind := .tableField, node := field, loc := tree.loc key }
      ((o.declare d (some key)).record (·.addMember (.anonymous (tree.syntaxId table)) id)).schedule
        (.declaration id (some ⟨value, 0⟩) { type := true } false)
    | none => o
  | _, _, _ => o

/-! ## Definitions of types -/

/-- Declares a type by its name. -/
def namedType (o : Outline) (name : NodeId) (category : TypeCategory) : Outline :=
  let text := tree.nameText name
  (o.declareName tree (.namedType category) name text (some (.named text))).record
    (·.addType text o.nextDecl category)

/-- An annotated field of an owner. An index signature is an operator of the owner, any other field
a member. -/
def docField (o : Outline) (owner : Owner) (field : NodeId) : Outline :=
  match tree.node? field with
  | some (.docField (some key) (some type) nullable) =>
    let value := tree.nullableType type nullable
    let declared (name : String) (token : Option NodeId) : Outline :=
      (o.declare
        { name, kind := .docField, node := field, loc := tree.loc (token.getD field)
          written := some value }
        token).record (·.addMember owner o.nextDecl)
    match key with
    | .name token => declared (tree.nameText token) (some token)
    | .integer n => declared (Literal.integerKey n) none
    | .signature keyType =>
      o.record (·.addOperator owner (.index (tree.annotatedType keyType) value))
  | _ => o

def operator (o : Outline) (owner : Owner) (tag : NodeId) : Outline :=
  match tree.node? tag with
  | some (.docOperator (some name) operands result) =>
    match OperatorKind.ofName? (tree.nameText name) with
    | some kind =>
      let operands := if kind.isUnary then [] else (operands.take 1).map tree.annotatedType
      o.record (·.addOperator owner (.new kind operands (tree.annotatedType? result)))
    | none => o
  | _ => o

/-- A tag after the definition of a class, which may add a field or an operator to it. -/
def classTag (o : Outline) (owner : Owner) (tag : NodeId) : Outline :=
  match tree.node? tag with
  | some (.docField ..) => o.docField tree owner tag
  | some (.docOperator ..) => o.operator tree owner tag
  | _ => o

/-- The fields of the body of a class. -/
def bodyFields (body : Option NodeId) : List NodeId :=
  match body.bind tree.node? with
  | some (.docBody fields) => fields
  | _ => []

/-- Declares the parameters of a generic class, those that have a name. -/
def classGenerics (o : Outline) (name : String) (generics : Option NodeId) : Outline :=
  match generics.bind tree.node? with
  | some (.docGeneric params) =>
    params.foldl (fun o param =>
      match tree.node? param with
      | some (.docGenericParam (some _) _) =>
        (o.genericParam tree param).record (·.addGeneric name o.nextDecl)
      | _ => o) o
  | _ => o

def docClass (o : Outline) (tag : NodeId) (kind : ClassKind) (name : NodeId)
    (generics : Option NodeId) (supers : List NodeId) (body : Option NodeId) : Outline :=
  let category := match kind with
    | .plain => TypeCategory.classType
    | .interface => TypeCategory.interfaceType
  let text := tree.nameText name
  let owner := Owner.named text
  let o := o.namedType tree name category
  let o := (tree.followingTags tag).foldl (fun o tag => o.classTag tree owner tag) o
  let o := (bodyFields tree body).foldl (fun o field => o.docField tree owner field) o
  let o := supers.foldl (fun o super => o.record (·.addSuper text (tree.annotatedType super))) o
  o.classGenerics tree text generics

/-- An enum. Its fields have the type that is written for them, or else are integers. -/
def docEnum (o : Outline) (name : NodeId) (base : Option NodeId) (fields : List NodeId) : Outline :=
  let type := (base.map tree.annotatedType).getD .integer
  let owner := Owner.named (tree.nameText name)
  fields.foldl (fun o field =>
    (o.declareName tree .enumField field (tree.nameText field) (some type)).record
      (·.addMember owner o.nextDecl)) (o.namedType tree name .enumType)

def docAlias (o : Outline) (name type : NodeId) : Outline :=
  let id := o.nextDecl
  (o.namedType tree name .aliasType).record
    (·.addAlias (tree.nameText name) (tree.annotatedType type) id)

def docTableType (o : Outline) (id : NodeId) (fields : List NodeId) : Outline :=
  fields.foldl (fun o field => o.docField tree (.anonymous (tree.syntaxId id)) field) o

/-! ## The walk -/

/-- Records an occurrence of a name, of a field or of a type. -/
def occurrence (o : Outline) (id : NodeId) : Outline :=
  match tree.node? id with
  | some (.nameExpr name) => o.record (·.addNameExpr name id)
  | some (.indexExpr ..) =>
    match tree.fieldText? id with
    | some field => o.record (·.addIndexExpr field id)
    | none => o
  | some (.docNameType name) => o.record (·.addTypeRef name id)
  | _ => o

/-- What a node declares when it is entered. -/
def declareAt (o : Outline) (id : NodeId) : Outline :=
  match tree.node? id with
  | some (.source (some body)) => if config.inferReturns then o.schedule (.source body) else o
  | some (.localStat names exprs) => o.localStat tree id names exprs
  | some (.assignStat targets exprs) => o.assignStat tree id targets exprs
  | some (.funcStat (some target) (some closure)) => o.funcStat tree target closure
  | some (.forStat (some var) _ _) => o.forStat tree var
  | some (.forRangeStat names _ _) => o.forRangeStat tree id names
  | some (.labelStat (some name)) => o.labelStat tree id name
  | some (.tableField key value) => o.tableField tree id key value
  | some (.closureExpr params body) => o.closure config tree id params body
  | some (.docClass kind (some name) generics supers body) =>
    o.docClass tree id kind name generics supers body
  | some (.docEnum (some name) base fields) => o.docEnum tree name base fields
  | some (.docAlias (some name) (some type)) => o.docAlias tree name type
  | some (.docTableType fields) => o.docTableType tree id fields
  | some (.nameExpr _) | some (.indexExpr ..) | some (.docNameType _) =>
    if config.indexNameExprs then o.occurrence tree id else o
  | _ => o

def enter (o : Outline) (id : NodeId) : Outline :=
  let o := match tree.scopeKind? id with
    | some kind => o.enterScope tree id kind
    | none => o
  o.declareAt config tree id

def leave (o : Outline) (id : NodeId) : Outline :=
  if (o.scopes.ownedBy? id).isSome then { o with around := o.around.tail } else o

/-- The visitor that makes the outline of a tree. It never ends the walk. -/
def visitor : Visitor Outline Empty where
  enter id o := (none, o.enter config tree id)
  exit id o := (none, o.leave id)

end Outline

namespace SyntaxTree

/-- What a walk through the whole tree finds. -/
def outline (tree : SyntaxTree) (config : Config) : Outline :=
  (tree.traverse (Outline.visitor config tree) tree.root {}).2

/-- The analysis of a tree. -/
def analyse (tree : SyntaxTree) (config : Config) (revision : Revision) (generation : Nat) :
    Analysis :=
  let o := tree.outline config
  { model :=
      { revision, generation, tree, decls := o.decls, scopes := o.scopes, anchors := o.anchors
        methods := o.methods }
    entries := o.entries
    worklist := o.worklist }

end SyntaxTree

end LuaAnalysis
