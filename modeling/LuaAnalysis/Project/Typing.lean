import LuaAnalysis.Project.Findings
import LuaAnalysis.Project.Lookup

/-!
# Types of expressions

The type of an expression follows from the types of the expressions inside it and from what has been
found out about declarations; what is not known yet is `unknown`. `typeStep` is one step: it gives
the type of an expression when the types of smaller expressions are given, and `exprType` repeats
it.

`declaration?` finds the declaration that a node refers to. It types the base of a member access,
and typing a name asks for the declaration of the name, so the two belong together.
-/

namespace LuaAnalysis

/-- The published files and what has been found out about them. -/
structure Project extends Lookup where
  findings : Findings := {}

def Literal.type : Literal → Ty
  | .nil => .nil
  | .bool _ => .boolean
  | .integer _ => .integer
  | .number _ => .number
  | .string _ => .string

/-- The member access that a node is, or is the key of. -/
def SyntaxTree.memberAccess? (t : SyntaxTree) (id : NodeId) : Option NodeId :=
  match t.node? id with
  | some (.indexExpr ..) => some id
  | _ =>
    match t.parent? id with
    | some p =>
      match t.node? p with
      | some (.indexExpr _ key _) => if key = some id then some p else none
      | _ => none
    | none => none

/-- The type of an arithmetic operation without an overload. -/
def OperatorKind.builtinType (kind : OperatorKind) (lhs rhs : Ty) : Ty :=
  match kind with
  | .concat => .string
  | .band | .bor | .bxor | .shl | .shr => .integer
  | _ =>
    if lhs.isNumeric && rhs.isNumeric then
      if kind = .div ∨ kind = .pow then .number
      else if lhs = .integer ∧ rhs = .integer then .integer
      else .number
    else .unknown

namespace Project

variable (p : Project)

/-- The type of a declaration, unknown as long as it is not found out. -/
def declType (ref : DeclRef) : Ty :=
  match p.index.decl? ref with
  | some (m, _) => (p.findings.type? m ref.decl).getD .unknown
  | none => .unknown

/-- The result of the first overload of an operator that a type has and that takes the operand. -/
def overloadResult? (type : Ty) (kind : OperatorKind) (operand : Option Ty) : Option Ty :=
  (((p.ownersOfType type).flatMap p.index.operators).find? fun o =>
    o.kind = kind && o.accepts operand).map (·.result)

/-- The value of a call of a closure: of the file itself, or of a published file. -/
def closureResult (m : FileModel) (closure : SyntaxId) : Ty :=
  let owner := if closure.source = m.source then some m else p.index.model? closure.source
  (owner.bind fun m => p.findings.returnType? m closure.node).getD .unknown

/-- The member with a name that a value of a type has, from the first owner that has one. -/
def memberOfType? (type : Ty) (name : String) : Option DeclRef :=
  (p.ownersOfType type).findSome? fun owner => p.member? owner name

/-! ## One step -/

section
variable (m : FileModel) (typeOf : NodeId → Nat → Ty)

/-- The first value of a part that may be missing. -/
def partType (part : Option NodeId) : Ty :=
  (part.map fun e => typeOf e 0).getD .unknown

/-- The member that an index expression selects from the type of its base. -/
def indexMemberStep? (index : NodeId) : Option DeclRef :=
  match m.tree.node? index with
  | some (.indexExpr base key _) =>
    match key.bind m.tree.keyText?, base with
    | some name, some base => p.memberOfType? (typeOf base 0) name
    | _, _ => none
  | _ => none

/-- The declaration that a node refers to or makes. A member access goes through the type of its
base before anything else, so `p.x` is the field of the class that `p` has even where `p.x = 1`
declares a field. -/
def declarationStep? (node : NodeId) : Option DeclRef :=
  match (m.tree.memberAccess? node).bind (p.indexMemberStep? m typeOf) with
  | some found => some found
  | none =>
    match m.anchored? node with
    | some id => some (m.ref id)
    | none =>
      match m.tree.node? node with
      | some (.nameExpr name) => ((m.find? node name).map m.ref).or (p.global? name m.source)
      | some (.docNameType name) => p.namedType? name m.source
      | _ => none

/-- The value of a call; several values are a tuple. -/
def callStep (call : NodeId) : Ty :=
  match m.tree.node? call with
  | some (.callExpr (some callee) _) =>
    match typeOf callee 0 with
    | .method closure => p.closureResult m closure
    | .signature s => .ofReturns s.returns
    | _ => .unknown
  | _ => .unknown

/-- The type of a key between brackets, or of a name behind a dot. -/
def keyType (key : Option NodeId) : Ty :=
  match key with
  | none => .unknown
  | some key =>
    match m.tree.node? key with
    | some (.name _) => .string
    | _ => typeOf key 0

/-- The type of a value in a value of a type that has no such member: an element of an array, a
value of a `table<K, V>`, or the result of an index signature. -/
def elementStep (baseType : Ty) (key : Option NodeId) : Ty :=
  match baseType with
  | .array element => element
  | .genericApp "table" args => args.getLast?.getD .unknown
  | _ => (p.overloadResult? baseType .index (some (keyType m typeOf key))).getD .unknown

/-- The type of an index expression. -/
def indexStep (base key : Option NodeId) : Ty :=
  match base with
  | none => .unknown
  | some base =>
    let baseType := typeOf base 0
    match (key.bind m.tree.keyText?).bind (p.memberOfType? baseType) with
    | some member => p.declType member
    | none => p.elementStep m typeOf baseType key

def binaryStep (op : BinaryOp) (lhs rhs : Option NodeId) : Ty :=
  let lhs := partType typeOf lhs
  let rhs := partType typeOf rhs
  match OperatorKind.ofBinary? op with
  | none => if op = .and then rhs else lhs.join rhs
  | some kind =>
    if kind.isComparison then .boolean
    else (p.overloadResult? lhs kind (some rhs)).getD (kind.builtinType lhs rhs)

def unaryStep (op : UnaryOp) (operand : Option NodeId) : Ty :=
  let operand := partType typeOf operand
  match OperatorKind.ofUnary? op with
  | none => .boolean
  | some kind =>
    (p.overloadResult? operand kind none).getD <|
      match op with
      | .length | .bitNot => .integer
      | _ => if operand.isNumeric then operand else .unknown

/-- The type of one of the values of an expression. Only a call has more than one value; past its
last value every other expression is `nil`, and a vararg expression is unknown throughout. -/
def typeStep (expr : NodeId) (slot : Nat) : Ty :=
  match m.tree.node? expr with
  | some .varArgExpr => .unknown
  | some (.callExpr ..) => (p.callStep m typeOf expr).slot slot
  | some node =>
    if !node.isExpr then .unknown
    else if 0 < slot then .nil
    else
      match node with
      | .literalExpr value => value.type
      | .nameExpr _ => ((p.declarationStep? m typeOf expr).map p.declType).getD .unknown
      | .parenExpr inner => partType typeOf inner
      | .tableExpr _ => .tableLiteral (m.tree.syntaxId expr)
      | .closureExpr .. => .method (m.tree.syntaxId expr)
      | .indexExpr base key _ => p.indexStep m typeOf base key
      | .binaryExpr op lhs rhs => p.binaryStep typeOf op lhs rhs
      | .unaryExpr op operand => p.unaryStep typeOf op operand
      | _ => .unknown
  | none => .unknown

end

/-! ## The closed forms -/

/-- The type of an expression that is nested at most a number of levels deep. -/
def exprTypeWithin (m : FileModel) : Nat → NodeId → Nat → Ty
  | 0, _, _ => .unknown
  | levels + 1, expr, slot => p.typeStep m (exprTypeWithin m levels) expr slot

/-- The type of one of the values of an expression. Ids shrink downwards, so `expr + 1` levels are
all there are. -/
def exprType (m : FileModel) (expr : NodeId) (slot : Nat) : Ty :=
  p.exprTypeWithin m (expr + 1) expr slot

/-- The value of a call. -/
def callType (m : FileModel) (call : NodeId) : Ty :=
  p.callStep m (p.exprType m) call

/-- The declaration that a node of a file refers to or makes. -/
def declaration? (m : FileModel) (node : NodeId) : Option DeclRef :=
  p.declarationStep? m (p.exprType m) node

end Project

end LuaAnalysis
