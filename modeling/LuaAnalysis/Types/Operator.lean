import LuaAnalysis.Types.Ty

/-!
# Overloaded operators

A class may say which types its operators take and give. A comparison always gives a boolean.
-/

namespace LuaAnalysis

inductive OperatorKind where
  | add | sub | mul | div | mod | pow | unm | idiv
  | band | bor | bxor | bnot | shl | shr
  | concat | len | eq | lt | le
  /-- The index signature `[key]: value`. -/
  | index
deriving DecidableEq

namespace OperatorKind

def text : OperatorKind → String
  | add => "add" | sub => "sub" | mul => "mul" | div => "div" | mod => "mod" | pow => "pow"
  | unm => "unm" | idiv => "idiv" | band => "band" | bor => "bor" | bxor => "bxor" | bnot => "bnot"
  | shl => "shl" | shr => "shr" | concat => "concat" | len => "len" | eq => "eq" | lt => "lt"
  | le => "le" | index => "index"

/-- The operators that an annotation can name. -/
def named : List OperatorKind :=
  [add, sub, mul, div, mod, pow, unm, idiv, band, bor, bxor, bnot, shl, shr, concat, len,
    eq, lt, le]

def all : List OperatorKind :=
  named ++ [index]

/-- The operator that an annotation names. -/
def ofName? (s : String) : Option OperatorKind :=
  named.find? fun kind => kind.text = s

def ofText? (s : String) : Option OperatorKind :=
  all.find? fun kind => kind.text = s

def isUnary : OperatorKind → Bool
  | unm | bnot | len => true
  | _ => false

def isComparison : OperatorKind → Bool
  | eq | lt | le => true
  | _ => false

/-- The overload behind a binary operator: `>` and `>=` are `<` and `<=` with the operands
exchanged, `~=` is the negation of `==`, and the logical operators have none. -/
def ofBinary? : BinaryOp → Option OperatorKind
  | .add => some add
  | .sub => some sub
  | .mul => some mul
  | .div => some div
  | .floorDiv => some idiv
  | .mod => some mod
  | .pow => some pow
  | .concat => some concat
  | .bitAnd => some band
  | .bitOr => some bor
  | .bitXor => some bxor
  | .shiftLeft => some shl
  | .shiftRight => some shr
  | .eq | .ne => some eq
  | .lt | .gt => some lt
  | .le | .ge => some le
  | .and | .or => none

/-- The overload behind a unary operator; `not` has none. -/
def ofUnary? : UnaryOp → Option OperatorKind
  | .neg => some unm
  | .bitNot => some bnot
  | .length => some len
  | .not => none

end OperatorKind

/-- One overload. The operands are those besides the value that has the operator. -/
structure Overload where
  kind : OperatorKind
  operands : List Ty
  result : Ty
deriving DecidableEq

namespace Overload

def new (kind : OperatorKind) (operands : List Ty) (result : Ty) : Overload :=
  ⟨kind, operands, if kind.isComparison then .boolean else result⟩

/-- The index signature `[key]: value`. -/
def index (key value : Ty) : Overload :=
  ⟨.index, [key], value⟩

/-- Whether a declared operand type takes an operand: `any` and `unknown` take all, a number takes
an integer, and a union takes its alternatives. -/
def takes (expected actual : Ty) : Bool :=
  match expected with
  | .any | .unknown => true
  | .number => actual == .number || actual == .integer
  | .union alternatives => expected == actual || alternatives.contains actual
  | _ => expected == actual

/-- Whether the overload applies to a right operand, or to none. Without a declared operand it
always does. -/
def accepts (o : Overload) (operand : Option Ty) : Bool :=
  match o.operands.head?, operand with
  | none, _ => true
  | some _, none => o.kind.isUnary
  | some expected, some actual => takes expected actual

end Overload

end LuaAnalysis
