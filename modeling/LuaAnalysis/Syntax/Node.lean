import LuaAnalysis.Syntax.Literal

/-!
# Syntax nodes

A `Node α` is one node of a Lua file or of its annotation comments; its parts are values of `α`. In
a tree the parts are node ids, in a sketch they are the places of parts that are written elsewhere.

The comments above a statement are not parts of it.
-/

namespace LuaAnalysis

inductive ClassKind where
  | plain
  | interface
deriving DecidableEq

def ClassKind.text : ClassKind → String
  | .plain => "class"
  | .interface => "interface"

/-- The key of an annotated field: a name, bare or as a string; an integer; or the type of the keys
of an index signature. -/
inductive FieldKey (α : Type) where
  | name (token : α)
  | integer (n : Int)
  | signature (type : α)
deriving DecidableEq

inductive Node (α : Type) where
  | name (text : String)
  | source (block : Option α)
  | block (stats : List α)
  | localStat (names exprs : List α)
  | assignStat (targets exprs : List α)
  /-- The target is a name for a local function, a name expression for a global one and an index
  expression for a function stored in a field. -/
  | funcStat (target closure : Option α)
  | callStat (call : α)
  | doStat (block : Option α)
  | whileStat (cond block : Option α)
  | repeatStat (block cond : Option α)
  | ifStat (clauses : List α)
  | ifClause (cond block : Option α)
  | forStat (var : Option α) (exprs : List α) (block : Option α)
  | forRangeStat (names exprs : List α) (block : Option α)
  | returnStat (exprs : List α)
  | breakStat
  | labelStat (name : Option α)
  | gotoStat (label : Option α)
  | nameExpr (name : String)
  /-- The key is a name for `base.key` and `base:key`, an expression for `base[key]`. -/
  | indexExpr (base key : Option α) (colon : Bool)
  | callExpr (callee : Option α) (args : List α)
  | closureExpr (params : List α) (block : Option α)
  | tableExpr (fields : List α)
  | tableField (key value : Option α)
  | literalExpr (value : Literal)
  | binaryExpr (op : BinaryOp) (lhs rhs : Option α)
  | unaryExpr (op : UnaryOp) (operand : Option α)
  | parenExpr (inner : Option α)
  | varArgExpr
  | comment (tags : List α)
  | docClass (kind : ClassKind) (name generics : Option α) (supers : List α) (body : Option α)
  | docEnum (name base : Option α) (fields : List α)
  | docAlias (name type : Option α)
  | docField (key : Option (FieldKey α)) (type : Option α) (nullable : Bool)
  | docBody (fields : List α)
  | docTypeTag (types : List α)
  | docParam (name type : Option α) (nullable : Bool)
  | docReturn (types : List α)
  | docGeneric (params : List α)
  | docGenericParam (name bound : Option α)
  | docOverload (type : Option α)
  | docOperator (op : Option α) (operands : List α) (result : Option α)
  | docNameType (name : String)
  | docArrayType (element : Option α)
  | docUnionType (types : List α)
  | docFuncType (params returns : List α)
  | docFuncParam (name type : Option α) (nullable : Bool)
  | docTableType (fields : List α)
  | docGenericType (head : α) (args : List α)
deriving DecidableEq

namespace Node

variable {α : Type}

/-- The name of a node's kind. -/
def kind : Node α → String
  | name .. => "Name" | source .. => "Source" | block .. => "Block" | localStat .. => "LocalStat"
  | assignStat .. => "AssignStat" | funcStat .. => "FuncStat" | callStat .. => "CallStat"
  | doStat .. => "DoStat" | whileStat .. => "WhileStat" | repeatStat .. => "RepeatStat"
  | ifStat .. => "IfStat" | ifClause .. => "IfClause" | forStat .. => "ForStat"
  | forRangeStat .. => "ForRangeStat" | returnStat .. => "ReturnStat" | breakStat => "BreakStat"
  | labelStat .. => "LabelStat" | gotoStat .. => "GotoStat" | nameExpr .. => "NameExpr"
  | indexExpr .. => "IndexExpr" | callExpr .. => "CallExpr" | closureExpr .. => "ClosureExpr"
  | tableExpr .. => "TableExpr" | tableField .. => "TableField" | literalExpr .. => "LiteralExpr"
  | binaryExpr .. => "BinaryExpr" | unaryExpr .. => "UnaryExpr" | parenExpr .. => "ParenExpr"
  | varArgExpr => "VarArgExpr" | comment .. => "Comment" | docClass .. => "DocClass"
  | docEnum .. => "DocEnum" | docAlias .. => "DocAlias" | docField .. => "DocField"
  | docBody .. => "DocBody" | docTypeTag .. => "DocTypeTag" | docParam .. => "DocParam"
  | docReturn .. => "DocReturn" | docGeneric .. => "DocGeneric"
  | docGenericParam .. => "DocGenericParam" | docOverload .. => "DocOverload"
  | docOperator .. => "DocOperator" | docNameType .. => "DocNameType"
  | docArrayType .. => "DocArrayType" | docUnionType .. => "DocUnionType"
  | docFuncType .. => "DocFuncType" | docFuncParam .. => "DocFuncParam"
  | docTableType .. => "DocTableType" | docGenericType .. => "DocGenericType"

def isStat : Node α → Bool
  | localStat .. | assignStat .. | funcStat .. | callStat .. | doStat .. | whileStat ..
  | repeatStat .. | ifStat .. | forStat .. | forRangeStat .. | returnStat .. | breakStat
  | labelStat .. | gotoStat .. => true
  | _ => false

def isExpr : Node α → Bool
  | nameExpr .. | indexExpr .. | callExpr .. | closureExpr .. | tableExpr .. | literalExpr ..
  | binaryExpr .. | unaryExpr .. | parenExpr .. | varArgExpr => true
  | _ => false

def isDocType : Node α → Bool
  | docNameType .. | docArrayType .. | docUnionType .. | docFuncType .. | docTableType ..
  | docGenericType .. => true
  | _ => false

def isComment : Node α → Bool
  | comment .. => true
  | _ => false

/-- The text that a node holds itself, apart from its parts: a name, a literal, an operator or the
word that begins it. -/
def text? : Node α → Option String
  | name text | nameExpr text | docNameType text => some text
  | literalExpr value => some value.text
  | binaryExpr op .. => some op.text
  | unaryExpr op .. => some op.text
  | docClass kind .. => some kind.text
  | _ => none

end Node

end LuaAnalysis
