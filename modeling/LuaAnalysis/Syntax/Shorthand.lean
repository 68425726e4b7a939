import LuaAnalysis.Syntax.Sketch

/-!
# Short forms of common sketches

Expressions, statements, types and annotations as they are usually written: a function has a body, a
clause has a condition, and names and types are given by their texts.
-/

namespace LuaAnalysis.Sketch

def name (text : String) : Sketch :=
  node (.name text)

def names (texts : List String) : List Sketch :=
  texts.map name

/-! ## Expressions -/

def var (text : String) : Sketch :=
  node (.nameExpr text)

def literal (value : Literal) : Sketch :=
  node (.literalExpr value)

/-- `base.key`, or `base:key` with a colon. -/
def member (base : Sketch) (key : String) (colon : Bool) : Sketch :=
  node (.indexExpr (some base) (some (name key)) colon)

/-- `base[key]` -/
def bracket (base key : Sketch) : Sketch :=
  node (.indexExpr (some base) (some key) false)

def call (callee : Sketch) (args : List Sketch) : Sketch :=
  node (.callExpr (some callee) args)

def binary (op : BinaryOp) (lhs rhs : Sketch) : Sketch :=
  node (.binaryExpr op (some lhs) (some rhs))

def unary (op : UnaryOp) (operand : Sketch) : Sketch :=
  node (.unaryExpr op (some operand))

def paren (inner : Sketch) : Sketch :=
  node (.parenExpr (some inner))

/-- `function(params) body end` -/
def closure (params : List String) (body : List Sketch) : Sketch :=
  node (.closureExpr (names params) (some (block body)))

/-- `key = value` in a table, `["key"] = value` when the key is quoted. -/
def entry (key : Sketch) (value : Sketch) : Sketch :=
  node (.tableField (some key) (some value))

/-- A value in a table without a key. -/
def item (value : Sketch) : Sketch :=
  node (.tableField none (some value))

/-! ## Statements -/

/-- `local names = exprs` -/
def declare (vars : List String) (exprs : List Sketch) : Sketch :=
  node (.localStat (names vars) exprs)

/-- A statement that stores a function under a target. -/
def function (target : Sketch) (params : List String) (body : List Sketch) : Sketch :=
  node (.funcStat (some target) (some (closure params body)))

/-- `do body end` -/
def doBlock (body : List Sketch) : Sketch :=
  node (.doStat (some (block body)))

/-- `while cond do body end` -/
def whileLoop (cond : Sketch) (body : List Sketch) : Sketch :=
  node (.whileStat (some cond) (some (block body)))

/-- `repeat body until cond` -/
def repeatLoop (body : List Sketch) (cond : Sketch) : Sketch :=
  node (.repeatStat (some (block body)) (some cond))

/-- `if cond then body end` -/
def ifThen (cond : Sketch) (body : List Sketch) : Sketch :=
  node (.ifStat [node (.ifClause (some cond) (some (block body)))])

/-- `for counter = exprs do body end` -/
def numericFor (counter : String) (exprs body : List Sketch) : Sketch :=
  node (.forStat (some (name counter)) exprs (some (block body)))

/-- `for vars in exprs do body end` -/
def genericFor (vars : List String) (exprs body : List Sketch) : Sketch :=
  node (.forRangeStat (names vars) exprs (some (block body)))

def label (text : String) : Sketch :=
  node (.labelStat (some (name text)))

def goto (text : String) : Sketch :=
  node (.gotoStat (some (name text)))

/-! ## Types -/

/-- A type by its name alone. -/
def typeName (text : String) : Sketch :=
  node (.docNameType text)

/-- The type that a text, given backwards, stands for: a question mark at the end makes it nullable
and brackets at the end make it an array. -/
def typeBackwards : List Char → Sketch
  | '?' :: rest => node (.docUnionType [typeBackwards rest, typeName "nil"])
  | ']' :: '[' :: rest => node (.docArrayType (some (typeBackwards rest)))
  | backwards => typeName (String.ofList backwards.reverse)

/-- The type that a text such as `T[]` or `T?` stands for. -/
def type (text : String) : Sketch :=
  typeBackwards text.toList.reverse

def types (texts : List String) : List Sketch :=
  texts.map type

def unionType (alternatives : List String) : Sketch :=
  node (.docUnionType (types alternatives))

/-- `fun(name: type, ...): returns` -/
def funcType (params : List (String × String)) (returns : List String) : Sketch :=
  node (.docFuncType
    (params.map fun (n, t) => node (.docFuncParam (some (name n)) (some (type t)) false))
    (types returns))

/-- An annotated field with a name. -/
def docField (key value : String) : Sketch :=
  node (.docField (some (.name (name key))) (some (type value)) false)

/-- An index signature: every key of one type has values of another. -/
def docSignature (key value : String) : Sketch :=
  node (.docField (some (.signature (type key))) (some (type value)) false)

/-! ## Annotations -/

/-- The parameters of a generic class or function, without bounds. -/
def generics (params : List String) : Sketch :=
  node (.docGeneric (params.map fun p => node (.docGenericParam (some (name p)) none)))

def classTag (text : String) (supers : List String) : Sketch :=
  node (.docClass .plain (some (name text)) none (types supers) none)

def interfaceTag (text : String) : Sketch :=
  node (.docClass .interface (some (name text)) none [] none)

def genericClassTag (text : String) (params : List String) : Sketch :=
  node (.docClass .plain (some (name text)) (some (generics params)) [] none)

def enumTag (text : String) (base : Option String) (fields : List String) : Sketch :=
  node (.docEnum (some (name text)) (base.map type) (names fields))

def aliasTag (text target : String) : Sketch :=
  node (.docAlias (some (name text)) (some (type target)))

def typeTag (written : List Sketch) : Sketch :=
  node (.docTypeTag written)

def paramTag (text written : String) (nullable : Bool) : Sketch :=
  node (.docParam (some (name text)) (some (type written)) nullable)

def returnTag (written : List String) : Sketch :=
  node (.docReturn (types written))

def overloadTag (params : List (String × String)) (returns : List String) : Sketch :=
  node (.docOverload (some (funcType params returns)))

def operatorTag (op : String) (operands : List String) (result : String) : Sketch :=
  node (.docOperator (some (name op)) (types operands) (some (type result)))

end LuaAnalysis.Sketch
