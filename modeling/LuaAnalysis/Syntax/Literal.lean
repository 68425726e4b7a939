import LuaAnalysis.Text.Binary64
import LuaAnalysis.Text.Quoted

/-!
# Literals and operators of Lua
-/

namespace LuaAnalysis

inductive Literal where
  | nil
  | bool (value : Bool)
  | integer (value : Int)
  | number (value : Binary64)
  | string (value : String)
deriving DecidableEq

namespace Literal

def text : Literal → String
  | .nil => "nil"
  | .bool b => if b then "true" else "false"
  | .integer n => toString n
  | .number x => x.text
  | .string s => Quoted.text s

/-- The field that an integer key selects. -/
def integerKey (n : Int) : String :=
  "[" ++ toString n ++ "]"

/-- The field that a literal between brackets selects, if it selects a fixed one. -/
def key? : Literal → Option String
  | .string s => some s
  | .integer n => some (integerKey n)
  | _ => none

end Literal

inductive BinaryOp where
  | add | sub | mul | div | floorDiv | mod | pow | concat
  | bitAnd | bitOr | bitXor | shiftLeft | shiftRight
  | eq | ne | lt | le | gt | ge | and | or
deriving DecidableEq

namespace BinaryOp

def text : BinaryOp → String
  | add => "+" | sub => "-" | mul => "*" | div => "/" | floorDiv => "//" | mod => "%" | pow => "^"
  | concat => ".." | bitAnd => "&" | bitOr => "|" | bitXor => "~" | shiftLeft => "<<"
  | shiftRight => ">>" | eq => "==" | ne => "~=" | lt => "<" | le => "<=" | gt => ">" | ge => ">="
  | and => "and" | or => "or"

def all : List BinaryOp :=
  [add, sub, mul, div, floorDiv, mod, pow, concat, bitAnd, bitOr, bitXor, shiftLeft, shiftRight,
    eq, ne, lt, le, gt, ge, and, or]

def ofText? (s : String) : Option BinaryOp :=
  all.find? fun op => op.text = s

end BinaryOp

inductive UnaryOp where
  | neg | not | length | bitNot
deriving DecidableEq

namespace UnaryOp

def text : UnaryOp → String
  | neg => "-" | not => "not" | length => "#" | bitNot => "~"

def all : List UnaryOp :=
  [neg, not, length, bitNot]

def ofText? (s : String) : Option UnaryOp :=
  all.find? fun op => op.text = s

end UnaryOp

end LuaAnalysis
