/-!
# JSON values

A number keeps the form in which it was written, because `4`, `4.0` and `4e0` are not the same to
every reader. Fields keep their order and may repeat. A string may hold half of a surrogate pair; no
text can, so such a string has no text here.
-/

namespace LuaAnalysis

/-- A number as it is written. The fraction is given by its digits, read as a number, and their
count. -/
structure Numeral where
  negative : Bool := false
  whole : Nat
  fraction : Option (Nat × Nat) := none
  exponent : Option Int := none
deriving DecidableEq

namespace Numeral

/-- Whether the number is written with digits alone, apart from a sign. -/
def isPlain (n : Numeral) : Bool :=
  n.fraction.isNone && n.exponent.isNone

/-- The natural number that the numeral writes with digits alone. -/
def nat? (n : Numeral) : Option Nat :=
  if n.isPlain && !n.negative then some n.whole else none

/-- The integer that the numeral writes with digits alone. A zero with a sign is no integer. -/
def int? (n : Numeral) : Option Int :=
  if !n.isPlain then none
  else if !n.negative then some n.whole
  else if n.whole = 0 then none
  else some (-n.whole)

end Numeral

inductive Json where
  | null
  | bool (value : Bool)
  | number (value : Numeral)
  | string (text : Option String)
  | array (items : List Json)
  | object (fields : List (Option String × Json))

namespace Json

instance : Inhabited Json :=
  ⟨null⟩

def ofString (s : String) : Json :=
  string (some s)

def ofNat (n : Nat) : Json :=
  number { whole := n }

def ofInt (n : Int) : Json :=
  number { negative := n < 0, whole := n.natAbs }

/-- An object with the given fields. -/
def ofFields (fields : List (String × Json)) : Json :=
  object (fields.map fun (key, value) => (some key, value))

def ofOption {α : Type} (f : α → Json) : Option α → Json
  | none => null
  | some a => f a

def ofList {α : Type} (f : α → Json) (as : List α) : Json :=
  array (as.map f)

/-- The value of the first field with a key. -/
def field? (j : Json) (key : String) : Option Json :=
  match j with
  | object fields => (fields.find? fun f => f.1 == some key).map Prod.snd
  | _ => none

def nat? : Json → Option Nat
  | number n => n.nat?
  | _ => none

def text? : Json → Option String
  | string s => s
  | _ => none

def bool? : Json → Option Bool
  | bool b => some b
  | _ => none

def items? : Json → Option (List Json)
  | array items => some items
  | _ => none

/-! ## Writing -/

/-- The four hexadecimal digits of a code unit. -/
def hex4 (n : Nat) : List Char :=
  [n / 4096 % 16, n / 256 % 16, n / 16 % 16, n % 16].map Nat.digitChar

def characterText (c : Char) : List Char :=
  if c = '"' then ['\\', '"']
  else if c = '\\' then ['\\', '\\']
  else if c.toNat < 0x20 then '\\' :: 'u' :: hex4 c.toNat
  else [c]

/-- A text between quotes. -/
def quoted (s : String) : String :=
  String.ofList ('"' :: s.toList.flatMap characterText ++ ['"'])

def Numeral.text (n : Numeral) : String :=
  let places (value count : Nat) :=
    String.ofList (List.replicate (count - (toString value).length) '0') ++ toString value
  (if n.negative then "-" else "") ++ toString n.whole ++
    (match n.fraction with
      | some (value, count) => "." ++ places value count
      | none => "") ++
    (match n.exponent with
      | some e => "e" ++ toString e
      | none => "")

mutual
/-- Writes a value behind a text. -/
def writeTo (out : String) : Json → String
  | null => out ++ "null"
  | bool b => out ++ if b then "true" else "false"
  | number n => out ++ Numeral.text n
  | string s => out ++ quoted (s.getD "")
  | array items => writeItems (out ++ "[") items ++ "]"
  | object fields => writeFields (out ++ "\x7b") fields ++ "\x7d"

def writeItems (out : String) : List Json → String
  | [] => out
  | [item] => writeTo out item
  | item :: rest => writeItems (writeTo out item ++ ",") rest

def writeFields (out : String) : List (Option String × Json) → String
  | [] => out
  | [(key, value)] => writeTo (out ++ quoted (key.getD "") ++ ":") value
  | (key, value) :: rest =>
    writeFields (writeTo (out ++ quoted (key.getD "") ++ ":") value ++ ",") rest
end

def text (j : Json) : String :=
  writeTo "" j

end Json

end LuaAnalysis
