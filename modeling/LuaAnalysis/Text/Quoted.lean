import LuaAnalysis.Text.Graphic

/-!
# Quoted text

`Quoted.text` writes a string between double quotes so that every character of it can be seen:
quotes and backslashes take a backslash, a few control characters have a letter, and any other
character that is not graphic is written by its number.
-/

namespace LuaAnalysis.Quoted

/-- The hexadecimal digits of a number, without leading zeros. -/
def hex (n : Nat) : List Char :=
  Nat.toDigits 16 n

/-- The character by its number. -/
def numbered (c : Char) : List Char :=
  ['\\', 'u', '\x7b'] ++ hex c.toNat ++ ['\x7d']

def character (c : Char) : List Char :=
  match c with
  | '\x00' => ['\\', '0']
  | '\t' => ['\\', 't']
  | '\n' => ['\\', 'n']
  | '\r' => ['\\', 'r']
  | '"' => ['\\', '"']
  | '\\' => ['\\', '\\']
  | _ =>
    if c.toNat < 0x20 ∨ c.toNat = 0x7f then numbered c
    else if c.toNat < 0x80 ∨ Graphic.isGraphic c then [c]
    else numbered c

def text (s : String) : String :=
  String.ofList ('"' :: s.toList.flatMap character ++ ['"'])

end LuaAnalysis.Quoted
