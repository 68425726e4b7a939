import LuaAnalysis.Json.Basic

/-!
# Reading JSON

`Json.read?` accepts exactly the texts of the JSON grammar, with blanks around a value and nothing
else. A string may be written with half of a surrogate pair; it then has no text.

Every reader takes the characters that are left and answers what it read with the characters after
it.
-/

namespace LuaAnalysis.Json

def isBlank (c : Char) : Bool :=
  c == ' ' || c == '\t' || c == '\n' || c == '\r'

def skipBlanks (cs : List Char) : List Char :=
  cs.dropWhile isBlank

/-! ## Strings -/

def hexDigit? (c : Char) : Option Nat :=
  if '0' ≤ c ∧ c ≤ '9' then some (c.toNat - '0'.toNat)
  else if 'a' ≤ c ∧ c ≤ 'f' then some (c.toNat - 'a'.toNat + 10)
  else if 'A' ≤ c ∧ c ≤ 'F' then some (c.toNat - 'A'.toNat + 10)
  else none

def hex4? (a b c d : Char) : Option Nat := do
  return ((← hexDigit? a) * 16 + (← hexDigit? b)) * 256 + (← hexDigit? c) * 16 + (← hexDigit? d)

/-- The character that a letter behind a backslash stands for. -/
def escape? : Char → Option Char
  | '"' => some '"'
  | '\\' => some '\\'
  | '/' => some '/'
  | 'b' => some '\x08'
  | 'f' => some '\x0c'
  | 'n' => some '\n'
  | 'r' => some '\r'
  | 't' => some '\t'
  | _ => none

/-- Reads the rest of a string behind its first quote, as code points; surrogates come from
escapes. -/
def stringRest : List Char → Option (List Nat × List Char)
  | [] => none
  | '"' :: rest => some ([], rest)
  | '\\' :: 'u' :: a :: b :: c :: d :: rest => do
    let point ← hex4? a b c d
    let (points, rest) ← stringRest rest
    return (point :: points, rest)
  | '\\' :: e :: rest => do
    let c ← escape? e
    let (points, rest) ← stringRest rest
    return (c.toNat :: points, rest)
  | c :: rest => do
    if c.toNat < 0x20 then none
    else
      let (points, rest) ← stringRest rest
      return (c.toNat :: points, rest)

def isHighSurrogate (n : Nat) : Bool :=
  0xD800 ≤ n && n < 0xDC00

def isLowSurrogate (n : Nat) : Bool :=
  0xDC00 ≤ n && n < 0xE000

/-- The text of a list of code points, with surrogates joined in pairs. -/
def joinSurrogates : List Nat → Option (List Char)
  | [] => some []
  | [n] => if isHighSurrogate n || isLowSurrogate n then none else some [Char.ofNat n]
  | n :: m :: rest =>
    if isHighSurrogate n && isLowSurrogate m then
      (joinSurrogates rest).map
        (Char.ofNat (0x10000 + (n - 0xD800) * 0x400 + (m - 0xDC00)) :: ·)
    else if isHighSurrogate n || isLowSurrogate n then none
    else (joinSurrogates (m :: rest)).map (Char.ofNat n :: ·)

def readString (cs : List Char) : Option (Option String × List Char) := do
  let (points, rest) ← stringRest cs
  return ((joinSurrogates points).map String.ofList, rest)

/-! ## Numbers -/

/-- Reads at least one digit: the number they write, and their count. -/
def digits (cs : List Char) : Option ((Nat × Nat) × List Char) :=
  let ds := cs.takeWhile Char.isDigit
  if ds.isEmpty then none
  else some ((ds.foldl (fun n d => n * 10 + (d.toNat - '0'.toNat)) 0, ds.length), cs.drop ds.length)

/-- Reads digits of which the first is no needless zero. -/
def wholeDigits : List Char → Option (Nat × List Char)
  | '0' :: rest => if (rest.head?.any Char.isDigit) then none else some (0, rest)
  | cs => (digits cs).map fun ((n, _), rest) => (n, rest)

def fraction? : List Char → Option (Option (Nat × Nat) × List Char)
  | '.' :: rest => (digits rest).map fun (ds, rest) => (some ds, rest)
  | cs => some (none, cs)

def exponentDigits : List Char → Option (Int × List Char)
  | '-' :: rest => (digits rest).map fun ((n, _), rest) => (-n, rest)
  | '+' :: rest => (digits rest).map fun ((n, _), rest) => (n, rest)
  | cs => (digits cs).map fun ((n, _), rest) => (n, rest)

def exponent? : List Char → Option (Option Int × List Char)
  | c :: rest =>
    if c = 'e' ∨ c = 'E' then (exponentDigits rest).map fun (e, rest) => (some e, rest)
    else some (none, c :: rest)
  | [] => some (none, [])

def readNumeral (cs : List Char) : Option (Numeral × List Char) := do
  let negative := cs.head? == some '-'
  let (whole, rest) ← wholeDigits (if negative then cs.tail else cs)
  let (fraction, rest) ← fraction? rest
  let (exponent, rest) ← exponent? rest
  return ({ negative, whole, fraction, exponent }, rest)

/-! ## Values -/

/-- Reads items with commas between them up to a closing character, when there is at least one. The
number of items is limited, by the number of characters for instance. -/
def itemsUpTo {α : Type} (close : Char) (item : List Char → Option (α × List Char)) :
    Nat → List Char → Option (List α × List Char)
  | 0, _ => none
  | limit + 1, cs => do
    let (a, rest) ← item cs
    match skipBlanks rest with
    | ',' :: rest => do
      let (as, rest) ← itemsUpTo close item limit rest
      return (a :: as, rest)
    | c :: rest => if c = close then some ([a], rest) else none
    | [] => none

def readItems {α : Type} (close : Char) (item : List Char → Option (α × List Char))
    (cs : List Char) : Option (List α × List Char) :=
  match skipBlanks cs with
  | c :: rest => if c = close then some ([], rest) else itemsUpTo close item cs.length cs
  | [] => none

/-- Reads a key, a colon and a value. -/
def readField (value : List Char → Option (Json × List Char)) (cs : List Char) :
    Option ((Option String × Json) × List Char) :=
  match skipBlanks cs with
  | '"' :: rest => do
    let (key, rest) ← readString rest
    match skipBlanks rest with
    | ':' :: rest => do
      let (v, rest) ← value rest
      return ((key, v), rest)
    | _ => none
  | _ => none

/-- Reads a value that is nested at most a number of levels deep. -/
def readValue : Nat → List Char → Option (Json × List Char)
  | 0, _ => none
  | levels + 1, cs =>
    match skipBlanks cs with
    | 'n' :: 'u' :: 'l' :: 'l' :: rest => some (null, rest)
    | 't' :: 'r' :: 'u' :: 'e' :: rest => some (bool true, rest)
    | 'f' :: 'a' :: 'l' :: 's' :: 'e' :: rest => some (bool false, rest)
    | '"' :: rest => (readString rest).map fun (s, rest) => (string s, rest)
    | '[' :: rest => (readItems ']' (readValue levels) rest).map fun (as, rest) => (array as, rest)
    | '\x7b' :: rest =>
      (readItems '\x7d' (readField (readValue levels)) rest).map fun (fs, rest) => (object fs, rest)
    | rest => (readNumeral rest).map fun (n, rest) => (number n, rest)

/-- The value that a text writes. A value is nested less deep than its text is long. -/
def read? (s : String) : Option Json :=
  let cs := s.toList
  match readValue (cs.length + 1) cs with
  | some (j, rest) => if (skipBlanks rest).isEmpty then some j else none
  | none => none

end LuaAnalysis.Json
