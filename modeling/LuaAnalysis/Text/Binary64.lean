/-!
# Double-precision numbers and their decimal text

A `Binary64` is known by its 64 bits. `Binary64.text` writes it with the fewest decimal digits that
read back as the same number, and among those with the digits nearest to it; it never uses an
exponent.

The search is exact: a finite number other than zero is `m * 2 ^ q`, and the reals that round to it
fill an interval around it, whose ends count when `m` is even. The coarsest decimal grid with a
point in that interval gives the digits.
-/

namespace LuaAnalysis

/-- A double-precision number, by its bits: sign, eleven bits of exponent, 52 bits of fraction. -/
structure Binary64 where
  bits : UInt64
deriving DecidableEq

namespace Binary64

def ofFloat (x : Float) : Binary64 :=
  ⟨x.toBits⟩

/-- The leading digits of a number that fit into 64 bits, and how many digits follow them. -/
def leadingDigits (m : Nat) : Nat × Nat :=
  if m < UInt64.size then (m, 0)
  else
    let (k, dropped) := leadingDigits (m / 10)
    (k, dropped + 1)
termination_by m
decreasing_by
  next h =>
    have hpos : 0 < m := Nat.lt_of_lt_of_le (by decide) (Nat.le_of_not_lt h)
    exact Nat.div_lt_self hpos (by decide)

/-- `10 ^ k`, rounded. -/
def powerOfTen (k : Nat) : Float :=
  Float.ofScientific 1 false k

/-- Divides by `10 ^ k`, which is no double for `k` over 308, so by `10 ^ 308` as long as that is
needed. -/
def divideByPowerOfTen (x : Float) (k : Nat) : Float :=
  if k ≤ 308 then x / powerOfTen k
  else if x == 0 then x
  else divideByPowerOfTen (x / powerOfTen 308) (k - 308)
termination_by k

/-- The number that `m * 10 ^ e`, or its negation, is read as. The digits that fit into 64 bits are
rounded to a double, which is multiplied by a power of ten or divided by one. So a decimal of at
most 15 digits, with `e` at most 22 in size, is read as the double nearest to it; any other may be
off by a last place, because it is rounded at every step. -/
def ofDecimal (negative : Bool) (m : Nat) (e : Int) : Binary64 :=
  let (k, dropped) := leadingDigits m
  let e := e + dropped
  let x := k.toUInt64.toFloat
  let x :=
    if x == 0 then x
    else if 0 ≤ e then x * powerOfTen e.toNat
    else divideByPowerOfTen x e.natAbs
  ofFloat (if negative then -x else x)

def isNegative (x : Binary64) : Bool :=
  x.bits.toNat / Nat.pow 2 63 == 1

/-- The eleven exponent bits. -/
def exponentBits (x : Binary64) : Nat :=
  x.bits.toNat / Nat.pow 2 52 % Nat.pow 2 11

/-- The 52 fraction bits. -/
def fractionBits (x : Binary64) : Nat :=
  x.bits.toNat % Nat.pow 2 52

/-- The integer `m` of `m * 2 ^ q`. -/
def significand (x : Binary64) : Nat :=
  if x.exponentBits = 0 then x.fractionBits else Nat.pow 2 52 + x.fractionBits

/-- The exponent `q` of `m * 2 ^ q`. -/
def scale (x : Binary64) : Int :=
  if x.exponentBits = 0 then -1074 else (x.exponentBits : Int) - 1075

/-- The reals that round to a number, in quarters of its last place: the number itself is `middle`,
and `unit` is the value of one quarter as a fraction. -/
structure Interval where
  low : Nat
  middle : Nat
  high : Nat
  closed : Bool
  unitNum : Nat
  unitDen : Nat

/-- Below a power of two the neighbours are twice as dense, so the interval is shorter there. -/
def interval (x : Binary64) : Interval :=
  let m := x.significand
  let narrow := x.fractionBits = 0 ∧ 1 < x.exponentBits
  let q := x.scale - 2
  { low := if narrow then 4 * m - 1 else 4 * m - 2
    middle := 4 * m
    high := 4 * m + 2
    closed := m % 2 == 0
    unitNum := Nat.pow 2 q.toNat
    unitDen := Nat.pow 2 (-q).toNat }

/-- Compares `k * 10 ^ e` with `quarters` quarters. -/
def Interval.compareTo (i : Interval) (k : Nat) (e : Int) (quarters : Nat) : Ordering :=
  compare (k * Nat.pow 10 e.toNat * i.unitDen) (quarters * i.unitNum * Nat.pow 10 (-e).toNat)

/-- Whether `k * 10 ^ e` rounds to the number. -/
def Interval.admits (i : Interval) (k : Nat) (e : Int) : Bool :=
  let below := i.compareTo k e i.low
  let above := i.compareTo k e i.high
  (below == .gt || (i.closed && below == .eq)) && (above == .lt || (i.closed && above == .eq))

/-- The point of the grid of multiples of `10 ^ e` that rounds to the number, if there is one. Of
two such points the nearer is taken, and the upper one when they are equally near. -/
def Interval.gridPoint? (i : Interval) (e : Int) : Option Nat :=
  let num := i.middle * i.unitNum * Nat.pow 10 (-e).toNat
  let den := Nat.pow 10 e.toNat * i.unitDen
  let k := num / den
  match i.admits k e, i.admits (k + 1) e with
  | true, true => some (if 2 * (num - k * den) < den then k else k + 1)
  | true, false => some k
  | false, true => some (k + 1)
  | false, false => none

/-- The first grid with a point in the interval, from `10 ^ top` downwards. -/
def Interval.search (i : Interval) (top : Int) : Nat → Nat × Int
  | 0 => (0, 0)
  | steps + 1 =>
    match i.gridPoint? top with
    | some k => (k, top)
    | none => i.search (top - 1) steps

/-- The digits `k` and the power `e` of the shortest decimal `k * 10 ^ e` that reads back. No double
reaches `10 ^ 309`, and the finest of them need no grid below `10 ^ (-326)`. -/
def shortest (x : Binary64) : Nat × Int :=
  x.interval.search 309 640

/-- Writes `k * 10 ^ e` without an exponent. -/
def positional (k : Nat) (e : Int) : String :=
  let digits := (toString k).toList
  if 0 ≤ e then
    String.ofList (digits ++ List.replicate e.toNat '0')
  else
    let places := (-e).toNat
    let padded := List.replicate (places + 1 - digits.length) '0' ++ digits
    let whole := padded.length - places
    String.ofList (padded.take whole ++ '.' :: padded.drop whole)

/-- The decimal text. Zero keeps its sign, and a number that is whole has no point. -/
def text (x : Binary64) : String :=
  let sign := if x.isNegative then "-" else ""
  if x.exponentBits = 2047 then
    if x.fractionBits = 0 then sign ++ "inf" else "NaN"
  else if x.significand = 0 then
    sign ++ "0"
  else
    let (k, e) := x.shortest
    sign ++ positional k e

/-! ## Reading -/

/-- The number that decimal digits write. -/
def digitsValue (ds : List Char) : Nat :=
  ds.foldl (fun n d => n * 10 + (d.toNat - '0'.toNat)) 0

/-- An exponent behind `e`, with or without a sign; where a text ends there is none. -/
def exponent? : List Char → Option Int
  | [] => some 0
  | c :: rest =>
    if c ≠ 'e' ∧ c ≠ 'E' then none
    else
      let ds := if rest.head? = some '-' ∨ rest.head? = some '+' then rest.tail else rest
      if ds.isEmpty ∨ !ds.all Char.isDigit then none
      else some (if rest.head? = some '-' then -digitsValue ds else digitsValue ds)

/-- A decimal without a sign, read as the double nearest to it. Digits may be missing before or
behind the point, but not on both sides. -/
def decimal? (cs : List Char) : Option Float := do
  let (whole, rest) := cs.span Char.isDigit
  let (fraction, rest) := if rest.head? = some '.' then rest.tail.span Char.isDigit else ([], rest)
  let e ← exponent? rest
  let e := e - fraction.length
  if whole.isEmpty && fraction.isEmpty then none
  else some (Float.ofScientific (digitsValue (whole ++ fraction)) (e < 0) e.natAbs)

/-- A number without a sign. Infinity and what is no number have names. -/
def unsigned? (s : String) : Option Float :=
  match s.toLower with
  | "inf" | "infinity" => some (1.0 / 0.0)
  | "nan" => some (0.0 / 0.0)
  | _ => decimal? s.toList

/-- The number that a text writes. -/
def ofText? (s : String) : Option Binary64 :=
  match s.toList with
  | '-' :: rest => (unsigned? (String.ofList rest)).map fun x => ofFloat (-x)
  | '+' :: rest => (unsigned? (String.ofList rest)).map ofFloat
  | _ => (unsigned? s).map ofFloat

end Binary64

end LuaAnalysis
