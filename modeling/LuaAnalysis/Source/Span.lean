/-!
# Places in source text

A `Span` is a run of bytes in one text, a `Loc` a span in a registered text. Both are ordered by
where they begin, then by where they stop.

Spans may be reversed. A reversed span is empty, and it is contained in more spans than its length
suggests, because containment compares the two ends separately.
-/

namespace LuaAnalysis

/-- The number under which a text is registered. -/
abbrev SourceId := Nat

/-- The bytes from offset `start` up to, and without, offset `stop`. -/
structure Span where
  start : Nat
  stop : Nat
deriving DecidableEq

namespace Span

/-- The number of bytes, zero for a reversed span. -/
def length (s : Span) : Nat :=
  s.stop - s.start

def isEmpty (s : Span) : Bool :=
  s.length == 0

/-- Whether `inner` neither begins before `s` nor stops after it. -/
def contains (s inner : Span) : Bool :=
  s.start ≤ inner.start && inner.stop ≤ s.stop

/-- The smallest span that contains both. -/
def hull (a b : Span) : Span :=
  ⟨min a.start b.start, max a.stop b.stop⟩

/-- The smallest span that contains all of a list, none for the empty list. -/
def covering : List Span → Option Span
  | [] => none
  | s :: rest => some (rest.foldl hull s)

def text (s : Span) : String :=
  toString s.start ++ ".." ++ toString s.stop

instance : Ord Span where
  compare a b := (compare a.start b.start).then (compare a.stop b.stop)

theorem contains_iff {s inner : Span} :
    s.contains inner = true ↔ s.start ≤ inner.start ∧ inner.stop ≤ s.stop := by
  simp [contains]

@[simp] theorem contains_self (s : Span) : s.contains s = true := by
  simp [contains]

theorem contains_trans {a b c : Span} (hab : a.contains b = true) (hbc : b.contains c = true) :
    a.contains c = true := by
  rw [contains_iff] at *
  omega

theorem hull_contains_left (a b : Span) : (a.hull b).contains a = true := by
  rw [contains_iff]
  simp only [hull]
  omega

theorem hull_contains_right (a b : Span) : (a.hull b).contains b = true := by
  rw [contains_iff]
  simp only [hull]
  omega

end Span

/-- A span in the text registered as `source`. -/
structure Loc where
  source : SourceId
  span : Span
deriving DecidableEq

namespace Loc

def start (l : Loc) : Nat :=
  l.span.start

/-- Containment within one text. -/
def contains (l inner : Loc) : Bool :=
  l.source == inner.source && l.span.contains inner.span

def text (l : Loc) : String :=
  l.span.text ++ " in " ++ toString l.source

instance : Ord Loc where
  compare a b := (compare a.source b.source).then (compare a.span b.span)

end Loc

end LuaAnalysis
