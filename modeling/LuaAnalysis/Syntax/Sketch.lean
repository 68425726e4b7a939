import LuaAnalysis.Syntax.Tree

/-!
# Sketches of syntax trees

A `Sketch` is a piece of syntax that has no place yet. Writing it down puts its parts into a tree
from left to right and then the node itself, so the nodes of the tree stand in the order of the
source.

A node without parts takes the next free place, as wide as it is written, and a node with parts
covers them. A node may be pinned to a span instead; everything after it then lies behind that span.

A comment is written where it stands, but it is no part of the block around it: it is held until the
next statement begins and attached to that statement.
-/

namespace LuaAnalysis

inductive Sketch where
  | mk (form : Node Unit) (pin : Option Span) (parts : List Sketch)

namespace Sketch

def form : Sketch → Node Unit
  | mk form _ _ => form

def isComment (s : Sketch) : Bool :=
  s.form.isComment

/-- The sketch of a node whose parts are sketches. -/
def node (n : Node Sketch) : Sketch :=
  .mk (Id.run (n.mapM fun _ => pure ())) none n.children

/-- The sketch of a block of statements, with comments between them. -/
def block (items : List Sketch) : Sketch :=
  .mk (.block ((items.filter fun item => !item.isComment).map fun _ => ())) none items

/-- The same sketch at a fixed span. -/
def pinTo (span : Span) : Sketch → Sketch
  | mk form _ parts => mk form (some span) parts

end Sketch

/-- The width of a node without parts. -/
def Node.leafWidth {α : Type} : Node α → Nat
  | .name text | .nameExpr text | .docNameType text => max 1 text.utf8ByteSize
  | .literalExpr (.string text) => text.utf8ByteSize + 2
  | .varArgExpr => 3
  | .breakStat => 5
  | _ => 1

/-- A tree that is being written. `cursor` is the next free offset, and `held` are the comments that
wait for a statement. -/
structure Draft where
  placed : Array PlacedNode := #[]
  cursor : Nat := 0
  held : List NodeId := []

namespace Draft

def spanOf (d : Draft) (id : NodeId) : Span :=
  (d.placed[id]?.map (·.span)).getD ⟨0, 0⟩

/-- Writes a node whose parts are written already. What follows a pinned node lies behind it, unless
the node ends at the last of the offsets, which have 64 bits: then it is as if it were not there. -/
def insert (d : Draft) (n : Node NodeId) (pin : Option Span) (comments : List NodeId) :
    NodeId × Draft :=
  let placeAt (span : Span) (cursor : Nat) :=
    (d.placed.size, { d with placed := d.placed.push ⟨n, span, comments⟩, cursor })
  match pin, Span.covering (n.children.map d.spanOf) with
  | some span, _ => placeAt span (max d.cursor ((span.stop + 1) % UInt64.size))
  | none, some span => placeAt span d.cursor
  | none, none => placeAt ⟨d.cursor, d.cursor + n.leafWidth⟩ (d.cursor + n.leafWidth + 1)

end Draft

namespace Sketch

mutual
/-- Writes a sketch and answers the id that the node around it has as a part: none for a comment. -/
def write (d : Draft) : Sketch → List NodeId × Draft
  | mk form pin parts =>
    let comments := if form.isStat then d.held else []
    let d := if form.isStat then { d with held := [] } else d
    let (ids, d) := writeAll d parts
    let (id, d) := d.insert (form.fill ids) pin comments
    if form.isComment then ([], { d with held := d.held ++ [id] }) else ([id], d)

/-- Writes sketches from left to right. -/
def writeAll (d : Draft) : List Sketch → List NodeId × Draft
  | [] => ([], d)
  | s :: rest =>
    let (ids, d) := write d s
    let (more, d) := writeAll d rest
    (ids ++ more, d)
end

end Sketch

/-- The tree of a text whose block is sketched. -/
def SyntaxTree.ofSketch (source : SourceId) (block : Option Sketch) : SyntaxTree :=
  let (ids, d) := (Sketch.node (.source block)).write {}
  .ofPlaced source d.placed (ids.headD 0)

end LuaAnalysis
