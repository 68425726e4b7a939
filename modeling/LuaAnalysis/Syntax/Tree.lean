import LuaAnalysis.Source.Span
import LuaAnalysis.Syntax.Parts

/-!
# Syntax trees

A `SyntaxTree` stores its nodes in a row; a node is known by its position in it, its `NodeId`. The
parts of a node stand before it, so ids grow towards the root.

The comments above a statement belong to the statement, but a block lists them among its children,
each statement's comments right before it. Parents are the inverse of children.
-/

namespace LuaAnalysis

/-- The position of a node in its tree. -/
abbrev NodeId := Nat

/-- A node of a registered text. Closures, table constructors and table type annotations have no
name and are known by it. -/
structure SyntaxId where
  source : SourceId
  node : NodeId
deriving DecidableEq

def SyntaxId.text (id : SyntaxId) : String :=
  "#" ++ toString id.source ++ ":" ++ toString id.node

/-- A node in its place: its span, and the comments that are attached to it. -/
structure PlacedNode where
  node : Node NodeId
  span : Span
  comments : List NodeId := []
deriving DecidableEq

/-- The children of a node, the comments of a block's statements included. -/
def PlacedNode.childrenIn (placed : Array PlacedNode) (id : NodeId) : List NodeId :=
  match placed[id]? with
  | some ⟨.block stats, _, _⟩ =>
    stats.flatMap fun stat => ((placed[stat]?.map (·.comments)).getD []) ++ [stat]
  | some p => p.node.children
  | none => []

structure SyntaxTree where
  source : SourceId
  placed : Array PlacedNode
  parents : Array (Option NodeId)
  root : NodeId
deriving DecidableEq

namespace SyntaxTree

/-- The tree of a row of nodes. Should two nodes list the same child, the later one is its
parent. -/
def ofPlaced (source : SourceId) (placed : Array PlacedNode) (root : NodeId) : SyntaxTree :=
  let adopt (parents : Array (Option NodeId)) (id : NodeId) :=
    (PlacedNode.childrenIn placed id).foldl
      (fun parents child => parents.setIfInBounds child (some id)) parents
  { source, placed, root
    parents := (List.range placed.size).foldl adopt (Array.replicate placed.size none) }

def size (t : SyntaxTree) : Nat :=
  t.placed.size

def contains (t : SyntaxTree) (id : NodeId) : Bool :=
  id < t.size

def node? (t : SyntaxTree) (id : NodeId) : Option (Node NodeId) :=
  t.placed[id]?.map (·.node)

def span (t : SyntaxTree) (id : NodeId) : Span :=
  (t.placed[id]?.map (·.span)).getD ⟨0, 0⟩

def loc (t : SyntaxTree) (id : NodeId) : Loc :=
  ⟨t.source, t.span id⟩

def syntaxId (t : SyntaxTree) (id : NodeId) : SyntaxId :=
  ⟨t.source, id⟩

/-- The comments above a statement. -/
def comments (t : SyntaxTree) (id : NodeId) : List NodeId :=
  (t.placed[id]?.map (·.comments)).getD []

def children (t : SyntaxTree) (id : NodeId) : List NodeId :=
  PlacedNode.childrenIn t.placed id

def parent? (t : SyntaxTree) (id : NodeId) : Option NodeId :=
  t.parents[id]?.join

/-- Follows parents from `id` on, at most a number of steps. -/
def ancestorsWithin (t : SyntaxTree) : Nat → NodeId → List NodeId
  | 0, _ => []
  | steps + 1, id =>
    match t.parent? id with
    | some p => p :: t.ancestorsWithin steps p
    | none => []

/-- The nodes above `id`, the nearest first. Ids grow upwards, so a tree has no longer way up than
it has nodes. -/
def ancestors (t : SyntaxTree) (id : NodeId) : List NodeId :=
  t.ancestorsWithin t.size id

/-- The nearest statement around `id`, which may be `id` itself. -/
def enclosingStat? (t : SyntaxTree) (id : NodeId) : Option NodeId :=
  (id :: t.ancestors id).find? fun a => (t.node? a).any Node.isStat

/-- How many nodes a walk from `id` enters, when it goes down at most a number of levels. -/
def visitsWithin (t : SyntaxTree) : Nat → NodeId → Nat
  | 0, _ => 0
  | levels + 1, id => 1 + ((t.children id).map (t.visitsWithin levels)).foldr (· + ·) 0

/-- How many nodes a walk from `id` enters. Ids shrink downwards, so `id + 1` levels are all there
are. -/
def visits (t : SyntaxTree) (id : NodeId) : Nat :=
  t.visitsWithin (id + 1) id

/-- Takes nodes from a stack and puts their children in their place, at most a number of times. -/
def unstack (t : SyntaxTree) : Nat → List NodeId → List NodeId
  | 0, _ => []
  | _ + 1, [] => []
  | steps + 1, id :: stack => id :: t.unstack steps (t.children id ++ stack)

/-- The nodes below `id`, each before its own children. -/
def descendants (t : SyntaxTree) (id : NodeId) : List NodeId :=
  t.unstack (t.visits id) (t.children id)

/-- The nodes from `id` down that are not inside a closure, when at most a number of levels are
taken. A closure itself is listed. -/
def outsideClosuresWithin (t : SyntaxTree) : Nat → NodeId → List NodeId
  | 0, _ => []
  | levels + 1, id =>
    match t.node? id with
    | some (.closureExpr ..) => [id]
    | _ => id :: (t.children id).flatMap (t.outsideClosuresWithin levels)

/-- The nodes from `id` down, each before its children, without what is inside closures. -/
def outsideClosures (t : SyntaxTree) (id : NodeId) : List NodeId :=
  t.outsideClosuresWithin (id + 1) id

/-- The text of a name. -/
def nameText? (t : SyntaxTree) (id : NodeId) : Option String :=
  match t.node? id with
  | some (.name text) => some text
  | _ => none

/-- The text of a name, empty for any other node. -/
def nameText (t : SyntaxTree) (id : NodeId) : String :=
  (t.nameText? id).getD ""

/-- The field that a key selects: a name, a string literal or an integer literal selects one, any
other expression may select several. -/
def keyText? (t : SyntaxTree) (key : NodeId) : Option String :=
  match t.node? key with
  | some (.name text) => some text
  | some (.literalExpr value) => value.key?
  | _ => none

/-- The field that an index expression or a table field names. -/
def fieldText? (t : SyntaxTree) (id : NodeId) : Option String :=
  match t.node? id with
  | some (.indexExpr _ key _) => key.bind t.keyText?
  | some (.tableField key _) => key.bind t.keyText?
  | _ => none

end SyntaxTree

end LuaAnalysis
