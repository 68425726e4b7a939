import LuaAnalysis.Syntax.Tree

/-!
# Walking a tree

A `Visitor` is told when a walk enters and leaves a node, may keep the walk out of a node, and may
end it with a value. `SyntaxTree.walk` keeps its own stack of what is still to be entered and left;
`SyntaxTree.traverse` is the same walk by recursion.
-/

namespace LuaAnalysis

/-- What a walk does at each node. Entering and leaving may end the walk with a value; `descend` is
asked right after a node is entered. -/
structure Visitor (σ β : Type) where
  enter : NodeId → σ → Option β × σ := fun _ s => (none, s)
  descend : NodeId → σ → Bool × σ := fun _ s => (true, s)
  exit : NodeId → σ → Option β × σ := fun _ s => (none, s)

inductive WalkEvent where
  | enter (id : NodeId)
  | exit (id : NodeId)
deriving DecidableEq

namespace SyntaxTree

variable {σ β : Type}

/-- What a node puts on the stack of a walk. -/
def eventsOf (id : NodeId) : List WalkEvent :=
  [.enter id, .exit id]

/-- Works off a stack of events, at most a number of them. -/
def walkStack (t : SyntaxTree) (v : Visitor σ β) : Nat → List WalkEvent → σ → Option β × σ
  | 0, _, s => (none, s)
  | _ + 1, [], s => (none, s)
  | steps + 1, .enter id :: stack, s =>
    match v.enter id s with
    | (some b, s) => (some b, s)
    | (none, s) =>
      match v.descend id s with
      | (true, s) => t.walkStack v steps ((t.children id).flatMap eventsOf ++ stack) s
      | (false, s) => t.walkStack v steps stack s
  | steps + 1, .exit id :: stack, s =>
    match v.exit id s with
    | (some b, s) => (some b, s)
    | (none, s) => t.walkStack v steps stack s

/-- Walks from `id` down, in source order. Every node entered makes two events. -/
def walk (t : SyntaxTree) (v : Visitor σ β) (id : NodeId) (s : σ) : Option β × σ :=
  t.walkStack v (2 * t.visits id) (eventsOf id) s

/-- Goes through nodes from left to right until one of them ends the walk. -/
def untilEnded (go : NodeId → σ → Option β × σ) : List NodeId → σ → Option β × σ
  | [], s => (none, s)
  | id :: rest, s =>
    match go id s with
    | (some b, s) => (some b, s)
    | (none, s) => untilEnded go rest s

/-- The walk by recursion, at most a number of levels down. -/
def traverseWithin (t : SyntaxTree) (v : Visitor σ β) : Nat → NodeId → σ → Option β × σ
  | 0, _, s => (none, s)
  | levels + 1, id, s =>
    match v.enter id s with
    | (some b, s) => (some b, s)
    | (none, s) =>
      let (within, s) := v.descend id s
      match untilEnded (t.traverseWithin v levels) (if within then t.children id else []) s with
      | (some b, s) => (some b, s)
      | (none, s) => v.exit id s

def traverse (t : SyntaxTree) (v : Visitor σ β) (id : NodeId) (s : σ) : Option β × σ :=
  t.traverseWithin v (id + 1) id s

end SyntaxTree

end LuaAnalysis
