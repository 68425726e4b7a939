/-!
# Dependency graphs

Nodes and edges stand in the order in which they were added. An edge `(a, b)` says that `a` depends
on `b`. `DependencyGraph.sort` walks the graph depth first and lists every node after what it
depends on; an edge that leads back to a node still being walked closes a cycle, which is reported
and then ignored.
-/

namespace LuaAnalysis

structure DependencyGraph (α : Type) where
  nodes : List α := []
  edges : List (α × α) := []

/-- An order of the nodes and the cycles that were closed on the way. A cycle begins and ends with
the same node. -/
structure SortedNodes (α : Type) where
  order : List α := []
  cycles : List (List α) := []

namespace DependencyGraph

variable {α : Type} [DecidableEq α]

def addNode (g : DependencyGraph α) (a : α) : DependencyGraph α :=
  if a ∈ g.nodes then g else { g with nodes := g.nodes ++ [a] }

/-- Makes `a` depend on `b`; both become nodes, `a` first. -/
def addDependency (g : DependencyGraph α) (a b : α) : DependencyGraph α :=
  let g := (g.addNode a).addNode b
  if (a, b) ∈ g.edges then g else { g with edges := g.edges ++ [(a, b)] }

def dependenciesOf (g : DependencyGraph α) (a : α) : List α :=
  (g.edges.filter fun e => e.1 = a).map Prod.snd

def dependentsOf (g : DependencyGraph α) (b : α) : List α :=
  (g.edges.filter fun e => e.2 = b).map Prod.fst

/-- Walks everything that `a` depends on, then lists `a`. `path` holds the nodes being walked,
the outermost first. A path never repeats a node, so as many steps as there are nodes reach
every end. -/
def visit (g : DependencyGraph α) : Nat → List α → α → SortedNodes α → SortedNodes α
  | 0, _, _, s => s
  | steps + 1, path, a, s =>
    let here := path ++ [a]
    let s := (g.dependenciesOf a).foldl (fun s b =>
      if b ∈ here then { s with cycles := s.cycles ++ [here.dropWhile (· ≠ b) ++ [b]] }
      else if b ∈ s.order then s
      else visit g steps here b s) s
    { s with order := s.order ++ [a] }

def sort (g : DependencyGraph α) : SortedNodes α :=
  g.nodes.foldl (fun s a => if a ∈ s.order then s else g.visit g.nodes.length [] a s) {}

end DependencyGraph

/-- The report of one cycle. -/
def cycleText (path : List String) : String :=
  "Dependency cycle detected: " ++ String.intercalate " -> " path

end LuaAnalysis
