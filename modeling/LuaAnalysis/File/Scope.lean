import LuaAnalysis.File.Declaration

/-!
# Lexical scopes

A scope belongs to a node and lists, in the order of their creation, the declarations and scopes
made while it was the innermost one. `ScopeTree.find?` looks a name up from the inside to the
outside; a declaration is seen by what starts after it, and of several the last is seen.

Three kinds of scopes are special. The names of a local statement are unseen in the statement and
seen in the scope around it once the statement has ended. A loop variable is seen in the body of the
loop only. The condition of a repeat loop sees what the body of the loop declares.
-/

namespace LuaAnalysis

abbrev ScopeId := Nat

inductive ScopeKind where
  | source
  | block
  | closure
  | repeatLoop
  | numericFor (bodyStart : Nat)
  | genericFor (bodyStart : Nat)
  | localStat
deriving DecidableEq

/-- The kind of scope that a node has, if it has one. A loop without a body only begins to show its
variables where it ends. -/
def SyntaxTree.scopeKind? (t : SyntaxTree) (id : NodeId) : Option ScopeKind :=
  let bodyStart : Option NodeId → Nat
    | some body => (t.span body).start
    | none => (t.span id).stop
  match t.node? id with
  | some (.source _) => some .source
  | some (.block _) => some .block
  | some (.closureExpr _ _) => some .closure
  | some (.repeatStat _ _) => some .repeatLoop
  | some (.forStat _ _ body) => some (.numericFor (bodyStart body))
  | some (.forRangeStat _ _ body) => some (.genericFor (bodyStart body))
  | some (.localStat _ _) => some .localStat
  | _ => none

inductive ScopeItem where
  | decl (id : DeclId)
  | scope (id : ScopeId)
deriving DecidableEq

structure Scope where
  kind : ScopeKind
  owner : NodeId
  span : Span
  parent : Option ScopeId
  items : List ScopeItem := []
deriving DecidableEq

/-- The declarations of a scope in order. -/
def Scope.declarations (s : Scope) : List DeclId :=
  s.items.filterMap fun
    | .decl id => some id
    | .scope _ => none

/-- The scopes of a file; the first is the scope of the whole file. -/
structure ScopeTree where
  scopes : Array Scope := #[]
deriving DecidableEq

namespace ScopeTree

def size (t : ScopeTree) : Nat :=
  t.scopes.size

def root? (t : ScopeTree) : Option ScopeId :=
  if t.size = 0 then none else some 0

def get? (t : ScopeTree) (id : ScopeId) : Option Scope :=
  t.scopes[id]?

/-- The scope of a node. -/
def ownedBy? (t : ScopeTree) (owner : NodeId) : Option ScopeId :=
  t.scopes.toList.findIdx? fun s => s.owner == owner

/-- Puts an item behind those of a scope. -/
def addItem (t : ScopeTree) (id : ScopeId) (item : ScopeItem) : ScopeTree :=
  ⟨t.scopes.modify id fun s => { s with items := s.items ++ [item] }⟩

/-- Makes the scope of a node, or finds the one it has. -/
def opened (t : ScopeTree) (kind : ScopeKind) (owner : NodeId) (span : Span)
    (parent : Option ScopeId) : ScopeId × ScopeTree :=
  match t.ownedBy? owner with
  | some id => (id, t)
  | none =>
    let id := t.size
    let t : ScopeTree := ⟨t.scopes.push { kind, owner, span, parent }⟩
    (id, match parent with
      | some p => t.addItem p (.scope id)
      | none => t)

/-- The scope of the nearest node, from `id` upwards, that has one. -/
def scopeOf? (t : ScopeTree) (tree : SyntaxTree) (id : NodeId) : Option ScopeId :=
  (id :: tree.ancestors id).findSome? t.ownedBy?

/-! ## Looking a name up -/

/-- Whether a use of `name` at `position` sees a declaration. -/
def sees (name : String) (position : Nat) (d : Declaration) : Bool :=
  d.kind.isValue && d.name == name && d.position < position

section
variable (t : ScopeTree) (decls : Array Declaration) (name : String) (position : Nat)

/-- The last of some declarations that is seen. -/
def lastSeen? (ids : List DeclId) : Option DeclId :=
  ids.reverse.find? fun id => decls[id]?.any (sees name position)

/-- What a scope inside shows of its declarations: a local statement that has ended shows them. -/
def shownByEnded? (inner : ScopeId) : Option DeclId :=
  match t.get? inner with
  | some s =>
    if s.kind = .localStat ∧ s.span.stop ≤ position then
      lastSeen? decls name position s.declarations
    else none
  | none => none

/-- The last item of a scope that gives a declaration. -/
def findItem? (shown? : ScopeId → Option DeclId) (s : Scope) : Option DeclId :=
  s.items.reverse.findSome? fun
    | .decl id => lastSeen? decls name position [id]
    | .scope inner => shown? inner

/-- What the body of a repeat loop shows to the condition; other scopes show what they always do. -/
def shownToCondition? (inner : ScopeId) : Option DeclId :=
  match t.get? inner with
  | some s =>
    if s.kind = .block then findItem? decls name position (t.shownByEnded? decls name position) s
    else t.shownByEnded? decls name position inner
  | none => none

/-- The declaration that a scope around the use gives. -/
def findAround? (s : Scope) : Option DeclId :=
  let find := findItem? decls name position (t.shownByEnded? decls name position) s
  match s.kind with
  | .localStat => none
  | .numericFor bodyStart | .genericFor bodyStart => if position < bodyStart then none else find
  | .repeatLoop => findItem? decls name position (t.shownToCondition? decls name position) s
  | _ => find

/-- Looks from a scope outwards, at most a number of scopes far. -/
def findWithin? : Nat → ScopeId → Option DeclId
  | 0, _ => none
  | steps + 1, id =>
    match t.get? id with
    | some s =>
      match t.findAround? decls name position s with
      | some found => some found
      | none => s.parent.bind (findWithin? steps)
    | none => none

/-- The declaration that a use of `name` at `position` in a scope refers to. A scope is made after
the scope around it, so `id + 1` steps lead to the outermost one. -/
def find? (id : ScopeId) : Option DeclId :=
  t.findWithin? decls name position (id + 1) id

end

end ScopeTree

end LuaAnalysis
