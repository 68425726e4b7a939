import LuaAnalysis.File.Build
import LuaAnalysis.Proofs.Syntax.WalkEvents

/-!
# The walk that makes an outline

`Outline.walk` is what a walk from a node down makes of an outline: it enters the node, walks its
children from left to right and leaves it.

Main statements: the outline of a tree is the walk from its root (`outline_eq_walk`), and what every
entering and leaving preserves holds of it (`walk_induction`).
-/

namespace LuaAnalysis.Outline

variable {config : Config} {t : SyntaxTree}

/-- The outline after a walk from `id`, at most a number of levels down. -/
def walkWithin (config : Config) (t : SyntaxTree) : Nat → NodeId → Outline → Outline
  | 0, _, o => o
  | levels + 1, id, o =>
    ((t.children id).foldl (fun o c => walkWithin config t levels c o) (o.enter config t id)).leave id

/-- The outline after a walk from `id`. -/
def walk (config : Config) (t : SyntaxTree) (id : NodeId) (o : Outline) : Outline :=
  walkWithin config t (id + 1) id o

/-- The outline after walks from some nodes. -/
def walkAll (config : Config) (t : SyntaxTree) (ids : List NodeId) (o : Outline) : Outline :=
  ids.foldl (fun o id => o.walk config t id) o

theorem walkAll_cons (id : NodeId) (ids : List NodeId) (o : Outline) :
    o.walkAll config t (id :: ids) = (o.walk config t id).walkAll config t ids :=
  rfl

/-- What an event of a walk makes of an outline. -/
def step (config : Config) (t : SyntaxTree) (o : Outline) : WalkEvent → Outline
  | .enter x => o.enter config t x
  | .exit x => o.leave x

theorem walkWithin_eq_foldl (levels : Nat) (id : NodeId) (o : Outline) :
    o.walkWithin config t levels id = (t.eventsWithin levels id).foldl (step config t) o := by
  induction levels generalizing id o with
  | zero => rfl
  | succ levels ih =>
    rw [walkWithin, SyntaxTree.eventsWithin, List.cons_append, List.foldl_cons, List.foldl_append,
      List.foldl_flatMap]
    simp only [List.foldl_cons, List.foldl_nil, step, ih]

theorem walk_eq_foldl (id : NodeId) (o : Outline) :
    o.walk config t id = (t.walkEvents id).foldl (step config t) o :=
  walkWithin_eq_foldl (id + 1) id o

theorem walk_eq (h : t.Proper) (id : NodeId) (o : Outline) :
    o.walk config t id = ((o.enter config t id).walkAll config t (t.children id)).leave id := by
  rw [walk_eq_foldl, SyntaxTree.walkEvents_eq h, List.cons_append, List.foldl_cons,
    List.foldl_append, List.foldl_flatMap, walkAll]
  simp only [List.foldl_cons, List.foldl_nil, step, walk_eq_foldl]

/-! ## The outline of a tree -/

theorem untilEnded_eq {σ β : Type} {go : NodeId → σ → Option β × σ} {next : σ → NodeId → σ}
    (h : ∀ id s, go id s = (none, next s id)) (ids : List NodeId) (s : σ) :
    SyntaxTree.untilEnded go ids s = (none, ids.foldl next s) := by
  induction ids generalizing s with
  | nil => rfl
  | cons id ids ih => rw [SyntaxTree.untilEnded, h, List.foldl_cons, ← ih]

theorem traverseWithin_visitor (levels : Nat) (id : NodeId) (o : Outline) :
    t.traverseWithin (visitor config t) levels id o = (none, o.walkWithin config t levels id) := by
  induction levels generalizing id o with
  | zero => rfl
  | succ levels ih =>
    have hchildren := untilEnded_eq (fun id o => ih id o) (t.children id) (o.enter config t id)
    simp only [SyntaxTree.traverseWithin, visitor, walkWithin, if_true]
    rw [visitor] at hchildren
    rw [hchildren]

theorem outline_eq_walk : t.outline config = Outline.walk config t t.root {} := by
  rw [SyntaxTree.outline, SyntaxTree.traverse, traverseWithin_visitor]
  rfl

/-! ## Induction -/

section
variable {P : List NodeId → Outline → Prop}

/-- What holds of an outline and the nodes seen so far holds of them after a walk, when entering a
node that has not been seen preserves it, and leaving one does. -/
theorem walk_induction (h : t.Proper) {id : NodeId}
    (enter : ∀ seen o x, x ∈ t.below id → x ∉ seen → P seen o →
      P (seen ++ [x]) (o.enter config t x))
    (leave : ∀ seen o x, x ∈ t.below id → P seen o → P seen (o.leave x))
    (seen : List NodeId) (o : Outline) (hseen : ∀ x ∈ t.below id, x ∉ seen) (ho : P seen o) :
    P (seen ++ t.below id) (o.walk config t id) := by
  rw [walk_eq_foldl]
  exact SyntaxTree.events_induction (P := fun seen _ o => P seen o) h
    (fun seen o x hx hnot ho => enter seen o x hx hnot ho)
    (fun seen o x hx _ ho => leave seen o x hx ho) seen o hseen ho

theorem outline_induction (h : t.Proper)
    (enter : ∀ seen o x, x ∈ t.below t.root → x ∉ seen → P seen o →
      P (seen ++ [x]) (o.enter config t x))
    (leave : ∀ seen o x, x ∈ t.below t.root → P seen o → P seen (o.leave x)) (empty : P [] {}) :
    P (t.below t.root) (t.outline config) := by
  rw [outline_eq_walk]
  have hwalk := walk_induction h enter leave [] {} (by simp) empty
  rwa [List.nil_append] at hwalk

end

end LuaAnalysis.Outline
