import LuaAnalysis.Syntax.Sketch
import Mathlib.Data.List.Forall2

/-!
# What stands where in a tree

Every place of a node asks for parts of one sort: a local statement has names and expressions, a
block has statements, and so on. `Node.Fits` says that the parts of a node are of the sorts that its
places ask for, and `Sketch.proper` that this is so all over a sketch.
-/

namespace LuaAnalysis

/-- What a place of a node asks for. -/
inductive PartSort where
  | name | expr | block | stat | clause | closure | target | key | entry
  | tag | docType | typeName | generics | genericParam | body | docField | funcParam
deriving DecidableEq

/-- Whether a node is of a sort. -/
def PartSort.admits {α : Type} : PartSort → Node α → Bool
  | .name, .name _ => true
  | .expr, n => n.isExpr
  | .block, .block _ => true
  | .stat, n => n.isStat
  | .clause, .ifClause _ _ => true
  | .closure, .closureExpr _ _ => true
  | .target, .name _ | .target, .nameExpr _ | .target, .indexExpr _ _ _ => true
  | .key, .name _ => true
  | .key, n => n.isExpr
  | .entry, .tableField _ _ => true
  | .tag, .docClass _ _ _ _ _ | .tag, .docEnum _ _ _ | .tag, .docAlias _ _
  | .tag, .docField _ _ _ | .tag, .docTypeTag _ | .tag, .docParam _ _ _ | .tag, .docReturn _
  | .tag, .docGeneric _ | .tag, .docOverload _ | .tag, .docOperator _ _ _ => true
  | .docType, n => n.isDocType
  | .typeName, .docNameType _ => true
  | .generics, .docGeneric _ => true
  | .genericParam, .docGenericParam _ _ => true
  | .body, .docBody _ => true
  | .docField, .docField _ _ _ => true
  | .funcParam, .docFuncParam _ _ _ => true
  | _, _ => false

/-- Whether a sort is one of names or of what is in comments. -/
def PartSort.isDoc : PartSort → Bool
  | .name | .tag | .docType | .typeName | .generics | .genericParam | .body | .docField
  | .funcParam => true
  | _ => false

/-- Whether a sort is one of what is inside a statement. -/
def PartSort.isInner (sort : PartSort) : Bool :=
  sort.isDoc || sort matches .expr | .key | .entry | .closure | .target

namespace Node

variable {α β : Type}

/-- A sort for each member of a list. -/
def each (sort : PartSort) (parts : List α) : List PartSort :=
  parts.map fun _ => sort

/-- The sorts of the parts of a node, in source order. -/
def expects : Node α → List PartSort
  | .source body => each .block body.toList
  | .block stats => each .stat stats
  | .localStat names exprs => each .name names ++ each .expr exprs
  | .assignStat targets exprs => each .expr targets ++ each .expr exprs
  | .funcStat target closure => each .target target.toList ++ each .closure closure.toList
  | .callStat call => each .expr [call]
  | .doStat body => each .block body.toList
  | .whileStat cond body => each .expr cond.toList ++ each .block body.toList
  | .repeatStat body cond => each .block body.toList ++ each .expr cond.toList
  | .ifStat clauses => each .clause clauses
  | .ifClause cond body => each .expr cond.toList ++ each .block body.toList
  | .forStat var exprs body =>
    each .name var.toList ++ each .expr exprs ++ each .block body.toList
  | .forRangeStat names exprs body =>
    each .name names ++ each .expr exprs ++ each .block body.toList
  | .returnStat exprs => each .expr exprs
  | .labelStat token => each .name token.toList
  | .gotoStat label => each .name label.toList
  | .indexExpr base key _ => each .expr base.toList ++ each .key key.toList
  | .callExpr callee args => each .expr callee.toList ++ each .expr args
  | .closureExpr params body => each .name params ++ each .block body.toList
  | .tableExpr fields => each .entry fields
  | .tableField key value => each .key key.toList ++ each .expr value.toList
  | .binaryExpr _ lhs rhs => each .expr lhs.toList ++ each .expr rhs.toList
  | .unaryExpr _ operand => each .expr operand.toList
  | .parenExpr inner => each .expr inner.toList
  | .comment tags => each .tag tags
  | .docClass _ token generics supers members =>
    each .name token.toList ++ each .generics generics.toList ++ each .docType supers ++
      each .body members.toList
  | .docEnum token base fields =>
    each .name token.toList ++ each .docType base.toList ++ each .name fields
  | .docAlias token type => each .name token.toList ++ each .docType type.toList
  | .docField (some (.name token)) type _ => each .name [token] ++ each .docType type.toList
  | .docField (some (.signature key)) type _ => each .docType [key] ++ each .docType type.toList
  | .docField _ type _ => each .docType type.toList
  | .docBody fields => each .docField fields
  | .docTypeTag types => each .docType types
  | .docParam token type _ => each .name token.toList ++ each .docType type.toList
  | .docReturn types => each .docType types
  | .docGeneric params => each .genericParam params
  | .docGenericParam token bound => each .name token.toList ++ each .docType bound.toList
  | .docOverload type => each .docType type.toList
  | .docOperator op operands result =>
    each .name op.toList ++ each .docType operands ++ each .docType result.toList
  | .docArrayType element => each .docType element.toList
  | .docUnionType types => each .docType types
  | .docFuncType params returns => each .funcParam params ++ each .docType returns
  | .docFuncParam token type _ => each .name token.toList ++ each .docType type.toList
  | .docTableType fields => each .docField fields
  | .docGenericType head args => each .typeName [head] ++ each .docType args
  | .name _ | breakStat | nameExpr _ | literalExpr _ | varArgExpr | docNameType _ => []

/-- The parts of a node are of the sorts that its places ask for. -/
def Fits (is : PartSort → α → Prop) (n : Node α) : Prop :=
  List.Forall₂ is n.expects n.children

@[simp] theorem forall₂_each {is : PartSort → α → Prop} {sort : PartSort} {parts : List α} :
    List.Forall₂ is (each sort parts) parts ↔ ∀ part ∈ parts, is sort part := by
  induction parts with
  | nil => simp [each]
  | cons part parts ih =>
    simp only [each, List.map_cons, List.forall₂_cons, List.forall_mem_cons] at ih ⊢
    rw [ih]

@[simp] theorem forall₂_each_append {is : PartSort → α → Prop} {sort : PartSort}
    {parts more : List α} {sorts : List PartSort} :
    List.Forall₂ is (each sort parts ++ sorts) (parts ++ more) ↔
      (∀ part ∈ parts, is sort part) ∧ List.Forall₂ is sorts more := by
  induction parts with
  | nil => simp [each]
  | cons part parts ih =>
    simp only [each, List.map_cons, List.cons_append, List.forall₂_cons,
      List.forall_mem_cons] at ih ⊢
    rw [ih, and_assoc]

/-! ## Kinds of nodes -/

/-- Whether a node belongs to the code, and not to a comment or to a name. -/
def isCode : Node α → Bool
  | .source _ | .block _ | .ifClause _ _ | .tableField _ _ => true
  | n => n.isStat || n.isExpr

/-- Whether a node stands inside a statement, with no statement of its own except in closures. -/
def isInner (n : Node α) : Bool :=
  n.isExpr || !n.isCode || PartSort.entry.admits n

@[simp] theorem all_each (p : PartSort → Bool) (sort : PartSort) (parts : List α) :
    (each sort parts).all p = (parts.isEmpty || p sort) := by
  cases parts with
  | nil => rfl
  | cons part parts => cases h : p sort <;> simp [each, h]

theorem not_isCode_of_isDoc {n : Node α} {sort : PartSort} (hsort : sort.isDoc = true)
    (hn : sort.admits n = true) : n.isCode = false := by
  cases sort <;> simp only [PartSort.isDoc, Bool.false_eq_true] at hsort <;>
    cases n <;> first | rfl | cases hn

theorem all_isDoc {n : Node α} (hn : n.isCode = false) : n.expects.all PartSort.isDoc = true := by
  cases n
  case docField key type _ =>
    rcases key with _ | (_ | _ | _) <;> simp [expects, PartSort.isDoc]
  all_goals simp_all [isCode, isStat, isExpr, expects, PartSort.isDoc]

/-- What is in a comment is no code. -/
theorem not_isCode_of_part {n : Node α} {m : Node β} (hn : n.isCode = false) {sort : PartSort}
    (hsort : sort ∈ n.expects) (hm : sort.admits m = true) : m.isCode = false :=
  not_isCode_of_isDoc (List.all_eq_true.1 (all_isDoc hn) sort hsort) hm

theorem isInner_of_not_isCode {n : Node α} (hn : n.isCode = false) : n.isInner = true := by
  simp [isInner, hn]

theorem all_isInner {n : Node α} (hn : n.isInner = true)
    (hclosure : PartSort.closure.admits n = false) : n.expects.all PartSort.isInner = true := by
  cases n
  case docField key type _ =>
    rcases key with _ | (_ | _ | _) <;> simp [expects, PartSort.isInner, PartSort.isDoc]
  case closureExpr => cases hclosure
  all_goals
    simp_all [isInner, isCode, isStat, isExpr, PartSort.admits, expects, PartSort.isInner,
      PartSort.isDoc]

theorem isInner_of_admits {n : Node α} {sort : PartSort} (hsort : sort.isInner = true)
    (hn : sort.admits n = true) : n.isInner = true := by
  cases hdoc : sort.isDoc with
  | true => exact isInner_of_not_isCode (not_isCode_of_isDoc hdoc hn)
  | false =>
    cases sort <;> simp only [PartSort.isInner, PartSort.isDoc, Bool.or_false, Bool.false_or,
      Bool.false_eq_true, reduceCtorEq] at hsort hdoc <;>
      cases n <;> first | rfl | cases hn

/-- Inside an expression there are no statements, except in closures. -/
theorem isInner_of_part {n : Node α} {m : Node β} (hn : n.isInner = true)
    (hclosure : PartSort.closure.admits n = false) {sort : PartSort} (hsort : sort ∈ n.expects)
    (hm : sort.admits m = true) : m.isInner = true :=
  isInner_of_admits (List.all_eq_true.1 (all_isInner hn hclosure) sort hsort) hm

theorem not_isStat_of_admits {n : Node α} {sort : PartSort} (hsort : sort ≠ .stat)
    (hn : sort.admits n = true) : n.isStat = false := by
  cases sort <;> first | exact absurd rfl hsort | skip
  all_goals cases n <;> first | rfl | cases hn

theorem ne_stat_of_mem_expects {n : Node α} (hn : ∀ stats, n ≠ .block stats) {sort : PartSort}
    (hsort : sort ∈ n.expects) : sort ≠ .stat := by
  have hall : n.expects.all (· ≠ .stat) = true := by
    cases n
    case docField key type _ => rcases key with _ | (_ | _ | _) <;> simp [expects]
    case block stats => exact absurd rfl (hn stats)
    all_goals simp [expects]
  simpa using List.all_eq_true.1 hall sort hsort

/-! ## Shapes -/

/-- The node without its parts. -/
def shape (n : Node α) : Node Unit :=
  Id.run (n.mapM fun _ => pure ())

theorem option_mapM_unit (part : Option α) :
    (part.mapM fun _ => (pure () : Id Unit)) = pure (part.map fun _ => ()) := by
  cases part <;> rfl

theorem each_map_unit (sort : PartSort) (parts : List α) :
    each sort (parts.map fun _ => ()) = each sort parts := by
  simp [each]

theorem each_option_map_unit (sort : PartSort) (part : Option α) :
    each sort (part.map fun _ => ()).toList = each sort part.toList := by
  cases part <;> rfl

theorem expects_shape (n : Node α) : n.shape.expects = n.expects := by
  cases n
  case docField key type _ =>
    rcases key with _ | (_ | _ | _) <;> cases type <;> rfl
  all_goals
    simp only [shape, mapM, List.mapM_pure, option_mapM_unit, expects, pure_bind, Id.run_pure,
      each_map_unit, each_option_map_unit]
    try rfl

theorem admits_shape (sort : PartSort) (n : Node α) : sort.admits n.shape = sort.admits n := by
  cases n
  case docField key type _ =>
    rcases key with _ | (_ | _ | _) <;> cases sort <;> rfl
  all_goals cases sort <;> rfl

theorem isStat_shape (n : Node α) : n.shape.isStat = n.isStat := by
  cases n
  case docField key _ _ => rcases key with _ | (_ | _ | _) <;> rfl
  all_goals rfl

theorem isComment_shape (n : Node α) : n.shape.isComment = n.isComment := by
  cases n
  case docField key _ _ => rcases key with _ | (_ | _ | _) <;> rfl
  all_goals rfl

@[simp] theorem length_expects (n : Node α) : n.expects.length = n.arity := by
  cases n
  case docField key type _ =>
    rcases key with _ | (_ | _ | _) <;> cases type <;> rfl
  all_goals simp [expects, arity, children, each]

/-! ## Shapes of filled nodes -/

theorem list_unit_eq_iff (xs ys : List Unit) : xs = ys ↔ xs.length = ys.length := by
  refine ⟨congrArg _, fun h => ?_⟩
  apply List.ext_getElem h
  intros
  rfl

/-- A part that is missing takes nothing from a supply, so it stays missing. -/
theorem map_head?_take (part : Option Unit) (s : List β) (h : part.toList.length ≤ s.length) :
    ((s.take part.toList.length).head?.map fun _ => ()) = part := by
  cases part <;> cases s <;> simp_all

theorem shape_fill [Inhabited β] (n : Node Unit) (s : List β) (h : s.length = n.arity) :
    (n.fill s).shape = n := by
  cases n
  case callStat =>
    obtain ⟨b, rfl⟩ := List.length_eq_one_iff.1 (show s.length = 1 from h)
    rfl
  case docGenericType head args =>
    obtain ⟨b, s, rfl⟩ :=
      List.exists_cons_of_length_eq_add_one (show s.length = args.length + 1 from h)
    have h : s.length = args.length := by simpa [arity, children] using h
    simp [fill, mapM, run_mapM_next, run_next_cons, shape, h, list_unit_eq_iff]
  case docField key type nullable =>
    simp only [arity, children] at h
    rcases key with _ | (token | number | signature)
    case none | some.integer =>
      simp (disch := grind) [fill, mapM, run_option_mapM_next, shape,
        option_mapM_unit, map_head?_take]
    case some.name | some.signature =>
      obtain ⟨b, s, rfl⟩ := List.exists_cons_of_length_eq_add_one h
      simp (disch := grind) [fill, mapM, run_option_mapM_next, run_next_cons,
        shape, option_mapM_unit, map_head?_take]
  all_goals
    simp only [arity, children, List.length_append, List.length_nil] at h
    simp (disch := grind) [fill, mapM, run_mapM_next, run_option_mapM_next,
      shape, option_mapM_unit, map_head?_take, list_unit_eq_iff]

end Node

/-! ## Sketches -/

/-- Whether nodes are of the sorts in a list, one for each. -/
def PartSort.admitAll : List PartSort → List (Node Unit) → Bool
  | [], [] => true
  | sort :: sorts, n :: nodes => sort.admits n && admitAll sorts nodes
  | _, _ => false

theorem PartSort.admitAll_iff {sorts : List PartSort} {nodes : List (Node Unit)} :
    admitAll sorts nodes = true ↔ List.Forall₂ (fun sort n => sort.admits n = true) sorts nodes := by
  induction sorts generalizing nodes with
  | nil => cases nodes <;> simp [admitAll]
  | cons sort sorts ih => cases nodes <;> simp [admitAll, ih]

namespace Sketch

/-- The nodes that sketches give as parts; a comment is none. -/
def forms (parts : List Sketch) : List (Node Unit) :=
  (parts.filter fun s => !s.isComment).map form

mutual
/-- Whether every node of a sketch has the parts that its places ask for. -/
def proper : Sketch → Bool
  | mk form _ parts => PartSort.admitAll form.expects (forms parts) && allProper parts

def allProper : List Sketch → Bool
  | [] => true
  | s :: rest => proper s && allProper rest
end

mutual
/-- Whether no node of a sketch has a fixed span. -/
def unpinned : Sketch → Bool
  | mk _ pin parts => pin.isNone && allUnpinned parts

def allUnpinned : List Sketch → Bool
  | [] => true
  | s :: rest => unpinned s && allUnpinned rest
end

end Sketch

end LuaAnalysis
