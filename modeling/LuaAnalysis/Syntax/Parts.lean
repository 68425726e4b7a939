import LuaAnalysis.Syntax.Node

/-!
# The parts of a node

`Node.children` lists the parts of a node in source order, and `Node.fill` puts the members of a
list into their places.

Main statement: the parts of a filled node are the list that it was filled with, when the list has
as many members as the node has places.
-/

namespace LuaAnalysis.Node

variable {α β : Type}

/-- The parts of a node in source order. -/
def children : Node α → List α
  | .source body => body.toList
  | .block stats => stats
  | .localStat names exprs => names ++ exprs
  | .assignStat targets exprs => targets ++ exprs
  | .funcStat target closure => target.toList ++ closure.toList
  | .callStat call => [call]
  | .doStat body => body.toList
  | .whileStat cond body => cond.toList ++ body.toList
  | .repeatStat body cond => body.toList ++ cond.toList
  | .ifStat clauses => clauses
  | .ifClause cond body => cond.toList ++ body.toList
  | .forStat var exprs body => var.toList ++ exprs ++ body.toList
  | .forRangeStat names exprs body => names ++ exprs ++ body.toList
  | .returnStat exprs => exprs
  | .labelStat token => token.toList
  | .gotoStat label => label.toList
  | .indexExpr base key _ => base.toList ++ key.toList
  | .callExpr callee args => callee.toList ++ args
  | .closureExpr params body => params ++ body.toList
  | .tableExpr fields => fields
  | .tableField key value => key.toList ++ value.toList
  | .binaryExpr _ lhs rhs => lhs.toList ++ rhs.toList
  | .unaryExpr _ operand => operand.toList
  | .parenExpr inner => inner.toList
  | .comment tags => tags
  | .docClass _ token generics supers members =>
    token.toList ++ generics.toList ++ supers ++ members.toList
  | .docEnum token base fields => token.toList ++ base.toList ++ fields
  | .docAlias token type => token.toList ++ type.toList
  | .docField (some (.name token)) type _ => token :: type.toList
  | .docField (some (.signature key)) type _ => key :: type.toList
  | .docField _ type _ => type.toList
  | .docBody fields => fields
  | .docTypeTag types => types
  | .docParam token type _ => token.toList ++ type.toList
  | .docReturn types => types
  | .docGeneric params => params
  | .docGenericParam token bound => token.toList ++ bound.toList
  | .docOverload type => type.toList
  | .docOperator op operands result => op.toList ++ operands ++ result.toList
  | .docArrayType element => element.toList
  | .docUnionType types => types
  | .docFuncType params returns => params ++ returns
  | .docFuncParam token type _ => token.toList ++ type.toList
  | .docTableType fields => fields
  | .docGenericType head args => head :: args
  | .name _ | breakStat | nameExpr _ | literalExpr _ | varArgExpr | docNameType _ => []

/-- Replaces every part by the result of an action, in source order. -/
def mapM {m : Type → Type} [Monad m] (f : α → m β) : Node α → m (Node β)
  | .name text => return .name text
  | .source body => return .source (← body.mapM f)
  | .block stats => return .block (← stats.mapM f)
  | .localStat names exprs => return .localStat (← names.mapM f) (← exprs.mapM f)
  | .assignStat targets exprs => return .assignStat (← targets.mapM f) (← exprs.mapM f)
  | .funcStat target closure => return .funcStat (← target.mapM f) (← closure.mapM f)
  | .callStat call => return .callStat (← f call)
  | .doStat body => return .doStat (← body.mapM f)
  | .whileStat cond body => return .whileStat (← cond.mapM f) (← body.mapM f)
  | .repeatStat body cond => return .repeatStat (← body.mapM f) (← cond.mapM f)
  | .ifStat clauses => return .ifStat (← clauses.mapM f)
  | .ifClause cond body => return .ifClause (← cond.mapM f) (← body.mapM f)
  | .forStat var exprs body => return .forStat (← var.mapM f) (← exprs.mapM f) (← body.mapM f)
  | .forRangeStat names exprs body =>
    return .forRangeStat (← names.mapM f) (← exprs.mapM f) (← body.mapM f)
  | .returnStat exprs => return .returnStat (← exprs.mapM f)
  | .breakStat => return .breakStat
  | .labelStat token => return .labelStat (← token.mapM f)
  | .gotoStat label => return .gotoStat (← label.mapM f)
  | .nameExpr text => return .nameExpr text
  | .indexExpr base key colon => return .indexExpr (← base.mapM f) (← key.mapM f) colon
  | .callExpr callee args => return .callExpr (← callee.mapM f) (← args.mapM f)
  | .closureExpr params body => return .closureExpr (← params.mapM f) (← body.mapM f)
  | .tableExpr fields => return .tableExpr (← fields.mapM f)
  | .tableField key value => return .tableField (← key.mapM f) (← value.mapM f)
  | .literalExpr value => return .literalExpr value
  | .binaryExpr op lhs rhs => return .binaryExpr op (← lhs.mapM f) (← rhs.mapM f)
  | .unaryExpr op operand => return .unaryExpr op (← operand.mapM f)
  | .parenExpr inner => return .parenExpr (← inner.mapM f)
  | .varArgExpr => return .varArgExpr
  | .comment tags => return .comment (← tags.mapM f)
  | .docClass kind token generics supers members =>
    return .docClass kind (← token.mapM f) (← generics.mapM f) (← supers.mapM f) (← members.mapM f)
  | .docEnum token base fields =>
    return .docEnum (← token.mapM f) (← base.mapM f) (← fields.mapM f)
  | .docAlias token type => return .docAlias (← token.mapM f) (← type.mapM f)
  | .docField (some (.name token)) type nullable =>
    return .docField (some (.name (← f token))) (← type.mapM f) nullable
  | .docField (some (.signature key)) type nullable =>
    return .docField (some (.signature (← f key))) (← type.mapM f) nullable
  | .docField (some (.integer n)) type nullable =>
    return .docField (some (.integer n)) (← type.mapM f) nullable
  | .docField none type nullable => return .docField none (← type.mapM f) nullable
  | .docBody fields => return .docBody (← fields.mapM f)
  | .docTypeTag types => return .docTypeTag (← types.mapM f)
  | .docParam token type nullable =>
    return .docParam (← token.mapM f) (← type.mapM f) nullable
  | .docReturn types => return .docReturn (← types.mapM f)
  | .docGeneric params => return .docGeneric (← params.mapM f)
  | .docGenericParam token bound => return .docGenericParam (← token.mapM f) (← bound.mapM f)
  | .docOverload type => return .docOverload (← type.mapM f)
  | .docOperator op operands result =>
    return .docOperator (← op.mapM f) (← operands.mapM f) (← result.mapM f)
  | .docNameType text => return .docNameType text
  | .docArrayType element => return .docArrayType (← element.mapM f)
  | .docUnionType types => return .docUnionType (← types.mapM f)
  | .docFuncType params returns => return .docFuncType (← params.mapM f) (← returns.mapM f)
  | .docFuncParam token type nullable =>
    return .docFuncParam (← token.mapM f) (← type.mapM f) nullable
  | .docTableType fields => return .docTableType (← fields.mapM f)
  | .docGenericType head args => return .docGenericType (← f head) (← args.mapM f)

/-- The next part of a supply. -/
def next [Inhabited β] : StateM (List β) β :=
  modifyGet fun supply => (supply.headD default, supply.tail)

/-- The node with its parts taken from a supply, in source order. -/
def fill [Inhabited β] (n : Node α) (supply : List β) : Node β :=
  (Id.run ((n.mapM fun _ => next).run supply)).1

def arity (n : Node α) : Nat :=
  n.children.length

/-! ## Filling -/

section
variable [Inhabited β]

theorem run_next_cons (b : β) (s : List β) :
    (next : StateM (List β) β).run (b :: s) = pure (b, s) :=
  rfl

/-- A list of parts takes as many members of the supply. -/
theorem run_mapM_next (xs : List α) (s : List β) (h : xs.length ≤ s.length) :
    (xs.mapM fun _ => (next : StateM (List β) β)).run s =
      pure (s.take xs.length, s.drop xs.length) := by
  induction xs generalizing s with
  | nil => simp
  | cons x xs ih =>
    cases s with
    | nil => simp at h
    | cons b s => simp [List.mapM_cons, run_next_cons, ih s (by simpa using h)]

/-- A part that may be missing takes one member of the supply or none. -/
theorem run_option_mapM_next (x : Option α) (s : List β) (h : x.toList.length ≤ s.length) :
    (x.mapM fun _ => (next : StateM (List β) β)).run s =
      pure ((s.take x.toList.length).head?, s.drop x.toList.length) := by
  cases x with
  | none => rfl
  | some a =>
    cases s with
    | nil => simp at h
    | cons b s => rfl

omit [Inhabited β] in
theorem toList_head?_take (x : Option α) (s : List β) :
    (s.take x.toList.length).head?.toList = s.take x.toList.length := by
  cases x <;> cases s <;> simp

omit [Inhabited β] in
/-- As many members as a list has are all of them. -/
theorem take_all {s : List β} {k : Nat} (h : s.length = k) : s.take k = s :=
  List.take_of_length_le (Nat.le_of_eq h)

theorem children_fill (n : Node α) (s : List β) (h : s.length = n.arity) :
    (n.fill s).children = s := by
  cases n
  case callStat =>
    obtain ⟨b, rfl⟩ := List.length_eq_one_iff.1 (show s.length = 1 from h)
    rfl
  case docGenericType head args =>
    obtain ⟨b, s, rfl⟩ :=
      List.exists_cons_of_length_eq_add_one (show s.length = args.length + 1 from h)
    have h : s.length = args.length := by simpa [arity, children] using h
    simp [fill, mapM, run_mapM_next, run_next_cons, children, h, take_all]
  case docField key type nullable =>
    rcases key with _ | (token | number | signature)
    case none | some.integer =>
      have h : s.length = type.toList.length := h
      refine Eq.trans ?_ (take_all h)
      simp (disch := omega) [fill, mapM, run_option_mapM_next, toList_head?_take,
        children]
    case some.name | some.signature =>
      obtain ⟨b, s, rfl⟩ :=
        List.exists_cons_of_length_eq_add_one (show s.length = type.toList.length + 1 from h)
      have h : s.length = type.toList.length := by simpa [arity, children] using h
      refine Eq.trans ?_ (congrArg (b :: ·) (take_all h))
      simp (disch := omega) [fill, mapM, run_option_mapM_next, run_next_cons,
        toList_head?_take, children]
  all_goals
    refine Eq.trans ?_ (take_all h)
    simp only [arity, children, List.length_append, List.length_nil] at h
    simp (disch := grind) [fill, mapM, run_mapM_next,
      run_option_mapM_next, toList_head?_take, arity, children, ← List.take_add, Nat.add_assoc]

end

end LuaAnalysis.Node
