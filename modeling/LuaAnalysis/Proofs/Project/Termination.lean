import LuaAnalysis.Proofs.Project.Evaluation
import LuaAnalysis.Proofs.Project.Reached

/-!
# Typing ends

The functions below type expressions by calling each other wherever they like. A name is resolved
through the index expression that it is the key of, so the calls do not only go down the tree, and
nothing in the functions themselves keeps them from calling each other for ever. They end all the
same when every part of a node has a smaller id than the node: an expression evaluates smaller ones
only, and a name evaluates none. The answers are those of `exprType`, which counts levels of the tree.

Main statement: `Project.evaluation_ends`.
-/

namespace LuaAnalysis

/-- An evaluation, when its calls may nest a number of levels deep: it has no answer where they would
go deeper. It writes down the expressions that it types, each as soon as it turns to it. -/
abbrev Evaluation (α : Type) : Type :=
  Nat → StateT (List NodeId) Option α

namespace Project

variable (p : Project) (m : FileModel)

/-! ## The functions -/

mutual

def evalExpr (expr : NodeId) (slot : Nat) : Evaluation Ty
  | 0 => failure
  | depth + 1 => do
    modify (· ++ [expr])
    match m.tree.node? expr with
    | some .varArgExpr => return .unknown
    | some (.callExpr ..) => return (← evalCall expr depth).slot slot
    | some node =>
      if !node.isExpr then return .unknown
      else if 0 < slot then return .nil
      else
        match node with
        | .literalExpr value => return value.type
        | .nameExpr _ => return ((← evalDeclaration expr depth).map p.declType).getD .unknown
        | .parenExpr inner => evalPart inner depth
        | .tableExpr _ => return .tableLiteral (m.tree.syntaxId expr)
        | .closureExpr .. => return .method (m.tree.syntaxId expr)
        | .indexExpr .. => evalIndex expr depth
        | .binaryExpr .. => evalBinary expr depth
        | .unaryExpr .. => evalUnary expr depth
        | _ => return .unknown
    | none => return .unknown
termination_by structural depth => depth

/-- The first value of a part that may be missing. -/
def evalPart (part : Option NodeId) : Evaluation Ty
  | 0 => failure
  | depth + 1 =>
    match part with
    | some expr => evalExpr expr 0 depth
    | none => return .unknown
termination_by structural depth => depth

def evalCall (call : NodeId) : Evaluation Ty
  | 0 => failure
  | depth + 1 =>
    match m.tree.node? call with
    | some (.callExpr (some callee) _) => do
      return match ← evalExpr callee 0 depth with
        | .method closure => p.closureResult m closure
        | .signature s => .ofReturns s.returns
        | _ => .unknown
    | _ => return .unknown
termination_by structural depth => depth

/-- The type of a key between brackets, or of a name behind a dot. -/
def evalKey (key : Option NodeId) : Evaluation Ty
  | 0 => failure
  | depth + 1 =>
    match key with
    | none => return .unknown
    | some key =>
      match m.tree.node? key with
      | some (.name _) => return .string
      | _ => evalExpr key 0 depth
termination_by structural depth => depth

/-- The base is typed for the member, and once more where there is none. -/
def evalIndex (index : NodeId) : Evaluation Ty
  | 0 => failure
  | depth + 1 => do
    match ← evalIndexMember index depth with
    | some member => return p.declType member
    | none =>
      match m.tree.node? index with
      | some (.indexExpr (some base) key _) => evalElement base key depth
      | _ => return .unknown
termination_by structural depth => depth

/-- The type of a value in a value that has no such member. -/
def evalElement (base : NodeId) (key : Option NodeId) : Evaluation Ty
  | 0 => failure
  | depth + 1 => do
    let keyType ← evalKey key depth
    let baseType ← evalExpr base 0 depth
    return match baseType with
      | .array element => element
      | .genericApp "table" args => args.getLast?.getD .unknown
      | _ => (p.overloadResult? baseType .index (some keyType)).getD .unknown
termination_by structural depth => depth

def evalBinary (binary : NodeId) : Evaluation Ty
  | 0 => failure
  | depth + 1 =>
    match m.tree.node? binary with
    | some (.binaryExpr op lhs rhs) => do
      let lhs ← evalPart lhs depth
      let rhs ← evalPart rhs depth
      return match OperatorKind.ofBinary? op with
        | none => if op = .and then rhs else lhs.join rhs
        | some kind =>
          if kind.isComparison then .boolean
          else (p.overloadResult? lhs kind (some rhs)).getD (kind.builtinType lhs rhs)
    | _ => return .unknown
termination_by structural depth => depth

def evalUnary (unary : NodeId) : Evaluation Ty
  | 0 => failure
  | depth + 1 =>
    match m.tree.node? unary with
    | some (.unaryExpr op operand) => do
      let operand ← evalPart operand depth
      return match OperatorKind.ofUnary? op with
        | none => .boolean
        | some kind =>
          (p.overloadResult? operand kind none).getD <|
            match op with
            | .length | .bitNot => .integer
            | _ => if operand.isNumeric then operand else .unknown
    | _ => return .unknown
termination_by structural depth => depth

/-- The key comes first: where it selects no field by a text, the base is not typed. -/
def evalIndexMember (index : NodeId) : Evaluation (Option DeclRef)
  | 0 => failure
  | depth + 1 =>
    match m.tree.node? index with
    | some (.indexExpr base key _) =>
      match key.bind m.tree.keyText?, base with
      | some name, some base => do
        return p.memberOfType? (← evalExpr base 0 depth) name
      | _, _ => return none
    | _ => return none
termination_by structural depth => depth

/-- The member that a node selects, if it is a member access or the key of one. -/
def evalMemberAccess (node : NodeId) : Evaluation (Option DeclRef)
  | 0 => failure
  | depth + 1 =>
    match m.tree.memberAccess? node with
    | some index => evalIndexMember index depth
    | none => return none
termination_by structural depth => depth

def evalDeclaration (node : NodeId) : Evaluation (Option DeclRef)
  | 0 => failure
  | depth + 1 => do
    match ← evalMemberAccess node depth with
    | some found => return some found
    | none =>
      match m.anchored? node with
      | some id => return some (m.ref id)
      | none =>
        match m.tree.node? node with
        | some (.nameExpr name) =>
          return ((m.find? node name).map m.ref).or (p.global? name m.source)
        | some (.docNameType name) => return p.namedType? name m.source
        | _ => return none
termination_by structural depth => depth

end

end Project

/-! ## Evaluations that end -/

namespace Evaluation

variable {α β : Type} {x : Evaluation α} {f : Nat → α → StateT (List NodeId) Option β} {a : α}
  {b : β} {P Q : NodeId → Prop}

/-- Some depth is enough for an evaluation, and from there on every depth gives the same answer.
Whatever is written down already, the same expressions are added. -/
def Ends (x : Evaluation α) (answer : α) (exprs : List NodeId) : Prop :=
  ∃ enough, ∀ depth, enough ≤ depth → ∀ written,
    (x depth).run written = some (answer, written ++ exprs)

/-- An evaluation ends with an answer, and every expression that it types has a property. -/
def EndsIn (x : Evaluation α) (answer : α) (P : NodeId → Prop) : Prop :=
  ∃ exprs, x.Ends answer exprs ∧ ∀ e ∈ exprs, P e

theorem ends_pure (a : α) : Evaluation.Ends (fun _ => pure a) a [] :=
  ⟨0, fun _ _ written => by rw [List.append_nil]; rfl⟩

theorem ends_note (e : NodeId) : Evaluation.Ends (fun _ => modify (· ++ [e])) ⟨⟩ [e] :=
  ⟨0, fun _ _ _ => rfl⟩

theorem Ends.bind {exprs more : List NodeId} (hx : x.Ends a exprs)
    (hf : Evaluation.Ends (fun depth => f depth a) b more) :
    Evaluation.Ends (fun depth => x depth >>= f depth) b (exprs ++ more) := by
  obtain ⟨enough, hx⟩ := hx
  obtain ⟨enough', hf⟩ := hf
  refine ⟨max enough enough', fun depth hdepth written => ?_⟩
  have hx := hx depth ((Nat.le_max_left _ _).trans hdepth) written
  have hf := hf depth ((Nat.le_max_right _ _).trans hdepth) (written ++ exprs)
  rw [StateT.run_bind, hx]
  exact hf.trans (by rw [List.append_assoc])

/-- The call of a function takes one level. -/
theorem Ends.deeper {exprs : List NodeId}
    (h : Evaluation.Ends (fun depth => x (depth + 1)) a exprs) : x.Ends a exprs := by
  obtain ⟨enough, h⟩ := h
  refine ⟨enough + 1, fun depth hdepth => ?_⟩
  obtain ⟨depth, rfl⟩ := Nat.exists_eq_add_of_le' (Nat.le_of_add_left_le hdepth)
  exact h depth (Nat.le_of_succ_le_succ hdepth)

theorem endsIn_pure (a : α) (P : NodeId → Prop) : Evaluation.EndsIn (fun _ => pure a) a P :=
  ⟨[], ends_pure a, fun _ he => absurd he List.not_mem_nil⟩

theorem EndsIn.bind (hx : x.EndsIn a P) (hf : Evaluation.EndsIn (fun depth => f depth a) b P) :
    Evaluation.EndsIn (fun depth => x depth >>= f depth) b P := by
  obtain ⟨exprs, hexprs, hP⟩ := hx
  obtain ⟨more, hmore, hP'⟩ := hf
  refine ⟨exprs ++ more, hexprs.bind hmore, fun e he => ?_⟩
  exact (List.mem_append.1 he).elim (hP e) (hP' e)

/-- The answer is worked on without a further evaluation. -/
theorem EndsIn.map (hx : x.EndsIn a P) (g : α → β) :
    Evaluation.EndsIn (fun depth => x depth >>= fun v => pure (g v)) (g a) P :=
  hx.bind (endsIn_pure (g a) P)

theorem EndsIn.deeper (h : Evaluation.EndsIn (fun depth => x (depth + 1)) a P) : x.EndsIn a P := by
  obtain ⟨exprs, hexprs, hP⟩ := h
  exact ⟨exprs, hexprs.deeper, hP⟩

theorem EndsIn.mono (hx : x.EndsIn a P) (h : ∀ e, P e → Q e) : x.EndsIn a Q := by
  obtain ⟨exprs, hexprs, hP⟩ := hx
  exact ⟨exprs, hexprs, fun e he => h e (hP e he)⟩

/-- Where nothing has the property, nothing is typed. -/
theorem EndsIn.ends_nil (hx : x.EndsIn a fun _ => False) : x.Ends a [] := by
  obtain ⟨exprs, hexprs, hnone⟩ := hx
  rwa [List.eq_nil_iff_forall_not_mem.2 hnone] at hexprs

end Evaluation

namespace Project

/-! ## One step

When everything below a bound can be typed, a node whose parts are below the bound can be. -/

section
variable {p : Project} {m : FileModel} {typeOf : NodeId → Nat → Ty} {bound : NodeId}
  (hbelow : ∀ c < bound, ∀ slot, (p.evalExpr m c slot).EndsIn (typeOf c slot) (· < bound))

include hbelow

theorem endsIn_evalPart {part : Option NodeId} (hpart : ∀ c ∈ part, c < bound) :
    (p.evalPart m part).EndsIn (partType typeOf part) (· < bound) := by
  refine Evaluation.EndsIn.deeper ?_
  simp only [evalPart]
  cases part with
  | none => exact Evaluation.endsIn_pure _ _
  | some e => exact hbelow e (hpart e rfl) 0

theorem endsIn_evalKey {key : Option NodeId} (hkey : ∀ c ∈ key, c < bound) :
    (p.evalKey m key).EndsIn (keyType m typeOf key) (· < bound) := by
  refine Evaluation.EndsIn.deeper ?_
  simp only [evalKey]
  unfold keyType
  cases key with
  | none => exact Evaluation.endsIn_pure _ _
  | some key =>
    have hlt : key < bound := hkey key rfl
    dsimp only
    cases m.tree.node? key with
    | none => exact hbelow key hlt 0
    | some n =>
      cases n with
      | name _ => exact Evaluation.endsIn_pure _ _
      | _ => exact hbelow key hlt 0

theorem endsIn_evalCall {call : NodeId}
    (hparts : ∀ n, m.tree.node? call = some n → ∀ c ∈ n.children, c < bound) :
    (p.evalCall m call).EndsIn (p.callStep m typeOf call) (· < bound) := by
  refine Evaluation.EndsIn.deeper ?_
  simp only [evalCall]
  unfold callStep
  cases hn : m.tree.node? call with
  | none => exact Evaluation.endsIn_pure _ _
  | some n =>
    cases n with
    | callExpr callee args =>
      cases callee with
      | none => exact Evaluation.endsIn_pure _ _
      | some callee =>
        have hcallee : callee < bound := hparts _ hn callee (by simp [Node.children])
        exact (hbelow callee hcallee 0).map _
    | _ => exact Evaluation.endsIn_pure _ _

theorem endsIn_evalIndexMember {index : NodeId}
    (hparts : ∀ n, m.tree.node? index = some n → ∀ c ∈ n.children, c < bound) :
    (p.evalIndexMember m index).EndsIn (p.indexMemberStep? m typeOf index) (· < bound) := by
  refine Evaluation.EndsIn.deeper ?_
  simp only [evalIndexMember]
  unfold indexMemberStep?
  cases hn : m.tree.node? index with
  | none => exact Evaluation.endsIn_pure _ _
  | some n =>
    cases n with
    | indexExpr base key colon =>
      dsimp only
      cases key.bind m.tree.keyText? with
      | none => exact Evaluation.endsIn_pure _ _
      | some name =>
        cases base with
        | none => exact Evaluation.endsIn_pure _ _
        | some base =>
          have hbase : base < bound := hparts _ hn base (by simp [Node.children])
          exact (hbelow base hbase 0).map fun type => p.memberOfType? type name
    | _ => exact Evaluation.endsIn_pure _ _

theorem endsIn_evalElement {base : NodeId} {key : Option NodeId} (hbase : base < bound)
    (hkey : ∀ c ∈ key, c < bound) :
    (p.evalElement m base key).EndsIn (p.elementStep m typeOf (typeOf base 0) key)
      (· < bound) := by
  refine Evaluation.EndsIn.deeper ?_
  simp only [evalElement]
  unfold elementStep
  exact (endsIn_evalKey hbelow hkey).bind ((hbelow base hbase 0).map _)

theorem endsIn_evalIndex {index : NodeId} {base key : Option NodeId} {colon : Bool}
    (hn : m.tree.node? index = some (.indexExpr base key colon))
    (hparts : ∀ n, m.tree.node? index = some n → ∀ c ∈ n.children, c < bound) :
    (p.evalIndex m index).EndsIn (p.indexStep m typeOf base key) (· < bound) := by
  refine Evaluation.EndsIn.deeper ?_
  simp only [evalIndex]
  refine (endsIn_evalIndexMember hbelow hparts).bind ?_
  unfold indexMemberStep? indexStep
  rw [hn]
  dsimp only
  cases base with
  | none => cases key.bind m.tree.keyText? <;> exact Evaluation.endsIn_pure _ _
  | some base =>
    have hbase : base < bound := hparts _ hn base (by simp [Node.children])
    have hkey : ∀ c ∈ key, c < bound := fun c hc =>
      hparts _ hn c (by simp [Node.children, Option.mem_toList.2 hc])
    have helement := endsIn_evalElement hbelow hbase hkey
    dsimp only
    cases key.bind m.tree.keyText? with
    | none => exact helement
    | some name =>
      dsimp only [Option.bind_some]
      cases p.memberOfType? (typeOf base 0) name with
      | none => exact helement
      | some member => exact Evaluation.endsIn_pure _ _

theorem endsIn_evalBinary {binary : NodeId} {op : BinaryOp} {lhs rhs : Option NodeId}
    (hn : m.tree.node? binary = some (.binaryExpr op lhs rhs))
    (hparts : ∀ n, m.tree.node? binary = some n → ∀ c ∈ n.children, c < bound) :
    (p.evalBinary m binary).EndsIn (p.binaryStep typeOf op lhs rhs) (· < bound) := by
  have hlhs : ∀ c ∈ lhs, c < bound := fun c hc =>
    hparts _ hn c (List.mem_append_left _ (Option.mem_toList.2 hc))
  have hrhs : ∀ c ∈ rhs, c < bound := fun c hc =>
    hparts _ hn c (List.mem_append_right _ (Option.mem_toList.2 hc))
  refine Evaluation.EndsIn.deeper ?_
  simp only [evalBinary]
  unfold binaryStep
  rw [hn]
  exact (endsIn_evalPart hbelow hlhs).bind ((endsIn_evalPart hbelow hrhs).map _)

theorem endsIn_evalUnary {unary : NodeId} {op : UnaryOp} {operand : Option NodeId}
    (hn : m.tree.node? unary = some (.unaryExpr op operand))
    (hparts : ∀ n, m.tree.node? unary = some n → ∀ c ∈ n.children, c < bound) :
    (p.evalUnary m unary).EndsIn (p.unaryStep typeOf op operand) (· < bound) := by
  have hoperand : ∀ c ∈ operand, c < bound := fun c hc =>
    hparts _ hn c (Option.mem_toList.2 hc)
  refine Evaluation.EndsIn.deeper ?_
  simp only [evalUnary]
  unfold unaryStep
  rw [hn]
  exact (endsIn_evalPart hbelow hoperand).map _

end

section
variable {p : Project} {m : FileModel} {node : NodeId} {P : NodeId → Prop}

theorem endsIn_evalDeclaration {typeOf : NodeId → Nat → Ty}
    (hmember : ∀ index ∈ m.tree.memberAccess? node,
      (p.evalIndexMember m index).EndsIn (p.indexMemberStep? m typeOf index) P) :
    (p.evalDeclaration m node).EndsIn (p.declarationStep? m typeOf node) P := by
  have haccess : (p.evalMemberAccess m node).EndsIn
      ((m.tree.memberAccess? node).bind (p.indexMemberStep? m typeOf)) P := by
    refine Evaluation.EndsIn.deeper ?_
    simp only [evalMemberAccess]
    cases hindex : m.tree.memberAccess? node with
    | none => exact Evaluation.endsIn_pure _ _
    | some index => exact hmember index hindex
  refine Evaluation.EndsIn.deeper ?_
  simp only [evalDeclaration]
  unfold declarationStep?
  refine haccess.bind ?_
  cases (m.tree.memberAccess? node).bind (p.indexMemberStep? m typeOf) with
  | some found => exact Evaluation.endsIn_pure _ _
  | none =>
    dsimp only
    cases m.anchored? node with
    | some id => exact Evaluation.endsIn_pure _ _
    | none =>
      dsimp only
      cases m.tree.node? node with
      | none => exact Evaluation.endsIn_pure _ _
      | some n => cases n <;> exact Evaluation.endsIn_pure _ _

/-- A name is resolved without an evaluation. Where it is the key of an index expression, it selects
no field by a text, and so the search for a member ends before the base is typed. -/
theorem endsIn_evalDeclaration_nameExpr {name : String}
    (hn : m.tree.node? node = some (.nameExpr name)) (typeOf : NodeId → Nat → Ty) :
    (p.evalDeclaration m node).EndsIn (p.declarationStep? m typeOf node) fun _ => False := by
  refine endsIn_evalDeclaration fun index hindex => ?_
  obtain ⟨base, key, colon, hi, hkey⟩ := SyntaxTree.memberAccess?_nameExpr hn hindex
  refine Evaluation.EndsIn.deeper ?_
  simp only [evalIndexMember]
  unfold indexMemberStep?
  simp only [hi, hkey]
  exact Evaluation.endsIn_pure _ _

end

/-! ## The tree -/

section
variable {p : Project} {m : FileModel}
  (hparts : ∀ id n, m.tree.node? id = some n → ∀ c ∈ n.children, c < id)

include hparts

/-- An expression is written down, then only smaller ones are typed. -/
theorem ends_evalExpr_of_below {typeOf : NodeId → Nat → Ty} {expr : NodeId}
    (hbelow : ∀ c < expr, ∀ slot, (p.evalExpr m c slot).EndsIn (typeOf c slot) (· < expr))
    (slot : Nat) :
    ∃ below, (p.evalExpr m expr slot).Ends (p.typeStep m typeOf expr slot) (expr :: below) ∧
      ∀ e ∈ below, e < expr := by
  -- What an evaluation does after its first line.
  suffices hrest : ∃ rest : Evaluation Ty,
      (∀ depth, p.evalExpr m expr slot (depth + 1) = modify (· ++ [expr]) >>= fun _ => rest depth) ∧
        rest.EndsIn (p.typeStep m typeOf expr slot) (· < expr) by
    obtain ⟨rest, heq, below, hends, hlt⟩ := hrest
    refine ⟨below, Evaluation.Ends.deeper ?_, hlt⟩
    simp only [heq]
    exact (Evaluation.ends_note expr).bind hends
  refine ⟨_, fun depth => by rw [evalExpr], ?_⟩
  unfold typeStep
  cases hn : m.tree.node? expr with
  | none => exact Evaluation.endsIn_pure _ _
  | some n =>
    have hcall := (endsIn_evalCall hbelow (hparts expr)).map fun type => type.slot slot
    by_cases hslot : 0 < slot
    · -- Past its first value only a call is evaluated.
      cases n with
      | callExpr callee args => exact hcall
      | _ => simp [Node.isExpr, hslot, Evaluation.endsIn_pure]
    · cases n with
      | callExpr callee args => exact hcall
      | nameExpr name =>
        have hname := (endsIn_evalDeclaration_nameExpr (p := p) hn typeOf).mono
          fun e he => (he.elim : e < expr)
        simp only [Node.isExpr, hslot]
        exact hname.map _
      | parenExpr inner =>
        simp only [Node.isExpr, hslot]
        exact endsIn_evalPart hbelow fun c hc => hparts expr _ hn c (Option.mem_toList.2 hc)
      | indexExpr base key colon =>
        simp only [Node.isExpr, hslot]
        exact endsIn_evalIndex hbelow hn (hparts expr)
      | binaryExpr op lhs rhs =>
        simp only [Node.isExpr, hslot]
        exact endsIn_evalBinary hbelow hn (hparts expr)
      | unaryExpr op operand =>
        simp only [Node.isExpr, hslot]
        exact endsIn_evalUnary hbelow hn (hparts expr)
      | _ => simp [Node.isExpr, hslot, Evaluation.endsIn_pure]

/-- With more levels than the id of an expression, the count of levels is never what ends it. -/
theorem ends_evalExprWithin (levels : Nat) {expr : NodeId} (hexpr : expr < levels) (slot : Nat) :
    ∃ below, (p.evalExpr m expr slot).Ends (p.exprTypeWithin m levels expr slot) (expr :: below) ∧
      ∀ e ∈ below, e < expr := by
  induction levels generalizing expr slot with
  | zero => exact absurd hexpr (Nat.not_lt_zero expr)
  | succ levels ih =>
    refine ends_evalExpr_of_below hparts (fun c hc slot => ?_) slot
    obtain ⟨below, hends, hlt⟩ := ih (Nat.lt_of_lt_of_le hc (Nat.le_of_lt_succ hexpr)) slot
    exact ⟨c :: below, hends, List.forall_mem_cons.2 ⟨hc, fun e he => (hlt e he).trans hc⟩⟩

theorem endsIn_evalExpr {c bound : NodeId} (hc : c < bound) {levels : Nat} (hlevels : c < levels)
    (slot : Nat) :
    (p.evalExpr m c slot).EndsIn (p.exprTypeWithin m levels c slot) (· < bound) := by
  obtain ⟨below, hends, hlt⟩ := ends_evalExprWithin hparts levels hlevels slot
  exact ⟨c :: below, hends, List.forall_mem_cons.2 ⟨hc, fun e he => (hlt e he).trans hc⟩⟩

end

/-- In a tree whose nodes have greater ids than their parts, typing ends in every project, with the
answer that `exprType` gives. An expression is typed by way of smaller ones only, and each function
on a node types only what is below the node. To find what a node refers to, only expressions below
the member access that it belongs to are typed, and none for a name, the key of an index expression
included. -/
theorem evaluation_ends (p : Project) (m : FileModel)
    (hparts : ∀ id n, m.tree.node? id = some n → ∀ c ∈ n.children, c < id) :
    (∀ expr slot, ∃ below,
        (p.evalExpr m expr slot).Ends (p.exprType m expr slot) (expr :: below) ∧
          ∀ e ∈ below, e < expr) ∧
      (∀ call, (p.evalCall m call).EndsIn (p.callType m call) (· < call)) ∧
      (∀ index base key colon, m.tree.node? index = some (.indexExpr base key colon) →
        (p.evalIndex m index).EndsIn (p.exprType m index 0) (· < index)) ∧
      (∀ binary op lhs rhs, m.tree.node? binary = some (.binaryExpr op lhs rhs) →
        (p.evalBinary m binary).EndsIn (p.exprType m binary 0) (· < binary)) ∧
      (∀ unary op operand, m.tree.node? unary = some (.unaryExpr op operand) →
        (p.evalUnary m unary).EndsIn (p.exprType m unary 0) (· < unary)) ∧
      (∀ index, (p.evalIndexMember m index).EndsIn (p.indexMemberStep? m (p.exprType m) index)
        (· < index)) ∧
      (∀ node, (p.evalDeclaration m node).EndsIn (p.declaration? m node)
        fun e => ∃ index ∈ m.tree.memberAccess? node, e < index) ∧
      ∀ node name, m.tree.node? node = some (.nameExpr name) →
        (p.evalDeclaration m node).Ends (p.declaration? m node) [] := by
  -- What is below a node ends with the answer of `exprType`, and with that of one level less than
  -- the node has, by which `exprType` steps.
  have hexact (id : NodeId) : ∀ c < id, ∀ slot,
      (p.evalExpr m c slot).EndsIn (p.exprType m c slot) (· < id) := fun c hc slot =>
    endsIn_evalExpr hparts hc (Nat.lt_succ_self c) slot
  have hwithin (id : NodeId) : ∀ c < id, ∀ slot,
      (p.evalExpr m c slot).EndsIn (p.exprTypeWithin m id c slot) (· < id) := fun c hc slot =>
    endsIn_evalExpr hparts hc hc slot
  have hmember (index : NodeId) : (p.evalIndexMember m index).EndsIn
      (p.indexMemberStep? m (p.exprType m) index) (· < index) :=
    endsIn_evalIndexMember (hexact index) (hparts index)
  refine ⟨fun expr slot => ends_evalExprWithin hparts (expr + 1) (Nat.lt_succ_self expr) slot,
    fun call => endsIn_evalCall (hexact call) (hparts call), ?_, ?_, ?_, hmember, ?_, ?_⟩
  · intro index base key colon hn
    have h := endsIn_evalIndex (hwithin index) hn (hparts index)
    rwa [show p.indexStep m _ base key = p.exprType m index 0 by
      rw [exprType, exprTypeWithin, typeStep, hn]; rfl] at h
  · intro binary op lhs rhs hn
    have h := endsIn_evalBinary (hwithin binary) hn (hparts binary)
    rwa [show p.binaryStep _ op lhs rhs = p.exprType m binary 0 by
      rw [exprType, exprTypeWithin, typeStep, hn]; rfl] at h
  · intro unary op operand hn
    have h := endsIn_evalUnary (hwithin unary) hn (hparts unary)
    rwa [show p.unaryStep _ op operand = p.exprType m unary 0 by
      rw [exprType, exprTypeWithin, typeStep, hn]; rfl] at h
  · intro node
    exact endsIn_evalDeclaration fun index hindex =>
      (hmember index).mono fun e he => ⟨index, hindex, he⟩
  · intro node name hn
    exact (endsIn_evalDeclaration_nameExpr hn (p.exprType m)).ends_nil

/-- `---@alias A B` and `---@alias B A` above `local t`, then `k = t[k]` -/
def keyOfItself : SyntaxTree :=
  .ofSketch 0 (some (.block [.node (.comment [.aliasTag "A" "B", .aliasTag "B" "A"]),
    .declare ["t"] [], .node (.assignStat [.var "k"] [.bracket (.var "t") (.var "k")])]))

/-- The index expression `t[k]` has the id 12. Its base has a type that only leads back to itself, and
its key is the name that the expression is assigned to. -/
theorem evaluation_ends_keyOfItself :
    let p := (Compilation.ofUpdate [keyOfItself]).project
    let m := (keyOfItself.analyse {} 0 1).model
    m.tree.node? 12 = some (.indexExpr (some 10) (some 11) false) ∧
      (∃ below, (p.evalExpr m 12 0).Ends (p.exprType m 12 0) (12 :: below) ∧
        ∀ e ∈ below, e < 12) ∧
      p.declaration? m 11 = some ⟨0, 1, 3⟩ ∧
      (p.evalDeclaration m 11).Ends (p.declaration? m 11) [] := by
  intro p m
  have hproper : keyOfItself.Proper := SyntaxTree.proper_ofSketch 0 _ (by decide)
  -- Stated of any proper tree, so that the tree at hand is not unfolded.
  have hparts (t : SyntaxTree) (ht : t.Proper) : ∀ id n,
      (t.analyse {} 0 1).model.tree.node? id = some n → ∀ c ∈ n.children, c < id :=
    fun _ _ hn _ hc => ht.child_lt (SyntaxTree.part_mem_children hn hc)
  have hindex : m.tree.node? 12 = some (.indexExpr (some 10) (some 11) false) := by decide +kernel
  have hkey : m.tree.node? 11 = some (.nameExpr "k") := by decide +kernel
  have hself : p.declaration? m 11 = some ⟨0, 1, 3⟩ := by decide +kernel
  obtain ⟨hexpr, -, -, -, -, -, -, hname⟩ := evaluation_ends p m (hparts _ hproper)
  clear_value p m
  exact ⟨hindex, hexpr 12 0, hself, hname 11 "k" hkey⟩

end Project

end LuaAnalysis
