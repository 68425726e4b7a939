import LuaAnalysis.Proofs.Project.Alike
import LuaAnalysis.Proofs.Project.Refers
import LuaAnalysis.Proofs.Syntax.Region

/-!
# What the type of an expression depends on

The type of an expression follows from the types of the declarations that it names, from the members
that it selects with their types, and from the returns of the closures that it calls. One step of
evaluation gives one type in two projects that know the same names and agree in these, and so do all
steps in two alike projects.

Main statements: `Project.typeStep_congr`, `Project.exprType_eq`, `Project.exprType_congr`.
-/

namespace LuaAnalysis

/-- A name expression that is the key of an index expression stands between brackets, and selects no
field by a text. -/
theorem SyntaxTree.memberAccess?_nameExpr {t : SyntaxTree} {x index : NodeId} {name : String}
    (hx : t.node? x = some (.nameExpr name)) (h : t.memberAccess? x = some index) :
    ∃ base key colon, t.node? index = some (.indexExpr base key colon) ∧
      key.bind t.keyText? = none := by
  unfold memberAccess? at h
  rw [hx] at h
  dsimp only at h
  split at h
  · split at h
    · next base key colon hindex =>
      split at h
      · next hkey =>
        obtain rfl := Option.some.inj h
        refine ⟨base, key, colon, hindex, ?_⟩
        rw [hkey, Option.bind_some, keyText?, hx]
      · cases h
    · cases h
  · cases h

namespace Project

/-- The declaration that a name expression refers to. It does not depend on any type. -/
def named? (p : Project) (m : FileModel) (x : NodeId) : Option DeclRef :=
  match m.anchored? x with
  | some id => some (m.ref id)
  | none =>
    match m.tree.node? x with
    | some (.nameExpr name) => ((m.find? x name).map m.ref).or (p.global? name m.source)
    | _ => none

variable {p q : Project} {m m' : FileModel}

theorem declarationStep?_nameExpr {x : NodeId} {name : String}
    (hx : m.tree.node? x = some (.nameExpr name)) (typeOf : NodeId → Nat → Ty) :
    p.declarationStep? m typeOf x = p.named? m x := by
  have hnone : (m.tree.memberAccess? x).bind (p.indexMemberStep? m typeOf) = none := by
    cases haccess : m.tree.memberAccess? x with
    | none => rfl
    | some index =>
      obtain ⟨base, key, colon, hindex, hkey⟩ := SyntaxTree.memberAccess?_nameExpr hx haccess
      rw [Option.bind_some, indexMemberStep?, hindex]
      dsimp only
      rw [hkey]
  unfold declarationStep? named?
  cases m.anchored? x <;> simp only [hnone, hx]

theorem named?_congr (h : p.index.SameNames q.index) (hm : m.SameButTypes m') (x : NodeId) :
    q.named? m' x = p.named? m x := by
  have href : m'.ref = m.ref := funext hm.ref
  unfold named?
  rw [hm.anchored?, href, hm.tree, hm.source]
  split
  · rfl
  · split
    · rw [hm.find?, Lookup.global?_congr h]
    · rfl

theorem named?_alike (h : p.index.Alike q.index) (hm : m.Alike m') (x : NodeId) :
    q.named? m' x = p.named? m x :=
  named?_congr h.sameNames hm.sameButTypes x

/-! ## One step -/

/-- What one step of evaluation asks two projects for, and where they agree. -/
structure StepAgrees (p q : Project) (m m' : FileModel) (typeOf : NodeId → Nat → Ty)
    (expr : NodeId) : Prop where
  name : ∀ {name : String} {ref : DeclRef}, m.tree.node? expr = some (.nameExpr name) →
    p.named? m expr = some ref → p.declType ref = q.declType ref
  field : ∀ {base : NodeId} {key : Option NodeId} {colon : Bool} {name : String},
    m.tree.node? expr = some (.indexExpr (some base) key colon) →
      key.bind m.tree.keyText? = some name →
        p.memberOfType? (typeOf base 0) name = q.memberOfType? (typeOf base 0) name ∧
          ∀ ref, p.memberOfType? (typeOf base 0) name = some ref → p.declType ref = q.declType ref
  call : ∀ {callee : NodeId} {args : List NodeId} {closure : SyntaxId},
    m.tree.node? expr = some (.callExpr (some callee) args) → typeOf callee 0 = .method closure →
      p.closureResult m closure = q.closureResult m' closure

theorem StepAgrees.refl (p : Project) (m : FileModel) (typeOf : NodeId → Nat → Ty)
    (expr : NodeId) : StepAgrees p p m m typeOf expr :=
  ⟨fun _ _ => rfl, fun _ _ => ⟨rfl, fun _ _ => rfl⟩, fun _ _ => rfl⟩

section
variable (h : p.index.SameNames q.index) (hdepth : p.maxSuperDepth = q.maxSuperDepth)
  (hm : m.SameButTypes m') {typeOf typeOf' : NodeId → Nat → Ty} {expr : NodeId}
  (hagrees : StepAgrees p q m m' typeOf expr)
  (hparts : ∀ c ∈ m.tree.evaluated expr, ∀ slot, typeOf c slot = typeOf' c slot)

theorem partType_congr {part : Option NodeId}
    (hpart : ∀ c ∈ part, ∀ slot, typeOf c slot = typeOf' c slot) :
    partType typeOf part = partType typeOf' part := by
  cases part with
  | none => rfl
  | some c =>
    have hc : typeOf c 0 = typeOf' c 0 := hpart c rfl 0
    rw [partType, partType, Option.map_some, Option.map_some, hc]

include hm hagrees hparts in
theorem callStep_congr {callee : Option NodeId} {args : List NodeId}
    (hn : m.tree.node? expr = some (.callExpr callee args)) :
    p.callStep m typeOf expr = q.callStep m' typeOf' expr := by
  unfold callStep
  rw [hm.tree, hn]
  cases callee with
  | none => rfl
  | some callee =>
    have hc : callee ∈ m.tree.evaluated expr :=
      SyntaxTree.mem_evaluated hn (by simp) (by simp [Node.children])
    dsimp only
    rw [← hparts callee hc 0]
    split
    · next closure hclosure => exact hagrees.call hn hclosure
    · rfl
    · rfl

include h hdepth hm hagrees hparts in
theorem indexStep_congr {base key : Option NodeId} {colon : Bool}
    (hn : m.tree.node? expr = some (.indexExpr base key colon)) :
    p.indexStep m typeOf base key = q.indexStep m' typeOf' base key := by
  have hpart {c : NodeId} (hc : c ∈ base.toList ++ key.toList) (slot : Nat) :
      typeOf c slot = typeOf' c slot :=
    hparts c (SyntaxTree.mem_evaluated hn (by simp) (by simpa [Node.children] using hc)) slot
  cases base with
  | none => rfl
  | some base =>
    have hbase : typeOf base 0 = typeOf' base 0 := hpart (by simp) 0
    -- The type of an element, if no member is selected.
    have helement : p.elementStep m typeOf (typeOf base 0) key =
        q.elementStep m' typeOf' (typeOf base 0) key := by
      have hkey : keyType m typeOf key = keyType m' typeOf' key := by
        unfold keyType
        cases key with
        | none => rfl
        | some key =>
          dsimp only
          rw [hm.tree, hpart (c := key) (by simp) 0]
      unfold elementStep
      rw [hkey]
      split
      · rfl
      · rfl
      · rw [overloadResult?_congr h hdepth]
    unfold indexStep
    dsimp only
    rw [hm.tree, ← hbase]
    cases hname : key.bind m.tree.keyText? with
    | none => exact helement
    | some name =>
      obtain ⟨hsame, htype⟩ := hagrees.field hn hname
      rw [Option.bind_some, Option.bind_some, ← hsame]
      cases hmember : p.memberOfType? (typeOf base 0) name with
      | none => exact helement
      | some ref => exact htype ref hmember

include h hdepth in
theorem binaryStep_congr {op : BinaryOp} {lhs rhs : Option NodeId}
    (hlhs : partType typeOf lhs = partType typeOf' lhs)
    (hrhs : partType typeOf rhs = partType typeOf' rhs) :
    p.binaryStep typeOf op lhs rhs = q.binaryStep typeOf' op lhs rhs := by
  unfold binaryStep
  rw [hlhs, hrhs]
  dsimp only
  split
  · rfl
  · rw [overloadResult?_congr h hdepth]

include h hdepth in
theorem unaryStep_congr {op : UnaryOp} {operand : Option NodeId}
    (hoperand : partType typeOf operand = partType typeOf' operand) :
    p.unaryStep typeOf op operand = q.unaryStep typeOf' op operand := by
  unfold unaryStep
  rw [hoperand]
  dsimp only
  split
  · rfl
  · rw [overloadResult?_congr h hdepth]

include h hdepth hm hagrees hparts in
/-- One step gives one type, when the two projects agree in what it asks for. -/
theorem typeStep_congr (slot : Nat) :
    p.typeStep m typeOf expr slot = q.typeStep m' typeOf' expr slot := by
  -- The parts of a closure are not evaluated with it, so they need not have equal types.
  have hpart {n : Node NodeId} (hn : m.tree.node? expr = some n)
      (hclosure : ∀ params body, n ≠ .closureExpr params body) {part : Option NodeId}
      (hsub : ∀ c ∈ part, c ∈ n.children) : partType typeOf part = partType typeOf' part :=
    partType_congr fun c hc => hparts c (SyntaxTree.mem_evaluated hn hclosure (hsub c hc))
  unfold typeStep
  rw [hm.tree]
  cases hn : m.tree.node? expr with
  | none => rfl
  | some n =>
    cases n with
    | callExpr callee args => exact congrArg (·.slot slot) (callStep_congr hm hagrees hparts hn)
    | nameExpr name =>
      dsimp only
      have hname : ((p.declarationStep? m typeOf expr).map p.declType).getD .unknown =
          ((q.declarationStep? m' typeOf' expr).map q.declType).getD .unknown := by
        rw [declarationStep?_nameExpr hn, declarationStep?_nameExpr (hm.tree ▸ hn),
          named?_congr h hm]
        cases href : p.named? m expr with
        | none => rfl
        | some ref => exact hagrees.name hn href
      rw [hname]
    | indexExpr base key colon =>
      dsimp only
      rw [indexStep_congr h hdepth hm hagrees hparts hn]
    | parenExpr inner =>
      dsimp only
      have hinner : partType typeOf inner = partType typeOf' inner :=
        hpart hn (by simp) (by simp [Node.children])
      rw [hinner]
    | binaryExpr op lhs rhs =>
      dsimp only
      rw [binaryStep_congr h hdepth
        (hpart hn (by simp) fun c hc => by simp [Node.children, Option.mem_def.1 hc])
        (hpart hn (by simp) fun c hc => by simp [Node.children, Option.mem_def.1 hc])]
    | unaryExpr op operand =>
      dsimp only
      rw [unaryStep_congr h hdepth
        (hpart hn (by simp) fun c hc => by simp [Node.children, Option.mem_def.1 hc])]
    | _ => rfl

end

/-! ## All steps -/

theorem exprTypeWithin_stable (h : m.tree.Proper) (k l : Nat) (expr : NodeId) (hk : expr < k)
    (hl : expr < l) (slot : Nat) :
    p.exprTypeWithin m k expr slot = p.exprTypeWithin m l expr slot := by
  refine congrFun (SyntaxTree.levels_stable (f := p.exprTypeWithin m)
    (fun k l expr hsame => ?_) hk hl) slot
  funext slot
  refine typeStep_congr (.refl p.index) rfl (.refl m)
    (StepAgrees.refl p m _ expr) (fun c hc slot => ?_) slot
  exact congrFun (hsame c (h.child_lt (SyntaxTree.evaluated_subset m.tree expr hc))) slot

/-- The type of an expression is one step from the types of its parts. -/
theorem exprType_eq (h : m.tree.Proper) (expr : NodeId) (slot : Nat) :
    p.exprType m expr slot = p.typeStep m (p.exprType m) expr slot := by
  refine typeStep_congr (.refl p.index) rfl (.refl m)
    (StepAgrees.refl p m _ expr) (fun c hc slot => ?_) slot
  exact exprTypeWithin_stable h expr (c + 1) c
    (h.child_lt (SyntaxTree.evaluated_subset m.tree expr hc)) (Nat.lt_succ_self c) slot

/-- Two projects that agree in what the evaluation of some nodes asks for. -/
structure Agrees (p q : Project) (m m' : FileModel) (region : List NodeId) : Prop where
  name : ∀ {x : NodeId} {name : String} {ref : DeclRef}, x ∈ region →
    m.tree.node? x = some (.nameExpr name) → p.named? m x = some ref →
      p.declType ref = q.declType ref
  field : ∀ {x base : NodeId} {key : Option NodeId} {colon : Bool} {name : String}, x ∈ region →
    m.tree.node? x = some (.indexExpr (some base) key colon) →
      key.bind m.tree.keyText? = some name →
        p.memberOfType? (p.exprType m base 0) name = q.memberOfType? (p.exprType m base 0) name ∧
          ∀ ref, p.memberOfType? (p.exprType m base 0) name = some ref →
            p.declType ref = q.declType ref
  call : ∀ {x callee : NodeId} {args : List NodeId} {closure : SyntaxId}, x ∈ region →
    m.tree.node? x = some (.callExpr (some callee) args) →
      p.exprType m callee 0 = .method closure → q.exprType m' callee 0 = .method closure →
        p.closureResult m closure = q.closureResult m' closure

section
variable (h : p.index.Alike q.index) (hdepth : p.maxSuperDepth = q.maxSuperDepth)
  (hm : m.Alike m') (hproper : m.tree.Proper) {root : NodeId}
  (hagrees : Agrees p q m m' (m.tree.outsideClosures root))
include h hdepth hm hproper hagrees

/-- An expression has the same type in both projects. -/
theorem exprType_congr {expr : NodeId} (hexpr : expr ∈ m.tree.outsideClosures root) (slot : Nat) :
    p.exprType m expr slot = q.exprType m' expr slot := by
  induction expr using Nat.strongRecOn generalizing slot with
  | _ expr ih =>
    have hproper' : m'.tree.Proper := hm.tree ▸ hproper
    have hparts : ∀ c ∈ m.tree.evaluated expr, ∀ slot, p.exprType m c slot = q.exprType m' c slot :=
      fun c hc => ih c (hproper.child_lt (SyntaxTree.evaluated_subset m.tree expr hc))
        (SyntaxTree.child_mem_outsideClosures hproper hexpr hc)
    rw [exprType_eq hproper, exprType_eq hproper']
    refine typeStep_congr h.sameNames hdepth hm.sameButTypes
      ⟨hagrees.name hexpr, hagrees.field hexpr, ?_⟩ hparts slot
    intro callee args closure hn hclosure
    -- The callee has been evaluated alike, so both call the same closure.
    have hc : callee ∈ m.tree.evaluated expr :=
      SyntaxTree.mem_evaluated hn (by simp) (by simp [Node.children])
    exact hagrees.call hexpr hn hclosure (hparts callee hc 0 ▸ hclosure)

end

end Project

end LuaAnalysis
