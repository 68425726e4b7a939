import LuaAnalysis.Proofs.Resolve.Calls
import LuaAnalysis.Proofs.Resolve.TaskTable

/-!
# What an expression mentions

The mentions of an expression are read off its syntax, and nothing inside a closure counts. They
cover every declaration whose type goes into the type of the expression: a name that it evaluates is
among its names, and a member that it selects, from whatever owner, has one of its keys. So the
expression has the same type in two states of a project that differ only in the types of other
declarations. The dependencies between tasks rest on this, as far as types are concerned: members
that are linked and returns that are found out make states that differ in more.

Main statement: `Project.exprType_of_mentioned`.
-/

namespace LuaAnalysis.Project

/-- Whether an expression mentions a declaration: one of its names refers to the declaration, or it
selects a field of the declaration's name. -/
def Mentioned (p : Project) (m : FileModel) (expr : NodeId) (ref : DeclRef) : Prop :=
  (∃ x ∈ (m.tree.mentions expr).names, p.declaration? m x = some ref) ∨
    ∃ owner d, p.index.decl? ref = some (owner, d) ∧ d.name ∈ (m.tree.mentions expr).keys

/-! ## States that differ in types -/

/-- One analysis of a file in two states of a project. The types of its declarations may differ, the
returns of its closures do not. -/
structure SameReturns (p q : Project) (m m' : FileModel) : Prop extends m.SameButTypes m' where
  inferred : ∀ closure, p.findings.inferred? m closure = q.findings.inferred? m' closure

/-- Two states of a project that differ in nothing but the types of declarations: the analyses of
their files have the same syntax and the same returns, and whatever is looked up in their entries is
the same. -/
structure SameButTypes (p q : Project) : Prop where
  files : ∀ source, Option.Rel (SameReturns p q) (p.index.model? source) (q.index.model? source)
  globals : ∀ name, p.index.globals name = q.index.globals name
  members : ∀ owner, p.index.members owner = q.index.members owner
  aliases : ∀ name, p.index.aliases name = q.index.aliases name
  supers : ∀ name, p.index.supers name = q.index.supers name
  operators : ∀ owner, p.index.operators owner = q.index.operators owner
  depth : p.maxSuperDepth = q.maxSuperDepth

variable {p q : Project} {m m' : FileModel}

theorem SameReturns.of_returns (hreturns : p.findings.returns = q.findings.returns)
    (m : FileModel) : SameReturns p q m m :=
  { toSameButTypes := .refl m
    inferred := fun closure => congrArg (·.get? (m.revision, closure)) hreturns }

/-- The findings may differ in types. -/
theorem SameButTypes.of_index (hindex : p.index = q.index)
    (hdepth : p.maxSuperDepth = q.maxSuperDepth)
    (hreturns : p.findings.returns = q.findings.returns) : p.SameButTypes q := by
  refine ⟨fun source => ?_, ?_, ?_, ?_, ?_, ?_, hdepth⟩
  · rw [← hindex]
    cases p.index.model? source with
    | none => exact .none
    | some m => exact .some (.of_returns hreturns m)
  all_goals
    rw [hindex]
    exact fun _ => rfl

namespace SameButTypes

variable (h : p.SameButTypes q)
include h

theorem decl? (ref : DeclRef) : Option.Rel (fun x y => x.2.untyped = y.2.untyped)
    (p.index.decl? ref) (q.index.decl? ref) := by
  have hmodel := h.files ref.source
  unfold ProjectIndex.decl?
  generalize p.index.model? ref.source = found at hmodel
  generalize q.index.model? ref.source = found' at hmodel
  cases hmodel with
  | none => exact .none
  | @some m m' hm =>
    dsimp only
    rw [hm.generation]
    split
    · have hdecl := hm.decl? ref.decl
      generalize m.decl? ref.decl = d at hdecl
      generalize m'.decl? ref.decl = d' at hdecl
      cases hdecl with
      | none => exact .none
      | some hd => exact .some hd
    · exact .none

theorem sameNames : p.index.SameNames q.index :=
  ⟨h.decl?, h.globals, h.aliases, h.supers, h.operators⟩

theorem directMember? (owner : Owner) (name : String) :
    p.directMember? owner name = q.directMember? owner name :=
  Lookup.directMember?_of_members h.sameNames (h.members owner) name

/-- A call gives the same in both states: it reads the returns of the closure, and no type of what
the closure declares or names. -/
theorem closureResult (hm : SameReturns p q m m') (closure : SyntaxId) :
    p.closureResult m closure = q.closureResult m' closure := by
  have hreturn {m m' : FileModel} (hm : SameReturns p q m m') :
      p.findings.returnType? m closure.node = q.findings.returnType? m' closure.node := by
    rw [Findings.returnType?, Findings.returnType?, hm.method?, hm.inferred]
  unfold Project.closureResult
  rw [hm.source]
  dsimp only
  split
  · rw [Option.bind_some, Option.bind_some, hreturn hm]
  · have hmodel := h.files closure.source
    generalize p.index.model? closure.source = found at hmodel
    generalize q.index.model? closure.source = found' at hmodel
    cases hmodel with
    | none => rfl
    | some hm => rw [Option.bind_some, Option.bind_some, hreturn hm]

end SameButTypes

/-! ## Evaluation -/

section
variable (h : p.SameButTypes q) (hm : SameReturns p q m m') {root : NodeId}
  (htypes : ∀ ref, p.Mentioned m root ref → p.declType ref = q.declType ref)
include h hm htypes

/-- What one step of evaluation asks for is mentioned, or it is no type of a declaration. -/
theorem stepAgrees_of_mentioned {expr : NodeId} (hexpr : expr ∈ m.tree.outsideClosures root)
    (typeOf : NodeId → Nat → Ty) : StepAgrees p q m m' typeOf expr where
  name := by
    intro name ref hn href
    refine htypes ref (.inl ⟨expr, SyntaxTree.mem_names_mentions hexpr hn, ?_⟩)
    rw [declaration?, declarationStep?_nameExpr hn, href]
  field := by
    intro base key colon name hn hname
    refine ⟨memberOfType?_congr h.sameNames h.depth (h.directMember? · name) _, fun ref href => ?_⟩
    -- Whichever owner has the member, it has the name that is mentioned as a key.
    obtain ⟨owner, hdirect⟩ := directMember?_of_memberOfType? href
    obtain ⟨owner, d, hd, rfl⟩ := Lookup.decl?_of_directMember? hdirect
    exact htypes ref (.inr ⟨owner, d, hd, SyntaxTree.mem_keys_mentions hexpr hn hname⟩)
  call := fun _ _ => h.closureResult hm _

/-- The induction is on the levels, so it needs no order among the ids of the tree: evaluation and
the collecting of mentions go down the same way. -/
theorem exprTypeWithin_of_mentioned (levels : Nat) {expr : NodeId}
    (hexpr : m.tree.outsideClosuresWithin levels expr ⊆ m.tree.outsideClosures root) (slot : Nat) :
    p.exprTypeWithin m levels expr slot = q.exprTypeWithin m' levels expr slot := by
  induction levels generalizing expr slot with
  | zero => rfl
  | succ levels ih =>
    rw [SyntaxTree.outsideClosuresWithin_succ, List.cons_subset] at hexpr
    obtain ⟨hself, hparts⟩ := hexpr
    refine typeStep_congr h.sameNames h.depth hm.toSameButTypes
      (stepAgrees_of_mentioned h hm htypes hself _) (fun c hc slot => ?_) slot
    exact ih (fun x hx => hparts (List.mem_flatMap.2 ⟨c, hc, hx⟩)) slot

end

/-- An expression has the same type in two states of a project that differ in nothing but the types
of declarations that it does not mention. -/
theorem exprType_of_mentioned (h : p.SameButTypes q) (hm : SameReturns p q m m') (expr : NodeId)
    (htypes : ∀ ref, p.Mentioned m expr ref → p.declType ref = q.declType ref) (slot : Nat) :
    p.exprType m expr slot = q.exprType m' expr slot :=
  exprTypeWithin_of_mentioned h hm htypes (expr + 1) (List.Subset.refl _) slot

/-- `function f() return {x = 1} end`, `local u = f().x` and `local v = u .. "s"` -/
def callsForField : SyntaxTree :=
  .ofSketch 0 (some (.block [
    .function (.var "f") []
      [.node (.returnStat [.node (.tableExpr [.entry (.name "x") (.literal (.integer 1))])])],
    .declare ["u"] [.member (.call (.var "f") []) "x" false],
    .declare ["v"] [.binary .concat (.var "u") (.literal (.string "s"))]]))

/-- The states after four of the six tasks and after all of them. Only the types of `u` and `v` are
found out in between; `f().x`, the node 13, mentions `f` and the key `x`. -/
theorem exprType_callsForField :
    let trees := [callsForField]
    let events := (published trees).resolveEvents (pendingFiles trees)
    let p := (events.take 4).foldl TaskEvent.apply (published trees)
    let q := events.foldl TaskEvent.apply (published trees)
    let m := (callsForField.analyse {} 0 1).model
    p.declType ⟨0, 1, 2⟩ = .unknown ∧ q.declType ⟨0, 1, 2⟩ = .integer ∧
      p.declType ⟨0, 1, 3⟩ = .unknown ∧ q.declType ⟨0, 1, 3⟩ = .string ∧
      p.exprType m 13 0 = .integer ∧ q.exprType m 13 0 = .integer := by
  intro trees events p q m
  have hindex : p.index = q.index := by decide +kernel
  have hdepth : p.maxSuperDepth = q.maxSuperDepth := by decide +kernel
  have hreturns : p.findings.returns = q.findings.returns := by decide +kernel
  have htypes : ∀ ref, p.Mentioned m 13 ref → p.declType ref = q.declType ref := by
    rintro ref (⟨x, hx, href⟩ | ⟨owner, d, hd, hkey⟩)
    · have hnames : ∀ x ∈ (m.tree.mentions 13).names, ∀ ref ∈ p.declaration? m x,
          p.declType ref = q.declType ref := by decide +kernel
      exact hnames x hx ref href
    · have hfiles : ∀ f ∈ p.index.files, ∀ i < f.model.decls.size, ∀ d ∈ f.model.decl? i,
          d.name ∈ (m.tree.mentions 13).keys →
            p.declType (f.model.ref i) = q.declType (f.model.ref i) := by decide +kernel
      have hsorted : p.index.Sorted := by
        unfold ProjectIndex.Sorted
        decide +kernel
      obtain ⟨f, hf, rfl, href, hdecl⟩ := (ProjectIndex.decl?_eq_some hsorted).1 hd
      have hsize : ref.decl < f.model.decls.size := (Array.getElem?_eq_some_iff.1 hdecl).1
      rw [href]
      exact hfiles f hf ref.decl hsize d hdecl hkey
  have hinteger : p.exprType m 13 0 = .integer := by decide +kernel
  have hsame := exprType_of_mentioned (.of_index hindex hdepth hreturns) (.of_returns hreturns m) 13
    htypes 0
  exact ⟨by decide +kernel, by decide +kernel, by decide +kernel, by decide +kernel, hinteger,
    hsame ▸ hinteger⟩

end LuaAnalysis.Project
