import LuaAnalysis.Proofs.Project.Evaluation
import LuaAnalysis.Proofs.Resolve.FoundTypes
import LuaAnalysis.Proofs.Types.WellFormed

/-!
# The values of calls

A call gives the returns of the function that it calls. The type of the call packs them into one
type: none as `nil`, one as it is, several as a tuple; and a position is read off the packed type. As
no return is itself a tuple, packing loses nothing, and positions and lists of values can be said by
the returns alone (`Ty.returnAt`, `Ty.returnList`).

Main statements: `Project.exprType_eq_valueIn`, `Project.valuesOf_eq`.
-/

namespace LuaAnalysis

/-! ## Packed returns -/

namespace Ty

/-- What a function with some returns gives in a position, past its last return `nil`. Returns that
are not known say nothing about any position, and neither does a single return that is unknown or
may be anything. -/
def returnAt : Option (List Ty) → Nat → Ty
  | none, _ => unknown
  | some [unknown], _ => unknown
  | some [any], _ => any
  | some returns, i => returns.getD i nil

/-- All that a function with some returns gives. A function without returns gives a `nil`. -/
def returnList : Option (List Ty) → List Ty
  | none => [unknown]
  | some [] => [nil]
  | some returns => returns

variable {returns : Option (List Ty)}

theorem slot_packed (h : ∀ ts ∈ returns, ∀ t ∈ ts, t.WellFormed) (i : Nat) :
    ((returns.map ofReturns).getD unknown).slot i = returnAt returns i := by
  match returns with
  | none => rfl
  | some [] => cases i <;> rfl
  | some [t] =>
    have ht : t.WellFormed := h _ rfl t List.mem_cons_self
    cases t with
    | tuple ts => exact absurd ht not_wellFormed_tuple
    | _ => cases i <;> rfl
  | some (_ :: _ :: _) => simp [returnAt, ofReturns, slot]

theorem values_packed (h : ∀ ts ∈ returns, ∀ t ∈ ts, t.WellFormed) :
    ((returns.map ofReturns).getD unknown).values = returnList returns := by
  match returns with
  | none => rfl
  | some [] => rfl
  | some [t] =>
    have ht : t.WellFormed := h _ rfl t List.mem_cons_self
    cases t with
    | tuple ts => exact absurd ht not_wellFormed_tuple
    | _ => rfl
  | some (_ :: _ :: _) => rfl

end Ty

/-! ## The returns of a callee -/

namespace Project

/-- The returns of a function of some type, as far as they are known: those that are declared or have
been found out for a closure, or those of a written signature. -/
def returnsOf? (p : Project) : Ty → Option (List Ty)
  | .method closure =>
    (p.index.model? closure.source).bind fun m =>
      (m.method? closure.node).bind fun method => method.returns? (p.findings.inferred? m closure.node)
  | .signature s => some s.returns
  | _ => none

/-- The returns of the function that a call calls. -/
def calleeReturns? (p : Project) (m : FileModel) (call : NodeId) : Option (List Ty) :=
  match m.tree.node? call with
  | some (.callExpr (some callee) _) => p.returnsOf? (p.exprType m callee 0)
  | _ => none

variable {p : Project} {f : PublishedFile}

theorem closureResult_eq (hsorted : p.index.Sorted) (hf : f ∈ p.index.files) (closure : SyntaxId) :
    p.closureResult f.model closure =
      ((p.returnsOf? (.method closure)).map Ty.ofReturns).getD .unknown := by
  -- The file itself is found under its source as any other file is.
  have howner : (if closure.source = f.model.source then some f.model
      else p.index.model? closure.source) = p.index.model? closure.source := by
    split
    · next hsource =>
      have hfile : p.index.file? f.model.source = some f :=
        (ProjectIndex.file?_eq_some hsorted).2 ⟨hf, rfl⟩
      rw [ProjectIndex.model?, hsource, hfile, Option.map_some]
    · rfl
  unfold closureResult returnsOf?
  dsimp only
  rw [howner]
  cases p.index.model? closure.source with
  | none => rfl
  | some m =>
    rw [Option.bind_some, Option.bind_some, Findings.returnType?]
    cases m.method? closure.node <;> rfl

theorem callType_eq (hsorted : p.index.Sorted) (hf : f ∈ p.index.files) (call : NodeId) :
    p.callType f.model call =
      ((p.calleeReturns? f.model call).map Ty.ofReturns).getD .unknown := by
  unfold callType callStep calleeReturns?
  cases f.model.tree.node? call with
  | none => rfl
  | some n =>
    cases n with
    | callExpr callee args =>
      cases callee with
      | none => rfl
      | some callee =>
        dsimp only
        cases p.exprType f.model callee 0 with
        | method closure => exact closureResult_eq hsorted hf closure
        | _ => rfl
    | _ => rfl

/-- Returns are stored, or they are part of a type. -/
theorem AllTypes.calleeReturns {P : Ty → Prop} (h : p.AllTypes P) (hf : f ∈ p.index.files)
    (call : NodeId) : ∀ returns ∈ p.calleeReturns? f.model call, ∀ type ∈ returns, P type := by
  intro returns hreturns
  unfold calleeReturns? at hreturns
  split at hreturns
  · next callee _ _ =>
    have hcallee : P (p.exprType f.model callee 0) := h.exprType (List.mem_map_of_mem hf) callee 0
    unfold returnsOf? at hreturns
    split at hreturns
    · next closure _ =>
      obtain ⟨m, hm, hreturns⟩ := Option.bind_eq_some_iff.1 hreturns
      obtain ⟨method, hmethod, hreturns⟩ := Option.bind_eq_some_iff.1 hreturns
      obtain ⟨g, hg, rfl⟩ := ProjectIndex.file_of_model? hm
      have hmem : method ∈ g.model.methods := List.mem_of_find?_eq_some hmethod
      intro type htype
      unfold Method.returns? at hreturns
      split at hreturns
      · cases hreturns
        exact h.stored g hg type (.method hmem (List.mem_append_right _ htype))
      · exact h.stored g hg type (.returned hreturns htype)
    · next s hs =>
      cases hreturns
      rw [hs] at hcallee
      exact (h.closed.signature.1 hcallee).2
    · cases hreturns
  · cases hreturns

/-! ## Values of expressions -/

/-- One of the values of an expression. Only a call has more than one; a vararg expression is unknown
in every position. -/
def valueIn (p : Project) (m : FileModel) (expr : NodeId) (i : Nat) : Ty :=
  match m.tree.node? expr with
  | some (.callExpr ..) => .returnAt (p.calleeReturns? m expr) i
  | some .varArgExpr => .unknown
  | _ => if i = 0 then p.exprType m expr 0 else .nil

/-- All the values of a list of expressions: the first value of each but the last, then that of the
last, or all of its values if it is a call. -/
def valueList (p : Project) (m : FileModel) (exprs : List NodeId) : List Ty :=
  match exprs.getLast? with
  | none => []
  | some last =>
    exprs.dropLast.map (p.exprType m · 0) ++
      match m.tree.node? last with
      | some (.callExpr ..) => Ty.returnList (p.calleeReturns? m last)
      | _ => [p.exprType m last 0]

/-- Past its first value an expression is `nil`, if it is no call and not unknown throughout. -/
theorem exprType_past_first {m : FileModel} {expr : NodeId} {n : Node NodeId}
    (hn : m.tree.node? expr = some n) (hexpr : n.isExpr = true)
    (hcall : ∀ callee args, n ≠ .callExpr callee args) (hvararg : n ≠ .varArgExpr) {i : Nat}
    (hi : 0 < i) : p.exprType m expr i = .nil := by
  rw [exprType, exprTypeWithin, typeStep, hn]
  split
  · next heq => exact absurd (Option.some.inj heq) hvararg
  · next heq => exact absurd (Option.some.inj heq) (hcall _ _)
  · next heq =>
    obtain rfl := Option.some.inj heq
    rw [if_neg (by simp [hexpr]), if_pos hi]
  · next heq => cases heq

section
variable (h : p.AllTypes Ty.WellFormed) (hsorted : p.index.Sorted) (hf : f ∈ p.index.files)
include h hsorted hf

theorem exprType_eq_valueIn (hproper : f.model.tree.Proper) {expr : NodeId}
    (hexpr : f.model.tree.Is .expr expr) (i : Nat) :
    p.exprType f.model expr i = p.valueIn f.model expr i := by
  obtain ⟨n, hn, hexpr⟩ := hexpr
  unfold valueIn
  rw [hn]
  split
  · next callee args heq =>
    obtain rfl := Option.some.inj heq
    have hstep : p.exprType f.model expr i = (p.callType f.model expr).slot i := by
      rw [exprType_eq hproper, typeStep, hn]
      rfl
    rw [hstep, callType_eq hsorted hf, Ty.slot_packed (h.calleeReturns hf expr)]
  · next heq =>
    obtain rfl := Option.some.inj heq
    rw [exprType, exprTypeWithin, typeStep, hn]
  · next hcall hvararg =>
    split
    · next hi => rw [hi]
    · next hi =>
      exact exprType_past_first hn hexpr (fun callee args heq => hcall callee args (congrArg some heq))
        (fun heq => hvararg (congrArg some heq)) (Nat.pos_of_ne_zero hi)

theorem valuesOf_eq (exprs : List NodeId) :
    p.valuesOf f.model exprs = p.valueList f.model exprs := by
  induction exprs with
  | nil => rfl
  | cons e rest ih =>
    cases rest with
    | nil =>
      -- A call in last position gives all that its packed values stand for.
      have hcall : (p.callType f.model e).values = Ty.returnList (p.calleeReturns? f.model e) := by
        rw [callType_eq hsorted hf, Ty.values_packed (h.calleeReturns hf e)]
      unfold valuesOf valueList
      dsimp only [List.getLast?_singleton]
      cases f.model.tree.node? e with
      | none => rfl
      | some n =>
        cases n with
        | callExpr callee args => exact hcall
        | _ => rfl
    | cons e' rest =>
      unfold valuesOf
      rw [ih]
      unfold valueList
      rw [List.getLast?_cons_cons]
      rfl

end

end Project

end LuaAnalysis
