import LuaAnalysis.Proofs.File.StoredTypes
import LuaAnalysis.Proofs.Resolve.LateTasks

/-!
# The types that tasks find out

A task makes types out of those that the files of the project store already, and out of the tables
and closures of its own tree. So a property that operations on types keep, and that the trees of the
project admit, holds of everything that is stored after any tasks if it did before
(`Project.AllTypes`).

Main statements: `Project.AllTypes.exprType`, `Project.AllTypes.events`.
-/

namespace LuaAnalysis

/-- The types that a published file stores: in its entries, for its declarations, in what is written
about its closures, and in the returns that have been found out for it. -/
inductive PublishedFile.Stores (findings : Findings) (f : PublishedFile) : Ty → Prop where
  | entry {type : Ty} (h : f.entries.Stores type) : Stores findings f type
  | decl {decl : DeclId} {type : Ty} (h : findings.type? f.model decl = some type) :
      Stores findings f type
  | method {m : Method} {type : Ty} (h : m ∈ f.model.methods) (htype : type ∈ m.types) :
      Stores findings f type
  | returned {closure : NodeId} {types : List Ty} {type : Ty}
      (h : findings.inferred? f.model closure = some types) (htype : type ∈ types) :
      Stores findings f type
  | moduleReturned {types : List Ty} {type : Ty}
      (h : findings.moduleReturns.get? f.model.revision = some types) (htype : type ∈ types) :
      Stores findings f type

/-- Before anything is found out, a file stores what its tree admits. -/
theorem PublishedFile.allTypes_of_new {P : Ty → Prop} {t : SyntaxTree} (hP : t.Admits P)
    (ht : t.Proper) {config : Config} {revision : Revision} {generation : Nat}
    {findings : Findings} (hnew : Findings.SameUnder (· = revision) {} findings) {type : Ty}
    (h : Stores findings ⟨(t.analyse config revision generation).model,
      (t.analyse config revision generation).entries⟩ type) : P type := by
  obtain ⟨hwritten, hmethods, hentries⟩ := Outline.allTypes hP config ht
  cases h with
  | entry h => exact hentries type h
  | decl h =>
    rw [hnew.type? rfl] at h
    -- The type is one that is written, as no other is known.
    unfold Findings.type? at h
    split at h
    · next d hd =>
      rw [WriteOnce.get?_empty, Option.or_none] at h
      exact hwritten d (Array.mem_of_getElem? hd) type h
    · cases h
  | method h htype => exact hmethods _ h type htype
  | returned h =>
    rw [hnew.inferred? rfl] at h
    cases h
  | moduleReturned h =>
    have hnone : findings.moduleReturns.get? revision = none := hnew.moduleReturns rfl
    cases hnone.symm.trans h

/-! ## Findings and look-ups -/

/-- A store never gives back anything but what it had or what is put into it. -/
theorem WriteOnce.of_get?_put {κ α : Type} [DecidableEq κ] {w : WriteOnce κ α} {k k' : κ} {a b : α}
    (h : (w.put k a).get? k' = some b) : w.get? k' = some b ∨ b = a := by
  rw [get?_put] at h
  split at h
  · next hk =>
    subst hk
    cases hget : w.get? k' with
    | none =>
      rw [hget, Option.getD_none] at h
      exact .inr (Option.some.inj h).symm
    | some b' =>
      rw [hget, Option.getD_some] at h
      exact .inl h
  · exact .inl h

theorem Findings.of_type?_setType {f : Findings} {m m' : FileModel} {decl i : DeclId} {type t : Ty}
    (h : (f.setType m decl type).type? m' i = some t) : f.type? m' i = some t ∨ t = type := by
  unfold setType at h
  split at h
  · exact .inl h
  · unfold type? at h ⊢
    cases hd : m'.decl? i with
    | none =>
      rw [hd] at h
      cases h
    | some d =>
      rw [hd] at h
      dsimp only at h ⊢
      cases hwritten : d.written with
      | some t' =>
        rw [hwritten] at h
        exact .inl h
      | none =>
        rw [hwritten, Option.none_or] at h
        exact WriteOnce.of_get?_put h

theorem ProjectIndex.file_of_model? {idx : ProjectIndex} {source : SourceId} {m : FileModel}
    (h : idx.model? source = some m) : ∃ f ∈ idx.files, f.model = m := by
  obtain ⟨f, hf, hm⟩ := Option.map_eq_some_iff.1 h
  exact ⟨f, List.mem_of_find?_eq_some hf, hm⟩

theorem ProjectIndex.file_of_decl? {idx : ProjectIndex} {ref : DeclRef} {m : FileModel}
    {d : Declaration} (h : idx.decl? ref = some (m, d)) : ∃ f ∈ idx.files, f.model = m := by
  unfold decl? at h
  split at h
  · next m' hm' =>
    split at h
    · obtain ⟨d', -, heq⟩ := Option.map_eq_some_iff.1 h
      obtain ⟨rfl, -⟩ := Prod.mk.inj heq
      exact file_of_model? hm'
    · cases h
  · cases h

/-! ## Words and joined returns -/

theorem Literal.isWord_type (value : Literal) : value.type.isWord = true := by
  cases value <;> rfl

theorem OperatorKind.isWord_builtinType (kind : OperatorKind) (lhs rhs : Ty) :
    (kind.builtinType lhs rhs).isWord = true := by
  unfold builtinType
  split
  any_goals rfl
  split
  · split
    · rfl
    · split <;> rfl
  · rfl

theorem Ty.Closed.joinReturns {P : Ty → Prop} (h : Closed P) {ts us : List Ty}
    (hts : ∀ t ∈ ts, P t) (hus : ∀ u ∈ us, P u) : ∀ t ∈ joinReturns ts us, P t := by
  induction ts generalizing us with
  | nil => simpa [LuaAnalysis.joinReturns] using hus
  | cons t ts ih =>
    cases us with
    | nil => simpa [LuaAnalysis.joinReturns] using hts
    | cons u us =>
      obtain ⟨ht, hts⟩ := List.forall_mem_cons.1 hts
      obtain ⟨hu, hus⟩ := List.forall_mem_cons.1 hus
      rw [LuaAnalysis.joinReturns]
      exact List.forall_mem_cons.2 ⟨h.join ht hu, ih hts hus⟩

/-- Neither do several members of one owner. -/
theorem Entries.AllTypes.addMembers {P : Ty → Prop} {e : Entries} (h : e.AllTypes P)
    {owner : Owner} (howner : P owner.type) (members : List DeclId) :
    (e.addMembers owner members).AllTypes P := by
  induction members generalizing e with
  | nil => exact h
  | cons member members ih => exact ih (h.addMember howner member)

namespace Project

/-- Every type that the files of a project store has a property, and so have the types of the tables
and closures of its trees; and operations on types keep it. -/
structure AllTypes (P : Ty → Prop) (p : Project) : Prop where
  closed : Ty.Closed P
  own : ∀ m ∈ p.index.models, ∀ {i : Identity}, m.tree.Makes i → P i.type
  stored : ∀ f ∈ p.index.files, ∀ type, f.Stores p.findings type → P type

namespace AllTypes

variable {P : Ty → Prop} {p : Project} {m : FileModel}

/-! ## Look-ups -/

section
variable (h : p.AllTypes P)
include h

theorem declType (ref : DeclRef) : P (p.declType ref) := by
  unfold Project.declType
  split
  · next m d hdecl =>
    obtain ⟨f, hf, rfl⟩ := ProjectIndex.file_of_decl? hdecl
    exact h.closed.getD fun type htype => h.stored f hf type (.decl htype)
  · exact h.closed.unknown

/-- The returns of a closure are declared, or they have been found out. -/
theorem returnType {f : PublishedFile} (hf : f ∈ p.index.files) (closure : NodeId) :
    ∀ a ∈ ((p.findings.returnType? f.model closure).getD .unknown).values, P a := by
  have hunknown := h.closed.values h.closed.unknown
  unfold Findings.returnType?
  cases hmethod : f.model.method? closure with
  | none => exact hunknown
  | some method =>
    have hmem : method ∈ f.model.methods := List.mem_of_find?_eq_some hmethod
    show ∀ a ∈ (method.returnType (p.findings.inferred? f.model closure)).values, P a
    unfold Method.returnType Method.returns?
    split
    · apply h.closed.ofReturns
      exact fun type htype => h.stored f hf type (.method hmem (List.mem_append_right _ htype))
    · cases hinferred : p.findings.inferred? f.model closure with
      | none => exact hunknown
      | some types =>
        apply h.closed.ofReturns
        exact fun type htype => h.stored f hf type (.returned hinferred htype)

theorem closureResult (hm : m ∈ p.index.models) (closure : SyntaxId) :
    ∀ a ∈ (p.closureResult m closure).values, P a := by
  unfold Project.closureResult
  dsimp only
  split
  · obtain ⟨f, hf, rfl⟩ := List.mem_map.1 hm
    exact h.returnType hf closure.node
  · cases hmodel : p.index.model? closure.source with
    | none => exact h.closed.values h.closed.unknown
    | some m' =>
      obtain ⟨f, hf, rfl⟩ := ProjectIndex.file_of_model? hmodel
      exact h.returnType hf closure.node

theorem overloadResult_getD {type other : Ty} {kind : OperatorKind} {operand : Option Ty}
    (hother : P other) : P ((p.overloadResult? type kind operand).getD other) := by
  cases hresult : p.overloadResult? type kind operand with
  | none => exact hother
  | some t =>
    obtain ⟨o, ho, rfl⟩ := Option.map_eq_some_iff.1 hresult
    obtain ⟨owner, -, ho⟩ := List.mem_flatMap.1 (List.mem_of_find?_eq_some ho)
    obtain ⟨f, hf, ho⟩ := List.mem_flatMap.1 ho
    exact h.stored f hf _ (.entry (.result ho))

/-- The owners of a type are tables that it has in it, or that an alias of it has. -/
theorem collectOwners {levels : Nat} {type : Ty} {owners : List Owner}
    (howners : ∀ owner ∈ owners, P owner.type) (htype : P type) :
    ∀ owner ∈ p.collectOwners levels type owners, P owner.type := by
  induction levels generalizing type owners with
  | zero => exact howners
  | succ levels ih =>
    have hfold {α : Type} (toType : α → Ty) (xs : List α) (hxs : ∀ x ∈ xs, P (toType x))
        (owners : List Owner) (howners : ∀ owner ∈ owners, P owner.type) :
        ∀ owner ∈ xs.foldl (fun owners x => p.collectOwners levels (toType x) owners) owners,
          P owner.type := by
      induction xs generalizing owners with
      | nil => exact howners
      | cons x xs ihxs =>
        obtain ⟨hx, hxs⟩ := List.forall_mem_cons.1 hxs
        exact ihxs hxs _ (ih howners hx)
    -- A name stands for itself and for what it is an alias of.
    have hnamed (name : String) : ∀ owner ∈
        (if .named name ∈ owners then owners
        else (p.index.aliases name).foldl
          (fun owners base => p.collectOwners levels base.1 owners) (owners ++ [.named name])),
        P owner.type := by
      split
      · exact howners
      · apply hfold Prod.fst
        · rintro ⟨base, ref⟩ hbase
          obtain ⟨f, hf, hbase⟩ := List.mem_flatMap.1 hbase
          obtain ⟨⟨base', decl⟩, hentry, heq⟩ := List.mem_map.1 hbase
          obtain ⟨rfl, -⟩ := Prod.mk.inj heq
          exact h.stored f hf _ (.entry (.aliased hentry))
        · exact List.forall_mem_append.2
            ⟨howners, List.forall_mem_singleton.2 (h.closed.word rfl)⟩
    unfold Lookup.collectOwners
    split
    · exact hnamed _
    · exact hnamed _
    · split
      · exact howners
      · exact List.forall_mem_append.2 ⟨howners, List.forall_mem_singleton.2 htype⟩
    · exact hfold id _ (h.closed.union htype) owners howners
    · exact howners

theorem ownersOfType {type : Ty} (htype : P type) :
    ∀ owner ∈ p.ownersOfType type, P owner.type :=
  h.collectOwners (List.forall_mem_nil _) htype

/-! ## Expressions -/

section
variable {typeOf : NodeId → Nat → Ty} (htypes : ∀ expr slot, P (typeOf expr slot))
include htypes

theorem partType (part : Option NodeId) : P (Project.partType typeOf part) := by
  refine h.closed.getD fun type htype => ?_
  obtain ⟨expr, -, rfl⟩ := Option.map_eq_some_iff.1 htype
  exact htypes expr 0

/-- A call gives one value with the property, or several. -/
theorem callStep (hm : m ∈ p.index.models) (call : NodeId) :
    ∀ a ∈ (p.callStep m typeOf call).values, P a := by
  have hunknown := h.closed.values h.closed.unknown
  unfold Project.callStep
  split
  · next callee _ _ =>
    have hcallee := htypes callee 0
    split
    · exact h.closureResult hm _
    · next s hs =>
      rw [hs] at hcallee
      exact h.closed.ofReturns (h.closed.signature.1 hcallee).2
    · exact hunknown
  · exact hunknown

theorem indexStep (base key : Option NodeId) : P (p.indexStep m typeOf base key) := by
  unfold Project.indexStep
  split
  · exact h.closed.unknown
  · next base =>
    have hbase := htypes base 0
    dsimp only
    split
    · exact h.declType _
    · -- No member is selected, but an element.
      unfold Project.elementStep
      split
      · next element heq =>
        rw [heq] at hbase
        exact h.closed.array.1 hbase
      · next args heq =>
        rw [heq, h.closed.genericApp] at hbase
        exact h.closed.getD fun last hlast => hbase last (List.mem_of_getLast? hlast)
      · exact h.overloadResult_getD h.closed.unknown

theorem binaryStep (op : BinaryOp) (lhs rhs : Option NodeId) :
    P (p.binaryStep typeOf op lhs rhs) := by
  have hlhs := h.partType htypes lhs
  have hrhs := h.partType htypes rhs
  unfold Project.binaryStep
  dsimp only
  split
  · split
    · exact hrhs
    · exact h.closed.join hlhs hrhs
  · next kind _ =>
    split
    · exact h.closed.word rfl
    · apply h.overloadResult_getD
      exact h.closed.word (kind.isWord_builtinType _ _)

theorem unaryStep (op : UnaryOp) (operand : Option NodeId) :
    P (p.unaryStep typeOf op operand) := by
  have hoperand := h.partType htypes operand
  unfold Project.unaryStep
  dsimp only
  split
  · exact h.closed.word rfl
  · apply h.overloadResult_getD
    split
    · exact h.closed.word rfl
    · exact h.closed.word rfl
    · split
      · exact hoperand
      · exact h.closed.unknown

theorem typeStep (hm : m ∈ p.index.models) (expr : NodeId) (slot : Nat) :
    P (p.typeStep m typeOf expr slot) := by
  unfold Project.typeStep
  split
  · exact h.closed.unknown
  · -- What is several values by now becomes one of them.
    exact h.closed.slot (h.callStep htypes hm expr) slot
  · next node _ hn =>
    split
    · exact h.closed.unknown
    · split
      · exact h.closed.nil
      · split
        · exact h.closed.word (Literal.isWord_type _)
        · refine h.closed.getD fun type htype => ?_
          obtain ⟨ref, -, rfl⟩ := Option.map_eq_some_iff.1 htype
          exact h.declType ref
        · exact h.partType htypes _
        · exact h.own m hm (.table hn)
        · exact h.own m hm (.closure hn)
        · exact h.indexStep htypes _ _
        · exact h.binaryStep htypes _ _ _
        · exact h.unaryStep htypes _ _
        · exact h.closed.unknown
  · exact h.closed.unknown

end

theorem exprType (hm : m ∈ p.index.models) (expr : NodeId) (slot : Nat) :
    P (p.exprType m expr slot) := by
  have hlevels (levels : Nat) (expr : NodeId) (slot : Nat) :
      P (p.exprTypeWithin m levels expr slot) := by
    induction levels generalizing expr slot with
    | zero => exact h.closed.unknown
    | succ levels ih => exact h.typeStep ih hm expr slot
  exact hlevels (expr + 1) expr slot

theorem valuesOf (hm : m ∈ p.index.models) (exprs : List NodeId) :
    ∀ type ∈ p.valuesOf m exprs, P type := by
  induction exprs with
  | nil => exact List.forall_mem_nil _
  | cons e rest ih =>
    cases rest with
    | nil =>
      unfold Project.valuesOf
      split
      · -- A call in last position gives all of its values.
        exact h.callStep (h.exprType hm) hm e
      · exact List.forall_mem_singleton.2 (h.exprType hm e 0)
    | cons e' rest =>
      exact List.forall_mem_cons.2 ⟨h.exprType hm e 0, ih⟩

theorem inferReturns (hm : m ∈ p.index.models) (body : NodeId) :
    ∀ type ∈ p.inferReturns m body, P type := by
  unfold Project.inferReturns
  -- What the returns so far give, joined with what the next one gives.
  suffices hfold : ∀ (stats : List NodeId) (returns : List Ty), (∀ type ∈ returns, P type) →
      ∀ type ∈ stats.foldl
        (fun returns stat => joinReturns returns (p.returnedValues m stat)) returns, P type from
    hfold _ [] (List.forall_mem_nil _)
  intro stats
  induction stats with
  | nil => exact fun _ hreturns => hreturns
  | cons stat stats ih =>
    intro returns hreturns
    apply ih
    apply h.closed.joinReturns hreturns
    unfold returnedValues
    split
    · exact h.valuesOf hm _
    · exact List.forall_mem_nil _

end

/-! ## Tasks -/

section
variable (h : p.AllTypes P)
include h

/-- What is found out may be stored by any file. -/
theorem findings {findings : Findings}
    (hstores : ∀ {f : PublishedFile} {type : Ty}, f.Stores findings type →
      f.Stores p.findings type ∨ P type) : AllTypes P { p with findings } :=
  ⟨h.closed, h.own, fun f hf type htype => (hstores htype).elim (h.stored f hf type) id⟩

theorem setType (m : FileModel) (decl : DeclId) {type : Ty} (htype : P type) :
    AllTypes P { p with findings := p.findings.setType m decl type } := by
  apply h.findings
  intro f type' hstored
  cases hstored with
  | entry hentry => exact .inl (.entry hentry)
  | decl hget =>
    rcases Findings.of_type?_setType hget with hget | rfl
    · exact .inl (.decl hget)
    · exact .inr htype
  | method hmethod hmem => exact .inl (.method hmethod hmem)
  | returned hget hmem =>
    rw [Findings.inferred?, Findings.returns_setType] at hget
    exact .inl (.returned hget hmem)
  | moduleReturned hget hmem =>
    rw [Findings.moduleReturns_setType] at hget
    exact .inl (.moduleReturned hget hmem)

theorem setReturns (m : FileModel) (closure : NodeId) {types : List Ty}
    (htypes : ∀ type ∈ types, P type) :
    AllTypes P { p with findings := p.findings.setReturns m closure types } := by
  apply h.findings
  intro f type hstored
  cases hstored with
  | entry hentry => exact .inl (.entry hentry)
  | decl hget => exact .inl (.decl hget)
  | method hmethod hmem => exact .inl (.method hmethod hmem)
  | returned hget hmem =>
    rcases WriteOnce.of_get?_put hget with hget | rfl
    · exact .inl (.returned hget hmem)
    · exact .inr (htypes type hmem)
  | moduleReturned hget hmem => exact .inl (.moduleReturned hget hmem)

theorem setModuleReturns (m : FileModel) {types : List Ty} (htypes : ∀ type ∈ types, P type) :
    AllTypes P { p with findings := p.findings.setModuleReturns m types } := by
  apply h.findings
  intro f type hstored
  cases hstored with
  | entry hentry => exact .inl (.entry hentry)
  | decl hget => exact .inl (.decl hget)
  | method hmethod hmem => exact .inl (.method hmethod hmem)
  | returned hget hmem => exact .inl (.returned hget hmem)
  | moduleReturned hget hmem =>
    rcases WriteOnce.of_get?_put hget with hget | rfl
    · exact .inl (.moduleReturned hget hmem)
    · exact .inr (htypes type hmem)

theorem amend (source : SourceId) {change : Entries → Entries}
    (hchange : ∀ {e : Entries}, e.AllTypes P → (change e).AllTypes P) :
    AllTypes P (p.amend source change) := by
  refine ⟨h.closed, fun m hm => h.own m (p.index.models_amend source change ▸ hm),
    fun f hf type hstored => ?_⟩
  obtain ⟨g, hg, rfl⟩ := List.mem_map.1 hf
  split at hstored
  · cases hstored with
    | entry hentry =>
      exact hchange (fun type htype => h.stored g hg type (.entry htype)) type hentry
    | decl hget => exact h.stored g hg type (.decl hget)
    | method hmethod hmem => exact h.stored g hg type (.method hmethod hmem)
    | returned hget hmem => exact h.stored g hg type (.returned hget hmem)
    | moduleReturned hget hmem => exact h.stored g hg type (.moduleReturned hget hmem)
  · exact h.stored g hg type hstored

theorem resolveType (hm : m ∈ p.index.models) (decl : DeclId) (value : Option ValueRef) :
    AllTypes P (p.resolveType m decl value) := by
  unfold Project.resolveType
  split
  · exact h
  · apply h.setType
    split
    · exact h.exprType hm _ _
    · exact h.closed.nil

/-- The fields of a table are shared with a named type. -/
theorem linkTable (m : FileModel) (decl : DeclId) (value : Option ValueRef) :
    AllTypes P (p.linkTable m decl value) := by
  unfold Project.linkTable
  split
  · split
    · exact h.amend _ fun he => he.addMembers (h.closed.word rfl) _
    · exact h
  · exact h

theorem linkField (hm : m ∈ p.index.models) (decl : DeclId) :
    AllTypes P (p.linkField m decl) := by
  unfold Project.linkField
  split
  · next base _ =>
    split
    · next owner howner =>
      have hknown : P owner.type :=
        h.ownersOfType (h.exprType hm base 0) owner (List.mem_of_head? howner)
      exact h.amend _ fun he => he.addMember hknown decl
    · exact h
  · exact h

theorem beforeLink (hm : m ∈ p.index.models) (task : Task) :
    AllTypes P (p.beforeLink m task) := by
  cases task with
  | declaration decl value todo definesType =>
    have htyped : AllTypes P (if todo.type then p.resolveType m decl value else p) := by
      split
      · exact h.resolveType hm decl value
      · exact h
    dsimp only [Project.beforeLink]
    split
    · exact htyped.linkTable m decl value
    · exact htyped
  | method | source => exact h

theorem runTask (hm : m ∈ p.index.models) (task : Task) : AllTypes P (p.runTask m task) := by
  cases task with
  | declaration decl value todo definesType =>
    rw [runTask_declaration]
    have hbefore := h.beforeLink hm (.declaration decl value todo definesType)
    split
    · apply hbefore.linkField
      exact (p.writes_beforeLink m _).models ▸ hm
    · exact hbefore
  | method closure =>
    dsimp only [Project.runTask]
    split
    · split
      · exact h
      · exact h.setReturns m closure (h.inferReturns hm _)
    · exact h
  | source body => exact h.setModuleReturns m (h.inferReturns hm body)

theorem giveUp (m : FileModel) (task : Task) : AllTypes P (p.giveUp m task) := by
  have hunknown : ∀ type ∈ [Ty.unknown], P type :=
    List.forall_mem_singleton.2 h.closed.unknown
  cases task with
  | declaration => exact h.setType m _ h.closed.unknown
  | method closure =>
    dsimp only [Project.giveUp]
    split
    · exact h.setReturns m closure hunknown
    · exact h
  | source => exact h.setModuleReturns m hunknown

end

/-- Tasks of published files store nothing else. -/
theorem events {events : List TaskEvent} (h : p.AllTypes P)
    (hevents : ∀ e ∈ events, e.model ∈ p.index.models) :
    AllTypes P (events.foldl TaskEvent.apply p) := by
  induction events generalizing p with
  | nil => exact h
  | cons e events ih =>
    obtain ⟨he, hevents⟩ := List.forall_mem_cons.1 hevents
    have hfirst : AllTypes P (e.apply p) := by
      unfold TaskEvent.apply
      split
      · exact h.runTask he e.task
      · exact h.giveUp e.model e.task
    apply ih hfirst
    rw [(p.writes_apply e).models]
    exact hevents

end AllTypes

end Project

end LuaAnalysis
