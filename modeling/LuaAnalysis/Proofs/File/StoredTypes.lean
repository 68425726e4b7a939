import LuaAnalysis.Proofs.File.Sites
import LuaAnalysis.Proofs.Types.Identity

/-!
# The types that an analysis stores

An analysis stores types that are written in its file, and names and identities of what is there. So
a property that operations on types keep holds of all of them if it holds of the tables and closures
of the tree.

Main statement: `Outline.allTypes`.
-/

namespace LuaAnalysis

/-! ## Entries and closures -/

/-- The type that has the members of an owner. -/
def Owner.type : Owner → Ty
  | .named name => .named name
  | .anonymous id => .tableLiteral id

/-- The types in what is written about a closure. -/
def Method.types (m : Method) : List Ty :=
  m.overloads.map .signature ++ m.declared

/-- The types in the entries of a file: of owners, of operators, of aliases and above types. -/
inductive Entries.Stores (e : Entries) : Ty → Prop where
  | member {owner : Owner} {decl : DeclId} (h : decl ∈ e.members.values owner) :
      Stores e owner.type
  | operator {owner : Owner} {o : Overload} (h : o ∈ e.operators.values owner) :
      Stores e owner.type
  | operand {owner : Owner} {o : Overload} {type : Ty} (h : o ∈ e.operators.values owner)
      (htype : type ∈ o.operands) : Stores e type
  | result {owner : Owner} {o : Overload} (h : o ∈ e.operators.values owner) : Stores e o.result
  | aliased {name : String} {base : Ty} {decl : DeclId} (h : (base, decl) ∈ e.aliases.values name) :
      Stores e base
  | super {name : String} {type : Ty} (h : type ∈ e.supers.values name) : Stores e type

/-- Every type in the entries has a property. -/
def Entries.AllTypes (P : Ty → Prop) (e : Entries) : Prop :=
  ∀ type, e.Stores type → P type

namespace Entries

variable {P : Ty → Prop} {e e' : Entries}

theorem AllTypes.of_eq (h : e.AllTypes P) (hmembers : e'.members = e.members)
    (hoperators : e'.operators = e.operators) (haliases : e'.aliases = e.aliases)
    (hsupers : e'.supers = e.supers) : e'.AllTypes P := by
  rintro type (hmem | hmem | ⟨hmem, htype⟩ | hmem | hmem | hmem)
  · exact h _ (.member (hmembers ▸ hmem))
  · exact h _ (.operator (hoperators ▸ hmem))
  · exact h _ (.operand (hoperators ▸ hmem) htype)
  · exact h _ (.result (hoperators ▸ hmem))
  · exact h _ (.aliased (haliases ▸ hmem))
  · exact h _ (.super (hsupers ▸ hmem))

/-- A new member brings in nothing but its owner. -/
theorem AllTypes.addMember (h : e.AllTypes P) {owner : Owner} (howner : P owner.type)
    (decl : DeclId) : (e.addMember owner decl).AllTypes P := by
  rintro type (hmem | hmem | ⟨hmem, htype⟩ | hmem | hmem | hmem)
  · rcases Grouped.mem_values_addNew.1 hmem with hmem | ⟨rfl, -⟩
    · exact h _ (.member hmem)
    · exact howner
  · exact h _ (.operator hmem)
  · exact h _ (.operand hmem htype)
  · exact h _ (.result hmem)
  · exact h _ (.aliased hmem)
  · exact h _ (.super hmem)

theorem AllTypes.addOperator (h : e.AllTypes P) {owner : Owner} (howner : P owner.type)
    {overload : Overload} (hresult : P overload.result)
    (hoperands : ∀ type ∈ overload.operands, P type) :
    (e.addOperator owner overload).AllTypes P := by
  rintro type (hmem | hmem | ⟨hmem, htype⟩ | hmem | hmem | hmem)
  · exact h _ (.member hmem)
  · rcases Grouped.mem_values_add.1 hmem with hmem | ⟨rfl, -⟩
    · exact h _ (.operator hmem)
    · exact howner
  · rcases Grouped.mem_values_add.1 hmem with hmem | ⟨-, rfl⟩
    · exact h _ (.operand hmem htype)
    · exact hoperands type htype
  · rcases Grouped.mem_values_add.1 hmem with hmem | ⟨-, rfl⟩
    · exact h _ (.result hmem)
    · exact hresult
  · exact h _ (.aliased hmem)
  · exact h _ (.super hmem)

theorem AllTypes.addAlias (h : e.AllTypes P) {base : Ty} (hbase : P base) (name : String)
    (decl : DeclId) : (e.addAlias name base decl).AllTypes P := by
  rintro type (hmem | hmem | ⟨hmem, htype⟩ | hmem | hmem | hmem)
  · exact h _ (.member hmem)
  · exact h _ (.operator hmem)
  · exact h _ (.operand hmem htype)
  · exact h _ (.result hmem)
  · rcases Grouped.mem_values_add.1 hmem with hmem | ⟨-, heq⟩
    · exact h _ (.aliased hmem)
    · exact (Prod.mk.inj heq).1 ▸ hbase
  · exact h _ (.super hmem)

theorem AllTypes.addSuper (h : e.AllTypes P) {super : Ty} (hsuper : P super) (name : String) :
    (e.addSuper name super).AllTypes P := by
  rintro type (hmem | hmem | ⟨hmem, htype⟩ | hmem | hmem | hmem)
  · exact h _ (.member hmem)
  · exact h _ (.operator hmem)
  · exact h _ (.operand hmem htype)
  · exact h _ (.result hmem)
  · exact h _ (.aliased hmem)
  · rcases Grouped.mem_values_add.1 hmem with hmem | ⟨-, rfl⟩
    · exact h _ (.super hmem)
    · exact hsuper

end Entries

/-! ## Outlines -/

namespace Outline

/-- Every type that has been collected has a property. -/
structure AllTypes (P : Ty → Prop) (o : Outline) : Prop where
  written : ∀ d ∈ o.decls, ∀ type ∈ d.written, P type
  methods : ∀ m ∈ o.methods, ∀ type ∈ m.types, P type
  entries : o.entries.AllTypes P

variable {P : Ty → Prop} {config : Config} {t : SyntaxTree} {o : Outline}

theorem AllTypes.foldl {α : Type} {step : Outline → α → Outline} (xs : List α)
    (hstep : ∀ {o}, ∀ x ∈ xs, AllTypes P o → AllTypes P (step o x)) (h : AllTypes P o) :
    AllTypes P (xs.foldl step o) := by
  induction xs generalizing o with
  | nil => exact h
  | cons x xs ih =>
    apply ih fun x hx => hstep x (List.mem_cons_of_mem _ hx)
    exact hstep x List.mem_cons_self h

theorem AllTypes.declare (h : AllTypes P o) {d : Declaration}
    (hwritten : ∀ type ∈ d.written, P type) (token : Option NodeId) :
    AllTypes P (o.declare d token) := by
  refine ⟨fun e he => ?_, h.methods, h.entries⟩
  rcases Array.mem_push.1 he with he | rfl
  · exact h.written e he
  · exact hwritten

theorem AllTypes.record (h : AllTypes P o) {change : Entries → Entries}
    (hchange : (change o.entries).AllTypes P) : AllTypes P (o.record change) :=
  ⟨h.written, h.methods, hchange⟩

/-- A change to what holds no types. -/
theorem AllTypes.list (h : AllTypes P o) {change : Entries → Entries}
    (hmembers : (change o.entries).members = o.entries.members)
    (hoperators : (change o.entries).operators = o.entries.operators)
    (haliases : (change o.entries).aliases = o.entries.aliases)
    (hsupers : (change o.entries).supers = o.entries.supers) : AllTypes P (o.record change) :=
  h.record (h.entries.of_eq hmembers hoperators haliases hsupers)

theorem AllTypes.schedule (h : AllTypes P o) (task : Task) : AllTypes P (o.schedule task) :=
  ⟨h.written, h.methods, h.entries⟩

theorem AllTypes.addMember (h : AllTypes P o) {owner : Owner} (howner : P owner.type)
    (decl : DeclId) : AllTypes P (o.record (·.addMember owner decl)) :=
  h.record (h.entries.addMember howner decl)

end Outline

/-! ## Written types -/

namespace SyntaxTree.Admits

variable {P : Ty → Prop} {t : SyntaxTree} (h : t.Admits P)
include h

theorem nullableType (type : NodeId) (nullable : Bool) : P (t.nullableType type nullable) := by
  unfold SyntaxTree.nullableType
  split
  · exact h.nullable (h.written type)
  · exact h.written type

theorem taggedTypes (stat : NodeId) : ∀ type ∈ t.taggedTypes stat, P type := by
  intro type htype
  obtain ⟨tag, -, htype⟩ := List.mem_flatMap.1 htype
  split at htype
  · obtain ⟨id, -, rfl⟩ := List.mem_map.1 htype
    exact h.written id
  · cases htype

/-- The type of a target is one of the tagged types, or the type that is defined there. -/
theorem typeAt (stat : NodeId) (defined : Option String) (i : Nat) :
    ∀ type ∈ (LuaAnalysis.typeAt (t.taggedTypes stat) defined i).1, P type := by
  intro type htype
  unfold LuaAnalysis.typeAt at htype
  split at htype
  · obtain rfl := Option.some.inj htype
    exact h.word rfl
  · exact h.taggedTypes stat type (List.mem_of_getElem? htype)

theorem paramTags (tags : List NodeId) : ∀ p ∈ Outline.paramTags t tags, P p.2 := by
  intro p hp
  obtain ⟨tag, -, hp⟩ := List.mem_filterMap.1 hp
  split at hp
  · obtain rfl := Option.some.inj hp
    exact h.nullableType _ _
  · cases hp

theorem declaredReturns (tags : List NodeId) : ∀ type ∈ Outline.declaredReturns t tags, P type := by
  intro type htype
  obtain ⟨tag, -, htype⟩ := List.mem_flatMap.1 htype
  split at htype
  · obtain ⟨id, -, rfl⟩ := List.mem_map.1 htype
    exact h.written id
  · cases htype

theorem overloads (tags : List NodeId) : ∀ s ∈ Outline.overloads t tags, P (.signature s) := by
  intro s hs
  obtain ⟨tag, -, hs⟩ := List.mem_filterMap.1 hs
  split at hs
  · next type _ =>
    have htype := h.written? type
    split at hs
    · next s' heq =>
      obtain rfl := Option.some.inj hs
      exact heq ▸ htype
    · cases hs
  · cases hs

end SyntaxTree.Admits

namespace Outline

variable {P : Ty → Prop} {config : Config} {t : SyntaxTree} {o : Outline}

section
variable (hP : t.Admits P)
include hP

/-! ## Statements -/

theorem AllTypes.localStat (h : AllTypes P o) (stat : NodeId) (names exprs : List NodeId) :
    AllTypes P (o.localStat t stat names exprs) :=
  AllTypes.foldl _ (fun _ _ ho =>
    (ho.declare (hP.typeAt stat _ _) none).schedule _) h

omit hP in
theorem AllTypes.assignTarget (h : AllTypes P o) (target : NodeId) (value : Option ValueRef)
    {written : Option Ty} (hwritten : ∀ type ∈ written, P type) (definesType : Bool) :
    AllTypes P (o.assignTarget t target value written definesType) := by
  unfold Outline.assignTarget
  split
  · split
    · exact h
    · exact ((h.declare hwritten none).list rfl rfl rfl rfl).schedule _
  · split
    · exact (h.declare hwritten _).schedule _
    · exact h
  · exact h

theorem AllTypes.assignStat (h : AllTypes P o) (stat : NodeId) (targets exprs : List NodeId) :
    AllTypes P (o.assignStat t stat targets exprs) :=
  AllTypes.foldl _ (fun x _ ho =>
    ho.assignTarget x.1 _ (hP.typeAt stat _ _) _) h

omit hP in
theorem AllTypes.funcStat (h : AllTypes P o) (target closure : NodeId) :
    AllTypes P (o.funcStat t target closure) := by
  unfold Outline.funcStat
  split
  · exact (h.declare (by simp) none).schedule _
  · split
    · exact h
    · exact ((h.declare (by simp) none).list rfl rfl rfl rfl).schedule _
  · split
    · exact (h.declare (by simp) _).schedule _
    · exact h
  · exact h

omit hP in
theorem AllTypes.declareParamTags (h : AllTypes P o) (t : SyntaxTree)
    {params : List (NodeId × Ty)} (hparams : ∀ p ∈ params, P p.2) :
    AllTypes P (o.declareParamTags t params) :=
  AllTypes.foldl _ (fun p hp ho => ho.declare (by simpa using hparams p hp) none) h

omit hP in
theorem AllTypes.declareParams (h : AllTypes P o) (t : SyntaxTree)
    {params : List (NodeId × Ty)} (hparams : ∀ p ∈ params, P p.2) (names : List NodeId) :
    AllTypes P (o.declareParams t params names) := by
  refine AllTypes.foldl _ (fun name _ ho => ho.declare (fun type htype => ?_) none) h
  obtain ⟨p, hp, rfl⟩ := Option.map_eq_some_iff.1 htype
  exact hparams p (List.mem_reverse.1 (List.mem_of_find?_eq_some hp))

/-! ## Closures and tables -/

theorem AllTypes.genericParam (h : AllTypes P o) (param : NodeId) :
    AllTypes P (o.genericParam t param) := by
  unfold Outline.genericParam
  split
  · refine h.declare (fun type htype => ?_) _
    obtain ⟨bound, -, rfl⟩ := Option.map_eq_some_iff.1 htype
    exact hP.written bound
  · exact h

theorem AllTypes.closure (h : AllTypes P o) (id : NodeId) (names : List NodeId)
    (body : Option NodeId) : AllTypes P (o.closure config t id names body) := by
  have hmethod {o : Outline} (ho : AllTypes P o) (params : List DeclId) (tags : List NodeId) :
      AllTypes P { o with methods := { closure := id, params, overloads := overloads t tags
                                       declared := declaredReturns t tags } :: o.methods } := by
    refine ⟨ho.written, List.forall_mem_cons.2 ⟨?_, ho.methods⟩, ho.entries⟩
    refine List.forall_mem_append.2 ⟨fun type htype => ?_, hP.declaredReturns tags⟩
    obtain ⟨s, hs, rfl⟩ := List.mem_map.1 htype
    exact hP.overloads tags s hs
  unfold Outline.closure
  dsimp only
  generalize ((t.enclosingStat? id).map t.tags).getD [] = tags
  have hgenerics : AllTypes P ((genericParams t tags).foldl
      (fun o param => o.genericParam t param) o) :=
    AllTypes.foldl _ (fun param _ ho => ho.genericParam hP param) h
  have hparams := hP.paramTags tags
  have hdeclared := (hgenerics.declareParamTags t hparams).declareParams t hparams names
  split
  · exact (hmethod hdeclared _ tags).schedule _
  · exact hmethod hdeclared _ tags

/-- A field of a table stands in a table constructor. -/
theorem AllTypes.tableField (ht : t.Proper) (h : AllTypes P o) {field : NodeId}
    {key value : Option NodeId} (hn : t.node? field = some (.tableField key value)) :
    AllTypes P (o.tableField t field key value) := by
  unfold Outline.tableField
  split
  · next table hparent =>
    split
    · refine ((h.declare (by simp) _).addMember ?_ _).schedule _
      obtain ⟨n, htable, hpart | ⟨stats, -, stat, -, hcomment⟩⟩ :=
        SyntaxTree.mem_children (ht.parent?_eq.1 hparent)
      · by_cases hfields : ∃ fields, n = .tableExpr fields
        · obtain ⟨fields, rfl⟩ := hfields
          exact hP.makes (.table htable)
        · refine absurd hn (ht.not_tableField htable hpart (fun fields heq => ?_) _ _)
          exact hfields ⟨fields, heq⟩
      · obtain ⟨tags, htags⟩ := ht.comments hcomment
        cases htags.symm.trans hn
    · exact h
  · exact h

/-! ## Definitions of types -/

theorem AllTypes.namedType (h : AllTypes P o) (name : NodeId) (category : TypeCategory) :
    AllTypes P (o.namedType t name category) := by
  have hdeclared : AllTypes P (o.declareName t (.namedType category) name (t.nameText name)
      (some (.named (t.nameText name)))) :=
    h.declare (by simpa using hP.word rfl) none
  unfold Outline.namedType
  exact hdeclared.list rfl rfl rfl rfl

theorem AllTypes.docField (h : AllTypes P o) {owner : Owner} (howner : P owner.type)
    (field : NodeId) : AllTypes P (o.docField t owner field) := by
  unfold Outline.docField
  split
  · next type nullable _ =>
    have hvalue := hP.nullableType type nullable
    dsimp only
    split
    · exact (h.declare (by simpa using hvalue) _).addMember howner _
    · exact (h.declare (by simpa using hvalue) _).addMember howner _
    · next keyType _ =>
      refine h.record (h.entries.addOperator howner hvalue fun operand hoperand => ?_)
      obtain rfl := List.mem_singleton.1 hoperand
      exact hP.written keyType
  · exact h

theorem AllTypes.operator (h : AllTypes P o) {owner : Owner} (howner : P owner.type)
    (tag : NodeId) : AllTypes P (o.operator t owner tag) := by
  unfold Outline.operator
  split
  · next operands result _ =>
    split
    · next kind _ =>
      refine h.record (h.entries.addOperator howner ?_ ?_)
      · unfold Overload.new
        dsimp only
        split
        · exact hP.word rfl
        · exact hP.written? result
      · intro type htype
        unfold Overload.new at htype
        dsimp only at htype
        split at htype
        · cases htype
        · obtain ⟨operand, -, rfl⟩ := List.mem_map.1 htype
          exact hP.written operand
    · exact h
  · exact h

theorem AllTypes.classTag (h : AllTypes P o) {owner : Owner} (howner : P owner.type)
    (tag : NodeId) : AllTypes P (o.classTag t owner tag) := by
  unfold Outline.classTag
  split
  · exact h.docField hP howner tag
  · exact h.operator hP howner tag
  · exact h

theorem AllTypes.classGenerics (h : AllTypes P o) (name : String) (generics : Option NodeId) :
    AllTypes P (o.classGenerics t name generics) := by
  unfold Outline.classGenerics
  split
  · refine AllTypes.foldl _ (fun param _ ho => ?_) h
    split
    · exact (ho.genericParam hP param).list rfl rfl rfl rfl
    · exact ho
  · exact h

theorem AllTypes.docClass (h : AllTypes P o) (tag : NodeId) (kind : ClassKind) (name : NodeId)
    (generics : Option NodeId) (supers : List NodeId) (body : Option NodeId) :
    AllTypes P (o.docClass t tag kind name generics supers body) := by
  unfold Outline.docClass
  apply AllTypes.classGenerics hP
  apply AllTypes.foldl
  · intro o super _ ho
    exact ho.record (ho.entries.addSuper (hP.written super) _)
  · apply AllTypes.foldl _ fun field _ ho => ho.docField hP (hP.word rfl) field
    apply AllTypes.foldl _ fun tag _ ho => ho.classTag hP (hP.word rfl) tag
    exact h.namedType hP name _

theorem AllTypes.docEnum (h : AllTypes P o) (name : NodeId) (base : Option NodeId)
    (fields : List NodeId) : AllTypes P (o.docEnum t name base fields) := by
  have htype : P ((base.map t.annotatedType).getD .integer) := by
    cases base with
    | none => exact hP.word rfl
    | some base => exact hP.written base
  refine AllTypes.foldl _ (fun field _ ho => ?_) (h.namedType hP name .enumType)
  exact (ho.declare (by simpa using htype) none).addMember (hP.word rfl) _

theorem AllTypes.docAlias (h : AllTypes P o) (name type : NodeId) :
    AllTypes P (o.docAlias t name type) := by
  unfold Outline.docAlias
  have hnamed := h.namedType hP name .aliasType
  exact hnamed.record (hnamed.entries.addAlias (hP.written type) _ _)

/-! ## The walk -/

omit hP in
theorem AllTypes.occurrence (h : AllTypes P o) (id : NodeId) : AllTypes P (o.occurrence t id) := by
  unfold Outline.occurrence
  split
  · exact h.list rfl rfl rfl rfl
  · split
    · exact h.list rfl rfl rfl rfl
    · exact h
  · exact h.list rfl rfl rfl rfl
  · exact h

theorem AllTypes.declareAt (ht : t.Proper) (h : AllTypes P o) (id : NodeId) :
    AllTypes P (o.declareAt config t id) := by
  unfold Outline.declareAt
  split
  · split
    · exact h.schedule _
    · exact h
  · exact h.localStat hP id _ _
  · exact h.assignStat hP id _ _
  · exact h.funcStat _ _
  · exact h.declare (by simpa using hP.word rfl) none
  · have hparams := hP.paramTags (t.tags id)
    exact (h.declareParamTags t hparams).declareParams t hparams _
  · exact h.declare (by simp) _
  · next hn => exact h.tableField hP ht hn
  · exact h.closure hP id _ _
  · exact h.docClass hP id _ _ _ _ _
  · exact h.docEnum hP _ _ _
  · exact h.docAlias hP _ _
  · next hn =>
    have howner : P (Owner.anonymous (t.syntaxId id)).type := hP.makes (.tableType hn)
    exact AllTypes.foldl _ (fun field _ ho => ho.docField hP howner field) h
  · split
    · exact h.occurrence id
    · exact h
  · split
    · exact h.occurrence id
    · exact h
  · split
    · exact h.occurrence id
    · exact h
  · exact h

/-- All types that the walk through a tree collects have a property that the tree admits. -/
theorem allTypes (config : Config) (ht : t.Proper) : AllTypes P (t.outline config) := by
  refine outline_induction (P := fun _ o => AllTypes P o) ht (fun _ o x _ _ ho => ?_)
    (fun _ o x _ ho => ?_) ?_
  · unfold enter
    dsimp only
    split
    · next kind _ =>
      have hscope : AllTypes P (o.enterScope t x kind) := ⟨ho.written, ho.methods, ho.entries⟩
      exact hscope.declareAt hP ht x
    · exact ho.declareAt hP ht x
  · unfold leave
    split
    · exact ⟨ho.written, ho.methods, ho.entries⟩
    · exact ho
  · refine ⟨by simp, by simp, fun type htype => ?_⟩
    cases htype with
    | member h | operator h | operand h | result h | aliased h | super h => cases h

end

end Outline

end LuaAnalysis
