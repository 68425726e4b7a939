import LuaAnalysis.Proofs.File.OutlineWalk
import LuaAnalysis.Proofs.Project.Renumbering

/-!
# Recording occurrences

Occurrences are recorded beside everything else: whatever the walk does to an outline, it does the
same to the outline without occurrences. So an analysis that records none gives the model, the tasks
and the other entries of an analysis that records them.

Main statement: `outline_withoutOccurrences`.
-/

namespace LuaAnalysis

/-- The options with the recording of occurrences turned on or off. -/
def Config.recording (config : Config) (on : Bool) : Config :=
  { config with indexNameExprs := on }

namespace Outline

variable {config : Config} {t : SyntaxTree} (o : Outline)

def withoutOccurrences (o : Outline) : Outline :=
  { o with entries := o.entries.withoutOccurrences }

/-- Steps that do not look at occurrences do not look at them one after the other. -/
theorem foldl_withoutOccurrences {α : Type} {step : Outline → α → Outline}
    (hstep : ∀ o a, step o.withoutOccurrences a = (step o a).withoutOccurrences) (as : List α) :
    as.foldl step o.withoutOccurrences = (as.foldl step o).withoutOccurrences :=
  List.foldl_hom withoutOccurrences hstep

/-! ## Statements -/

theorem find?_withoutOccurrences : o.withoutOccurrences.find? t = o.find? t :=
  rfl

theorem localStat_withoutOccurrences (stat : NodeId) (names exprs : List NodeId) :
    o.withoutOccurrences.localStat t stat names exprs =
      (o.localStat t stat names exprs).withoutOccurrences :=
  foldl_withoutOccurrences o (fun _ _ => rfl) _

theorem assignTarget_withoutOccurrences (target : NodeId) (value : Option ValueRef)
    (written : Option Ty) (definesType : Bool) :
    o.withoutOccurrences.assignTarget t target value written definesType =
      (o.assignTarget t target value written definesType).withoutOccurrences := by
  unfold assignTarget
  rw [find?_withoutOccurrences]
  split
  · split <;> rfl
  · split <;> rfl
  · rfl

theorem assignStat_withoutOccurrences (stat : NodeId) (targets exprs : List NodeId) :
    o.withoutOccurrences.assignStat t stat targets exprs =
      (o.assignStat t stat targets exprs).withoutOccurrences :=
  foldl_withoutOccurrences o (fun o _ => assignTarget_withoutOccurrences o _ _ _ _) _

theorem funcStat_withoutOccurrences (target closure : NodeId) :
    o.withoutOccurrences.funcStat t target closure =
      (o.funcStat t target closure).withoutOccurrences := by
  unfold funcStat
  rw [find?_withoutOccurrences]
  dsimp only
  split
  · rfl
  · split <;> rfl
  · split <;> rfl
  · rfl

theorem declareParamTags_withoutOccurrences (params : List (NodeId × Ty)) :
    o.withoutOccurrences.declareParamTags t params =
      (o.declareParamTags t params).withoutOccurrences :=
  foldl_withoutOccurrences o (fun _ _ => rfl) _

theorem declareParams_withoutOccurrences (params : List (NodeId × Ty)) (names : List NodeId) :
    o.withoutOccurrences.declareParams t params names =
      (o.declareParams t params names).withoutOccurrences :=
  foldl_withoutOccurrences o (fun _ _ => rfl) _

theorem forRangeStat_withoutOccurrences (stat : NodeId) (names : List NodeId) :
    o.withoutOccurrences.forRangeStat t stat names =
      (o.forRangeStat t stat names).withoutOccurrences := by
  unfold forRangeStat
  dsimp only
  rw [declareParamTags_withoutOccurrences, declareParams_withoutOccurrences]

/-! ## Closures and tables -/

theorem genericParam_withoutOccurrences (param : NodeId) :
    o.withoutOccurrences.genericParam t param = (o.genericParam t param).withoutOccurrences := by
  unfold genericParam
  split <;> rfl

/-- The returns of closures are found out or not, whether occurrences are recorded or not. -/
theorem closure_withoutOccurrences (id : NodeId) (names : List NodeId) (body : Option NodeId) :
    o.withoutOccurrences.closure (config.recording false) t id names body =
      (o.closure config t id names body).withoutOccurrences := by
  unfold closure
  dsimp only
  rw [foldl_withoutOccurrences o genericParam_withoutOccurrences,
    declareParamTags_withoutOccurrences, declareParams_withoutOccurrences,
    show (config.recording false).inferReturns = config.inferReturns from rfl]
  split <;> rfl

theorem tableField_withoutOccurrences (field : NodeId) (key value : Option NodeId) :
    o.withoutOccurrences.tableField t field key value =
      (o.tableField t field key value).withoutOccurrences := by
  unfold tableField
  split
  · split <;> rfl
  · rfl

/-! ## Definitions of types -/

theorem docField_withoutOccurrences (owner : Owner) (field : NodeId) :
    o.withoutOccurrences.docField t owner field = (o.docField t owner field).withoutOccurrences := by
  unfold docField
  split
  · dsimp only
    split <;> rfl
  · rfl

theorem classTag_withoutOccurrences (owner : Owner) (tag : NodeId) :
    o.withoutOccurrences.classTag t owner tag = (o.classTag t owner tag).withoutOccurrences := by
  unfold classTag
  split
  · exact docField_withoutOccurrences o owner tag
  · unfold operator
    split
    · split <;> rfl
    · rfl
  · rfl

theorem classGenerics_withoutOccurrences (name : String) (generics : Option NodeId) :
    o.withoutOccurrences.classGenerics t name generics =
      (o.classGenerics t name generics).withoutOccurrences := by
  unfold classGenerics
  split
  · refine foldl_withoutOccurrences o (fun o param => ?_) _
    split
    · rw [genericParam_withoutOccurrences]
      rfl
    · rfl
  · rfl

theorem docClass_withoutOccurrences (tag : NodeId) (kind : ClassKind) (name : NodeId)
    (generics : Option NodeId) (supers : List NodeId) (body : Option NodeId) :
    o.withoutOccurrences.docClass t tag kind name generics supers body =
      (o.docClass t tag kind name generics supers body).withoutOccurrences := by
  have hnamed (category : TypeCategory) : o.withoutOccurrences.namedType t name category =
      (o.namedType t name category).withoutOccurrences := rfl
  unfold docClass
  dsimp only
  rw [hnamed, foldl_withoutOccurrences _ fun o tag => classTag_withoutOccurrences o _ tag,
    foldl_withoutOccurrences _ fun o field => docField_withoutOccurrences o _ field,
    foldl_withoutOccurrences _ fun _ _ => rfl, classGenerics_withoutOccurrences]

theorem docEnum_withoutOccurrences (name : NodeId) (base : Option NodeId) (fields : List NodeId) :
    o.withoutOccurrences.docEnum t name base fields =
      (o.docEnum t name base fields).withoutOccurrences :=
  foldl_withoutOccurrences (o.namedType t name .enumType) (fun _ _ => rfl) _

theorem docTableType_withoutOccurrences (id : NodeId) (fields : List NodeId) :
    o.withoutOccurrences.docTableType t id fields =
      (o.docTableType t id fields).withoutOccurrences :=
  foldl_withoutOccurrences o (fun o field => docField_withoutOccurrences o _ field) _

/-! ## The walk -/

/-- An occurrence leaves no trace besides itself. -/
theorem withoutOccurrences_occurrence (id : NodeId) :
    (o.occurrence t id).withoutOccurrences = o.withoutOccurrences := by
  unfold occurrence
  split
  · rfl
  · split <;> rfl
  · rfl
  · rfl

theorem declareAt_withoutOccurrences (id : NodeId) :
    o.withoutOccurrences.declareAt (config.recording false) t id =
      (o.declareAt config t id).withoutOccurrences := by
  have hoccurrence :
      o.withoutOccurrences =
        (if config.indexNameExprs then o.occurrence t id else o).withoutOccurrences := by
    split
    · exact (withoutOccurrences_occurrence o id).symm
    · rfl
  unfold declareAt
  cases hn : t.node? id with
  | none => rfl
  | some n =>
    cases n with
    | nameExpr name => exact hoccurrence
    | indexExpr base key colon => exact hoccurrence
    | docNameType name => exact hoccurrence
    | source body =>
      cases body with
      | none => rfl
      | some body =>
        dsimp only
        rw [show (config.recording false).inferReturns = config.inferReturns from rfl]
        split <;> rfl
    | localStat names exprs => exact localStat_withoutOccurrences o id names exprs
    | assignStat targets exprs => exact assignStat_withoutOccurrences o id targets exprs
    | funcStat target closure =>
      cases target <;> cases closure <;> first | rfl | exact funcStat_withoutOccurrences o _ _
    | forStat var exprs body => cases var <;> rfl
    | forRangeStat names exprs body => exact forRangeStat_withoutOccurrences o id names
    | labelStat name => cases name <;> rfl
    | tableField key value => exact tableField_withoutOccurrences o id key value
    | closureExpr params body => exact closure_withoutOccurrences o id params body
    | docClass kind name generics supers body =>
      cases name with
      | none => rfl
      | some name => exact docClass_withoutOccurrences o id kind name generics supers body
    | docEnum name base fields =>
      cases name with
      | none => rfl
      | some name => exact docEnum_withoutOccurrences o name base fields
    | docAlias name type => cases name <;> cases type <;> rfl
    | docTableType fields => exact docTableType_withoutOccurrences o id fields
    | _ => rfl

theorem enter_withoutOccurrences (id : NodeId) :
    o.withoutOccurrences.enter (config.recording false) t id =
      (o.enter config t id).withoutOccurrences := by
  unfold enter
  cases t.scopeKind? id with
  | none => exact declareAt_withoutOccurrences o id
  | some kind => exact declareAt_withoutOccurrences (o.enterScope t id kind) id

theorem leave_withoutOccurrences (id : NodeId) :
    o.withoutOccurrences.leave id = (o.leave id).withoutOccurrences := by
  unfold leave
  rw [show o.withoutOccurrences.scopes = o.scopes from rfl]
  split <;> rfl

end Outline

/-- An outline made without recording occurrences is the outline without them. -/
theorem SyntaxTree.outline_withoutOccurrences (t : SyntaxTree) (config : Config) :
    t.outline (config.recording false) = (t.outline config).withoutOccurrences := by
  rw [Outline.outline_eq_walk, Outline.outline_eq_walk, Outline.walk_eq_foldl,
    Outline.walk_eq_foldl]
  show (t.walkEvents t.root).foldl _ (Outline.withoutOccurrences {}) = _
  refine List.foldl_hom Outline.withoutOccurrences fun o event => ?_
  cases event with
  | enter x => exact Outline.enter_withoutOccurrences o x
  | exit x => exact Outline.leave_withoutOccurrences o x

end LuaAnalysis
