import LuaAnalysis.Proofs.File.ReadTags

/-!
# What is declared once

Besides names and members there are labels, generic parameters and the parameters of tags. A label
and the generic parameters of a class are declared where they stand. The tags above a statement are
read by every closure in it, and by the statement itself if it is a loop over names; whoever reads
them declares what they name (`Outline.others_outline`).

So a declaration may share its node with another one, which takes its place as the one that the node
leads to (`parameter_declared_twice`). That is the case just where a tag is read by two constructs.

Main statement: `FileModel.declared_once_iff`.
-/

namespace LuaAnalysis

/-- Whether a declaration is neither referred to by its name alone nor a member. -/
def DeclKind.isOther : DeclKind → Bool
  | .docParameter | .label | .genericParameter => true
  | _ => false

theorem DeclKind.cases_isOther (kind : DeclKind) :
    kind.isNamed = true ∨ kind.isMember = true ∨ kind.isOther = true := by
  cases kind with
  | method feature => cases feature <;> simp [isNamed, isValue, isMember]
  | _ => simp [isNamed, isValue, isMember, isOther]

theorem DeclKind.isOther_iff {kind : DeclKind} :
    kind.isOther = true ↔ kind.isNamed = false ∧ kind.isMember = false := by
  cases kind with
  | method feature => cases feature <;> simp [isNamed, isValue, isMember, isOther]
  | _ => simp [isNamed, isValue, isMember, isOther]

namespace Outline

variable {t : SyntaxTree} {config : Config} {o : Outline}

/-- The nodes of the declarations that are neither named nor members. -/
def others (o : Outline) : List NodeId :=
  (o.decls.toList.filter fun d => d.kind.isOther).map (·.node)

/-! ## One step -/

@[simp] theorem others_declare (d : Declaration) (token : Option NodeId) :
    (o.declare d token).others = o.others ++ if d.kind.isOther then [d.node] else [] := by
  cases h : d.kind.isOther <;> simp [others, declare, h]

@[simp] theorem others_declareName (kind : DeclKind) (node : NodeId) (name : String)
    (written : Option Ty) : (o.declareName t kind node name written).others =
      o.others ++ if kind.isOther then [node] else [] :=
  others_declare _ _

@[simp] theorem others_record (change : Entries → Entries) :
    (o.record change).others = o.others :=
  rfl

@[simp] theorem others_schedule (task : Task) : (o.schedule task).others = o.others :=
  rfl

/-- Steps that add nodes one after the other. -/
theorem others_foldl {α : Type} {step : Outline → α → Outline} {nodes : α → List NodeId}
    (h : ∀ x o, (step o x).others = o.others ++ nodes x) (xs : List α) :
    (xs.foldl step o).others = o.others ++ xs.flatMap nodes := by
  induction xs generalizing o with
  | nil => simp
  | cons x xs ih => rw [List.foldl_cons, ih, h, List.flatMap_cons, List.append_assoc]

/-- Steps that add those of some nodes that satisfy a predicate. -/
theorem others_foldl_filter {step : Outline → NodeId → Outline} {p : NodeId → Bool}
    (h : ∀ x o, (step o x).others = o.others ++ [x].filter p) (xs : List NodeId) :
    (xs.foldl step o).others = o.others ++ xs.filter p := by
  rw [others_foldl h, ← List.filter_flatMap, List.flatMap_singleton']

/-- Steps that add none. -/
theorem others_foldl_same {α : Type} {step : Outline → α → Outline}
    (h : ∀ x o, (step o x).others = o.others) (xs : List α) :
    (xs.foldl step o).others = o.others :=
  List.foldlRecOn (motive := (·.others = o.others)) xs step rfl fun _ ho _ _ => (h _ _).trans ho

/-! ## Statements -/

theorem others_localStat (w : NodeId) (names exprs : List NodeId) :
    (o.localStat t w names exprs).others = o.others :=
  others_foldl_same (fun _ _ => by simp [DeclKind.isOther]) _

theorem others_assignStat (w : NodeId) (targets exprs : List NodeId) :
    (o.assignStat t w targets exprs).others = o.others := by
  refine others_foldl_same (fun (target, i) o => ?_) _
  dsimp only
  unfold assignTarget
  split
  · split <;> simp [DeclKind.isOther]
  · split <;> simp [DeclKind.isOther]
  · rfl

theorem others_funcStat (target closure : NodeId) :
    (o.funcStat t target closure).others = o.others := by
  unfold funcStat
  split
  · simp [DeclKind.isOther]
  · split <;> simp [DeclKind.isOther]
  · split <;> simp [DeclKind.isOther]
  · rfl

theorem others_declareParamTags (params : List (NodeId × Ty)) :
    (o.declareParamTags t params).others = o.others ++ params.map Prod.fst := by
  have hsteps : (o.declareParamTags t params).others = o.others ++ params.flatMap fun p => [p.1] :=
    others_foldl (fun (name, type) o =>
      others_declareName (o := o) .docParameter name (t.nameText name) (some type)) params
  rw [hsteps, List.map_eq_flatMap]

theorem others_declareParams (params : List (NodeId × Ty)) (names : List NodeId) :
    (o.declareParams t params names).others = o.others :=
  others_foldl_same (fun _ _ => by simp [DeclKind.isOther]) _

theorem others_genericParam (param : NodeId) :
    (o.genericParam t param).others = o.others ++ [param].filter t.isGeneric := by
  unfold genericParam
  split
  · next h => simp [SyntaxTree.isGeneric, h, DeclKind.isOther]
  · next h => simp [SyntaxTree.isGeneric_eq_false h]

theorem others_forRangeStat (w : NodeId) (names : List NodeId) :
    (o.forRangeStat t w names).others = o.others ++ (paramTags t (t.tags w)).map Prod.fst := by
  unfold forRangeStat
  rw [others_declareParams, others_declareParamTags]

theorem others_closure (w : NodeId) (names : List NodeId) (body : Option NodeId) :
    (o.closure config t w names body).others = o.others ++
      ((genericParams t (((t.enclosingStat? w).map t.tags).getD [])).filter t.isGeneric ++
        (paramTags t (((t.enclosingStat? w).map t.tags).getD [])).map Prod.fst) := by
  unfold closure
  generalize ((t.enclosingStat? w).map t.tags).getD [] = tags
  have hgenerics : ((genericParams t tags).foldl (fun o param => o.genericParam t param) o).others =
      o.others ++ (genericParams t tags).filter t.isGeneric :=
    others_foldl_filter (fun param o => others_genericParam param) _
  have hall (o' : Outline) (names : List NodeId) (method : Method) :
      ({ ((o'.declareParamTags t (paramTags t tags)).declareParams t (paramTags t tags) names) with
        methods := method :: ((o'.declareParamTags t (paramTags t tags)).declareParams t
          (paramTags t tags) names).methods } : Outline).others =
      o'.others ++ (paramTags t tags).map Prod.fst :=
    (others_declareParams _ _).trans (others_declareParamTags _)
  dsimp only
  split
  · rw [others_schedule, hall, hgenerics, List.append_assoc]
  · rw [hall, hgenerics, List.append_assoc]

theorem others_tableField (w : NodeId) (key value : Option NodeId) :
    (o.tableField t w key value).others = o.others := by
  unfold tableField
  split
  · split <;> simp [DeclKind.isOther]
  · rfl

/-! ## Definitions of types -/

@[simp] theorem others_namedType (name : NodeId) (category : TypeCategory) :
    (o.namedType t name category).others = o.others := by
  simp [namedType, DeclKind.isOther]

theorem others_docField (owner : Owner) (field : NodeId) :
    (o.docField t owner field).others = o.others := by
  unfold docField
  split
  · dsimp only
    split <;> simp [DeclKind.isOther]
  · rfl

theorem others_classTag (owner : Owner) (tag : NodeId) :
    (o.classTag t owner tag).others = o.others := by
  unfold classTag
  split
  · exact others_docField owner tag
  · unfold operator
    split
    · split <;> simp
    · rfl
  · rfl

theorem others_classGenerics (name : String) (generics : Option NodeId) :
    (o.classGenerics t name generics).others = o.others ++ t.genericsOf generics := by
  unfold classGenerics
  split
  · next params hparams =>
    rw [SyntaxTree.genericsOf, hparams]
    refine others_foldl_filter (fun param o => ?_) params
    split
    · rw [others_record, others_genericParam]
    · next h => simp [SyntaxTree.isGeneric_eq_false h]
  · next h =>
    have hnone : t.genericsOf generics = [] := by
      unfold SyntaxTree.genericsOf
      split
      · next hparams => exact absurd hparams (h _)
      · rfl
    rw [hnone, List.append_nil]

theorem others_docClass (w : NodeId) (kind : ClassKind) (name : NodeId) (generics : Option NodeId)
    (supers : List NodeId) (body : Option NodeId) :
    (o.docClass t w kind name generics supers body).others =
      o.others ++ t.genericsOf generics := by
  unfold docClass
  dsimp only
  rw [others_classGenerics, others_foldl_same fun _ _ => others_record _,
    others_foldl_same fun field _ => others_docField _ field,
    others_foldl_same fun tag _ => others_classTag _ tag, others_namedType]

theorem others_docEnum (name : NodeId) (base : Option NodeId) (fields : List NodeId) :
    (o.docEnum t name base fields).others = o.others := by
  unfold docEnum
  dsimp only
  rw [others_foldl_same fun _ _ => by simp [DeclKind.isOther], others_namedType]

/-! ## The walk -/

theorem others_occurrence (w : NodeId) : (o.occurrence t w).others = o.others := by
  unfold occurrence
  split
  · rfl
  · split <;> rfl
  · rfl
  · rfl

/-- A node declares what it reads of the tags above it, and what it has itself. -/
theorem others_declareAt (w : NodeId) :
    (o.declareAt config t w).others = o.others ++ (t.readAt w ++ t.ownAt w) := by
  have hnone {o' : Outline} (hread : t.readAt w = []) (hown : t.ownAt w = [])
      (h : o'.others = o.others) : o'.others = o.others ++ (t.readAt w ++ t.ownAt w) := by
    rw [hread, hown, h, List.append_nil, List.append_nil]
  unfold declareAt
  split
  · next hw =>
    refine hnone (by rw [SyntaxTree.readAt, hw]) (by rw [SyntaxTree.ownAt, hw]) ?_
    split <;> rfl
  · next hw =>
    exact hnone (by rw [SyntaxTree.readAt, hw]) (by rw [SyntaxTree.ownAt, hw])
      (others_localStat w _ _)
  · next hw =>
    exact hnone (by rw [SyntaxTree.readAt, hw]) (by rw [SyntaxTree.ownAt, hw])
      (others_assignStat w _ _)
  · next hw =>
    exact hnone (by rw [SyntaxTree.readAt, hw]) (by rw [SyntaxTree.ownAt, hw])
      (others_funcStat _ _)
  · next hw =>
    refine hnone (by rw [SyntaxTree.readAt, hw]) (by rw [SyntaxTree.ownAt, hw]) ?_
    simp [forStat, DeclKind.isOther]
  · next hw =>
    rw [others_forRangeStat, SyntaxTree.readAt, SyntaxTree.ownAt, hw, List.append_nil]
  · next hw =>
    rw [SyntaxTree.readAt, SyntaxTree.ownAt, hw]
    simp [labelStat, DeclKind.isOther]
  · next hw =>
    exact hnone (by rw [SyntaxTree.readAt, hw]) (by rw [SyntaxTree.ownAt, hw])
      (others_tableField w _ _)
  · next hw =>
    rw [others_closure, SyntaxTree.readAt, SyntaxTree.ownAt, hw, List.append_nil]
  · next hw =>
    rw [others_docClass, SyntaxTree.readAt, SyntaxTree.ownAt, hw, List.nil_append]
  · next hw =>
    exact hnone (by rw [SyntaxTree.readAt, hw]) (by rw [SyntaxTree.ownAt, hw])
      (others_docEnum _ _ _)
  · next hw =>
    refine hnone (by rw [SyntaxTree.readAt, hw]) (by rw [SyntaxTree.ownAt, hw]) ?_
    simp [docAlias]
  · next hw =>
    exact hnone (by rw [SyntaxTree.readAt, hw]) (by rw [SyntaxTree.ownAt, hw])
      (others_foldl_same (fun field _ => others_docField _ field) _)
  · next hw =>
    refine hnone (by rw [SyntaxTree.readAt, hw]) (by rw [SyntaxTree.ownAt, hw]) ?_
    split
    · exact others_occurrence w
    · rfl
  · next hw =>
    refine hnone (by rw [SyntaxTree.readAt, hw]) (by rw [SyntaxTree.ownAt, hw]) ?_
    split
    · exact others_occurrence w
    · rfl
  · next hw =>
    refine hnone (by rw [SyntaxTree.readAt, hw]) (by rw [SyntaxTree.ownAt, hw]) ?_
    split
    · exact others_occurrence w
    · rfl
  · -- Nodes of all other forms declare nothing.
    refine hnone ?_ ?_ rfl
    · unfold SyntaxTree.readAt
      clear hnone
      split <;> first | rfl | grind
    · unfold SyntaxTree.ownAt
      clear hnone
      split <;> first | rfl | grind

theorem others_outline (config : Config) (h : t.Proper) :
    (t.outline config).others = (t.below t.root).flatMap fun w => t.readAt w ++ t.ownAt w := by
  refine outline_induction (P := fun seen o =>
    o.others = seen.flatMap fun w => t.readAt w ++ t.ownAt w) h ?_ ?_ rfl
  · intro seen o x _ _ ho
    rw [List.flatMap_append, List.flatMap_singleton, ← ho]
    unfold enter
    cases t.scopeKind? x with
    | none => exact others_declareAt x
    | some kind => exact others_declareAt x
  · intro seen o x _ ho
    rw [others, (leave_eq o x).1]
    exact ho

end Outline

/-! ## Declarations of one node -/

section
variable {t : SyntaxTree} {w w' : NodeId} {d e : Declaration} {token token' : Option NodeId}

/-- A name is declared only by name. -/
theorem Declares.isNamed_of_node_eq (h : t.Proper) (hd : Declares t w d token)
    (he : Declares t w' e token') (hnode : d.node = e.node) (hdnamed : d.kind.isNamed = true) :
    e.kind.isNamed = true := by
  cases henamed : e.kind.isNamed with
  | true => rfl
  | false => exact absurd (hnode ▸ (hd.named hdnamed).1) (he.not_name h henamed w).1

/-- A place of a member is declared only as a member. -/
theorem Declares.isMember_of_node_eq (h : t.Proper) (hd : Declares t w d token)
    (he : Declares t w' e token') (hnode : d.node = e.node) (hdmember : d.kind.isMember = true) :
    e.kind.isMember = true := by
  cases hemember : e.kind.isMember with
  | true => rfl
  | false =>
    have henamed : e.kind.isNamed = false := by
      cases henamed : e.kind.isNamed with
      | false => rfl
      | true =>
        have hdnamed := he.isNamed_of_node_eq h hd hnode.symm henamed
        rw [DeclKind.not_isNamed_of_isMember hdmember] at hdnamed
        cases hdnamed
    exact absurd (hnode ▸ hd.held h hdmember) (he.not_held h henamed hemember)

theorem Declares.isOther_of_node_eq (h : t.Proper) (hd : Declares t w d token)
    (he : Declares t w' e token') (hnode : d.node = e.node) (hdother : d.kind.isOther = true) :
    e.kind.isOther = true := by
  obtain ⟨hdnamed, hdmember⟩ := DeclKind.isOther_iff.1 hdother
  rcases e.kind.cases_isOther with hkind | hkind | hkind
  · rw [he.isNamed_of_node_eq h hd hnode.symm hkind] at hdnamed
    cases hdnamed
  · rw [he.isMember_of_node_eq h hd hnode.symm hkind] at hdmember
    cases hdmember
  · exact hkind

end

namespace FileModel

variable {t : SyntaxTree} {config : Config} {revision : Revision} {generation : Nat}

/-- Declarations that are one for each node have nodes of their own. -/
theorem nodup_of_unique {m : FileModel} {p : Declaration → Bool}
    (h : ∀ {i j : DeclId} {d e : Declaration}, m.decl? i = some d → m.decl? j = some e →
      p d = true → p e = true → d.node = e.node → i = j) :
    ((m.decls.toList.filter p).map (·.node)).Nodup := by
  rw [List.Nodup, List.pairwise_map, List.pairwise_filter, List.pairwise_iff_getElem]
  intro i j hi hj hlt hdp hep hnode
  have hij : i = j := h (by rw [decl?, ← Array.getElem?_toList, List.getElem?_eq_getElem hi])
    (by rw [decl?, ← Array.getElem?_toList, List.getElem?_eq_getElem hj]) hdp hep hnode
  exact absurd hij (Nat.ne_of_lt hlt)

section
variable (h : t.Proper) {m : FileModel} (hm : m = (t.analyse config revision generation).model)
include h hm

/-- The node of a declaration leads to a declaration of that node. -/
theorem anchored_same_node {i : DeclId} {d : Declaration} (hd : m.decl? i = some d) :
    ∃ j e, m.anchored? d.node = some j ∧ m.decl? j = some e ∧ e.node = d.node := by
  obtain ⟨w, -, token, hdeclares⟩ := declares_of_decl? h hm hd
  obtain ⟨j, hj⟩ := exists_anchored? h hm hd
  obtain ⟨w', e, token', he, hdeclares', heq | rfl⟩ := declares_of_anchored? h hm hj
  · exact ⟨j, e, hj, he, heq.symm⟩
  · exact absurd rfl (hdeclares'.node_ne_token h hdeclares)

/-- The declarations of a node are one just if no two constructs read it in a tag. -/
theorem unique_iff (x : NodeId) :
    (∀ {i j : DeclId} {d e : Declaration}, m.decl? i = some d → m.decl? j = some e →
      d.node = x → e.node = x → i = j) ↔
    ∀ w ∈ t.below t.root, ∀ w' ∈ t.below t.root, x ∈ t.readAt w → x ∈ t.readAt w' → w = w' := by
  -- The declarations of the node that are neither named nor members.
  let p : Declaration → Bool := fun d => d.kind.isOther && decide (d.node = x)
  have hothers : (m.decls.toList.filter p).map (·.node) =
      ((t.below t.root).flatMap fun w => t.readAt w ++ t.ownAt w).filter (· = x) := by
    subst hm
    rw [← Outline.others_outline config h, Outline.others, List.filter_map,
      List.filter_filter]
    congr 1
    exact List.filter_congr fun d _ => Bool.and_comm _ _
  rw [← SyntaxTree.nodup_filter_iff h, ← hothers]
  constructor
  · intro hunique
    refine nodup_of_unique fun hd he hdp hep _ => hunique hd he ?_ ?_
    · exact of_decide_eq_true (Bool.and_eq_true_iff.1 hdp).2
    · exact of_decide_eq_true (Bool.and_eq_true_iff.1 hep).2
  · intro hnodup i j d e hd he hdnode henode
    obtain ⟨w, -, token, hdeclares⟩ := declares_of_decl? h hm hd
    obtain ⟨w', -, token', hdeclares'⟩ := declares_of_decl? h hm he
    have hnode : d.node = e.node := hdnode.trans henode.symm
    -- Two declarations of the node are of the same sort.
    rcases d.kind.cases_isOther with hkind | hkind | hkind
    · have hkind' := hdeclares.isNamed_of_node_eq h hdeclares' hnode hkind
      exact named_unique h hm hd he hkind hkind' hnode
    · have hkind' := hdeclares.isMember_of_node_eq h hdeclares' hnode hkind
      exact member_unique h hm hd he hkind hkind' hnode
    · have hkind' := hdeclares.isOther_of_node_eq h hdeclares' hnode hkind
      refine decl_unique hnodup hd he ?_ ?_ hnode
      · exact Bool.and_eq_true_iff.2 ⟨hkind, decide_eq_true hdnode⟩
      · exact Bool.and_eq_true_iff.2 ⟨hkind', decide_eq_true henode⟩

/-- What a construct reads in a tag is declared. -/
theorem exists_decl_of_readAt {w x : NodeId} (hw : w ∈ t.below t.root) (hx : x ∈ t.readAt w) :
    ∃ i d, m.decl? i = some d ∧ d.node = x := by
  subst hm
  have hothers : x ∈ (t.outline config).others := by
    rw [Outline.others_outline config h]
    exact List.mem_flatMap.2 ⟨w, hw, List.mem_append_left _ hx⟩
  obtain ⟨d, hd, rfl⟩ := List.mem_map.1 hothers
  obtain ⟨i, hi⟩ := List.mem_iff_getElem?.1 (List.mem_filter.1 hd).1
  exact ⟨i, d, Array.getElem?_toList.symm.trans hi, rfl⟩

end

/-- A declaration is the only one of its node, and the one that its node leads to, just if no two
constructs read its node in a tag. All that is read in a tag is declared. -/
theorem declared_once_iff (h : t.Proper) (config : Config) (revision : Revision)
    (generation : Nat) :
    let m := (t.analyse config revision generation).model
    (∀ i d, m.decl? i = some d →
      ((m.anchored? d.node = some i ∧ ∀ j e, m.decl? j = some e → e.node = d.node → j = i) ↔
        ∀ w ∈ t.below t.root, ∀ w' ∈ t.below t.root,
          d.node ∈ t.readAt w → d.node ∈ t.readAt w' → w = w')) ∧
    ∀ w ∈ t.below t.root, ∀ x ∈ t.readAt w, ∃ i d, m.decl? i = some d ∧ d.node = x := by
  intro m
  refine ⟨fun i d hd => ?_, fun w hw x hx => exists_decl_of_readAt h rfl hw hx⟩
  rw [← unique_iff h (m := m) rfl]
  constructor
  · rintro ⟨-, honly⟩ j k e e' he he' hnode hnode'
    exact (honly j e he hnode).trans (honly k e' he' hnode').symm
  · intro hunique
    have honly (j : DeclId) (e : Declaration) (he : m.decl? j = some e) (hnode : e.node = d.node) :
        j = i :=
      hunique he hd hnode rfl
    obtain ⟨j, e, hj, he, hnode⟩ := anchored_same_node h rfl hd
    obtain rfl := honly j e he hnode
    exact ⟨hj, honly⟩

/-- `---@param a integer` above `local f = function(a) end`, and `local g = function() end` -/
def oneReader : SyntaxTree :=
  .ofSketch 0 (some (.block [.node (.comment [.paramTag "a" "integer" false]),
    .declare ["f"] [.closure ["a"] []], .declare ["g"] [.closure [] []]]))

/-- Only the first function reads the tag, which therefore declares its parameter once. -/
theorem declared_once_oneReader : oneReader.Proper ∧
    (∃ w ∈ oneReader.below oneReader.root, 0 ∈ oneReader.readAt w) ∧
    ∃ d, (oneReader.analyse {} 0 0).model.decl? 1 = some d ∧ d.name = "a" ∧ d.node = 0 ∧
      (oneReader.analyse {} 0 0).model.anchored? d.node = some 1 ∧
      ∀ j e, (oneReader.analyse {} 0 0).model.decl? j = some e → e.node = d.node → j = 1 := by
  have h : oneReader.Proper := SyntaxTree.proper_ofSketch 0 _ (by decide)
  have hfound : ((oneReader.analyse {} 0 0).model.decl? 1).map (fun d => (d.name, d.node)) =
      some ("a", 0) := by
    decide +kernel
  obtain ⟨d, hd, heq⟩ := Option.map_eq_some_iff.1 hfound
  obtain ⟨hname, hnode⟩ := Prod.mk.inj heq
  have hread : ∀ w ∈ oneReader.below oneReader.root, ∀ w' ∈ oneReader.below oneReader.root,
      d.node ∈ oneReader.readAt w → d.node ∈ oneReader.readAt w' → w = w' := by
    rw [hnode]
    decide +kernel
  obtain ⟨honce, -⟩ := declared_once_iff h {} 0 0
  obtain ⟨hanchored, honly⟩ := (honce 1 d hd).2 hread
  exact ⟨h, by decide +kernel, d, hd, hname, hnode, hanchored, honly⟩

/-- `---@param a integer` above `local f, g = function() end, function() end` -/
def twoReaders : SyntaxTree :=
  .ofSketch 0 (some (.block [.node (.comment [.paramTag "a" "integer" false]),
    .declare ["f", "g"] [.closure [] [], .closure [] []]]))

/-- Both functions read the tag, so the parameter is declared twice, and its name leads to the
second of the declarations. -/
theorem parameter_declared_twice : twoReaders.Proper ∧
    ∃ d, (twoReaders.analyse {} 0 0).model.decl? 2 = some d ∧
      (twoReaders.analyse {} 0 0).model.decl? 3 = some d ∧ d.name = "a" ∧
      (twoReaders.analyse {} 0 0).model.anchored? d.node = some 3 := by
  have h : twoReaders.Proper := SyntaxTree.proper_ofSketch 0 _ (by decide)
  have hfound : ((twoReaders.analyse {} 0 0).model.decl? 2).map (fun d => (d.name, d.node)) =
      some ("a", 0) := by
    decide +kernel
  obtain ⟨d, hd, heq⟩ := Option.map_eq_some_iff.1 hfound
  obtain ⟨hname, hnode⟩ := Prod.mk.inj heq
  have hsame : (twoReaders.analyse {} 0 0).model.decl? 3 =
      (twoReaders.analyse {} 0 0).model.decl? 2 := by
    decide +kernel
  refine ⟨h, d, hd, hsame.trans hd, hname, ?_⟩
  rw [hnode]
  decide +kernel

end FileModel

end LuaAnalysis
