import LuaAnalysis.Proofs.File.Declares

/-!
# The tasks of a file

A declaration that gets its type from a value has one task in the worklist of its file; the task of
an assigned field also asks for an owner. A global stands in the entries under its name. Four nodes
make such declarations, and post the task of each right behind it (`Outline.Posted.post`); whatever
else a node does is `Outline.Silent`.

Main statements: `Outline.posted`, `Outline.Posted.place_unique`.
-/

namespace LuaAnalysis

/-- Whether a declaration gets its type from a value. -/
def DeclKind.isValued : DeclKind → Bool
  | .localVar | .global | .method _ _ | .tableField | .index => true
  | _ => false

/-- Whether a declaration is a field that is assigned through an index expression. -/
def DeclKind.isLinked : DeclKind → Bool
  | .index | .method .field _ => true
  | _ => false

theorem DeclKind.isValued_of_isGlobal {kind : DeclKind} (h : kind.isGlobal = true) :
    kind.isValued = true := by
  cases kind <;> first | rfl | cases h

theorem DeclKind.isValued_of_isLinked {kind : DeclKind} (h : kind.isLinked = true) :
    kind.isValued = true := by
  cases kind <;> first | rfl | cases h

/-- The declaration that a task is about. -/
def Task.decl? : Task → Option DeclId
  | .declaration decl _ _ _ => some decl
  | .method _ | .source _ => none

/-- The declarations that the tasks of a worklist are about, in order. -/
def Worklist.decls (w : Worklist) : List DeclId :=
  w.places.filterMap (·.bind Task.decl?)

theorem Worklist.decls_push (w : Worklist) (task : Task) :
    (w.push task).decls = w.decls ++ task.decl?.toList := by
  unfold decls push
  rw [List.filterMap_append]
  cases task <;> rfl

namespace Outline

/-- Every declaration that gets its type from a value has a task, no other declaration has one, and
every global is listed. No declaration has two tasks, as they come in the order of the
declarations. -/
structure Posted (o : Outline) : Prop where
  globals : ∀ {i : DeclId} {d : Declaration}, o.decls[i]? = some d → d.kind.isGlobal = true →
    i ∈ o.entries.globals.values d.name
  tasks : ∀ {i : DeclId} {d : Declaration}, o.decls[i]? = some d → d.kind.isValued = true →
    ∃ value todo definesType,
      some (.declaration i value todo definesType) ∈ o.worklist.places ∧ todo.type = true ∧
        (d.kind.isLinked = true → todo.owner = true)
  ordered : o.worklist.decls.Pairwise (· < ·)
  valued : ∀ i ∈ o.worklist.decls, ∃ d, o.decls[i]? = some d ∧ d.kind.isValued = true

variable {o o' o'' : Outline}

/-! ## Nodes without tasks of declarations -/

/-- `o'` comes from `o` without a declaration that gets its type from a value, and without the task
of one. -/
structure Silent (o o' : Outline) : Prop where
  decls : ∃ more : List Declaration, o'.decls = o.decls ++ more.toArray ∧
    ∀ d ∈ more, d.kind.isValued = false
  globals : o'.entries.globals = o.entries.globals
  places : o.worklist.places ⊆ o'.worklist.places
  tasks : o'.worklist.decls = o.worklist.decls

theorem Silent.refl (o : Outline) : Silent o o :=
  ⟨⟨[], by simp⟩, rfl, List.Subset.refl _, rfl⟩

theorem Silent.trans (h : Silent o o') (h' : Silent o' o'') : Silent o o'' := by
  obtain ⟨more, hdecls, hmore⟩ := h.decls
  obtain ⟨more', hdecls', hmore'⟩ := h'.decls
  refine ⟨⟨more ++ more', ?_, List.forall_mem_append.2 ⟨hmore, hmore'⟩⟩, h'.globals.trans h.globals,
    List.Subset.trans h.places h'.places, h'.tasks.trans h.tasks⟩
  rw [hdecls', hdecls]
  simp

theorem Silent.foldl {α : Type} {step : Outline → α → Outline} (xs : List α)
    (h : ∀ o x, Silent o (step o x)) (o : Outline) : Silent o (xs.foldl step o) := by
  induction xs generalizing o with
  | nil => exact .refl o
  | cons x xs ih => exact (h o x).trans (ih (step o x))

theorem silent_declare (o : Outline) {d : Declaration} (hd : d.kind.isValued = false)
    (token : Option NodeId) : Silent o (o.declare d token) :=
  ⟨⟨[d], Array.push_eq_append, by simpa using hd⟩, rfl, List.Subset.refl _, rfl⟩

theorem silent_record (o : Outline) {change : Entries → Entries}
    (hchange : (change o.entries).globals = o.entries.globals) : Silent o (o.record change) :=
  ⟨⟨[], by simp [record]⟩, hchange, List.Subset.refl _, rfl⟩

theorem silent_schedule (o : Outline) {task : Task} (htask : task.decl? = none) :
    Silent o (o.schedule task) := by
  refine ⟨⟨[], by simp [schedule]⟩, rfl, List.subset_append_left _ _, ?_⟩
  rw [schedule, Worklist.decls_push, htask]
  exact List.append_nil _

/-- What is silent keeps the tasks and globals there are, and makes no new ones due. -/
theorem Posted.silent (h : Posted o) (hs : Silent o o') : Posted o' := by
  obtain ⟨more, hdecls, hmore⟩ := hs.decls
  have hold {i : DeclId} {d : Declaration} (hd : o'.decls[i]? = some d)
      (hvalued : d.kind.isValued = true) : o.decls[i]? = some d := by
    rw [hdecls, Array.getElem?_append] at hd
    split at hd
    · exact hd
    · -- A new declaration gets its type from no value.
      have hnew := hmore d (List.mem_of_getElem? (by simpa using hd))
      rw [hvalued] at hnew
      cases hnew
  refine ⟨fun hd hglobal => ?_, fun hd hvalued => ?_, ?_, fun i hi => ?_⟩
  · rw [hs.globals]
    exact h.globals (hold hd (DeclKind.isValued_of_isGlobal hglobal)) hglobal
  · obtain ⟨value, todo, definesType, hplace, hrest⟩ := h.tasks (hold hd hvalued) hvalued
    exact ⟨value, todo, definesType, hs.places hplace, hrest⟩
  · rw [hs.tasks]
    exact h.ordered
  · rw [hs.tasks] at hi
    obtain ⟨d, hd, hvalued⟩ := h.valued i hi
    have hlt : i < o.decls.size := (Array.getElem?_eq_some_iff.1 hd).1
    refine ⟨d, ?_, hvalued⟩
    rw [hdecls, Array.getElem?_append, if_pos hlt]
    exact hd

variable {t : SyntaxTree} {config : Config}

theorem silent_declareParamTags (o : Outline) (params : List (NodeId × Ty)) :
    Silent o (o.declareParamTags t params) :=
  Silent.foldl params (fun o _ => silent_declare o rfl _) o

theorem silent_declareParams (o : Outline) (params : List (NodeId × Ty)) (names : List NodeId) :
    Silent o (o.declareParams t params names) :=
  Silent.foldl names (fun o _ => silent_declare o rfl _) o

theorem silent_genericParam (o : Outline) (param : NodeId) : Silent o (o.genericParam t param) := by
  unfold genericParam
  split
  · exact silent_declare o rfl _
  · exact .refl o

/-- The parameters of a closure, with what its tags declare before them. -/
theorem silent_params (o : Outline) (tags names : List NodeId) :
    Silent o ((((genericParams t tags).foldl (fun o param => o.genericParam t param)
      o).declareParamTags t (paramTags t tags)).declareParams t (paramTags t tags) names) := by
  have hgenerics :
      Silent o ((genericParams t tags).foldl (fun o param => o.genericParam t param) o) :=
    Silent.foldl _ (fun o param => silent_genericParam o param) o
  exact (hgenerics.trans (silent_declareParamTags _ _)).trans (silent_declareParams _ _ _)

theorem silent_closure (o : Outline) (id : NodeId) (names : List NodeId) (body : Option NodeId) :
    Silent o (o.closure config t id names body) := by
  have hmethod (o : Outline) (m : Method) : Silent o { o with methods := m :: o.methods } :=
    ⟨⟨[], by simp⟩, rfl, List.Subset.refl _, rfl⟩
  have hparams := silent_params (t := t) o (((t.enclosingStat? id).map t.tags).getD []) names
  unfold closure
  dsimp only
  split
  · exact (hparams.trans (hmethod _ _)).trans (silent_schedule _ rfl)
  · exact hparams.trans (hmethod _ _)

theorem silent_namedType (o : Outline) (name : NodeId) (category : TypeCategory) :
    Silent o (o.namedType t name category) := by
  have hdeclared : Silent o (o.declareName t (.namedType category) name (t.nameText name)
      (some (.named (t.nameText name)))) :=
    silent_declare o rfl none
  unfold namedType
  exact hdeclared.trans (silent_record _ rfl)

theorem silent_docField (o : Outline) (owner : Owner) (field : NodeId) :
    Silent o (o.docField t owner field) := by
  have hdeclared (d : Declaration) (hd : d.kind.isValued = false) (token : Option NodeId) :
      Silent o ((o.declare d token).record (·.addMember owner o.nextDecl)) :=
    (silent_declare o hd token).trans (silent_record _ rfl)
  unfold docField
  split
  · dsimp only
    split
    · exact hdeclared _ rfl _
    · exact hdeclared _ rfl _
    · exact silent_record o rfl
  · exact .refl o

theorem silent_classTag (o : Outline) (owner : Owner) (tag : NodeId) :
    Silent o (o.classTag t owner tag) := by
  unfold classTag
  split
  · exact silent_docField o owner tag
  · unfold operator
    split
    · split
      · exact silent_record o rfl
      · exact .refl o
    · exact .refl o
  · exact .refl o

theorem silent_classGenerics (o : Outline) (name : String) (generics : Option NodeId) :
    Silent o (o.classGenerics t name generics) := by
  unfold classGenerics
  split
  · refine Silent.foldl _ (fun o param => ?_) o
    split
    · exact (silent_genericParam o param).trans (silent_record _ rfl)
    · exact .refl o
  · exact .refl o

theorem silent_docClass (o : Outline) (tag : NodeId) (kind : ClassKind) (name : NodeId)
    (generics : Option NodeId) (supers : List NodeId) (body : Option NodeId) :
    Silent o (o.docClass t tag kind name generics supers body) := by
  have hnamed (category : TypeCategory) := silent_namedType (t := t) o name category
  have htags (o : Outline) : Silent o ((t.followingTags tag).foldl
      (fun o tag => o.classTag t (.named (t.nameText name)) tag) o) :=
    Silent.foldl _ (fun o tag => silent_classTag o _ tag) o
  have hfields (o : Outline) : Silent o ((bodyFields t body).foldl
      (fun o field => o.docField t (.named (t.nameText name)) field) o) :=
    Silent.foldl _ (fun o field => silent_docField o _ field) o
  have hsupers (o : Outline) : Silent o (supers.foldl
      (fun o super => o.record (·.addSuper (t.nameText name) (t.annotatedType super))) o) :=
    Silent.foldl _ (fun o super => silent_record o (by rfl)) o
  exact ((((hnamed _).trans (htags _)).trans (hfields _)).trans (hsupers _)).trans
    (silent_classGenerics _ _ generics)

theorem silent_docEnum (o : Outline) (name : NodeId) (base : Option NodeId) (fields : List NodeId) :
    Silent o (o.docEnum t name base fields) := by
  apply (silent_namedType o name .enumType).trans
  refine Silent.foldl fields (fun o field => ?_) _
  exact (silent_declare o rfl none).trans (silent_record _ rfl)

theorem silent_docAlias (o : Outline) (name type : NodeId) : Silent o (o.docAlias t name type) := by
  unfold docAlias
  dsimp only
  exact (silent_namedType o name .aliasType).trans (silent_record _ (by rfl))

theorem silent_occurrence (o : Outline) (id : NodeId) : Silent o (o.occurrence t id) := by
  unfold occurrence
  split
  · exact silent_record o rfl
  · split
    · exact silent_record o rfl
    · exact .refl o
  · exact silent_record o rfl
  · exact .refl o

/-! ## Nodes that post tasks -/

/-- A declaration is made, it is listed if it is a global, and its task is posted. -/
theorem Posted.post (h : Posted o) {d : Declaration} {token : Option NodeId}
    {change : Entries → Entries} {value : Option ValueRef} {todo : Open} {definesType : Bool}
    (hkeeps : ∀ name, ∀ i ∈ o.entries.globals.values name,
      i ∈ (change o.entries).globals.values name)
    (hglobal : d.kind.isGlobal = true → o.nextDecl ∈ (change o.entries).globals.values d.name)
    (hvalued : d.kind.isValued = true) (htype : todo.type = true)
    (howner : d.kind.isLinked = true → todo.owner = true) :
    Posted (((o.declare d token).record change).schedule
      (.declaration o.nextDecl value todo definesType)) := by
  have hcases {i : DeclId} {e : Declaration} (he : (o.decls.push d)[i]? = some e) :
      o.decls[i]? = some e ∨ i = o.nextDecl ∧ e = d := by
    rw [Array.getElem?_push] at he
    split at he
    · next hi => exact .inr ⟨hi, (Option.some.inj he).symm⟩
    · exact .inl he
  have hdecls : (o.worklist.push (.declaration o.nextDecl value todo definesType)).decls =
      o.worklist.decls ++ [o.nextDecl] :=
    Worklist.decls_push _ _
  -- The new declaration and its task come last, so the order of the tasks is kept.
  refine ⟨fun {i e} he hkind => ?_, fun {i e} he hkind => ?_, ?_, fun i hi => ?_⟩
  · rcases hcases he with he | ⟨rfl, rfl⟩
    · exact hkeeps _ _ (h.globals he hkind)
    · exact hglobal hkind
  · rcases hcases he with he | ⟨rfl, rfl⟩
    · obtain ⟨value', todo', definesType', hplace, hrest⟩ := h.tasks he hkind
      exact ⟨value', todo', definesType', List.mem_append_left _ hplace, hrest⟩
    · exact ⟨value, todo, definesType, List.mem_append_right _ List.mem_cons_self, htype, howner⟩
  · show List.Pairwise (· < ·) (o.worklist.push _).decls
    rw [hdecls, List.pairwise_append]
    refine ⟨h.ordered, List.pairwise_singleton _ _, fun i hi j hj => ?_⟩
    obtain ⟨e, he, -⟩ := h.valued i hi
    rw [List.mem_singleton.1 hj]
    exact (Array.getElem?_eq_some_iff.1 he).1
  · show ∃ e, (o.decls.push d)[i]? = some e ∧ _
    have hi : i ∈ (o.worklist.push (.declaration o.nextDecl value todo definesType)).decls := hi
    rw [hdecls, List.mem_append, List.mem_singleton] at hi
    rw [Array.getElem?_push]
    rcases hi with hi | rfl
    · obtain ⟨e, he, hvalued⟩ := h.valued i hi
      have hne : i ≠ o.decls.size := Nat.ne_of_lt (Array.getElem?_eq_some_iff.1 he).1
      exact ⟨e, by rw [if_neg hne, he], hvalued⟩
    · exact ⟨d, if_pos rfl, hvalued⟩

/-- A declaration that is no global. -/
theorem Posted.post_unlisted (h : Posted o) {d : Declaration} {token : Option NodeId}
    {value : Option ValueRef} {todo : Open} {definesType : Bool} (hkind : d.kind.isGlobal = false)
    (hvalued : d.kind.isValued = true) (htype : todo.type = true)
    (howner : d.kind.isLinked = true → todo.owner = true) :
    Posted ((o.declare d token).schedule (.declaration o.nextDecl value todo definesType)) := by
  have hunlisted (hglobal : d.kind.isGlobal = true) :
      o.nextDecl ∈ (id o.entries).globals.values d.name := by
    rw [hkind] at hglobal
    cases hglobal
  exact h.post (fun _ _ hi => hi) hunlisted hvalued htype howner

/-- A declaration that is a global. -/
theorem Posted.post_global (h : Posted o) {d : Declaration} {token : Option NodeId}
    {value : Option ValueRef} {definesType : Bool} (hkind : d.kind.isLinked = false)
    (hvalued : d.kind.isValued = true) :
    Posted (((o.declare d token).record (·.addGlobal d.name o.nextDecl)).schedule
      (.declaration o.nextDecl value { type := true } definesType)) :=
  h.post (fun _ _ hi => Grouped.mem_values_add.2 (.inl hi))
    (fun _ => Grouped.mem_values_add.2 (.inr ⟨rfl, rfl⟩)) hvalued rfl
    (fun hlinked => by rw [hkind] at hlinked; cases hlinked)

theorem Posted.foldl {α : Type} {step : Outline → α → Outline} (xs : List α)
    (h : ∀ {o} x, Posted o → Posted (step o x)) (ho : Posted o) : Posted (xs.foldl step o) := by
  induction xs generalizing o with
  | nil => exact ho
  | cons x xs ih => exact ih (h x ho)

theorem Posted.localStat (h : Posted o) (stat : NodeId) (names exprs : List NodeId) :
    Posted (o.localStat t stat names exprs) :=
  Posted.foldl _ (fun _ ho => ho.post_unlisted rfl rfl rfl (by simp [DeclKind.isLinked])) h

theorem Posted.assignStat (h : Posted o) (stat : NodeId) (targets exprs : List NodeId) :
    Posted (o.assignStat t stat targets exprs) := by
  refine Posted.foldl _ (fun {o} e ho => ?_) h
  unfold assignTarget
  dsimp only
  split
  · split
    · exact ho
    · exact ho.post_global rfl rfl
  · split
    · exact ho.post_unlisted rfl rfl rfl fun _ => rfl
    · exact ho
  · exact ho

theorem Posted.funcStat (h : Posted o) (target closure : NodeId) :
    Posted (o.funcStat t target closure) := by
  unfold Outline.funcStat
  dsimp only
  split
  · exact h.post_unlisted rfl rfl rfl (by simp [DeclKind.isLinked])
  · split
    · exact h
    · exact h.post_global rfl rfl
  · split
    · exact h.post_unlisted rfl rfl rfl fun _ => rfl
    · exact h
  · exact h

theorem Posted.tableField (h : Posted o) (field : NodeId) (key value : Option NodeId) :
    Posted (o.tableField t field key value) := by
  unfold Outline.tableField
  split
  · split
    · exact h.post (fun _ _ hi => hi) (by simp [DeclKind.isGlobal]) rfl rfl
        (by simp [DeclKind.isLinked])
    · exact h
  · exact h

/-! ## The walk -/

theorem Posted.declareAt (h : Posted o) (config : Config) (t : SyntaxTree) (id : NodeId) :
    Posted (o.declareAt config t id) := by
  unfold Outline.declareAt
  split
  · split
    · exact h.silent (silent_schedule o rfl)
    · exact h
  · exact h.localStat id _ _
  · exact h.assignStat id _ _
  · exact h.funcStat _ _
  · exact h.silent (silent_declare o rfl _)
  · exact h.silent ((silent_declareParamTags o _).trans (silent_declareParams _ _ _))
  · exact h.silent (silent_declare o rfl _)
  · exact h.tableField id _ _
  · exact h.silent (silent_closure o id _ _)
  · exact h.silent (silent_docClass o id _ _ _ _ _)
  · exact h.silent (silent_docEnum o _ _ _)
  · exact h.silent (silent_docAlias o _ _)
  · exact h.silent (Silent.foldl _ (fun o field => silent_docField o _ field) o)
  · split
    · exact h.silent (silent_occurrence o id)
    · exact h
  · split
    · exact h.silent (silent_occurrence o id)
    · exact h
  · split
    · exact h.silent (silent_occurrence o id)
    · exact h
  · exact h

/-- The walk through a tree posts a task for everything that gets its type from a value. -/
theorem posted (config : Config) (h : t.Proper) : Posted (t.outline config) := by
  refine outline_induction (P := fun _ o => Posted o) h (fun _ o x _ _ ho => ?_)
    (fun _ o x _ ho => ?_) ?_
  · -- Opening a scope is about none of this.
    unfold enter
    dsimp only
    split
    · next kind _ =>
      have hscope : Posted (o.enterScope t x kind) := ⟨ho.globals, ho.tasks, ho.ordered, ho.valued⟩
      exact hscope.declareAt config t x
    · exact ho.declareAt config t x
  · unfold leave
    split
    · exact ⟨ho.globals, ho.tasks, ho.ordered, ho.valued⟩
    · exact ho
  · exact ⟨by simp, by simp, List.Pairwise.nil, by simp [Worklist.decls]⟩

/-- Two tasks about one declaration stand in one place. -/
theorem Posted.place_unique (h : Posted o) {a b : Nat} {task task' : Task} {i : DeclId}
    (ha : o.worklist.get? a = some task) (hb : o.worklist.get? b = some task')
    (hi : task.decl? = some i) (hi' : task'.decl? = some i) : a = b := by
  have hordered := h.ordered
  unfold Worklist.decls at hordered
  rw [List.pairwise_filterMap] at hordered
  -- Of two places the later one would be about a later declaration.
  exact place_eq_of_pairwise hordered (Option.join_eq_some_iff.1 ha) (Option.join_eq_some_iff.1 hb)
    (fun hless => Nat.lt_irrefl i (hless i hi i hi')) fun hless => Nat.lt_irrefl i (hless i hi' i hi)

end Outline

end LuaAnalysis
