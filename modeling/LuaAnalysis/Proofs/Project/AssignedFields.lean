import LuaAnalysis.Proofs.Project.Update
import LuaAnalysis.Proofs.Resolve.FoundMembers
import LuaAnalysis.Proofs.Resolve.GivenUp
import LuaAnalysis.Proofs.Resolve.TaskNeeds
import LuaAnalysis.Syntax.Shorthand

/-!
# Assigned fields become members

The task of an assigned field makes the field a member of the first owner that its base has when the
task is run. Everything the base names has been typed by then, and so has every field it selects. So
the base keeps its type from then on, unless it comes to select another member, which has been added
since, or it calls a closure whose returns are found out later (`Project.Settles`).

A task on a reported cycle is given up and links nothing, so in `t.a = t.b t.b = t.a` neither field
becomes a member of the table. Nor does a field whose base gets its type from a table that shares
its fields too late, or from returns that are found out too late
(`Compilation.fields_stay_unlinked`).

Main statement: `Compilation.assigned_fields_are_members`.
-/

namespace LuaAnalysis

theorem DeclKind.isAssignedField_of_isMember {kind : DeclKind} (hvalued : kind.isValued = true)
    (hmember : kind.isMember = true) : kind.isAssignedField = true := by
  cases kind with
  | method feature => cases feature <;> first | rfl | cases hmember
  | localVar | global => cases hmember
  | tableField | index => rfl
  | _ => cases hvalued

/-! ## What an expression selects and calls -/

namespace SyntaxTree

/-- The fields that an expression selects outside closures, each with the expression that it is
selected from. -/
def selections (t : SyntaxTree) (root : NodeId) : List (NodeId × String) :=
  (t.outsideClosures root).filterMap fun x =>
    match t.node? x with
    | some (.indexExpr (some base) key _) => (key.bind t.keyText?).map (base, ·)
    | _ => none

/-- What an expression calls outside closures. -/
def callees (t : SyntaxTree) (root : NodeId) : List NodeId :=
  (t.outsideClosures root).filterMap fun x =>
    match t.node? x with
    | some (.callExpr callee _) => callee
    | _ => none

variable {t : SyntaxTree} {root x : NodeId} (hx : x ∈ t.outsideClosures root)
include hx

theorem mem_selections {base : NodeId} {key : Option NodeId} {colon : Bool} {name : String}
    (hn : t.node? x = some (.indexExpr (some base) key colon))
    (hname : key.bind t.keyText? = some name) : (base, name) ∈ t.selections root :=
  List.mem_filterMap.2 ⟨x, hx, by rw [hn]; exact congrArg (Option.map _) hname⟩

theorem mem_callees {callee : NodeId} {args : List NodeId}
    (hn : t.node? x = some (.callExpr (some callee) args)) : callee ∈ t.callees root :=
  List.mem_filterMap.2 ⟨x, hx, by rw [hn]⟩

end SyntaxTree

namespace Project

/-! ## Members of the final project -/

namespace Ready

variable {config : Config} {p q : Project} {targets : List Target} (h : p.Ready config targets)
include h

/-- A member of the final project has a kind that members have. -/
theorem isMember_of_resolved {owner : Owner} {ref : DeclRef}
    (href : ref ∈ (p.resolve targets).project.index.members owner) :
    ∃ m d, p.index.decl? ref = some (m, d) ∧ m ∈ p.index.models ∧ ref = m.ref ref.decl ∧
      m.decl? ref.decl = some d ∧ d.kind.isMember = true := by
  have hlinked := linked_resolve h.faithful h.published
  obtain ⟨m, d, hd, hmember⟩ := (hlinked.faithful h.faithful).member href
  rw [ProjectIndex.decl?_congr hlinked.models] at hd
  obtain ⟨f, hf, rfl, hown, hdecl⟩ := (ProjectIndex.decl?_eq_some h.faithful.sorted).1 hd
  exact ⟨f.model, d, hd, List.mem_map_of_mem hf, hown, hdecl, hmember⟩

/-- A declaration with a task that is found as a member, and is one when all tasks are done, is an
assigned field of the name. -/
theorem assigned_of_directMember? {e : TaskEvent} (he : e ∈ p.resolveEvents targets) {i : DeclId}
    (hi : e.task.decl? = some i) {owner : Owner} {name : String}
    (href : q.directMember? owner name = some (e.model.ref i))
    (hmodels : q.index.models = p.index.models)
    (hkept : e.model.ref i ∈ (p.resolve targets).project.index.members owner) :
    ∃ d, e.model.decl? i = some d ∧ d.name = name ∧ d.kind.isAssignedField = true := by
  obtain ⟨d, hd, hvalued⟩ := h.valued he hi
  obtain ⟨m, d', hd', hm, hown, hdecl, hmember⟩ := h.isMember_of_resolved hkept
  have hsource : e.model.source = m.source := congrArg DeclRef.source hown
  obtain rfl := h.faithful.sorted.model_unique (h.model_mem he) hm hsource
  obtain rfl : d = d' := Option.some.inj (hd.symm.trans hdecl)
  rw [← ProjectIndex.decl?_congr hmodels] at hd'
  exact ⟨d, hd, Lookup.name_of_directMember? href hd',
    DeclKind.isAssignedField_of_isMember hvalued hmember⟩

end Ready

/-! ## Links -/

/-- Whether an expression keeps its type from one project to another, through some tasks: no member
that it selects in the end has been added since, and no task finds out the returns of a closure that
it calls. -/
structure Settles (p q : Project) (events : List TaskEvent) (m : FileModel) (root : NodeId) :
    Prop where
  fields : ∀ selection ∈ m.tree.selections root,
    ∀ found ∈ q.found? (p.exprType m selection.1 0) selection.2, found.2 ∈ p.index.members found.1
  calls : ∀ callee ∈ m.tree.callees root, ∀ e ∈ events, ∀ closure ∈ e.findsReturns?,
    p.exprType m callee 0 ≠ .method closure

instance (p q : Project) (events : List TaskEvent) (m : FileModel) (root : NodeId) :
    Decidable (Settles p q events m root) :=
  decidable_of_iff
    ((∀ selection ∈ m.tree.selections root,
      ∀ found ∈ q.found? (p.exprType m selection.1 0) selection.2,
        found.2 ∈ p.index.members found.1) ∧
      ∀ callee ∈ m.tree.callees root, ∀ e ∈ events, ∀ closure ∈ e.findsReturns?,
        p.exprType m callee 0 ≠ .method closure)
    ⟨fun h => ⟨h.1, h.2⟩, fun h => ⟨h.fields, h.calls⟩⟩

/-- A name selects no field and calls nothing. -/
theorem settles_of_name {m : FileModel} (h : m.tree.Proper) {root : NodeId} {name : String}
    (hroot : m.tree.node? root = some (.nameExpr name)) (p q : Project)
    (events : List TaskEvent) : Settles p q events m root := by
  have hregion : m.tree.outsideClosures root = [root] := by
    have hnone : m.tree.evaluated root = [] := by
      rw [List.eq_nil_iff_forall_not_mem]
      intro c hc
      have hpart := SyntaxTree.evaluated_subset m.tree root hc
      rw [SyntaxTree.children_eq hroot (by simp)] at hpart
      cases hpart
    rw [SyntaxTree.outsideClosures_eq h, hnone, List.flatMap_nil]
  have hselections : m.tree.selections root = [] := by
    simp [SyntaxTree.selections, hregion, hroot]
  have hcallees : m.tree.callees root = [] := by simp [SyntaxTree.callees, hregion, hroot]
  refine ⟨?_, ?_⟩
  · rw [hselections]
    exact List.forall_mem_nil _
  · rw [hcallees]
    exact List.forall_mem_nil _

/-- A task that links a field is run at some point of a resolution. -/
structure Links (p : Project) (targets : List Target) (before : List TaskEvent) (e : TaskEvent)
    (after : List TaskEvent) (i : DeclId) : Prop where
  events : p.resolveEvents targets = before ++ e :: after
  run : e.run = true
  decl : e.task.decl? = some i
  owner : e.task.todo.owner = true

/-- The project in which a task finds the base of its field. -/
def atLink (p : Project) (before : List TaskEvent) (e : TaskEvent) : Project :=
  (before.foldl TaskEvent.apply p).beforeLink e.model e.task

variable {config : Config} {p : Project} {targets : List Target} {before after : List TaskEvent}
  {e : TaskEvent} {i : DeclId} {d : Declaration} {base : NodeId}

theorem models_atLink (p : Project) (before : List TaskEvent) (e : TaskEvent) :
    (p.atLink before e).index.models = p.index.models :=
  (writes_beforeLink _ e.model e.task).models.trans (p.models_events before)

theorem advances_atLink (p : Project) (before : List TaskEvent) (e : TaskEvent) :
    p.Advances (p.atLink before e) :=
  (p.advances_events before).trans (writes_beforeLink _ e.model e.task).advances

namespace Links

variable (hl : p.Links targets before e after i)
include hl

theorem mem : e ∈ p.resolveEvents targets := by
  rw [hl.events]
  exact List.mem_append_right _ List.mem_cons_self

theorem mem_of_later {e' : TaskEvent} (he' : e' ∈ after) : e' ∈ p.resolveEvents targets := by
  rw [hl.events]
  exact List.mem_append_right _ (List.mem_cons_of_mem _ he')

/-- The field is linked last, and then come the other tasks. -/
theorem resolve_eq : (p.resolve targets).project =
    after.foldl TaskEvent.apply ((p.atLink before e).linkField e.model i) := by
  have hlast (q : Project) : e.apply q = (q.beforeLink e.model e.task).linkField e.model i := by
    obtain ⟨-, hrun, hi, howner⟩ := hl
    obtain ⟨key, m, task, run⟩ := e
    obtain rfl : run = true := hrun
    cases task with
    | declaration decl value todo definesType =>
      obtain rfl := Option.some.inj hi
      show q.runTask m (.declaration decl value todo definesType) = _
      rw [runTask_declaration]
      exact if_pos howner
    | method | source => cases hi
  rw [p.project_resolve, hl.events, List.foldl_append, List.foldl_cons, hlast, atLink]

theorem writes_link : Writes e.model e.task (p.atLink before e)
    ((p.atLink before e).linkField e.model i) :=
  Writes.nothing.linkField hl.decl hl.owner

theorem models_resolve :
    (p.resolve targets).project.index.models = (p.atLink before e).index.models := by
  rw [hl.resolve_eq, models_events, hl.writes_link.models]

theorem advances_resolve : (p.atLink before e).Advances (p.resolve targets).project := by
  rw [hl.resolve_eq]
  exact hl.writes_link.advances.trans (advances_events _ after)

theorem grows (hsorted : (p.atLink before e).index.Sorted) :
    (p.atLink before e).index.Grows (p.resolve targets).project.index := by
  have hlink := hl.writes_link
  rw [hl.resolve_eq]
  exact (hlink.grows hsorted).trans (grows_events _ (hsorted.of_models hlink.models) after)

/-- The base is among what the task evaluates. -/
theorem evaluatedBy (hbase : e.model.assignedBase? i = some base) {x : NodeId}
    (hx : x ∈ e.model.tree.outsideClosures base) : x ∈ e.model.evaluatedBy e.task := by
  obtain ⟨-, -, hi, howner⟩ := hl
  obtain ⟨key, m, task, run⟩ := e
  cases task with
  | declaration decl value todo definesType =>
    obtain rfl := Option.some.inj hi
    have howner : todo.owner = true := howner
    refine List.mem_flatMap.2 ⟨base, List.mem_append_right _ ?_, hx⟩
    rw [howner, if_pos rfl, hbase]
    exact List.mem_singleton_self base
  | method | source => cases hi

/-- A member of an owner then is one when all tasks are done. -/
theorem members {owner : Owner} {ref : DeclRef}
    (href : ref ∈ (p.atLink before e).index.members owner) :
    ref ∈ (p.resolve targets).project.index.members owner := by
  rw [hl.resolve_eq]
  exact members_events (hl.writes_link.members href)

variable (h : p.Ready config targets)
include h

theorem key_ne {e' : TaskEvent} (he' : e' ∈ after) : e'.key ≠ e.key :=
  p.key_ne_of_other h.once hl.events (List.mem_append_right _ he')

/-- The field is a member of the first owner that its base has when it is linked. -/
theorem mem_members (hbase : e.model.assignedBase? i = some base) {owner : Owner}
    (howner : ((p.atLink before e).ownersOfType
      ((p.atLink before e).exprType e.model base 0)).head? = some owner) :
    e.model.ref i ∈ (p.resolve targets).project.index.members owner := by
  have hm : e.model ∈ (p.atLink before e).index.models := by
    rw [models_atLink]
    exact h.model_mem hl.mem
  rw [hl.resolve_eq]
  apply members_events
  unfold linkField
  rw [hbase]
  dsimp only
  rw [howner]
  exact ProjectIndex.mem_members_addMember hm owner i

/-- A declaration keeps its type from then on, unless a later task is about it. -/
theorem declType_eq {ref : DeclRef}
    (hnone : ∀ e' ∈ after, ∀ j, ref = e'.model.ref j → e'.task.decl? ≠ some j) :
    (p.atLink before e).declType ref = (p.resolve targets).project.declType ref := by
  have hsorted := h.faithful.sorted.of_models (p.models_atLink before e)
  refine (declType_congr hl.models_resolve fun m d hd => ?_).symm
  obtain ⟨f, hf, rfl, href, -⟩ := (ProjectIndex.decl?_eq_some hsorted).1 hd
  rw [hl.resolve_eq, type?_events, findings_linkField]
  rintro e' he' ⟨hrevision, hdecl⟩
  have hf : f.model ∈ p.index.models := p.models_atLink before e ▸ List.mem_map_of_mem hf
  have hmodel : e'.model = f.model :=
    h.unique _ (h.model_mem (hl.mem_of_later he')) _ hf hrevision
  exact hnone e' he' _ (hmodel ▸ href) hdecl

/-- So does a declaration that the base names. -/
theorem declType_of_name (hbase : e.model.assignedBase? i = some base) {x : NodeId}
    (hx : x ∈ e.model.tree.outsideClosures base) {name : String}
    (hn : e.model.tree.node? x = some (.nameExpr name)) {ref : DeclRef}
    (href : (p.atLink before e).named? e.model x = some ref) :
    (p.atLink before e).declType ref = (p.resolve targets).project.declType ref := by
  apply hl.declType_eq h
  rintro e' he' j rfl hj
  -- The task of this declaration would be needed first.
  have hnamed : p.named? e.model x = some (e'.model.ref j) := by
    rw [← named?_alike (p.advances_atLink before e).files (.refl e.model) x, href]
  exact h.no_later_edge hl.events hl.run he' (h.edge_of_name hl.mem (hl.mem_of_later he')
    (hl.key_ne h he') (hl.evaluatedBy hbase hx) hn hj hnamed)

section
variable (hbase : e.model.assignedBase? i = some base) {x : NodeId}
  (hx : x ∈ e.model.tree.outsideClosures base) {base' key : Option NodeId} {colon : Bool}
  (hn : e.model.tree.node? x = some (.indexExpr base' key colon)) {name : String}
  (hname : key.bind e.model.tree.keyText? = some name)
include hbase hx hn hname

/-- No later task is about a field of a name that the base selects. -/
theorem not_assigned_later {e' : TaskEvent} (he' : e' ∈ after) {j : DeclId}
    (hj : e'.task.decl? = some j) {d' : Declaration} (hd' : e'.model.decl? j = some d')
    (hname' : d'.name = name) : d'.kind.isAssignedField = false := by
  subst hname'
  by_contra hkind
  have hassigned : d'.kind.isAssignedField = true := by simpa using hkind
  exact h.no_later_edge hl.events hl.run he' (h.edge_of_field hl.mem (hl.mem_of_later he')
    (hl.key_ne h he') (hl.evaluatedBy hbase hx) hn hname hj hd' hassigned)

/-- A selected field keeps its type. -/
theorem declType_of_field {owner : Owner} {ref : DeclRef}
    (href : (p.atLink before e).directMember? owner name = some ref) :
    (p.atLink before e).declType ref = (p.resolve targets).project.declType ref := by
  apply hl.declType_eq h
  rintro e' he' j rfl hj
  -- It is a member still when all tasks are done.
  obtain ⟨d', hd', hname', hassigned⟩ := h.assigned_of_directMember? (hl.mem_of_later he') hj href
    (p.models_atLink before e) (hl.members (Lookup.mem_of_directMember? href))
  rw [hl.not_assigned_later h hbase hx hn hname he' hj hd' hname'] at hassigned
  cases hassigned

end

/-- What the base is evaluated from is the same when the field is linked and when all tasks are
done. -/
theorem agrees (hbase : e.model.assignedBase? i = some base)
    (hsettles : Settles (p.atLink before e) (p.resolve targets).project after e.model base) :
    Agrees (p.atLink before e) (p.resolve targets).project e.model e.model
      (e.model.tree.outsideClosures base) := by
  have hsorted := h.faithful.sorted.of_models (p.models_atLink before e)
  refine ⟨fun hx hn href => hl.declType_of_name h hbase hx hn href,
    fun {x inner key colon name} hx hn hname => ⟨?_, ?_⟩, fun hx hn hclosure _ => ?_⟩
  · -- Members have been added, but none that is found.
    have hkept := hsettles.fields (inner, name) (SyntaxTree.mem_selections hx hn hname)
    exact (hl.grows hsorted).memberOfType?_eq hl.advances_resolve.files.sameNames
      hl.advances_resolve.depth hkept
  · intro ref href
    obtain ⟨owner, hdirect⟩ := directMember?_of_memberOfType? href
    exact hl.declType_of_field h hbase hx hn hname hdirect
  · -- The link itself finds out no returns, and no later task those of this closure.
    have hm : e.model ∈ (p.atLink before e).index.models :=
      p.models_atLink before e ▸ h.model_mem hl.mem
    refine (closureResult_congr hl.models_resolve hm fun m hm hsource => ?_).symm
    rw [hl.resolve_eq, returnType?_events, findings_linkField]
    intro e' he'
    rw [models_atLink] at hm
    refine ⟨h.unique _ (h.model_mem (hl.mem_of_later he')) m hm, fun hfinds => ?_⟩
    rw [SyntaxTree.syntaxId, show m.tree.source = _ from hsource] at hfinds
    exact hsettles.calls _ (SyntaxTree.mem_callees hx hn) e' he' _ hfinds hclosure

/-- The base keeps its type. -/
theorem exprType_eq (hbase : e.model.assignedBase? i = some base)
    (hsettles : Settles (p.atLink before e) (p.resolve targets).project after e.model base) :
    (p.atLink before e).exprType e.model base 0 =
      (p.resolve targets).project.exprType e.model base 0 := by
  have hproper := h.proper hl.mem
  exact exprType_congr hl.advances_resolve.files hl.advances_resolve.depth (.refl e.model) hproper
    (hl.agrees h hbase hsettles) (SyntaxTree.mem_outsideClosures_self hproper base) 0

end Links

end Project

namespace Compilation

variable {config : Config} {c c' : Compilation} {trees : List SyntaxTree}
  {summary : ResolveSummary} {f : PublishedFile} {i : DeclId} {d : Declaration}

/-- An update does its tasks where its files are published with them. -/
theorem Reached.ready (h : Reached config c) (htrees : ∀ t ∈ trees, t.Proper)
    (hupdate : c.update trees = .ok (summary, c')) :
    (c.openProject trees).Ready config (c.targets trees) := by
  obtain ⟨hfaithful, htargets⟩ := faithful_opened h.faithful.1 h.faithful.2 htrees
  refine ⟨hfaithful, fun m hm m' hm' hrevision => ?_, ?_, htargets, fun t ht => ?_⟩
  · -- The models are those of the compilation that comes about.
    have hmodels : c'.index.models = (c.opened trees).models := by
      rw [eq_of_update hupdate]
      exact (changesOnly_update c trees).models
    obtain ⟨f, hf, rfl⟩ := List.mem_map.1 (hmodels ▸ hm)
    obtain ⟨f', hf', rfl⟩ := List.mem_map.1 (hmodels ▸ hm')
    exact (h.update htrees hupdate).stamped.unique f hf f' hf' hrevision
  · have hfold : c.targets trees =
        ((c.analyses trees).map fun a => ⟨a.model, a.worklist⟩).foldl addTarget [] := by
      rw [targets, List.foldl_map]
    rw [hfold]
    exact onePerSource_foldl_addTarget _ [] List.nodup_nil
  · obtain ⟨a, ha, rfl⟩ := mem_targets ht
    obtain ⟨tree, htree, revision, -, -, rfl⟩ := mem_analyses ha
    exact ⟨tree.outline c.config, Outline.posted c.config (htrees tree htree), rfl, rfl⟩

/-- The target of a file that an update publishes. -/
theorem target_of_file (h : Reached config c) (htrees : ∀ t ∈ trees, t.Proper)
    (hupdate : c.update trees = .ok (summary, c')) (hf : f ∈ c'.index.files)
    (hlast : f.model.generation = c'.generation) :
    ∃ t ∈ c.targets trees, t.model = f.model := by
  have hsorted := h.faithful.2.sorted
  have hready := h.ready htrees hupdate
  rcases file_of_update hsorted hupdate hf with ⟨a, ha, hmodel⟩ | ⟨g, hg, hmodel, -⟩
  · obtain ⟨t, ht, hsource⟩ := exists_target ha
    refine ⟨t, ht, ?_⟩
    have hopened : f.model ∈ (c.opened trees).models := by
      have hmodels := (changesOnly_update c trees).models
      rw [eq_of_update hupdate] at hf
      exact hmodels ▸ List.mem_map_of_mem hf
    exact hready.faithful.sorted.model_unique (hready.published t ht).model hopened
      (hmodel ▸ hsource)
  · -- A file that was there has an earlier generation.
    have hle := h.stamped.generation g hg
    rw [hmodel, hlast, eq_of_update hupdate] at hle
    exact absurd hle (Nat.not_succ_le_self c.generation)

/-- An update takes one task of each assigned field that it publishes, and gives it up just when the
sort of the tasks reports it on a cycle; a task that is given up links nothing. Otherwise the field
is a member of the first owner that its base had by then. The base has the same type when all is
done, if it is a name or if nothing is added later that it is evaluated from; then the field is a
member of the first owner that its base has. -/
theorem assigned_fields_are_members (h : Reached config c) (htrees : ∀ t ∈ trees, t.Proper)
    (hupdate : c.update trees = .ok (summary, c')) (hf : f ∈ c'.index.files)
    (hlast : f.model.generation = c'.generation) (hd : f.model.decl? i = some d)
    (hkind : d.kind.isLinked = true) :
    let p := c.openProject trees
    let targets := c.targets trees
    ∃ before e after, p.resolveEvents targets = before ++ e :: after ∧ e.model = f.model ∧
      e.task.decl? = some i ∧
      (∀ e' ∈ before ++ after, e'.model = f.model → e'.task.decl? ≠ some i) ∧
      (e.run = false ↔ (p.taskGraph targets).Reported e.key) ∧
      (e.run = false → ∀ q : Project, (e.apply q).index = q.index) ∧
      (e.run = true → ∀ base, f.model.assignedBase? i = some base →
        (∀ owner, ((p.atLink before e).ownersOfType
            ((p.atLink before e).exprType f.model base 0)).head? = some owner →
          f.model.ref i ∈ c'.index.members owner) ∧
        ((∃ name, f.model.tree.node? base = some (.nameExpr name)) ∨
            Project.Settles (p.atLink before e) c'.project after f.model base →
          c'.project.exprType f.model base 0 = (p.atLink before e).exprType f.model base 0 ∧
            ∀ owner, (c'.project.ownersOfType (c'.project.exprType f.model base 0)).head? =
              some owner → f.model.ref i ∈ c'.index.members owner)) := by
  intro p targets
  have hready : p.Ready config targets := h.ready htrees hupdate
  obtain ⟨t, ht, hmodel⟩ := target_of_file h htrees hupdate hf hlast
  obtain ⟨o, hposted, hworklist, hdecls⟩ := hready.posted t ht
  have hdecl : o.decls[i]? = some d := by
    rw [hdecls, hmodel]
    exact hd
  obtain ⟨value, todo, definesType, hplace, -, howner⟩ :=
    hposted.tasks hdecl (DeclKind.isValued_of_isLinked hkind)
  rw [hworklist] at hplace
  obtain ⟨before, e, after, hevents, hem, htask, hother⟩ :=
    hready.exists_event_of_decl ht hplace rfl
  have hef : e.model = f.model := hem.trans hmodel
  have he : e ∈ p.resolveEvents targets := by
    rw [hevents]
    exact List.mem_append_right _ List.mem_cons_self
  have hproject : c'.project = (p.resolve targets).project := project_of_update hupdate
  refine ⟨before, e, after, hevents, hef, by rw [htask]; rfl, ?_, p.run_eq_false_iff he, ?_, ?_⟩
  · rw [← hmodel]
    exact hother
  · intro hrun q
    rw [TaskEvent.apply, hrun, if_neg Bool.false_ne_true, Project.index_giveUp]
  · intro hrun base hbase
    have hl : p.Links targets before e after i :=
      ⟨hevents, hrun, by rw [htask]; rfl, by rw [htask]; exact howner hkind⟩
    have hmembers : c'.index.members = (p.resolve targets).project.index.members := by
      rw [← hproject]
      rfl
    rw [← hef] at hbase hd ⊢
    rw [hmembers, hproject]
    refine ⟨fun owner => hl.mem_members hready hbase, fun hsettles => ?_⟩
    have hsettles : Project.Settles (p.atLink before e) (p.resolve targets).project after e.model
        base := by
      rcases hsettles with ⟨name, hname⟩ | hsettles
      · have hproper : e.model.tree.Proper := by
          rw [hef]
          exact ((h.update htrees hupdate).faithful.2.files f hf).proper
        exact Project.settles_of_name hproper hname _ _ after
      · exact hsettles
    have hsame := hl.exprType_eq hready hbase hsettles
    refine ⟨hsame.symm, fun owner howner => hl.mem_members hready hbase ?_⟩
    rw [hsame, Lookup.ownersOfType_alike hl.advances_resolve.files hl.advances_resolve.depth]
    exact howner

/-- Two sources without files. -/
def twoSources : Compilation :=
  (((({} : Compilation).register "/a.lua").2).register "/b.lua").2

theorem reached_twoSources : Reached {} twoSources :=
  (Reached.start.register "/a.lua").register "/b.lua"

/-- `target = value` -/
def assigns (target value : Sketch) : Sketch :=
  .block [.node (.assignStat [target] [value])]

/-- `f().a.b = 1` in one file. In the other one `t = {}`, `t.a = {}` and
`function f() return t end`, then `---@class Q` above `local q = {a = 1}`, and
`function g() return 1 end` -/
def fieldOfField : List SyntaxTree :=
  [.ofSketch 0 (some (assigns (.member (.member (.call (.var "f") []) "a" false) "b" false)
      (.literal (.integer 1)))),
    .ofSketch 1 (some (.block [.node (.assignStat [.var "t"] [.node (.tableExpr [])]),
      .node (.assignStat [.member (.var "t") "a" false] [.node (.tableExpr [])]),
      .function (.var "f") [] [.node (.returnStat [.var "t"])],
      .node (.comment [.classTag "Q" []]),
      .declare ["q"] [.node (.tableExpr [.entry (.name "a") (.literal (.integer 1))])],
      .function (.var "g") [] [.node (.returnStat [.literal (.integer 1)])]]))]

/-- The task of `f().a.b` comes after that of `t.a`, whose table is the owner. Later tasks make
another field `a` a member of `Q` and find out the returns of `g`. -/
theorem field_of_field_is_member :
    ∃ summary c' f d, twoSources.update fieldOfField = .ok (summary, c') ∧ f ∈ c'.index.files ∧
      f.model.decl? 0 = some d ∧ d.kind = .index ∧ d.name = "b" ∧
        f.model.ref 0 ∈ c'.index.members (.anonymous ⟨1, 6⟩) := by
  have htrees : ∀ t ∈ fieldOfField, t.Proper :=
    List.forall_mem_cons.2 ⟨SyntaxTree.proper_ofSketch 0 _ (by decide),
      List.forall_mem_singleton.2 (SyntaxTree.proper_ofSketch 1 _ (by decide))⟩
  let p := twoSources.openProject fieldOfField
  let targets := twoSources.targets fieldOfField
  let events := p.resolveEvents targets
  have hnil : (p.taskGraph targets).sort.cycles = [] := by decide +kernel
  -- At whichever place the task of the field stands, what comes later leaves its base alone.
  have hkept : ∀ k < events.length, ∀ u ∈ events[k]?, u.model.source = 0 →
      u.task.decl? = some 0 → Project.Settles (p.atLink (events.take k) u)
        (p.resolve targets).project (events.drop (k + 1)) u.model 3 := by
    decide +kernel
  have hrun : ((twoSources.update fieldOfField).toOption.any fun done =>
      (done.2.index.file? 0).any fun f => (f.model.decl? 0).any fun d =>
        decide (f.model.generation = done.2.generation ∧ d.kind = .index ∧ d.name = "b" ∧
          f.model.assignedBase? 0 = some 3 ∧
          (done.2.project.ownersOfType (done.2.project.exprType f.model 3 0)).head? =
            some (.anonymous ⟨1, 6⟩))) = true := by decide +kernel
  obtain ⟨summary, c', hupdate, hrun⟩ := exists_of_update hrun
  obtain ⟨f, hfile, hrun⟩ := (Option.any_eq_true _ _).1 hrun
  obtain ⟨d, hd, hrun⟩ := (Option.any_eq_true _ _).1 hrun
  obtain ⟨hlast, hkind, hname, hbase, howner⟩ := of_decide_eq_true hrun
  have hf : f ∈ c'.index.files := List.mem_of_find?_eq_some hfile
  have hsource : f.source = 0 := by simpa using List.find?_some hfile
  refine ⟨summary, c', f, d, hupdate, hf, hd, hkind, hname, ?_⟩
  obtain ⟨before, e, after, hevents, hef, hdecl, -, hreported, -, hmember⟩ :=
    assigned_fields_are_members reached_twoSources htrees hupdate hf hlast hd (by rw [hkind]; rfl)
  have hrun : e.run = true := by
    rw [← Bool.not_eq_false, hreported, DependencyGraph.Reported, hnil]
    exact List.not_mem_nil
  have hsettles : Project.Settles (p.atLink before e) c'.project after f.model 3 := by
    have hsplit : events = before ++ e :: after := hevents
    have hat := hkept before.length (by simp [hsplit]) e (by simp [hsplit])
      (by rw [hef]; exact hsource) hdecl
    rw [project_of_update hupdate, ← hef]
    simpa [hsplit] using hat
  exact ((hmember hrun 3 hbase).2 (.inr hsettles)).2 _ howner

/-- Whether a field is assigned to a base that has owners now, and is a member of none of them. -/
def Unlinked (c : Compilation) (m : FileModel) (i : DeclId) : Prop :=
  ∃ d, m.decl? i = some d ∧ d.kind.isLinked = true ∧ ∃ base, m.assignedBase? i = some base ∧
    c.project.ownersOfType (c.project.exprType m base 0) ≠ [] ∧
      ∀ owner ∈ c.project.ownersOfType (c.project.exprType m base 0),
        m.ref i ∉ c.index.members owner

instance (c : Compilation) (m : FileModel) (i : DeclId) : Decidable (c.Unlinked m i) :=
  decidable_of_iff ((m.decl? i).any (fun d => (m.assignedBase? i).any fun base =>
      decide (d.kind.isLinked = true ∧
        c.project.ownersOfType (c.project.exprType m base 0) ≠ [] ∧
          ∀ owner ∈ c.project.ownersOfType (c.project.exprType m base 0),
            m.ref i ∉ c.index.members owner)) = true)
    (by simp only [Option.any_eq_true, decide_eq_true_eq, Unlinked]
        constructor
        · rintro ⟨d, hd, base, hbase, hkind, howners⟩
          exact ⟨d, hd, hkind, base, hbase, howners⟩
        · rintro ⟨d, hd, hkind, base, hbase, howners⟩
          exact ⟨d, hd, base, hbase, hkind, howners⟩)

/-- `local t = {}`, `t.a = t.b` and `t.b = t.a` -/
def assignsEachOther : Sketch :=
  .block [.declare ["t"] [.node (.tableExpr [])],
    .node (.assignStat [.member (.var "t") "a" false] [.member (.var "t") "b" false]),
    .node (.assignStat [.member (.var "t") "b" false] [.member (.var "t") "a" false])]

def onCycle : Compilation :=
  ofUpdate [.ofSketch 0 (some assignsEachOther), .ofSketch 1 none]

theorem reached_onCycle : Reached {} onCycle := by
  exact reached_ofUpdate (by decide) (by decide)

/-- `---@type P` above `local p` and `p.b.x = 1`; in the other file `---@class P` above
`local P = {b = {}}` -/
def beforeTable : Compilation :=
  ofUpdate [.ofSketch 1 (some (.block [.node (.comment [.typeTag [.typeName "P"]]),
      .declare ["p"] [], .node (.assignStat [.member (.member (.var "p") "b" false) "x" false]
        [.literal (.integer 1)])])),
    .ofSketch 0 (some (.block [.node (.comment [.classTag "P" []]),
      .declare ["P"] [.node (.tableExpr [.entry (.name "b") (.node (.tableExpr []))])]]))]

theorem reached_beforeTable : Reached {} beforeTable := by
  exact reached_ofUpdate (by decide) (by decide)

/-- `g().x = 1`; in the other file `t = {}` and `g = function() return t end` -/
def beforeReturns : Compilation :=
  ofUpdate [.ofSketch 0 (some (assigns (.member (.call (.var "g") []) "x" false)
      (.literal (.integer 1)))),
    .ofSketch 1 (some (.block [.node (.assignStat [.var "t"] [.node (.tableExpr [])]),
      .node (.assignStat [.var "g"] [.closure [] [.node (.returnStat [.var "t"])]])]))]

theorem reached_beforeReturns : Reached {} beforeReturns := by
  exact reached_ofUpdate (by decide) (by decide)

/-- Two fields that need each other are given up, so neither is a member of their table. A field of
a class that is assigned before the table of the class shares its fields finds no owner, and neither
does a field of what a call gives before the returns of the closure are found out. -/
theorem fields_stay_unlinked :
    (Reached {} onCycle ∧ (∀ f ∈ onCycle.index.files, f.model.generation = onCycle.generation) ∧
        ∃ f ∈ onCycle.index.files, onCycle.Unlinked f.model 1 ∧ onCycle.Unlinked f.model 2) ∧
      (Reached {} beforeTable ∧
        (∀ f ∈ beforeTable.index.files, f.model.generation = beforeTable.generation) ∧
        ∃ f ∈ beforeTable.index.files, beforeTable.Unlinked f.model 1) ∧
      Reached {} beforeReturns ∧
        (∀ f ∈ beforeReturns.index.files, f.model.generation = beforeReturns.generation) ∧
        ∃ f ∈ beforeReturns.index.files, beforeReturns.Unlinked f.model 0 :=
  ⟨⟨reached_onCycle, by decide +kernel, by decide +kernel⟩,
    ⟨reached_beforeTable, by decide +kernel, by decide +kernel⟩,
    reached_beforeReturns, by decide +kernel, by decide +kernel⟩

end Compilation

end LuaAnalysis
