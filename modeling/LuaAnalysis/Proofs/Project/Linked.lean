import LuaAnalysis.Proofs.Project.Published
import LuaAnalysis.Proofs.Resolve.TaskOrder

/-!
# What tasks do to an index

Tasks change an index in two ways: they make an assigned field a member of an owner, and the fields
of a table members of the type that the table defines. So a faithful index stays faithful, and every
reference leads where it led before.

Main statement: `Project.linked_resolve`.
-/

namespace LuaAnalysis

/-- `idx'` comes from `idx` by making assigned fields members of owners, and the members of tables
those of the types that the tables define. -/
inductive ProjectIndex.Linked (idx : ProjectIndex) : ProjectIndex → Prop where
  | refl : Linked idx idx
  | field {idx' : ProjectIndex} {m : FileModel} {i : DeclId} {d : Declaration}
      (h : Linked idx idx') (hm : m ∈ idx.models) (hd : m.decl? i = some d)
      (hassigned : d.kind.isAssignedField = true) (hfield : d.kind.isField = false)
      (owner : Owner) : Linked idx (idx'.amend m.source (·.addMember owner i))
  | table {idx' : ProjectIndex} {m : FileModel} {expr : NodeId} {name : String}
      (h : Linked idx idx') (hm : m ∈ idx.models) (hdefines : m.tree.Defines expr name) :
      Linked idx (idx'.amend m.source (Entries.shareMembers (m.tree.syntaxId expr) name))

namespace ProjectIndex

variable {config : Config} {idx idx' idx'' : ProjectIndex}

theorem models_amend (idx : ProjectIndex) (source : SourceId) (change : Entries → Entries) :
    (idx.amend source change).models = idx.models := by
  unfold models amend
  rw [List.map_map]
  refine List.map_congr_left fun f _ => ?_
  show (if f.source = source then { f with entries := change f.entries } else f).model = f.model
  split <;> rfl

theorem sorted_iff : idx.Sorted ↔ idx.models.Pairwise fun m m' => m.source < m'.source := by
  rw [models, List.pairwise_map]
  rfl

theorem Sorted.of_models (h : idx.Sorted) (hmodels : idx'.models = idx.models) : idx'.Sorted := by
  rw [sorted_iff, hmodels]
  exact sorted_iff.1 h

theorem Linked.models (h : Linked idx idx') : idx'.models = idx.models := by
  induction h with
  | refl => rfl
  | field _ _ _ _ _ _ ih => rw [models_amend, ih]
  | table _ _ _ ih => rw [models_amend, ih]

theorem Linked.trans (h : Linked idx idx') (h' : Linked idx' idx'') : Linked idx idx'' := by
  induction h' with
  | refl => exact h
  | field _ hm hd hassigned hfield owner ih =>
    exact ih.field (h.models ▸ hm) hd hassigned hfield owner
  | table _ hm hdefines ih => exact ih.table (h.models ▸ hm) hdefines

/-- Only what a change makes of the entries of the file counts. -/
theorem amend_congr (h : idx.Sorted) {f : PublishedFile} (hf : f ∈ idx.files)
    {change change' : Entries → Entries} (hsame : change f.entries = change' f.entries) :
    idx.amend f.source change = idx.amend f.source change' := by
  unfold amend
  congr 1
  refine List.map_congr_left fun g hg => ?_
  split
  · next hsource =>
    obtain rfl := h.unique hg hf hsource
    rw [hsame]
  · rfl

/-- What holds of every file still does after an entry of one is changed, when the change keeps it. -/
theorem Sorted.forall_amend (h : idx.Sorted) {m : FileModel} (hm : m ∈ idx.models)
    {P : PublishedFile → Prop} (hall : ∀ f ∈ idx.files, P f) {change : Entries → Entries}
    (hchange : ∀ f : PublishedFile, f.model = m → P f →
      P { f with entries := change f.entries }) :
    ∀ f ∈ (idx.amend m.source change).files, P f := by
  intro f hf
  obtain ⟨g, hg, rfl⟩ := List.mem_map.1 hf
  split
  · next hsource =>
    -- The file of the source is the one of the model.
    obtain ⟨g', hg', rfl⟩ := List.mem_map.1 hm
    obtain rfl : g = g' := h.unique hg hg' hsource
    exact hchange g rfl (hall g hg)
  · exact hall g hg

theorem Sorted.amend (h : idx.Sorted) (source : SourceId) (change : Entries → Entries) :
    (idx.amend source change).Sorted := by
  rw [sorted_iff, models_amend]
  exact sorted_iff.1 h

/-- Changing the entries of the file of a model keeps an index faithful, when it keeps the file
faithful. -/
theorem Faithful.amend (h : idx.Faithful config) {m : FileModel} (hm : m ∈ idx.models)
    {change : Entries → Entries}
    (hchange : ∀ f : PublishedFile, f.model = m → f.Faithful config →
      PublishedFile.Faithful config { f with entries := change f.entries }) :
    (idx.amend m.source change).Faithful config :=
  ⟨h.sorted.amend m.source change, h.sorted.forall_amend hm h.files hchange⟩

theorem Linked.faithful (h : Linked idx idx') (hidx : idx.Faithful config) :
    idx'.Faithful config := by
  induction h with
  | refl => exact hidx
  | field hlinked hm hd hassigned hfield owner ih =>
    refine ih.amend (hlinked.models ▸ hm) fun f hf hfaithful => ?_
    subst hf
    exact hfaithful.addMember owner hd (DeclKind.isMember_of_isAssignedField hassigned) hfield
  | table hlinked hm hdefines ih =>
    refine ih.amend (hlinked.models ▸ hm) fun f hf hfaithful => ?_
    subst hf
    exact hfaithful.shareMembers hdefines

end ProjectIndex

/-! ## Running tasks -/

namespace Project

variable {config : Config} {p : Project} {m : FileModel}

theorem index_resolveType (p : Project) (m : FileModel) (decl : DeclId) (value : Option ValueRef) :
    (p.resolveType m decl value).index = p.index := by
  unfold resolveType
  split <;> rfl

/-- The members of a table become those of the type that the table defines. -/
theorem linked_linkTable (h : p.index.Faithful config) (hm : m ∈ p.index.models) {decl : DeclId}
    {d : Declaration} (hd : m.decl? decl = some d) {name : String}
    (hwritten : d.written = some (.named name)) {value : Option ValueRef}
    (hdefines : ∀ v ∈ value, m.tree.Defines v.expr name) :
    p.index.Linked (p.linkTable m decl value).index := by
  have htype : p.findings.type? m decl = some (.named name) := by
    rw [Findings.type?, hd]
    dsimp only
    rw [hwritten, Option.some_or]
  unfold linkTable
  rw [htype]
  cases value with
  | none => exact .refl
  | some v =>
    dsimp only
    split
    · -- The entries of the file are those that the members are taken from.
      obtain ⟨f, hf, rfl⟩ := List.mem_map.1 hm
      have hfile : p.index.file? f.model.source = some f :=
        (ProjectIndex.file?_eq_some h.sorted).2 ⟨hf, rfl⟩
      rw [hfile, Option.map_some, Option.getD_some]
      have hshare : p.index.amend f.model.source (·.addMembers (.named name)
          (f.entries.members.values (.anonymous (f.model.tree.syntaxId v.expr)))) =
          p.index.amend f.model.source
            (Entries.shareMembers (f.model.tree.syntaxId v.expr) name) :=
        ProjectIndex.amend_congr h.sorted hf rfl
      refine (congrArg p.index.Linked hshare).mpr ?_
      exact ProjectIndex.Linked.refl.table hm (hdefines v rfl)
    · exact .refl

theorem linked_linkField (hm : m ∈ p.index.models) {decl : DeclId} {d : Declaration}
    (hd : m.decl? decl = some d) (hassigned : d.kind.isAssignedField = true)
    (hfield : d.kind.isField = false) : p.index.Linked (p.linkField m decl).index := by
  unfold linkField
  split
  · split
    · exact ProjectIndex.Linked.refl.field hm hd hassigned hfield _
    · exact .refl
  · exact .refl

theorem linked_runTask (h : p.index.Faithful config) (hm : m ∈ p.index.models) {task : Task}
    (htask : task.Concerns m.tree m.decls) : p.index.Linked (p.runTask m task).index := by
  cases task with
  | declaration decl value todo definesType =>
    obtain ⟨d, hd, howner, hdefines⟩ := htask
    -- Typing leaves the index as it is; a table is linked, then a field.
    have htyped (q : Project) (hq : q.index = p.index) : p.index.Linked
        (if definesType then q.linkTable m decl value else q).index := by
      split
      · next hdefinesType =>
        obtain ⟨name, hwritten, hvalue⟩ := hdefines hdefinesType
        rw [← hq] at h hm ⊢
        exact linked_linkTable h hm hd hwritten hvalue
      · rw [hq]
        exact .refl
    have hlinked (q : Project) (hq : p.index.Linked q.index) : p.index.Linked
        (if todo.owner then q.linkField m decl else q).index := by
      split
      · next hopen =>
        obtain ⟨hassigned, hfield⟩ := howner hopen
        rw [← hq.models] at hm
        exact hq.trans (linked_linkField hm hd hassigned hfield)
      · exact hq
    refine hlinked _ (htyped _ ?_)
    split
    · exact index_resolveType p m decl value
    · rfl
  | method closure =>
    unfold runTask
    dsimp only
    split
    · split <;> exact .refl
    · exact .refl
  | source body => exact .refl

theorem index_giveUp (p : Project) (m : FileModel) (task : Task) :
    (p.giveUp m task).index = p.index := by
  unfold giveUp
  split
  · rfl
  · split <;> rfl
  · rfl

end Project

/-- A target whose file is published and whose tasks are those of the file. -/
structure Target.Of (idx : ProjectIndex) (t : Target) : Prop where
  model : t.model ∈ idx.models
  tasks : ∀ task, some task ∈ t.worklist.places → task.Concerns t.model.tree t.model.decls

theorem concerns_of_taskAt? {idx : ProjectIndex} {targets : List Target}
    (h : ∀ t ∈ targets, t.Of idx) {key : TaskKey} {m : FileModel} {task : Task}
    (htask : taskAt? targets key = some (m, task)) :
    m ∈ idx.models ∧ task.Concerns m.tree m.decls := by
  obtain ⟨t, hfind, hmap⟩ := Option.bind_eq_some_iff.1 htask
  obtain ⟨task', hget, heq⟩ := Option.map_eq_some_iff.1 hmap
  obtain ⟨rfl, rfl⟩ := Prod.mk.inj heq
  have ht := h t (List.mem_of_find?_eq_some hfind)
  have hplace : some task' ∈ t.worklist.places :=
    List.mem_of_getElem? (Option.join_eq_some_iff.1 hget)
  exact ⟨ht.model, ht.tasks task' hplace⟩

/-- A resolution only makes fields members of owners. -/
theorem Project.linked_resolve {config : Config} {p : Project} {targets : List Target}
    (h : p.index.Faithful config) (htargets : ∀ t ∈ targets, t.Of p.index) :
    p.index.Linked (p.resolve targets).project.index := by
  have hevents : ∀ e ∈ p.resolveEvents targets,
      e.model ∈ p.index.models ∧ e.task.Concerns e.model.tree e.model.decls := fun e he =>
    concerns_of_taskAt? htargets (p.mem_resolveEvents.1 he).1
  rw [project_resolve]
  generalize p.resolveEvents targets = events at hevents
  -- The tasks already done have linked `p` to the project that the next one finds.
  suffices hrun : ∀ q : Project, p.index.Linked q.index →
      p.index.Linked (events.foldl TaskEvent.apply q).index from hrun p .refl
  induction events with
  | nil => exact fun q hq => hq
  | cons e events ih =>
    intro q hq
    refine ih (fun e' he' => hevents e' (List.mem_cons_of_mem _ he')) _ ?_
    obtain ⟨hm, htask⟩ := hevents e List.mem_cons_self
    unfold TaskEvent.apply
    split
    · exact hq.trans (linked_runTask (hq.faithful h) (hq.models ▸ hm) htask)
    · rw [index_giveUp]
      exact hq

end LuaAnalysis
