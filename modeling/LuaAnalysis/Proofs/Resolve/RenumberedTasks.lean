import LuaAnalysis.Proofs.Project.Renumbering
import LuaAnalysis.Proofs.Resolve.TaskOrder

/-!
# Tasks in renumbered projects

The tasks of some files depend on each other as they do in a renumbered project, so they are taken in
the same order there, and as many of them are given up. Each of them finds out the same and links the
same, so the projects are still alike when all tasks are done.

Main statements: `Project.taskGraph_renumbered`, `Project.resolve_renumbered`.
-/

namespace LuaAnalysis

namespace Renumbering

variable (σ : Renumbering)

def target (t : Target) : Target :=
  { t with model := σ.model t.model }

/-- A pending task of a renumbered file. -/
def pending (e : TaskKey × FileModel × Task) : TaskKey × FileModel × Task :=
  (e.1, σ.model e.2.1, e.2.2)

def event (e : TaskEvent) : TaskEvent :=
  { e with model := σ.model e.model }

def table (table : TaskTable) : TaskTable :=
  { table with decls := table.decls.map fun entry => (σ.ref entry.1, entry.2) }

end Renumbering

variable {σ : Renumbering} {p q : Project}

/-! ## The task table -/

theorem pendingTasks_map (targets : List Target) :
    pendingTasks (targets.map σ.target) = (pendingTasks targets).map σ.pending := by
  unfold pendingTasks
  rw [List.flatMap_map, List.map_flatMap]
  simp only [List.map_map]
  rfl

theorem taskAt?_map (targets : List Target) (key : TaskKey) :
    taskAt? (targets.map σ.target) key =
      (taskAt? targets key).map fun found => (σ.model found.1, found.2) := by
  unfold taskAt?
  rw [List.find?_map]
  show ((targets.find? fun t => t.model.source = key.source).map σ.target).bind _ = _
  cases targets.find? fun t => t.model.source = key.source with
  | none => rfl
  | some t =>
    show ((σ.target t).worklist.get? key.place).map _ = _
    rw [show (σ.target t).worklist = t.worklist from rfl]
    simp only [Option.bind_some, Option.map_map]
    rfl

namespace TaskTable

variable (table : TaskTable)

theorem add_renumbered (e : TaskKey × FileModel × Task) :
    (σ.table table).add (σ.pending e) = σ.table (table.add e) := by
  obtain ⟨key, m, task⟩ := e
  cases task with
  | declaration decl value todo definesType =>
    dsimp only [Renumbering.pending, add]
    rw [show (σ.model m).decl? decl = m.decl? decl from rfl]
    cases m.decl? decl with
    | none => rfl
    | some d =>
      dsimp only
      split <;> rfl
  | method closure => rfl
  | source body => rfl

theorem ofTasks_renumbered (tasks : List (TaskKey × FileModel × Task)) :
    ofTasks (tasks.map σ.pending) = σ.table (ofTasks tasks) := by
  have hfold (tasks : List (TaskKey × FileModel × Task)) (table : TaskTable) :
      (tasks.map σ.pending).foldl add (σ.table table) = σ.table (tasks.foldl add table) := by
    induction tasks generalizing table with
    | nil => rfl
    | cons e tasks ih => rw [List.map_cons, List.foldl_cons, List.foldl_cons, add_renumbered, ih]
  exact hfold tasks {}

theorem declTask?_renumbered (ref : DeclRef) :
    (σ.table table).declTask? (σ.ref ref) = table.declTask? ref := by
  unfold declTask? Renumbering.table
  have hsame : (fun entry : DeclRef × TaskKey => decide (entry.1 = σ.ref ref)) ∘
      (fun entry : DeclRef × TaskKey => (σ.ref entry.1, entry.2)) =
        fun entry => decide (entry.1 = ref) := by
    funext entry
    exact decide_eq_decide.2 σ.ref_injective.eq_iff
  dsimp only
  rw [List.find?_map, hsame, Option.map_map]
  rfl

theorem ofDeclaration_renumbered (ref : DeclRef) (closure : Option SyntaxId) :
    (σ.table table).ofDeclaration (σ.ref ref) closure = table.ofDeclaration ref closure := by
  unfold ofDeclaration
  rw [declTask?_renumbered]
  rfl

end TaskTable

namespace Project

variable (h : p.Renumbered σ q)
include h

/-! ## The graph -/

section
variable {m : FileModel} (hm : σ.live m.revision) (table : TaskTable)
include hm

theorem nameTasks_renumbered (name : NodeId) :
    q.nameTasks (σ.table table) (σ.model m) name = p.nameTasks table m name := by
  unfold nameTasks
  rw [declaration?_renumbered h hm]
  cases p.declaration? m name with
  | none => rfl
  | some ref =>
    dsimp only [Option.map_some]
    rw [TaskTable.ofDeclaration_renumbered, ProjectIndex.decl?_renumbered h.index, Option.bind_map]
    rfl

theorem taskDependencies_renumbered (task : Task) :
    q.taskDependencies (σ.table table) (σ.model m) task = p.taskDependencies table m task := by
  have hnames : q.nameTasks (σ.table table) (σ.model m) = p.nameTasks table m :=
    funext (nameTasks_renumbered h hm table)
  unfold taskDependencies
  rw [hnames]
  cases task <;> rfl

end

theorem addTask_renumbered (table : TaskTable) (graph : DependencyGraph TaskKey)
    {e : TaskKey × FileModel × Task} (he : σ.live e.2.1.revision) :
    q.addTask (σ.table table) graph (σ.pending e) = p.addTask table graph e := by
  obtain ⟨key, m, task⟩ := e
  dsimp only [addTask, Renumbering.pending]
  rw [taskDependencies_renumbered h he]

/-- The tasks of some files depend on each other as they did. -/
theorem taskGraph_renumbered {targets : List Target}
    (htargets : ∀ t ∈ targets, σ.live t.model.revision) :
    q.taskGraph (targets.map σ.target) = p.taskGraph targets := by
  have hpending : ∀ e ∈ pendingTasks targets, σ.live e.2.1.revision := by
    intro e he
    obtain ⟨t, ht, he⟩ := List.mem_flatMap.1 he
    obtain ⟨-, -, rfl⟩ := List.mem_map.1 he
    exact htargets t ht
  unfold taskGraph
  dsimp only
  rw [pendingTasks_map, TaskTable.ofTasks_renumbered, List.foldl_map]
  generalize TaskTable.ofTasks (pendingTasks targets) = table
  generalize ({} : DependencyGraph TaskKey) = graph
  generalize pendingTasks targets = tasks at hpending
  induction tasks generalizing graph with
  | nil => rfl
  | cons e tasks ih =>
    obtain ⟨he, htasks⟩ := List.forall_mem_cons.1 hpending
    rw [List.foldl_cons, List.foldl_cons, addTask_renumbered h table graph he]
    exact ih _ htasks

theorem resolveEvents_renumbered {targets : List Target}
    (htargets : ∀ t ∈ targets, σ.live t.model.revision) :
    q.resolveEvents (targets.map σ.target) = (p.resolveEvents targets).map σ.event := by
  rw [resolveEvents_eq, resolveEvents_eq, taskGraph_renumbered h htargets, List.map_filterMap]
  refine List.filterMap_congr fun key _ => ?_
  rw [taskAt?_map, Option.map_map, Option.map_map]
  rfl

end Project

/-! ## What a task writes -/

/-- A cell written under a renamed key is found where it was. -/
theorem WriteOnce.get?_put_renamed {κ κ' α : Type} [DecidableEq κ] [DecidableEq κ']
    {rename : κ → κ'}
    (hrename : Function.Injective rename) {w : WriteOnce κ α} {w' : WriteOnce κ' α} (k k' : κ)
    (hk : w'.get? (rename k) = w.get? k) (hk' : w'.get? (rename k') = w.get? k') (a : α) :
    (w'.put (rename k) a).get? (rename k') = (w.put k a).get? k' := by
  rw [get?_put, get?_put, hk, hk', if_congr hrename.eq_iff rfl rfl]

namespace Renumbering

theorem key_injective {ι : Type} (σ : Renumbering) :
    Function.Injective fun key : Revision × ι => (σ.rev key.1, key.2) := by
  intro key key' hkey
  obtain ⟨hrevision, hid⟩ := Prod.mk.inj hkey
  exact Prod.ext (σ.rev_injective hrevision) hid

end Renumbering

namespace Findings.Renumbered

variable {f g : Findings} (h : f.Renumbered σ g) {m : FileModel} (hm : σ.live m.revision)
include h hm

theorem setType (id : DeclId) (type : Ty) :
    (f.setType m id type).Renumbered σ (g.setType (σ.model m) id type) := by
  unfold Findings.setType
  rw [h.type? hm]
  split
  · exact h
  · exact {
      types := fun {k} hk id' => WriteOnce.get?_put_renamed σ.key_injective (m.revision, id)
        (k, id') (h.types hm id) (h.types hk id') type
      returns := h.returns
      moduleReturns := h.moduleReturns }

theorem setReturns (closure : NodeId) (returns : List Ty) :
    (f.setReturns m closure returns).Renumbered σ (g.setReturns (σ.model m) closure returns) where
  types := h.types
  returns {k} hk id := WriteOnce.get?_put_renamed σ.key_injective (m.revision, closure) (k, id)
    (h.returns hm closure) (h.returns hk id) returns
  moduleReturns := h.moduleReturns

theorem setModuleReturns (returns : List Ty) :
    (f.setModuleReturns m returns).Renumbered σ (g.setModuleReturns (σ.model m) returns) where
  types := h.types
  returns := h.returns
  moduleReturns {k} hk := WriteOnce.get?_put_renamed σ.rev_injective m.revision k
    (h.moduleReturns hm) (h.moduleReturns hk) returns

end Findings.Renumbered

/-- A change that does not look at occurrences is made alike. -/
theorem ProjectIndex.Renumbered.amend {idx idx' : ProjectIndex} (h : idx.Renumbered σ idx')
    (source : SourceId) {change : Entries → Entries}
    (hchange : ∀ e, (change e).withoutOccurrences = change e.withoutOccurrences) :
    (idx.amend source change).Renumbered σ (idx'.amend source change) := by
  unfold ProjectIndex.Renumbered ProjectIndex.amend
  rw [List.forall₂_map_left_iff, List.forall₂_map_right_iff]
  refine List.Forall₂.imp (fun f g hfg => ?_) h
  rw [hfg.source]
  split
  · exact {
      model := hfg.model
      entries := by
        show (change g.entries).withoutOccurrences = (change f.entries).withoutOccurrences
        rw [hchange, hchange, hfg.entries]
      live := hfg.live }
  · exact hfg

namespace Project

/-! ## Running a task -/

section
variable (h : p.Renumbered σ q)
include h

theorem amend_renumbered (source : SourceId) {change : Entries → Entries}
    (hchange : ∀ e, (change e).withoutOccurrences = change e.withoutOccurrences) :
    (p.amend source change).Renumbered σ (q.amend source change) where
  index := h.index.amend source hchange
  depth := h.depth
  findings := h.findings

variable {m : FileModel} (hm : σ.live m.revision)
include hm

theorem valuesOf_renumbered (exprs : List NodeId) :
    q.valuesOf (σ.model m) exprs = p.valuesOf m exprs := by
  induction exprs with
  | nil => rfl
  | cons e rest ih =>
    cases rest with
    | nil =>
      unfold valuesOf
      rw [callType_renumbered h hm, exprType_renumbered h hm]
      rfl
    | cons e' rest =>
      show q.exprType (σ.model m) e 0 :: q.valuesOf (σ.model m) (e' :: rest) =
        p.exprType m e 0 :: p.valuesOf m (e' :: rest)
      rw [ih, exprType_renumbered h hm]

theorem inferReturns_renumbered (body : NodeId) :
    q.inferReturns (σ.model m) body = p.inferReturns m body := by
  have hreturned : q.returnedValues (σ.model m) = p.returnedValues m := by
    funext stat
    unfold returnedValues
    rw [funext (valuesOf_renumbered h hm)]
    rfl
  unfold inferReturns
  rw [hreturned]
  rfl

theorem resolveType_renumbered (decl : DeclId) (value : Option ValueRef) :
    (p.resolveType m decl value).Renumbered σ (q.resolveType (σ.model m) decl value) := by
  unfold resolveType
  rw [h.findings.type? hm, exprType_renumbered h hm]
  split
  · exact h
  · exact ⟨h.index, h.depth, h.findings.setType hm decl _⟩

theorem linkTable_renumbered (decl : DeclId) (value : Option ValueRef) :
    (p.linkTable m decl value).Renumbered σ (q.linkTable (σ.model m) decl value) := by
  have hmembers (table : Owner) :
      (q.index.file? m.source).map (fun f => f.entries.members.values table) =
        (p.index.file? m.source).map fun f => f.entries.members.values table := by
    have hfile := ProjectIndex.file?_renumbered h.index m.source
    generalize p.index.file? m.source = found at hfile
    generalize q.index.file? m.source = found' at hfile
    cases hfile with
    | none => rfl
    | some hfg =>
      rw [Option.map_some, Option.map_some, hfg.table Entries.members fun _ => rfl]
  have hchange (name : String) (members : List DeclId) (e : Entries) :
      (members.foldl (fun e member => e.addMember (.named name) member) e).withoutOccurrences =
        members.foldl (fun e member => e.addMember (.named name) member) e.withoutOccurrences := by
    induction members generalizing e with
    | nil => rfl
    | cons member members ih => exact ih (e.addMember (.named name) member)
  unfold linkTable
  rw [h.findings.type? hm, show (σ.model m).source = m.source from rfl,
    show (σ.model m).tree = m.tree from rfl]
  split
  · split
    · dsimp only
      rw [hmembers]
      exact amend_renumbered h m.source (hchange _ _)
    · exact h
  · exact h

theorem linkField_renumbered (decl : DeclId) :
    (p.linkField m decl).Renumbered σ (q.linkField (σ.model m) decl) := by
  have howners : q.ownersOfType = p.ownersOfType := Lookup.ownersOfType_renumbered h.index h.depth
  unfold linkField
  rw [exprType_renumbered h hm, howners,
    show (σ.model m).assignedBase? decl = m.assignedBase? decl from rfl]
  split
  · split
    · exact amend_renumbered h m.source fun _ => rfl
    · exact h
  · exact h

theorem runTask_renumbered (task : Task) :
    (p.runTask m task).Renumbered σ (q.runTask (σ.model m) task) := by
  cases task with
  | declaration decl value todo definesType =>
    have htyped : (if todo.type then p.resolveType m decl value else p).Renumbered σ
        (if todo.type then q.resolveType (σ.model m) decl value else q) := by
      split
      · exact resolveType_renumbered h hm decl value
      · exact h
    have hlinked (p q : Project) (h : p.Renumbered σ q) :
        (if definesType then p.linkTable m decl value else p).Renumbered σ
          (if definesType then q.linkTable (σ.model m) decl value else q) := by
      split
      · exact linkTable_renumbered h hm decl value
      · exact h
    unfold runTask
    dsimp only
    split
    · exact linkField_renumbered (hlinked _ _ htyped) hm decl
    · exact hlinked _ _ htyped
  | method closure =>
    unfold runTask
    dsimp only
    rw [show (σ.model m).method? closure = m.method? closure from rfl,
      show (σ.model m).closureBody? closure = m.closureBody? closure from rfl]
    split
    · rw [inferReturns_renumbered h hm]
      split
      · exact h
      · exact ⟨h.index, h.depth, h.findings.setReturns hm closure _⟩
    · exact h
  | source body =>
    unfold runTask
    dsimp only
    rw [inferReturns_renumbered h hm]
    exact ⟨h.index, h.depth, h.findings.setModuleReturns hm _⟩

theorem giveUp_renumbered (task : Task) :
    (p.giveUp m task).Renumbered σ (q.giveUp (σ.model m) task) := by
  cases task with
  | declaration decl value todo definesType =>
    exact ⟨h.index, h.depth, h.findings.setType hm decl .unknown⟩
  | method closure =>
    unfold giveUp
    dsimp only
    rw [show (σ.model m).method? closure = m.method? closure from rfl]
    split
    · exact ⟨h.index, h.depth, h.findings.setReturns hm closure [.unknown]⟩
    · exact h
  | source body => exact ⟨h.index, h.depth, h.findings.setModuleReturns hm [.unknown]⟩

end

/-! ## Running all tasks -/

theorem apply_renumbered (h : p.Renumbered σ q) {e : TaskEvent} (he : σ.live e.model.revision) :
    (e.apply p).Renumbered σ ((σ.event e).apply q) := by
  unfold TaskEvent.apply
  rw [show (σ.event e).run = e.run from rfl]
  split
  · exact runTask_renumbered h he e.task
  · exact giveUp_renumbered h he e.task

theorem applyAll_renumbered (h : p.Renumbered σ q) {events : List TaskEvent}
    (hevents : ∀ e ∈ events, σ.live e.model.revision) :
    (events.foldl TaskEvent.apply p).Renumbered σ
      ((events.map σ.event).foldl TaskEvent.apply q) := by
  induction events generalizing p q with
  | nil => exact h
  | cons e events ih =>
    obtain ⟨he, hevents⟩ := List.forall_mem_cons.1 hevents
    exact ih (apply_renumbered h he) hevents

variable (h : p.Renumbered σ q) {targets : List Target}
  (htargets : ∀ t ∈ targets, σ.live t.model.revision)
include h htargets

/-- Projects that differ in numbers and occurrences differ in no more when the tasks are done. -/
theorem resolve_renumbered :
    (p.resolve targets).project.Renumbered σ (q.resolve (targets.map σ.target)).project := by
  have hevents : ∀ e ∈ p.resolveEvents targets, σ.live e.model.revision := by
    intro e he
    have htask := (p.mem_resolveEvents.1 he).1
    obtain ⟨t, ht, htask⟩ := Option.bind_eq_some_iff.1 htask
    obtain ⟨task, -, heq⟩ := Option.map_eq_some_iff.1 htask
    rw [← (Prod.mk.inj heq).1]
    exact htargets t (List.mem_of_find?_eq_some ht)
  rw [project_resolve, project_resolve, resolveEvents_renumbered h htargets]
  exact applyAll_renumbered h hevents

/-- As many tasks are run, and as many are given up. -/
theorem summary_resolve_renumbered :
    (q.resolve (targets.map σ.target)).summary = (p.resolve targets).summary := by
  rw [summary_resolve, summary_resolve, resolveEvents_renumbered h htargets, List.countP_map,
    List.countP_map]
  rfl

end Project

end LuaAnalysis
