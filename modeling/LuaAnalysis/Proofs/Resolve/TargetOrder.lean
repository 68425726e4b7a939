import LuaAnalysis.Proofs.Resolve.Stages

/-!
# The tasks of the same files in another order

The files of a change set come in some order, and the task graph has its nodes and edges in an order
that follows from it. What the graph relates does not depend on the order: a declaration or a
closure has one task at most, so it does not matter where the table of the tasks has it. Without
cycles the same tasks are run, in whatever order.

Main statements: `Project.Distinct.needs_perm`, `Project.Orderly.mem_events_perm`.
-/

namespace LuaAnalysis

namespace Project

variable {config : Config} {p : Project} {targets targets' : List Target}

theorem pendingTasks_perm (hperm : targets.Perm targets') :
    (pendingTasks targets).Perm (pendingTasks targets') :=
  hperm.flatMap_right _

namespace Distinct

variable (h : p.Distinct config targets)
include h

theorem key_unique_of_pending {key key' : TaskKey} {m m' : FileModel} {task task' : Task}
    (hpending : (key, m, task) ∈ pendingTasks targets)
    (hpending' : (key', m', task') ∈ pendingTasks targets) (hsource : m'.source = m.source)
    (hsubject : task'.subject = task.subject) : key' = key := by
  obtain ⟨e, he, rfl, rfl, rfl⟩ := h.event_of_pending hpending
  obtain ⟨u, hu, rfl, rfl, rfl⟩ := h.event_of_pending hpending'
  have hmodel : u.model = e.model :=
    h.faithful.sorted.model_unique (h.model_mem hu) (h.model_mem he) hsource
  rw [h.eq_of_subject he hu (by rw [hmodel]) hsubject]

/-! ## The table of the tasks -/

theorem declTask?_eq_some {ref : DeclRef} {key : TaskKey} :
    (TaskTable.ofTasks (pendingTasks targets)).declTask? ref = some key ↔
      ∃ m task i, (key, m, task) ∈ pendingTasks targets ∧ task.decl? = some i ∧ ref = m.ref i := by
  constructor
  · intro htask
    obtain ⟨⟨ref', key'⟩, hfind, rfl⟩ := Option.map_eq_some_iff.1 htask
    obtain rfl : ref' = ref := by simpa using List.find?_some hfind
    exact (TaskTable.mem_decls_foldl_add.1 (List.mem_of_find?_eq_some hfind)).resolve_left
      List.not_mem_nil
  · rintro ⟨m, task, i, hpending, hi, rfl⟩
    obtain ⟨key', m', task', htable, hpending', hi', hsource⟩ :=
      TaskTable.exists_declTask? hpending hi
    have hsubject : task'.subject = task.subject := by
      rw [Task.subject_eq_decl.2 hi, Task.subject_eq_decl.2 hi']
    rw [htable, h.key_unique_of_pending hpending hpending' hsource hsubject]

theorem methodTask?_eq_some {closure : Option SyntaxId} {key : TaskKey} :
    (TaskTable.ofTasks (pendingTasks targets)).methodTask? closure = some key ↔
      ∃ m node, (key, m, .method node) ∈ pendingTasks targets ∧
        closure = some (m.tree.syntaxId node) := by
  constructor
  · intro htask
    obtain ⟨id, rfl, hfound⟩ := Option.bind_eq_some_iff.1 htask
    obtain ⟨⟨id', key'⟩, hfind, rfl⟩ := Option.map_eq_some_iff.1 hfound
    obtain rfl : id' = id := by simpa using List.find?_some hfind
    obtain ⟨m, node, hpending, rfl⟩ := TaskTable.mem_methods.1 (List.mem_of_find?_eq_some hfind)
    exact ⟨m, node, hpending, rfl⟩
  · rintro ⟨m, node, hpending, rfl⟩
    obtain ⟨key', m', htable, hpending', hsource⟩ := TaskTable.exists_methodTask? hpending
    rw [htable, h.key_unique_of_pending hpending hpending' hsource rfl]

/-! ## Another order -/

variable (h' : p.Distinct config targets') (hperm : targets.Perm targets')
include h' hperm

theorem declTask?_perm : (TaskTable.ofTasks (pendingTasks targets')).declTask? =
    (TaskTable.ofTasks (pendingTasks targets)).declTask? := by
  funext ref
  refine Option.ext fun key => ?_
  simp only [h.declTask?_eq_some, h'.declTask?_eq_some, (pendingTasks_perm hperm).mem_iff]

theorem methodTask?_perm : (TaskTable.ofTasks (pendingTasks targets')).methodTask? =
    (TaskTable.ofTasks (pendingTasks targets)).methodTask? := by
  funext closure
  refine Option.ext fun key => ?_
  simp only [h.methodTask?_eq_some, h'.methodTask?_eq_some, (pendingTasks_perm hperm).mem_iff]

/-- A task depends on the same tasks. -/
theorem mem_taskDependencies_perm {m : FileModel} {task : Task} {key : TaskKey} :
    key ∈ p.taskDependencies (.ofTasks (pendingTasks targets')) m task ↔
      key ∈ p.taskDependencies (.ofTasks (pendingTasks targets)) m task := by
  have hname : p.nameTasks (.ofTasks (pendingTasks targets')) m =
      p.nameTasks (.ofTasks (pendingTasks targets)) m := by
    funext name
    unfold nameTasks TaskTable.ofDeclaration
    rw [h.declTask?_perm h' hperm, h.methodTask?_perm h' hperm]
  have hfield {name : String} :
      key ∈ (TaskTable.ofTasks (pendingTasks targets')).ofField name ↔
        key ∈ (TaskTable.ofTasks (pendingTasks targets)).ofField name := by
    simp only [TaskTable.mem_ofField, h.methodTask?_perm h' hperm,
      (pendingTasks_perm hperm).mem_iff]
  simp only [taskDependencies, List.mem_flatMap, List.mem_append, hname, hfield]

/-- The tasks need each other as they did. -/
theorem needs_perm {key key' : TaskKey} :
    (p.taskGraph targets').Needs key key' ↔ (p.taskGraph targets).Needs key key' := by
  have hedges : (p.taskGraph targets').DependsOn = (p.taskGraph targets).DependsOn := by
    funext a b
    simp only [DependencyGraph.DependsOn, mem_edges_taskGraph,
      h.mem_taskDependencies_perm h' hperm, (pendingTasks_perm hperm).mem_iff]
  show Relation.TransGen (p.taskGraph targets').DependsOn key key' ↔
    Relation.TransGen (p.taskGraph targets).DependsOn key key'
  rw [hedges]

end Distinct

/-- The order of the targets does not matter for what is asked of them. -/
theorem Distinct.perm (h : p.Distinct config targets) (hperm : targets.Perm targets') :
    p.Distinct config targets' where
  faithful := h.faithful
  unique := h.unique
  once := (hperm.map _).nodup_iff.1 h.once
  published t ht := h.published t (hperm.mem_iff.2 ht)
  posted t ht := h.posted t (hperm.mem_iff.2 ht)
  bodies t ht := h.bodies t (hperm.mem_iff.2 ht)

namespace Orderly

variable (h : p.Orderly config targets)
include h

theorem perm (hperm : targets.Perm targets') : p.Orderly config targets' where
  toDistinct := h.toDistinct.perm hperm
  acyclic key hneeds :=
    h.acyclic key ((h.toDistinct.needs_perm (h.toDistinct.perm hperm) hperm).1 hneeds)

theorem mem_events_iff {e : TaskEvent} : e ∈ p.resolveEvents targets ↔
    (e.key, e.model, e.task) ∈ pendingTasks targets ∧ e.run = true := by
  refine ⟨fun he => ⟨h.pending_of_event he, h.run he⟩, fun ⟨hpending, hrun⟩ => ?_⟩
  obtain ⟨u, hu, hkey, hmodel, htask⟩ := h.event_of_pending hpending
  have hrunu := h.run hu
  have hsame : u = e := by
    cases u
    cases e
    simp_all
  exact hsame ▸ hu

/-- The same tasks are run. -/
theorem mem_events_perm (hperm : targets.Perm targets') {e : TaskEvent} :
    e ∈ p.resolveEvents targets' ↔ e ∈ p.resolveEvents targets := by
  rw [h.mem_events_iff, (h.perm hperm).mem_events_iff, (pendingTasks_perm hperm).mem_iff]

end Orderly

end Project

end LuaAnalysis
