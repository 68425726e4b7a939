import LuaAnalysis.Proofs.File.OpenTasks
import LuaAnalysis.Proofs.Resolve.TaskGraph

/-!
# Where the mentions of a task lead

A task depends on the tasks that its mentions lead to. The table of the tasks has every task of a
closure under the closure and every task of an assigned field under the name of the field.

Main statement: `Project.mem_edges_taskGraph`.
-/

namespace LuaAnalysis

/-! ## What a task evaluates -/

/-- The expressions and return statements that a task evaluates: its value, the base that it assigns
to, the returns of its body. -/
def FileModel.taskRoots (m : FileModel) : Task → List NodeId
  | .declaration decl value todo _ =>
    value.toList.map (·.expr) ++ (if todo.owner then (m.assignedBase? decl).toList else [])
  | .method closure => ((m.closureBody? closure).map m.tree.returnStats).getD []
  | .source body => m.tree.returnStats body

/-- The nodes that are evaluated when a task is run. -/
def FileModel.evaluatedBy (m : FileModel) (task : Task) : List NodeId :=
  (m.taskRoots task).flatMap m.tree.outsideClosures

theorem FileModel.taskMentions_eq (m : FileModel) (task : Task) :
    m.taskMentions task = (m.taskRoots task).map m.tree.mentions := by
  cases task with
  | declaration decl value todo definesType =>
    simp only [taskMentions, taskRoots, List.map_append, List.map_map]
    congr 1
    split <;> rfl
  | method closure =>
    simp only [taskMentions, taskRoots]
    cases m.closureBody? closure <;> rfl
  | source body => rfl

namespace SyntaxTree

variable {t : SyntaxTree} {root x : NodeId}

/-- A name that is evaluated with an expression is mentioned. -/
theorem mem_names_mentions (hx : x ∈ t.outsideClosures root) {name : String}
    (hname : t.node? x = some (.nameExpr name)) : x ∈ (t.mentions root).names :=
  List.mem_filter.2 ⟨hx, by rw [hname]⟩

/-- A field that is selected in an expression is mentioned. -/
theorem mem_keys_mentions (hx : x ∈ t.outsideClosures root) {base key : Option NodeId}
    {colon : Bool} {field : String} (hindex : t.node? x = some (.indexExpr base key colon))
    (hfield : key.bind t.keyText? = some field) : field ∈ (t.mentions root).keys := by
  refine List.mem_filterMap.2 ⟨x, hx, ?_⟩
  rw [hindex, SyntaxTree.fieldText?, hindex]
  exact hfield

end SyntaxTree

namespace Project

variable {p : Project} {table : TaskTable} {m : FileModel} {task : Task} {x : NodeId}

theorem nameTasks_subset (hx : x ∈ m.evaluatedBy task) {name : String}
    (hname : m.tree.node? x = some (.nameExpr name)) :
    p.nameTasks table m x ⊆ p.taskDependencies table m task := by
  obtain ⟨root, hroot, hx⟩ := List.mem_flatMap.1 hx
  intro key hkey
  rw [taskDependencies, m.taskMentions_eq, List.mem_flatMap]
  refine ⟨m.tree.mentions root, List.mem_map_of_mem hroot, List.mem_append_left _ ?_⟩
  exact List.mem_flatMap.2 ⟨x, SyntaxTree.mem_names_mentions hx hname, hkey⟩

theorem ofField_subset (hx : x ∈ m.evaluatedBy task) {base key : Option NodeId} {colon : Bool}
    {field : String} (hindex : m.tree.node? x = some (.indexExpr base key colon))
    (hfield : key.bind m.tree.keyText? = some field) :
    table.ofField field ⊆ p.taskDependencies table m task := by
  obtain ⟨root, hroot, hx⟩ := List.mem_flatMap.1 hx
  intro other hother
  rw [taskDependencies, m.taskMentions_eq, List.mem_flatMap]
  refine ⟨m.tree.mentions root, List.mem_map_of_mem hroot, List.mem_append_right _ ?_⟩
  exact List.mem_flatMap.2 ⟨field, SyntaxTree.mem_keys_mentions hx hindex hfield, hother⟩

end Project

/-! ## The table -/

namespace TaskTable

theorem mem_methods_foldl_add {tasks : List (TaskKey × FileModel × Task)} {table : TaskTable}
    {entry : SyntaxId × TaskKey} :
    entry ∈ (tasks.foldl add table).methods ↔
      entry ∈ table.methods ∨ ∃ m closure, (entry.2, m, .method closure) ∈ tasks ∧
        entry.1 = m.tree.syntaxId closure := by
  induction tasks generalizing table with
  | nil => simp
  | cons first tasks ih =>
    obtain ⟨key, m, task⟩ := first
    rw [List.foldl_cons, ih]
    cases task with
    | declaration decl value todo definesType =>
      have hmethods : (table.add (key, m, .declaration decl value todo definesType)).methods =
          table.methods := by
        unfold add
        dsimp only
        split
        · split <;> rfl
        · rfl
      rw [hmethods]
      simp
    | method closure =>
      show entry ∈ (m.tree.syntaxId closure, key) :: table.methods ∨ _ ↔ _
      rw [List.mem_cons]
      constructor
      · rintro ((rfl | hold) | ⟨m', c, hmem, hid⟩)
        · exact .inr ⟨m, closure, List.mem_cons_self, rfl⟩
        · exact .inl hold
        · exact .inr ⟨m', c, List.mem_cons_of_mem _ hmem, hid⟩
      · rintro (hold | ⟨m', c, hmem, hid⟩)
        · exact .inl (.inr hold)
        · rcases List.mem_cons.1 hmem with heq | hmem
          · obtain ⟨hkey, hm, hc⟩ : entry.2 = key ∧ m' = m ∧ c = closure := by simpa using heq
            exact .inl (.inl (Prod.ext (by rw [hid, hm, hc]) hkey))
          · exact .inr ⟨m', c, hmem, hid⟩
    | source body =>
      show entry ∈ table.methods ∨ _ ↔ _
      simp

theorem mem_methods {tasks : List (TaskKey × FileModel × Task)} {id : SyntaxId} {key : TaskKey} :
    (id, key) ∈ (ofTasks tasks).methods ↔
      ∃ m closure, (key, m, .method closure) ∈ tasks ∧ id = m.tree.syntaxId closure := by
  rw [ofTasks, mem_methods_foldl_add]
  simp

/-- A closure with a pending task has one in the table. -/
theorem exists_methodTask? {tasks : List (TaskKey × FileModel × Task)} {key : TaskKey}
    {m : FileModel} {closure : NodeId} (h : (key, m, .method closure) ∈ tasks) :
    ∃ key' m', (ofTasks tasks).methodTask? (some (m.tree.syntaxId closure)) = some key' ∧
      (key', m', .method closure) ∈ tasks ∧ m'.source = m.source := by
  have hentry : (m.tree.syntaxId closure, key) ∈ (ofTasks tasks).methods :=
    mem_methods.2 ⟨m, closure, h, rfl⟩
  cases hfind : (ofTasks tasks).methods.find? fun entry => entry.1 = m.tree.syntaxId closure with
  | none => exact absurd (List.find?_eq_none.1 hfind _ hentry) (by simp)
  | some entry =>
    obtain ⟨id, key'⟩ := entry
    obtain ⟨m', c, hmem, hid⟩ := mem_methods.1 (List.mem_of_find?_eq_some hfind)
    have hsame : m'.tree.syntaxId c = m.tree.syntaxId closure := by
      rw [← hid]
      simpa using List.find?_some hfind
    obtain ⟨hsource, rfl⟩ : m'.tree.source = m.tree.source ∧ c = closure := by
      simpa [SyntaxTree.syntaxId] using hsame
    refine ⟨key', m', ?_, hmem, hsource⟩
    rw [methodTask?, Option.bind_some, hfind, Option.map_some]

theorem mem_fields_foldl_add {tasks : List (TaskKey × FileModel × Task)} {table : TaskTable}
    {entry : String × TaskKey × Option SyntaxId} :
    entry ∈ (tasks.foldl add table).fields ↔
      entry ∈ table.fields ∨ ∃ m task decl d, (entry.2.1, m, task) ∈ tasks ∧
        task.decl? = some decl ∧ m.decl? decl = some d ∧ d.kind.isAssignedField = true ∧
          d.name = entry.1 ∧ d.kind.closure?.map m.tree.syntaxId = entry.2.2 := by
  induction tasks generalizing table with
  | nil => simp
  | cons first tasks ih =>
    obtain ⟨key, m, task⟩ := first
    have hadd : entry ∈ (table.add (key, m, task)).fields ↔ entry ∈ table.fields ∨
        ∃ decl d, entry.2.1 = key ∧ task.decl? = some decl ∧ m.decl? decl = some d ∧
          d.kind.isAssignedField = true ∧ d.name = entry.1 ∧
            d.kind.closure?.map m.tree.syntaxId = entry.2.2 := by
      cases task with
      | method | source => simp [add, Task.decl?]
      | declaration decl value todo definesType =>
        cases hd : m.decl? decl with
        | none => simp [add, Task.decl?, hd]
        | some d =>
          cases hkind : d.kind.isAssignedField with
          | false => simp [add, Task.decl?, hd, hkind]
          | true =>
            obtain ⟨name, key', closure⟩ := entry
            simp only [add, hd, hkind, if_true, List.mem_append, List.mem_singleton,
              Prod.mk.injEq, Task.decl?, Option.some.injEq]
            constructor
            · rintro (hold | ⟨rfl, rfl, rfl⟩)
              · exact .inl hold
              · exact .inr ⟨decl, d, rfl, rfl, hd, hkind, rfl, rfl⟩
            · rintro (hold | ⟨_, d', rfl, rfl, hd', -, rfl, rfl⟩)
              · exact .inl hold
              · obtain rfl := Option.some.inj (hd.symm.trans hd')
                exact .inr ⟨rfl, rfl, rfl⟩
    rw [List.foldl_cons, ih, hadd, or_assoc]
    refine or_congr_right ⟨?_, ?_⟩
    · rintro (⟨decl, d, rfl, hnew⟩ | ⟨m', task', decl, d, hmem, hold⟩)
      · exact ⟨m, task, decl, d, List.mem_cons_self, hnew⟩
      · exact ⟨m', task', decl, d, List.mem_cons_of_mem _ hmem, hold⟩
    · rintro ⟨m', task', decl, d, hmem, hentry⟩
      rcases List.mem_cons.1 hmem with heq | hmem
      · obtain ⟨hkey, rfl, rfl⟩ : entry.2.1 = key ∧ m' = m ∧ task' = task := by simpa using heq
        exact .inl ⟨decl, d, hkey, hentry⟩
      · exact .inr ⟨m', task', decl, d, hmem, hentry⟩

/-- A mention of a field leads to the tasks of the assigned fields of the name, and to those of the
closures that they are declared with. -/
theorem mem_ofField {tasks : List (TaskKey × FileModel × Task)} {name : String} {key : TaskKey} :
    key ∈ (ofTasks tasks).ofField name ↔
      ∃ key' m task decl d, (key', m, task) ∈ tasks ∧ task.decl? = some decl ∧
        m.decl? decl = some d ∧ d.kind.isAssignedField = true ∧ d.name = name ∧
          (key = key' ∨
            (ofTasks tasks).methodTask? (d.kind.closure?.map m.tree.syntaxId) = some key) := by
  constructor
  · intro hkey
    obtain ⟨⟨name', key', closure⟩, hfiltered, hkey⟩ := List.mem_flatMap.1 hkey
    obtain ⟨hentry, hname⟩ := List.mem_filter.1 hfiltered
    obtain rfl : name' = name := by simpa using hname
    rcases mem_fields_foldl_add.1 hentry with hnil | hadded
    · cases hnil
    · obtain ⟨m, task, decl, d, hmem, hdecl, hd, hkind, hname, rfl⟩ := hadded
      exact ⟨key', m, task, decl, d, hmem, hdecl, hd, hkind, hname, by simpa using hkey⟩
  · rintro ⟨key', m, task, decl, d, hmem, hdecl, hd, hkind, rfl, hkey⟩
    have hentry : (d.name, key', d.kind.closure?.map m.tree.syntaxId) ∈ (ofTasks tasks).fields :=
      mem_fields_foldl_add.2 (.inr ⟨m, task, decl, d, hmem, hdecl, hd, hkind, rfl, rfl⟩)
    refine List.mem_flatMap.2 ⟨_, List.mem_filter.2 ⟨hentry, by simp⟩, ?_⟩
    simpa using hkey

end TaskTable

/-! ## The edges -/

namespace Project

variable (p : Project)

theorem mem_edges_addTask {table : TaskTable} {graph : DependencyGraph TaskKey} {key : TaskKey}
    {m : FileModel} {task : Task} {e : TaskKey × TaskKey} :
    e ∈ (p.addTask table graph (key, m, task)).edges ↔
      e ∈ graph.edges ∨ e.1 = key ∧ e.2 ∈ p.taskDependencies table m task ∧ e.2 ≠ key := by
  have hfold (others : List TaskKey) (g : DependencyGraph TaskKey) :
      e ∈ (others.foldl (fun g other => g.addDependency key other) g).edges ↔
        e ∈ g.edges ∨ e.1 = key ∧ e.2 ∈ others := by
    induction others generalizing g with
    | nil => simp
    | cons other others ih =>
      rw [List.foldl_cons, ih, DependencyGraph.mem_edges_addDependency, or_assoc, List.mem_cons,
        Prod.ext_iff, ← and_or_left]
  rw [addTask, hfold, DependencyGraph.edges_addNode, List.mem_filter]
  simp

/-- A task depends on the other tasks that its mentions lead to. -/
theorem mem_edges_taskGraph {targets : List Target} {key other : TaskKey} :
    (key, other) ∈ (p.taskGraph targets).edges ↔
      ∃ m task, (key, m, task) ∈ pendingTasks targets ∧ other ≠ key ∧
        other ∈ p.taskDependencies (.ofTasks (pendingTasks targets)) m task := by
  -- Each task adds the edges that leave it, whatever the graph is by then.
  have hfold (table : TaskTable) (tasks : List (TaskKey × FileModel × Task))
      (graph : DependencyGraph TaskKey) :
      (key, other) ∈ (tasks.foldl (p.addTask table) graph).edges ↔
        (key, other) ∈ graph.edges ∨ ∃ m task, (key, m, task) ∈ tasks ∧ other ≠ key ∧
          other ∈ p.taskDependencies table m task := by
    induction tasks generalizing graph with
    | nil => simp
    | cons first tasks ih =>
      obtain ⟨key', m, task⟩ := first
      rw [List.foldl_cons, ih, mem_edges_addTask]
      constructor
      · rintro ((hold | ⟨rfl, hdep, hne⟩) | ⟨m', task', hmem, hdep⟩)
        · exact .inl hold
        · exact .inr ⟨m, task, List.mem_cons_self, hne, hdep⟩
        · exact .inr ⟨m', task', List.mem_cons_of_mem _ hmem, hdep⟩
      · rintro (hold | ⟨m', task', hmem, hne, hdep⟩)
        · exact .inl (.inl hold)
        · rcases List.mem_cons.1 hmem with heq | hmem
          · obtain ⟨rfl, rfl, rfl⟩ : key = key' ∧ m' = m ∧ task' = task := by simpa using heq
            exact .inl (.inr ⟨rfl, hdep, hne⟩)
          · exact .inr ⟨m', task', hmem, hne, hdep⟩
  rw [taskGraph, hfold]
  simp

end Project

end LuaAnalysis
