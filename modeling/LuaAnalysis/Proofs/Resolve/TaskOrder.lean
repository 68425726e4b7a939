import LuaAnalysis.Proofs.Resolve.TaskGraph

/-!
# What a resolution does, task by task

`Project.resolveEvents` lists the tasks in the order in which a resolution takes them, each with
whether it is run or given up. Applying the events one after the other is the resolution
(`project_resolve`).

Main statement: every pending task is taken exactly once, the summary counts them all, and a task
that is run comes after every task it depends on (`resolve_takes_each_task_once`).
-/

namespace LuaAnalysis

/-- A task that is taken. -/
structure TaskEvent where
  key : TaskKey
  model : FileModel
  task : Task
  /-- Whether the task is run; otherwise it is given up. -/
  run : Bool

namespace TaskEvent

/-- The task as it was pending. -/
def pending (e : TaskEvent) : TaskKey × FileModel × Task :=
  (e.key, e.model, e.task)

def apply (p : Project) (e : TaskEvent) : Project :=
  if e.run then p.runTask e.model e.task else p.giveUp e.model e.task

/-- The event of taking a task when the tasks on cycles are known. -/
def ofTask (cyclic : List TaskKey) (key : TaskKey) (task : FileModel × Task) : TaskEvent :=
  ⟨key, task.1, task.2, decide (key ∉ cyclic)⟩

end TaskEvent

namespace Progress

variable (cyclic : List TaskKey)

/-- What a step takes, nothing when the task of the key is not pending any more. -/
def event? (s : Progress) (key : TaskKey) : Option TaskEvent :=
  (s.take key).1.map (.ofTask cyclic key)

/-- What the steps for some keys take one after the other. -/
def eventsOf : Progress → List TaskKey → List TaskEvent
  | _, [] => []
  | s, key :: keys => (s.event? cyclic key).toList ++ eventsOf (s.step cyclic key) keys

theorem targets_step (s : Progress) (key : TaskKey) :
    (s.step cyclic key).targets = (s.take key).2.targets := by
  unfold step
  split
  next m task s' htake =>
    rw [htake]
    split <;> rfl
  next s' htake => rw [htake]

theorem project_take (s : Progress) (key : TaskKey) : (s.take key).2.project = s.project := by
  unfold take
  split <;> rfl

theorem summary_take (s : Progress) (key : TaskKey) : (s.take key).2.summary = s.summary := by
  unfold take
  split <;> rfl

theorem project_step (s : Progress) (key : TaskKey) :
    (s.step cyclic key).project = (s.event? cyclic key).toList.foldl TaskEvent.apply s.project := by
  have hproject := s.project_take key
  unfold step event?
  split
  next m task s' htake =>
    rw [htake] at hproject ⊢
    have hs' : s'.project = s.project := hproject
    by_cases hkey : key ∈ cyclic
    · simp [TaskEvent.apply, TaskEvent.ofTask, hkey, hs']
    · simp [TaskEvent.apply, TaskEvent.ofTask, hkey, hs']
  next s' htake =>
    rw [htake] at hproject ⊢
    simpa using hproject

theorem summary_step (s : Progress) (key : TaskKey) :
    (s.step cyclic key).summary =
      { resolved := s.summary.resolved + (s.event? cyclic key).toList.countP (·.run)
        cyclic := s.summary.cyclic + (s.event? cyclic key).toList.countP (!·.run) } := by
  have hsummary := s.summary_take key
  unfold step event?
  split
  next m task s' htake =>
    rw [htake] at hsummary ⊢
    have hs' : s'.summary = s.summary := hsummary
    by_cases hkey : key ∈ cyclic
    · simp [TaskEvent.ofTask, hkey, hs']
    · simp [TaskEvent.ofTask, hkey, hs']
  next s' htake =>
    rw [htake] at hsummary ⊢
    simpa using hsummary

/-! ## Many steps -/

theorem project_foldl_step (s : Progress) (keys : List TaskKey) :
    (keys.foldl (step cyclic) s).project =
      (eventsOf cyclic s keys).foldl TaskEvent.apply s.project := by
  induction keys generalizing s with
  | nil => rfl
  | cons key keys ih =>
    rw [List.foldl_cons, ih, eventsOf, List.foldl_append, project_step]

theorem summary_foldl_step (s : Progress) (keys : List TaskKey) :
    (keys.foldl (step cyclic) s).summary =
      { resolved := s.summary.resolved + (eventsOf cyclic s keys).countP (·.run)
        cyclic := s.summary.cyclic + (eventsOf cyclic s keys).countP (!·.run) } := by
  induction keys generalizing s with
  | nil => rfl
  | cons key keys ih =>
    rw [List.foldl_cons, ih, eventsOf, List.countP_append, List.countP_append, summary_step]
    simp only [Nat.add_assoc]

theorem onePerSource_foldl_step {s : Progress} (h : OnePerSource s.targets) (keys : List TaskKey) :
    OnePerSource (keys.foldl (step cyclic) s).targets := by
  induction keys generalizing s with
  | nil => exact h
  | cons key keys ih =>
    apply ih
    rw [targets_step]
    exact onePerSource_take h key

theorem taskAt?_step (s : Progress) (key key' : TaskKey) :
    taskAt? (s.step cyclic key).targets key' =
      if key' = key then none else taskAt? s.targets key' := by
  rw [targets_step, taskAt?_take]

theorem taskAt?_foldl_step (s : Progress) (keys : List TaskKey) (key' : TaskKey) :
    taskAt? (keys.foldl (step cyclic) s).targets key' =
      if key' ∈ keys then none else taskAt? s.targets key' := by
  induction keys generalizing s with
  | nil => simp
  | cons key keys ih =>
    rw [List.foldl_cons, ih, taskAt?_step]
    by_cases hkey : key' = key
    · simp [hkey]
    · simp [hkey]

/-- Steps for different keys take what was pending at the start. -/
theorem eventsOf_eq (s : Progress) (keys : List TaskKey) (h : keys.Nodup) :
    eventsOf cyclic s keys =
      keys.filterMap fun key => (taskAt? s.targets key).map (.ofTask cyclic key) := by
  induction keys generalizing s with
  | nil => rfl
  | cons key keys ih =>
    rw [List.nodup_cons] at h
    have hrest : (keys.filterMap fun k =>
        (taskAt? (s.step cyclic key).targets k).map (TaskEvent.ofTask cyclic k)) =
        keys.filterMap fun k => (taskAt? s.targets k).map (TaskEvent.ofTask cyclic k) := by
      apply List.filterMap_congr
      intro k hk
      have hne : k ≠ key := fun heq => h.1 (heq ▸ hk)
      rw [taskAt?_step, if_neg hne]
    rw [eventsOf, ih _ h.2, hrest, event?, fst_take, List.filterMap_cons]
    cases taskAt? s.targets key <;> rfl

end Progress

namespace Project

variable (p : Project)

/-- The tasks that a resolution takes, in order. -/
def resolveEvents (targets : List Target) : List TaskEvent :=
  let sorted := (p.taskGraph targets).sort
  Progress.eventsOf sorted.cycles.flatten { project := p, targets } sorted.order

theorem project_resolve (targets : List Target) :
    (p.resolve targets).project = (p.resolveEvents targets).foldl TaskEvent.apply p :=
  Progress.project_foldl_step _ _ _

theorem summary_resolve (targets : List Target) :
    (p.resolve targets).summary =
      { resolved := (p.resolveEvents targets).countP (·.run)
        cyclic := (p.resolveEvents targets).countP (!·.run) } := by
  refine (Progress.summary_foldl_step _ _ _).trans ?_
  simp only [Nat.zero_add]
  rfl

theorem resolveEvents_eq (targets : List Target) :
    p.resolveEvents targets = (p.taskGraph targets).sort.order.filterMap fun key =>
      (taskAt? targets key).map (.ofTask (p.taskGraph targets).sort.cycles.flatten key) :=
  Progress.eventsOf_eq _ _ _ (DependencyGraph.nodup_order_sort (p.wellFormed_taskGraph targets))

theorem mem_resolveEvents {targets : List Target} {e : TaskEvent} :
    e ∈ p.resolveEvents targets ↔
      taskAt? targets e.key = some (e.model, e.task) ∧
        e.run = decide (e.key ∉ (p.taskGraph targets).sort.cycles.flatten) ∧
        e.key ∈ (p.taskGraph targets).sort.order := by
  rw [resolveEvents_eq, List.mem_filterMap]
  constructor
  · rintro ⟨key, hkey, he⟩
    obtain ⟨⟨m, task⟩, htask, rfl⟩ := Option.map_eq_some_iff.1 he
    exact ⟨htask, rfl, hkey⟩
  · rintro ⟨htask, hrun, hkey⟩
    refine ⟨e.key, hkey, ?_⟩
    rw [htask, Option.map_some, TaskEvent.ofTask, ← hrun]

/-- The keys of the events are the order of the graph. -/
theorem keys_resolveEvents {targets : List Target} (h : OnePerSource targets) :
    (p.resolveEvents targets).map (·.key) = (p.taskGraph targets).sort.order := by
  rw [resolveEvents_eq, List.map_filterMap]
  have hsome : ∀ key ∈ (p.taskGraph targets).sort.order,
      Option.map (·.key) ((taskAt? targets key).map
        (TaskEvent.ofTask (p.taskGraph targets).sort.cycles.flatten key)) = some key := by
    intro key hkey
    rw [DependencyGraph.mem_order_sort (p.wellFormed_taskGraph targets),
      p.mem_nodes_taskGraph targets] at hkey
    obtain ⟨⟨k, m, task⟩, hmem, rfl⟩ := List.mem_map.1 hkey
    rw [(mem_pendingTasks h).1 hmem]
    rfl
  rw [List.filterMap_congr hsome, List.filterMap_some]

theorem pending_resolveEvents_perm {targets : List Target} (h : OnePerSource targets) :
    ((p.resolveEvents targets).map TaskEvent.pending).Perm (pendingTasks targets) := by
  have hkeys : (((p.resolveEvents targets).map TaskEvent.pending).map Prod.fst).Nodup := by
    rw [List.map_map]
    exact (p.keys_resolveEvents h) ▸
      DependencyGraph.nodup_order_sort (p.wellFormed_taskGraph targets)
  rw [List.perm_ext_iff_of_nodup hkeys.of_map (nodup_keys_pendingTasks h).of_map]
  rintro ⟨key, m, task⟩
  rw [mem_pendingTasks h, List.mem_map]
  constructor
  · rintro ⟨e, he, heq⟩
    obtain ⟨rfl, rfl, rfl⟩ : e.key = key ∧ e.model = m ∧ e.task = task := by
      simpa [TaskEvent.pending] using heq
    exact (p.mem_resolveEvents.1 he).1
  · intro htask
    refine ⟨.ofTask (p.taskGraph targets).sort.cycles.flatten key (m, task), ?_, rfl⟩
    refine p.mem_resolveEvents.2 ⟨htask, rfl, ?_⟩
    rw [DependencyGraph.mem_order_sort (p.wellFormed_taskGraph targets),
      p.mem_nodes_taskGraph targets]
    exact List.mem_map_of_mem ((mem_pendingTasks h).2 htask)

theorem pendingTasks_resolve {targets : List Target} (h : OnePerSource targets) :
    pendingTasks (p.resolve targets).targets = [] := by
  rw [List.eq_nil_iff_forall_not_mem]
  rintro ⟨key, m, task⟩ hmem
  have hdone : OnePerSource (p.resolve targets).targets :=
    Progress.onePerSource_foldl_step _ h _
  have htask := (mem_pendingTasks hdone).1 hmem
  rw [resolve, Progress.taskAt?_foldl_step] at htask
  split at htask
  next => simp at htask
  next hkey =>
    apply hkey
    rw [DependencyGraph.mem_order_sort (p.wellFormed_taskGraph targets),
      p.mem_nodes_taskGraph targets]
    exact List.mem_map_of_mem ((mem_pendingTasks h).2 htask)

/-- A task that is run comes after every task it depends on. -/
theorem dependency_before_run {targets : List Target} (h : OnePerSource targets)
    {before after : List TaskEvent} {e : TaskEvent}
    (hevents : p.resolveEvents targets = before ++ e :: after) (hrun : e.run = true)
    {dep : TaskKey} (hdep : (e.key, dep) ∈ (p.taskGraph targets).edges) :
    dep ∈ before.map (·.key) := by
  have he : e ∈ p.resolveEvents targets := by simp [hevents]
  have horder : (p.taskGraph targets).sort.order =
      before.map (·.key) ++ e.key :: after.map (·.key) := by
    rw [← p.keys_resolveEvents h, hevents, List.map_append, List.map_cons]
  have hacyclic : e.key ∉ (p.taskGraph targets).sort.cycles.flatten := by
    rw [(p.mem_resolveEvents.1 he).2.1] at hrun
    exact of_decide_eq_true hrun
  exact (DependencyGraph.settled_sort (p.wellFormed_taskGraph targets) _ _ _ horder dep
    hdep).resolve_right hacyclic

/-- A resolution of some files takes every pending task exactly once, runs it or gives it up, and
counts it; a task that is run comes after every task that the graph makes it depend on. -/
theorem resolve_takes_each_task_once (files : List Target) :
    let targets := files.foldl addTarget []
    let events := p.resolveEvents targets
    let done := p.resolve targets
    done.project = events.foldl TaskEvent.apply p ∧
      (events.map TaskEvent.pending).Perm (pendingTasks targets) ∧
      (events.map (·.key)).Nodup ∧
      pendingTasks done.targets = [] ∧
      done.summary.resolved = events.countP (·.run) ∧
      done.summary.cyclic = events.countP (!·.run) ∧
      done.summary.resolved + done.summary.cyclic = (pendingTasks targets).length ∧
      ∀ before e after, events = before ++ e :: after → e.run = true →
        ∀ dep, (e.key, dep) ∈ (p.taskGraph targets).edges → dep ∈ before.map (·.key) := by
  intro targets events done
  have h : OnePerSource targets := onePerSource_foldl_addTarget files [] List.nodup_nil
  have hperm := p.pending_resolveEvents_perm h
  have hsummary := p.summary_resolve targets
  have hcount : done.summary.resolved + done.summary.cyclic = (pendingTasks targets).length := by
    calc done.summary.resolved + done.summary.cyclic
      _ = events.countP (·.run) + events.countP (!·.run) := by rw [hsummary]
      _ = events.length := by rw [List.length_eq_countP_add_countP (p := (·.run))]; simp
      _ = (pendingTasks targets).length := by rw [← hperm.length_eq, List.length_map]
  refine ⟨p.project_resolve targets, hperm, ?_, p.pendingTasks_resolve h, ?_, ?_, hcount, ?_⟩
  · rw [p.keys_resolveEvents h]
    exact DependencyGraph.nodup_order_sort (p.wellFormed_taskGraph targets)
  · rw [hsummary]
  · rw [hsummary]
  · intro before e after hevents hrun dep hdep
    exact p.dependency_before_run h hevents hrun hdep

end Project

end LuaAnalysis
