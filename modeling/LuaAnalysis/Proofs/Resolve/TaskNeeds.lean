import LuaAnalysis.Proofs.File.OpenTasks
import LuaAnalysis.Proofs.Project.Evaluation
import LuaAnalysis.Proofs.Project.Linked
import LuaAnalysis.Proofs.Resolve.TaskTable

/-!
# What a task needs

Where published files come with their tasks (`Project.Ready`), a declaration has one task at most. A
task that mentions the declaration by name needs this task, and one that selects a field needs the
task of every assigned field of the name. So a task that is run has neither of them behind it
(`Project.Ready.no_later_edge`).
-/

namespace LuaAnalysis

/-! ## The table of declarations -/

namespace TaskTable

theorem mem_decls_foldl_add {tasks : List (TaskKey × FileModel × Task)} {table : TaskTable}
    {entry : DeclRef × TaskKey} :
    entry ∈ (tasks.foldl add table).decls ↔ entry ∈ table.decls ∨ ∃ m task i,
      (entry.2, m, task) ∈ tasks ∧ task.decl? = some i ∧ entry.1 = m.ref i := by
  induction tasks generalizing table with
  | nil => simp
  | cons first tasks ih =>
    obtain ⟨key, m, task⟩ := first
    have hadd : (table.add (key, m, task)).decls =
        (task.decl?.toList.map fun i => (m.ref i, key)) ++ table.decls := by
      cases task with
      | declaration decl value todo definesType =>
        unfold add
        dsimp only
        split
        · split <;> rfl
        · rfl
      | method | source => rfl
    rw [List.foldl_cons, ih, hadd, List.mem_append]
    constructor
    · rintro ((hnew | hold) | ⟨m', task', i, hmem, hi, href⟩)
      · obtain ⟨i, hi, rfl⟩ := List.mem_map.1 hnew
        exact .inr ⟨m, task, i, List.mem_cons_self, Option.mem_toList.1 hi, rfl⟩
      · exact .inl hold
      · exact .inr ⟨m', task', i, List.mem_cons_of_mem _ hmem, hi, href⟩
    · rintro (hold | ⟨m', task', i, hmem, hi, href⟩)
      · exact .inl (.inr hold)
      · rcases List.mem_cons.1 hmem with heq | hmem
        · obtain ⟨hkey, rfl, rfl⟩ : entry.2 = key ∧ m' = m ∧ task' = task := by simpa using heq
          left; left
          exact List.mem_map.2 ⟨i, Option.mem_toList.2 hi, Prod.ext href.symm hkey.symm⟩
        · exact .inr ⟨m', task', i, hmem, hi, href⟩

/-- A declaration with a pending task has one in the table. -/
theorem exists_declTask? {tasks : List (TaskKey × FileModel × Task)} {key : TaskKey}
    {m : FileModel} {task : Task} {i : DeclId} (h : (key, m, task) ∈ tasks)
    (hi : task.decl? = some i) :
    ∃ key' m' task', (ofTasks tasks).declTask? (m.ref i) = some key' ∧
      (key', m', task') ∈ tasks ∧ task'.decl? = some i ∧ m'.source = m.source := by
  have hentry : (m.ref i, key) ∈ (ofTasks tasks).decls :=
    mem_decls_foldl_add.2 (.inr ⟨m, task, i, h, hi, rfl⟩)
  cases hfind : (ofTasks tasks).decls.find? fun entry => entry.1 = m.ref i with
  | none => exact absurd (List.find?_eq_none.1 hfind _ hentry) (by simp)
  | some entry =>
    rcases mem_decls_foldl_add.1 (List.mem_of_find?_eq_some hfind) with hnil | hmem
    · cases hnil
    · obtain ⟨m', task', j, hmem, hj, href⟩ := hmem
      have hsame : m'.ref j = m.ref i := by
        rw [← href]
        simpa using List.find?_some hfind
      obtain ⟨hsource, -, rfl⟩ : m'.source = m.source ∧ m'.generation = m.generation ∧ j = i := by
        simpa [FileModel.ref] using hsame
      exact ⟨entry.2, m', task', by rw [declTask?, hfind, Option.map_some], hmem, hj, hsource⟩

end TaskTable

namespace Project

variable {config : Config} {p : Project} {targets : List Target}

/-- An event takes a task of one of the targets. -/
theorem target_of_event {e : TaskEvent} (he : e ∈ p.resolveEvents targets) :
    ∃ t ∈ targets, t.model = e.model ∧ t.model.source = e.key.source ∧
      t.worklist.get? e.key.place = some e.task := by
  obtain ⟨t, hfind, hmap⟩ := Option.bind_eq_some_iff.1 (p.mem_resolveEvents.1 he).1
  obtain ⟨task, hget, heq⟩ := Option.map_eq_some_iff.1 hmap
  obtain ⟨hmodel, rfl⟩ := Prod.mk.inj heq
  exact ⟨t, List.mem_of_find?_eq_some hfind, hmodel, by simpa using List.find?_some hfind, hget⟩

/-- No other event has the key of an event. -/
theorem key_ne_of_other (p : Project) (h : OnePerSource targets) {before after : List TaskEvent}
    {e e' : TaskEvent} (hevents : p.resolveEvents targets = before ++ e :: after)
    (he' : e' ∈ before ++ after) : e'.key ≠ e.key := by
  have hkeys : ((p.resolveEvents targets).map (·.key)).Nodup := by
    rw [p.keys_resolveEvents h]
    exact DependencyGraph.nodup_order_sort (p.wellFormed_taskGraph targets)
  have hperm : (before ++ e :: after).Perm (e :: (before ++ after)) := List.perm_middle
  rw [hevents, (hperm.map _).nodup_iff, List.map_cons, List.nodup_cons] at hkeys
  exact fun heq => hkeys.1 (heq ▸ List.mem_map_of_mem he')

/-- Files are published with their tasks: each of them once, under a revision of its own, and with
at most one task for a declaration. -/
structure Ready (config : Config) (p : Project) (targets : List Target) : Prop where
  faithful : p.index.Faithful config
  unique : ∀ m ∈ p.index.models, ∀ m' ∈ p.index.models, m.revision = m'.revision → m = m'
  once : OnePerSource targets
  published : ∀ t ∈ targets, t.Of p.index
  posted : ∀ t ∈ targets, ∃ o : Outline, o.Posted ∧ o.worklist = t.worklist ∧
    o.decls = t.model.decls

namespace Ready

variable (h : p.Ready config targets) {e e' : TaskEvent} {i : DeclId} {d : Declaration}
  {x : NodeId} {name : String}
include h

/-! ## Tasks and their declarations -/

theorem model_mem (he : e ∈ p.resolveEvents targets) : e.model ∈ p.index.models :=
  (concerns_of_taskAt? h.published (p.mem_resolveEvents.1 he).1).1

theorem proper (he : e ∈ p.resolveEvents targets) : e.model.tree.Proper := by
  obtain ⟨f, hf, hfm⟩ := List.mem_map.1 (h.model_mem he)
  exact hfm ▸ (h.faithful.files f hf).proper

theorem pending_of_event (he : e ∈ p.resolveEvents targets) :
    (e.key, e.model, e.task) ∈ pendingTasks targets :=
  (mem_pendingTasks h.once).2 (p.mem_resolveEvents.1 he).1

theorem event_of_pending {key : TaskKey} {m : FileModel} {task : Task}
    (hpending : (key, m, task) ∈ pendingTasks targets) :
    ∃ e ∈ p.resolveEvents targets, e.key = key ∧ e.model = m ∧ e.task = task := by
  obtain ⟨e, he, heq⟩ :=
    List.mem_map.1 ((p.pending_resolveEvents_perm h.once).mem_iff.2 hpending)
  obtain ⟨hkey, hmodel, htask⟩ : e.key = key ∧ e.model = m ∧ e.task = task := by
    simpa [TaskEvent.pending] using heq
  exact ⟨e, he, hkey, hmodel, htask⟩

/-- Only declarations that get their types from values have tasks. -/
theorem valued (he : e ∈ p.resolveEvents targets) (hi : e.task.decl? = some i) :
    ∃ d, e.model.decl? i = some d ∧ d.kind.isValued = true := by
  obtain ⟨t, ht, hmodel, -, hget⟩ := target_of_event he
  obtain ⟨o, hposted, hworklist, hdecls⟩ := h.posted t ht
  have hplace : some e.task ∈ o.worklist.places := by
    rw [hworklist]
    exact List.mem_of_getElem? (Option.join_eq_some_iff.1 hget)
  obtain ⟨d, hd, hvalued⟩ := hposted.valued i (List.mem_filterMap.2 ⟨_, hplace, hi⟩)
  rw [hdecls, hmodel] at hd
  exact ⟨d, hd, hvalued⟩

/-- Only assigned fields are linked. -/
theorem assigned_of_owner (he : e ∈ p.resolveEvents targets) (hi : e.task.decl? = some i)
    (howner : e.task.todo.owner = true) :
    ∃ d, e.model.decl? i = some d ∧ d.kind.isAssignedField = true := by
  have hconcerns := (concerns_of_taskAt? h.published (p.mem_resolveEvents.1 he).1).2
  cases htask : e.task with
  | method | source =>
    rw [htask] at hi
    cases hi
  | declaration decl value todo definesType =>
    rw [htask] at hi howner hconcerns
    obtain rfl := Option.some.inj hi
    obtain ⟨d, hd, hassigned, -⟩ := hconcerns
    exact ⟨d, hd, (hassigned howner).1⟩

/-- No declaration has two tasks. -/
theorem key_unique (he : e ∈ p.resolveEvents targets) (he' : e' ∈ p.resolveEvents targets)
    (hsource : e.model.source = e'.model.source) (hi : e.task.decl? = some i)
    (hi' : e'.task.decl? = some i) : e.key = e'.key := by
  obtain ⟨t, ht, hmodel, hkey, hget⟩ := target_of_event he
  obtain ⟨t', ht', hmodel', hkey', hget'⟩ := target_of_event he'
  have hsame : t.model.source = t'.model.source := by rw [hmodel, hmodel', hsource]
  have hfind := find?_eq_some_of_mem h.once ht
  rw [hsame, find?_eq_some_of_mem h.once ht'] at hfind
  obtain rfl := Option.some.inj hfind
  obtain ⟨o, hposted, hworklist, -⟩ := h.posted t' ht
  rw [← hworklist] at hget hget'
  have hplace := hposted.place_unique hget hget' hi hi'
  calc e.key = ⟨t'.model.source, e.key.place⟩ := by rw [hkey]
    _ = ⟨t'.model.source, e'.key.place⟩ := by rw [hplace]
    _ = e'.key := by rw [hkey']

/-! ## Tasks that come first -/

/-- A task needs the task of a declaration that it mentions by name. -/
theorem edge_of_name (he : e ∈ p.resolveEvents targets) (he' : e' ∈ p.resolveEvents targets)
    (hne : e'.key ≠ e.key) (hx : x ∈ e.model.evaluatedBy e.task)
    (hn : e.model.tree.node? x = some (.nameExpr name)) (hi : e'.task.decl? = some i)
    (href : p.named? e.model x = some (e'.model.ref i)) :
    (e.key, e'.key) ∈ (p.taskGraph targets).edges := by
  obtain ⟨key, m, task, htable, hpending, hi', hsource⟩ :=
    TaskTable.exists_declTask? (h.pending_of_event he') hi
  obtain ⟨e'', he'', rfl, rfl, rfl⟩ := h.event_of_pending hpending
  have hkey : e''.key = e'.key := h.key_unique he'' he' hsource hi' hi
  refine p.mem_edges_taskGraph.2 ⟨e.model, e.task, h.pending_of_event he, hne, ?_⟩
  apply nameTasks_subset hx hn
  have hmeans : p.declaration? e.model x = some (e'.model.ref i) := by
    rw [declaration?, declarationStep?_nameExpr hn, href]
  unfold nameTasks
  rw [hmeans]
  exact List.mem_append_left _ (Option.mem_toList.2 (hkey ▸ htable))

/-- A task needs every task of an assigned field of a name that it selects. -/
theorem edge_of_field (he : e ∈ p.resolveEvents targets) (he' : e' ∈ p.resolveEvents targets)
    (hne : e'.key ≠ e.key) (hx : x ∈ e.model.evaluatedBy e.task) {base key : Option NodeId}
    {colon : Bool} (hn : e.model.tree.node? x = some (.indexExpr base key colon))
    (hname : key.bind e.model.tree.keyText? = some d.name) (hi : e'.task.decl? = some i)
    (hd : e'.model.decl? i = some d) (hkind : d.kind.isAssignedField = true) :
    (e.key, e'.key) ∈ (p.taskGraph targets).edges := by
  refine p.mem_edges_taskGraph.2 ⟨e.model, e.task, h.pending_of_event he, hne, ?_⟩
  apply ofField_subset hx hn hname
  exact TaskTable.mem_ofField.2
    ⟨_, _, _, i, d, h.pending_of_event he', hi, hd, hkind, rfl, .inl rfl⟩

/-- Every task of a target is taken. -/
theorem exists_event {t : Target} (ht : t ∈ targets) {task : Task}
    (htask : some task ∈ t.worklist.places) :
    ∃ e ∈ p.resolveEvents targets, e.model = t.model ∧ e.task = task := by
  obtain ⟨place, hplace⟩ := List.mem_iff_getElem?.1 htask
  have hget : t.worklist.get? place = some task := by
    rw [Worklist.get?, hplace]
    rfl
  have hpending : (⟨t.model.source, place⟩, t.model, task) ∈ pendingTasks targets :=
    List.mem_flatMap.2 ⟨t, ht, List.mem_map.2 ⟨(place, task), Worklist.mem_pending.2 hget, rfl⟩⟩
  obtain ⟨e, he, -, hmodel, htask⟩ := h.event_of_pending hpending
  exact ⟨e, he, hmodel, htask⟩

/-- No other task is about the declaration of a task. -/
theorem exists_event_of_decl {t : Target} (ht : t ∈ targets) {task : Task}
    (htask : some task ∈ t.worklist.places) (hi : task.decl? = some i) :
    ∃ before e after, p.resolveEvents targets = before ++ e :: after ∧ e.model = t.model ∧
      e.task = task ∧ ∀ e' ∈ before ++ after, e'.model = t.model → e'.task.decl? ≠ some i := by
  obtain ⟨e, he, hmodel, rfl⟩ := h.exists_event ht htask
  obtain ⟨before, after, hevents⟩ := List.append_of_mem he
  refine ⟨before, e, after, hevents, hmodel, rfl, fun e' he' hmodel' hi' => ?_⟩
  have hmem : e' ∈ p.resolveEvents targets := by
    rw [hevents]
    rcases List.mem_append.1 he' with hbefore | hafter
    · exact List.mem_append_left _ hbefore
    · exact List.mem_append_right _ (List.mem_cons_of_mem _ hafter)
  have hkey : e'.key = e.key := h.key_unique hmem he (by rw [hmodel, hmodel']) hi' hi
  exact p.key_ne_of_other h.once hevents he' hkey

variable {before after : List TaskEvent} (hevents : p.resolveEvents targets = before ++ e :: after)
include hevents

/-- A task that is run needs no task that comes later. -/
theorem no_later_edge (hrun : e.run = true) (he' : e' ∈ after) :
    (e.key, e'.key) ∉ (p.taskGraph targets).edges := by
  intro hedge
  have hbefore := p.dependency_before_run h.once hevents hrun hedge
  obtain ⟨e'', he'', hkey⟩ := List.mem_map.1 hbefore
  obtain ⟨first, rest, rfl⟩ := List.append_of_mem he''
  -- No key comes twice.
  have hsplit : p.resolveEvents targets = first ++ e'' :: (rest ++ e :: after) := by
    rw [hevents, List.append_assoc, List.cons_append]
  exact p.key_ne_of_other h.once hsplit (by simp [he']) hkey.symm

end Ready

end Project

end LuaAnalysis
