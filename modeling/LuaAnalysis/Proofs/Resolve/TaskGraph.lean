import LuaAnalysis.Proofs.Data.Sorting
import LuaAnalysis.Resolve.Resolver

/-!
# The tasks of a set of files and their graph

`taskAt?` looks a pending task up by its key. When every source has one target it is the view of
`pendingTasks` (`mem_pendingTasks`), and the task graph has exactly the keys of the pending tasks as
its nodes (`mem_nodes_taskGraph`).
-/

namespace LuaAnalysis

/-! ## Worklists -/

namespace Worklist

theorem mem_pending {w : Worklist} {i : Nat} {task : Task} :
    (i, task) ∈ w.pending ↔ w.get? i = some task := by
  simp only [pending, get?, List.mem_filterMap, Option.map_eq_some_iff, Prod.mk.injEq]
  constructor
  · rintro ⟨⟨place, j⟩, hmem, other, hplace, rfl, rfl⟩
    rw [List.mem_zipIdx_iff_getElem?] at hmem
    subst hplace
    rw [hmem]
    rfl
  · intro h
    exact ⟨(some task, i), List.mem_zipIdx_iff_getElem?.2 (Option.join_eq_some_iff.1 h), task, rfl,
      rfl, rfl⟩

/-- Every place has at most one pending task. -/
theorem nodup_pending (w : Worklist) : (w.pending.map Prod.fst).Nodup := by
  have hsub : (w.pending.map Prod.fst).Sublist (w.places.zipIdx.map Prod.snd) := by
    rw [pending, List.map_filterMap]
    induction w.places.zipIdx with
    | nil => exact List.Sublist.refl _
    | cons entry entries ih =>
      obtain ⟨place, i⟩ := entry
      cases place with
      | none => exact ih.cons i
      | some task => exact ih.cons_cons i
  apply hsub.nodup
  rw [List.zipIdx_map_snd]
  exact List.nodup_range' _

theorem get?_take (w : Worklist) (i j : Nat) :
    (w.take i).2.get? j = if j = i then none else w.get? j := by
  simp only [take, get?, List.getElem?_set]
  by_cases hj : j = i
  · subst hj
    by_cases hlt : j < w.places.length
    · simp [hlt]
    · simp [hlt]
  · simp [hj, Ne.symm hj]

end Worklist

/-! ## Targets -/

/-- The pending task of a key, with the model of its file. -/
def taskAt? (targets : List Target) (key : TaskKey) : Option (FileModel × Task) :=
  (targets.find? fun t => t.model.source = key.source).bind fun t =>
    (t.worklist.get? key.place).map fun task => (t.model, task)

/-- Every source has at most one target. -/
def OnePerSource (targets : List Target) : Prop :=
  (targets.map fun t => t.model.source).Nodup

theorem sources_addTarget (targets : List Target) (target : Target) :
    (addTarget targets target).map (fun t => t.model.source) =
      if target.model.source ∈ targets.map (fun t => t.model.source) then
        targets.map (fun t => t.model.source)
      else targets.map (fun t => t.model.source) ++ [target.model.source] := by
  have hany : (targets.any fun t => t.model.source = target.model.source) = true ↔
      target.model.source ∈ targets.map (fun t => t.model.source) := by
    simp
  unfold addTarget
  split
  next h =>
    rw [if_pos (hany.1 h), List.map_map]
    apply List.map_congr_left
    intro t _
    by_cases ht : t.model.source = target.model.source
    · simp [ht]
    · simp [ht]
  next h =>
    rw [if_neg fun hmem => h (hany.2 hmem)]
    simp

theorem OnePerSource.addTarget {targets : List Target} (h : OnePerSource targets)
    (target : Target) : OnePerSource (addTarget targets target) := by
  unfold OnePerSource at *
  rw [sources_addTarget]
  split
  next => exact h
  next hnew => exact h.append (List.nodup_singleton _) (by simpa using hnew)

theorem onePerSource_foldl_addTarget (files targets : List Target) (h : OnePerSource targets) :
    OnePerSource (files.foldl addTarget targets) := by
  induction files generalizing targets with
  | nil => exact h
  | cons file files ih => exact ih _ (h.addTarget file)

theorem find?_eq_some_of_mem {targets : List Target} (h : OnePerSource targets) {t : Target}
    (ht : t ∈ targets) : (targets.find? fun t' => t'.model.source = t.model.source) = some t := by
  induction targets with
  | nil => simp at ht
  | cons first rest ih =>
    rw [OnePerSource, List.map_cons, List.nodup_cons] at h
    rcases List.mem_cons.1 ht with rfl | ht
    · simp
    · have hne : first.model.source ≠ t.model.source := fun heq =>
        h.1 (heq ▸ List.mem_map_of_mem ht)
      rw [List.find?_cons_of_neg (by simpa using hne)]
      exact ih h.2 ht

theorem mem_pendingTasks {targets : List Target} (h : OnePerSource targets) {key : TaskKey}
    {m : FileModel} {task : Task} :
    (key, m, task) ∈ pendingTasks targets ↔ taskAt? targets key = some (m, task) := by
  simp only [pendingTasks, taskAt?, List.mem_flatMap, List.mem_map, Option.bind_eq_some_iff,
    Option.map_eq_some_iff]
  constructor
  · rintro ⟨t, ht, ⟨place, task'⟩, hpending, heq⟩
    obtain ⟨rfl, rfl, rfl⟩ : (⟨t.model.source, place⟩ : TaskKey) = key ∧ t.model = m ∧
        task' = task := by simpa using heq
    exact ⟨t, find?_eq_some_of_mem h ht, task', Worklist.mem_pending.1 hpending, rfl⟩
  · rintro ⟨t, hfind, task', hget, heq⟩
    obtain ⟨rfl, rfl⟩ : t.model = m ∧ task' = task := by simpa using heq
    have hsource : t.model.source = key.source := by simpa using List.find?_some hfind
    refine ⟨t, List.mem_of_find?_eq_some hfind, (key.place, task'), Worklist.mem_pending.2 hget, ?_⟩
    rw [hsource]

/-- Every pending task has a key of its own. -/
theorem nodup_keys_pendingTasks {targets : List Target} (h : OnePerSource targets) :
    ((pendingTasks targets).map Prod.fst).Nodup := by
  induction targets with
  | nil => exact List.nodup_nil
  | cons t rest ih =>
    rw [OnePerSource, List.map_cons, List.nodup_cons] at h
    rw [pendingTasks, List.flatMap_cons, List.map_append]
    refine List.Nodup.append ?_ (ih h.2) ?_
    · rw [List.map_map]
      have hinj : Function.Injective (TaskKey.mk t.model.source) := fun i j hij => by
        simpa using hij
      have hkeys := (Worklist.nodup_pending t.worklist).map hinj
      rwa [List.map_map] at hkeys
    · -- The keys of two targets differ in their sources.
      intro key hkey hrest
      obtain ⟨⟨k, m, task⟩, hmem, rfl⟩ := List.mem_map.1 hkey
      obtain ⟨⟨place, task'⟩, _, heq⟩ := List.mem_map.1 hmem
      obtain ⟨rfl, -, -⟩ : (⟨t.model.source, place⟩ : TaskKey) = k ∧ t.model = m ∧
        task' = task := by simpa using heq
      obtain ⟨⟨k', m', task''⟩, hmem', hk'⟩ := List.mem_map.1 hrest
      obtain ⟨t', ht', hmem''⟩ := List.mem_flatMap.1 hmem'
      obtain ⟨⟨place', _⟩, _, heq'⟩ := List.mem_map.1 hmem''
      have hsource : t'.model.source = t.model.source := by
        have hk : (⟨t'.model.source, place'⟩ : TaskKey) = k' := (Prod.mk.inj heq').1
        simpa using congrArg TaskKey.source (hk.trans hk')
      exact h.1 (hsource ▸ List.mem_map_of_mem ht')

/-! ## Taking tasks -/

namespace Progress

theorem fst_take (s : Progress) (key : TaskKey) : (s.take key).1 = taskAt? s.targets key := by
  unfold take taskAt?
  cases s.targets.find? fun t => t.model.source = key.source with
  | none => rfl
  | some t => rfl

theorem taskAt?_take (s : Progress) (key key' : TaskKey) :
    taskAt? (s.take key).2.targets key' = if key' = key then none else taskAt? s.targets key' := by
  unfold take
  cases hfind : s.targets.find? fun t => t.model.source = key.source with
  | none =>
    by_cases hkey : key' = key
    · simp [hkey, taskAt?, hfind]
    · simp [hkey]
  | some t =>
    have hsource : t.model.source = key.source := by simpa using List.find?_some hfind
    have hany : (s.targets.any fun t' => t'.model.source = t.model.source) = true :=
      List.any_eq_true.2 ⟨t, List.mem_of_find?_eq_some hfind, by simp⟩
    -- The target takes the place of the one of its source.
    have hfind' : (((addTarget s.targets ⟨t.model, (t.worklist.take key.place).2⟩)).find?
        fun t' => t'.model.source = key'.source) =
        (s.targets.find? fun t' => t'.model.source = key'.source).map fun t' =>
          if t'.model.source = t.model.source then
            ⟨t.model, (t.worklist.take key.place).2⟩ else t' := by
      simp only [addTarget, hany, if_true, List.find?_map]
      congr 2
      funext t'
      by_cases ht' : t'.model.source = t.model.source
      · simp [ht']
      · simp [ht']
    simp only [taskAt?]
    rw [hfind']
    by_cases hs : key'.source = key.source
    · rw [hs, hfind]
      simp only [Option.map_some, Option.bind_some, if_true, Worklist.get?_take]
      by_cases hp : key'.place = key.place
      · have hkey : key' = key := by cases key; cases key'; simp_all
        simp [hkey]
      · have hkey : key' ≠ key := fun h => hp (h ▸ rfl)
        simp [hp, hkey]
    · have hkey : key' ≠ key := fun h => hs (h ▸ rfl)
      rw [if_neg hkey]
      cases hother : s.targets.find? fun t' => t'.model.source = key'.source with
      | none => rfl
      | some t' =>
        have hne : t'.model.source ≠ t.model.source := by
          have : t'.model.source = key'.source := by simpa using List.find?_some hother
          rw [this, hsource]
          exact hs
        simp [hne]

theorem onePerSource_take {s : Progress} (h : OnePerSource s.targets) (key : TaskKey) :
    OnePerSource (s.take key).2.targets := by
  unfold take
  cases s.targets.find? fun t => t.model.source = key.source with
  | none => exact h
  | some t => exact h.addTarget _

end Progress

/-! ## The graph -/

namespace TaskTable

/-- Every task that the table leads to satisfies a predicate. -/
structure LeadsTo (table : TaskTable) (P : TaskKey → Prop) : Prop where
  decls : ∀ entry ∈ table.decls, P entry.2
  methods : ∀ entry ∈ table.methods, P entry.2
  fields : ∀ entry ∈ table.fields, P entry.2.1

variable {table : TaskTable} {P : TaskKey → Prop}

theorem LeadsTo.add (h : table.LeadsTo P) {key : TaskKey} {m : FileModel} {task : Task}
    (hkey : P key) : (table.add (key, m, task)).LeadsTo P := by
  cases task with
  | declaration decl value todo definesType =>
    have hdecls : ∀ entry ∈ (m.ref decl, key) :: table.decls, P entry.2 :=
      List.forall_mem_cons.2 ⟨hkey, h.decls⟩
    cases hd : m.decl? decl with
    | none =>
      simp only [TaskTable.add, hd]
      exact ⟨hdecls, h.methods, h.fields⟩
    | some d =>
      by_cases hassigned : d.kind.isAssignedField
      · simp only [TaskTable.add, hd, hassigned, if_true]
        refine ⟨hdecls, h.methods, fun entry hentry => ?_⟩
        rcases List.mem_append.1 hentry with hentry | hentry
        · exact h.fields entry hentry
        · obtain rfl := List.mem_singleton.1 hentry
          exact hkey
      · simp only [TaskTable.add, hd, hassigned]
        exact ⟨hdecls, h.methods, h.fields⟩
  | method closure => exact ⟨h.decls, List.forall_mem_cons.2 ⟨hkey, h.methods⟩, h.fields⟩
  | source body => exact h

theorem LeadsTo.foldl_add (tasks : List (TaskKey × FileModel × Task))
    (htasks : ∀ entry ∈ tasks, P entry.1) (h : table.LeadsTo P) :
    (tasks.foldl TaskTable.add table).LeadsTo P := by
  induction tasks generalizing table with
  | nil => exact h
  | cons entry tasks ih =>
    exact ih (fun e he => htasks e (List.mem_cons_of_mem _ he))
      (h.add (htasks entry List.mem_cons_self))

theorem leadsTo_ofTasks (tasks : List (TaskKey × FileModel × Task)) :
    (ofTasks tasks).LeadsTo fun key => key ∈ tasks.map Prod.fst :=
  LeadsTo.foldl_add tasks (fun _ hentry => List.mem_map_of_mem hentry)
    ⟨by simp, by simp, by simp⟩

theorem LeadsTo.methodTask? (h : table.LeadsTo P) {closure : Option SyntaxId} {key : TaskKey}
    (hkey : table.methodTask? closure = some key) : P key := by
  obtain ⟨id, -, hfind⟩ := Option.bind_eq_some_iff.1 hkey
  obtain ⟨entry, hentry, rfl⟩ := Option.map_eq_some_iff.1 hfind
  exact h.methods entry (List.mem_of_find?_eq_some hentry)

theorem LeadsTo.ofDeclaration (h : table.LeadsTo P) {ref : DeclRef} {closure : Option SyntaxId}
    {key : TaskKey} (hkey : key ∈ table.ofDeclaration ref closure) : P key := by
  rcases List.mem_append.1 hkey with hkey | hkey
  · obtain ⟨entry, hentry, rfl⟩ := Option.map_eq_some_iff.1 (Option.mem_toList.1 hkey)
    exact h.decls entry (List.mem_of_find?_eq_some hentry)
  · exact h.methodTask? (Option.mem_toList.1 hkey)

theorem LeadsTo.ofField (h : table.LeadsTo P) {name : String} {key : TaskKey}
    (hkey : key ∈ table.ofField name) : P key := by
  obtain ⟨⟨field, task, closure⟩, hentry, hkey⟩ := List.mem_flatMap.1 hkey
  rcases List.mem_cons.1 hkey with rfl | hkey
  · exact h.fields _ (List.mem_filter.1 hentry).1
  · exact h.methodTask? (Option.mem_toList.1 hkey)

end TaskTable

namespace Project

variable (p : Project)

theorem taskDependencies_leadsTo {table : TaskTable} {P : TaskKey → Prop} (h : table.LeadsTo P)
    {m : FileModel} {task : Task} {key : TaskKey} (hkey : key ∈ p.taskDependencies table m task) :
    P key := by
  obtain ⟨mentions, -, hkey⟩ := List.mem_flatMap.1 hkey
  rcases List.mem_append.1 hkey with hkey | hkey
  · obtain ⟨name, -, hkey⟩ := List.mem_flatMap.1 hkey
    unfold nameTasks at hkey
    split at hkey
    next => exact h.ofDeclaration hkey
    next => simp at hkey
  · obtain ⟨field, -, hkey⟩ := List.mem_flatMap.1 hkey
    exact h.ofField hkey

theorem addTask_spec (table : TaskTable) {graph : DependencyGraph TaskKey}
    (hgraph : graph.WellFormed) (key : TaskKey) (m : FileModel) (task : Task) :
    (p.addTask table graph (key, m, task)).WellFormed ∧
      ∀ other, other ∈ (p.addTask table graph (key, m, task)).nodes ↔
        other ∈ graph.nodes ∨ other = key ∨
          (other ∈ p.taskDependencies table m task ∧ other ≠ key) := by
  -- The task is a node already when its dependencies are added one by one.
  have hfold : ∀ (others : List TaskKey) (g : DependencyGraph TaskKey), g.WellFormed →
      key ∈ g.nodes →
      (others.foldl (fun g other => g.addDependency key other) g).WellFormed ∧
        ∀ x, x ∈ (others.foldl (fun g other => g.addDependency key other) g).nodes ↔
          x ∈ g.nodes ∨ x ∈ others := by
    intro others
    induction others with
    | nil => exact fun g hg _ => ⟨hg, by simp⟩
    | cons other others ih =>
      intro g hg hkey
      obtain ⟨hwf, hmem⟩ := ih _ (hg.addDependency key other)
        (DependencyGraph.mem_nodes_addDependency.2 (Or.inl hkey))
      refine ⟨hwf, fun x => ?_⟩
      rw [List.foldl_cons, hmem, DependencyGraph.mem_nodes_addDependency, List.mem_cons]
      constructor
      · rintro ((h | rfl | h) | h)
        · exact Or.inl h
        · exact Or.inl hkey
        · exact Or.inr (Or.inl h)
        · exact Or.inr (Or.inr h)
      · rintro (h | h | h)
        · exact Or.inl (Or.inl h)
        · exact Or.inl (Or.inr (Or.inr h))
        · exact Or.inr h
  obtain ⟨hwf, hmem⟩ := hfold ((p.taskDependencies table m task).filter (· ≠ key))
    (graph.addNode key) (hgraph.addNode key) (DependencyGraph.mem_nodes_addNode.2 (Or.inr rfl))
  refine ⟨hwf, fun other => ?_⟩
  unfold addTask
  rw [hmem, DependencyGraph.mem_nodes_addNode, or_assoc]
  simp

theorem taskGraph_spec (targets : List Target) :
    (p.taskGraph targets).WellFormed ∧
      ∀ key, key ∈ (p.taskGraph targets).nodes ↔ key ∈ (pendingTasks targets).map Prod.fst := by
  have htable := TaskTable.leadsTo_ofTasks (pendingTasks targets)
  have hfold : ∀ (rest : List (TaskKey × FileModel × Task)) (graph : DependencyGraph TaskKey),
      graph.WellFormed →
      (∀ key ∈ graph.nodes, key ∈ (pendingTasks targets).map Prod.fst) →
      (∀ key ∈ rest.map Prod.fst, key ∈ (pendingTasks targets).map Prod.fst) →
      let g := rest.foldl (p.addTask (.ofTasks (pendingTasks targets))) graph
      g.WellFormed ∧ (∀ key ∈ g.nodes, key ∈ (pendingTasks targets).map Prod.fst) ∧
        (∀ key ∈ graph.nodes, key ∈ g.nodes) ∧ ∀ key ∈ rest.map Prod.fst, key ∈ g.nodes := by
    intro rest
    induction rest with
    | nil => exact fun graph hgraph hnodes _ => ⟨hgraph, hnodes, fun _ h => h, by simp⟩
    | cons entry rest ih =>
      intro graph hgraph hnodes hrest
      obtain ⟨key, m, task⟩ := entry
      obtain ⟨hwf, hmem⟩ := p.addTask_spec (.ofTasks (pendingTasks targets)) hgraph key m task
      have hbound : ∀ other ∈ (p.addTask (.ofTasks (pendingTasks targets)) graph
          (key, m, task)).nodes, other ∈ (pendingTasks targets).map Prod.fst := by
        intro other hother
        rcases (hmem other).1 hother with h | rfl | ⟨h, -⟩
        · exact hnodes other h
        · exact hrest _ List.mem_cons_self
        · exact p.taskDependencies_leadsTo htable h
      obtain ⟨hwf', hbound', hkeep, hin⟩ := ih _ hwf hbound
        (fun k hk => hrest k (List.mem_cons_of_mem _ hk))
      refine ⟨hwf', hbound', fun k hk => hkeep k ((hmem k).2 (Or.inl hk)), fun k hk => ?_⟩
      rcases List.mem_cons.1 hk with rfl | hk
      · exact hkeep _ ((hmem _).2 (Or.inr (Or.inl rfl)))
      · exact hin k hk
  obtain ⟨hwf, hbound, -, hin⟩ := hfold (pendingTasks targets) {} DependencyGraph.wellFormed_empty
    (by simp) (fun _ h => h)
  exact ⟨hwf, fun key => ⟨hbound key, hin key⟩⟩

theorem wellFormed_taskGraph (targets : List Target) : (p.taskGraph targets).WellFormed :=
  (p.taskGraph_spec targets).1

theorem mem_nodes_taskGraph (targets : List Target) {key : TaskKey} :
    key ∈ (p.taskGraph targets).nodes ↔ key ∈ (pendingTasks targets).map Prod.fst :=
  (p.taskGraph_spec targets).2 key

end Project

end LuaAnalysis
