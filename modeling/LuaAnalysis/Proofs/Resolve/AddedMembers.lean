import LuaAnalysis.Proofs.Resolve.LateTasks
import LuaAnalysis.Proofs.Resolve.TaskNeeds

/-!
# The members that a task adds

A task that is run adds members in two ways: it links its field to the owner that the base has by
then, and it makes the members that a table has by then members of the type that the table defines
(`Project.Adds`). So the members that a task finds are those that there were at the start and those
that the tasks before it have added.

Main statement: `Project.mem_members_events`.
-/

namespace LuaAnalysis

/-- Members that the file of a model is given are members, and no others come with them. -/
theorem ProjectIndex.mem_members_addMembers {idx : ProjectIndex} (h : idx.Sorted) {m : FileModel}
    (hm : m ∈ idx.models) {owner owner' : Owner} {added : List DeclId} {ref : DeclRef} :
    ref ∈ (idx.amend m.source (·.addMembers owner' added)).members owner ↔
      ref ∈ idx.members owner ∨ owner = owner' ∧ ∃ i ∈ added, ref = m.ref i := by
  obtain ⟨f, hf, rfl⟩ := List.mem_map.1 hm
  have hsource : f.source = f.model.source := rfl
  constructor
  · intro href
    obtain ⟨_, hamended, i, hi, rfl⟩ := mem_refs.1 href
    obtain ⟨g, hg, rfl⟩ := List.mem_map.1 hamended
    split at hi
    · next hsame =>
      obtain rfl := h.unique hg hf hsame
      rw [if_pos hsame]
      rcases Entries.mem_values_addMembers.1 hi with hold | ⟨howner, hnew⟩
      · exact .inl (mem_refs.2 ⟨g, hg, i, hold, rfl⟩)
      · exact .inr ⟨howner, i, hnew, rfl⟩
    · next hother =>
      rw [if_neg hother]
      exact .inl (mem_refs.2 ⟨g, hg, i, hi, rfl⟩)
  · rintro (hold | ⟨rfl, i, hi, rfl⟩)
    · exact members_amend idx _ (fun e i hi => Entries.mem_values_addMembers.2 (.inl hi)) hold
    · refine mem_refs.2 ⟨_, List.mem_map_of_mem hf, i, ?_, ?_⟩
      · rw [if_pos hsource]
        exact Entries.mem_values_addMembers.2 (.inr ⟨rfl, hi⟩)
      · rw [if_pos hsource]

/-- Whether a task makes the fields of a table members of the type with a name. -/
inductive FileModel.Shares (m : FileModel) : Task → SyntaxId → String → Prop where
  | table {decl : DeclId} {v : ValueRef} {todo : Open} {d : Declaration} {fields : List NodeId}
      {name : String} (hd : m.decl? decl = some d) (hwritten : d.written = some (.named name))
      (htable : m.tree.node? v.expr = some (.tableExpr fields)) :
      Shares m (.declaration decl (some v) todo true) (m.tree.syntaxId v.expr) name

namespace Project

variable {p q : Project} {m : FileModel} {task : Task} {owner : Owner} {ref : DeclRef}

/-- The owner to which a task links its field when it is run. -/
def linkedTo? (p : Project) (m : FileModel) (task : Task) : Option Owner :=
  if task.todo.owner then
    (task.decl?.bind m.assignedBase?).bind fun base =>
      ((p.beforeLink m task).ownersOfType ((p.beforeLink m task).exprType m base 0)).head?
  else none

/-- Whether a task that is run in a project makes a declaration a member of an owner. -/
inductive Adds (p : Project) (m : FileModel) (task : Task) (owner : Owner) : DeclRef → Prop where
  | field {i : DeclId} (hi : task.decl? = some i) (howner : p.linkedTo? m task = some owner) :
      Adds p m task owner (m.ref i)
  | table {table : SyntaxId} {name : String} {i : DeclId} (hshares : m.Shares task table name)
      (howner : owner = .named name) (hi : m.ref i ∈ p.index.members (.anonymous table)) :
      Adds p m task owner (m.ref i)

/-! ## One task -/

theorem mem_members_linkField (h : p.index.Sorted) (hm : m ∈ p.index.models) {decl : DeclId} :
    ref ∈ (p.linkField m decl).index.members owner ↔ ref ∈ p.index.members owner ∨
      ref = m.ref decl ∧ (m.assignedBase? decl).bind
        (fun base => (p.ownersOfType (p.exprType m base 0)).head?) = some owner := by
  unfold linkField
  cases hbase : m.assignedBase? decl with
  | none => simp
  | some base =>
    cases howner : (p.ownersOfType (p.exprType m base 0)).head? with
    | none => simp [howner]
    | some owner' =>
      have hadd : ref ∈ (p.index.amend m.source (·.addMembers owner' [decl])).members owner ↔ _ :=
        ProjectIndex.mem_members_addMembers h hm
      dsimp only [Option.bind_some]
      rw [howner]
      refine hadd.trans (or_congr_right ?_)
      simp only [List.mem_singleton, exists_eq_left, Option.some.injEq]
      exact ⟨fun hnew => ⟨hnew.2, hnew.1.symm⟩, fun hnew => ⟨hnew.2.symm, hnew.1⟩⟩

/-- The members of a table in the file of a model, as references. -/
theorem mem_values_table (h : p.index.Sorted) (hm : m ∈ p.index.models) (table : Owner)
    (i : DeclId) : i ∈ ((p.index.file? m.source).map fun f =>
      f.entries.members.values table).getD [] ↔ m.ref i ∈ p.index.members table := by
  obtain ⟨f, hf, rfl⟩ := List.mem_map.1 hm
  rw [(ProjectIndex.file?_eq_some h).2 ⟨hf, show f.source = f.model.source from rfl⟩,
    Option.map_some, Option.getD_some]
  exact (ProjectIndex.ref_mem_members h hf).symm

theorem mem_members_linkTable_iff (h : p.index.Sorted) (hm : m ∈ p.index.models) {decl : DeclId}
    {name : String} (htype : p.findings.type? m decl = some (.named name)) {v : ValueRef}
    {fields : List NodeId} (htable : m.tree.node? v.expr = some (.tableExpr fields)) :
    ref ∈ (p.linkTable m decl (some v)).index.members owner ↔ ref ∈ p.index.members owner ∨
      owner = .named name ∧ ∃ i, ref = m.ref i ∧
        m.ref i ∈ p.index.members (.anonymous (m.tree.syntaxId v.expr)) := by
  unfold linkTable
  rw [htype]
  dsimp only
  rw [htable]
  refine (ProjectIndex.mem_members_addMembers h hm).trans ?_
  simp only [mem_values_table h hm, and_comm]

/-- What a task has added when it comes to link its field. -/
theorem mem_members_beforeLink (h : p.index.Sorted) (hm : m ∈ p.index.models)
    (htask : task.Concerns m.tree m.decls) :
    ref ∈ (p.beforeLink m task).index.members owner ↔ ref ∈ p.index.members owner ∨
      ∃ table name, m.Shares task table name ∧ owner = .named name ∧ ∃ i, ref = m.ref i ∧
        m.ref i ∈ p.index.members (.anonymous table) := by
  have hnothing (hnone : ∀ table name, ¬m.Shares task table name) :
      ref ∈ p.index.members owner ↔ ref ∈ p.index.members owner ∨
        ∃ table name, m.Shares task table name ∧ owner = .named name ∧ ∃ i, ref = m.ref i ∧
          m.ref i ∈ p.index.members (.anonymous table) := by
    refine ⟨.inl, ?_⟩
    rintro (hold | ⟨table, name, hshares, -⟩)
    · exact hold
    · exact absurd hshares (hnone table name)
  cases task with
  | method | source =>
    apply hnothing
    rintro table name ⟨⟩
  | declaration decl value todo definesType =>
    obtain ⟨d, hd, -, hdefined⟩ := htask
    have hindex : (if todo.type then p.resolveType m decl value else p).index = p.index := by
      split
      · exact index_resolveType p m decl value
      · rfl
    unfold beforeLink
    dsimp only
    generalize (if todo.type then p.resolveType m decl value else p) = q at hindex
    cases definesType with
    | false =>
      rw [if_neg Bool.false_ne_true, hindex]
      apply hnothing
      rintro table name ⟨⟩
    | true =>
      obtain ⟨name, hwritten, -⟩ := hdefined rfl
      have htype : q.findings.type? m decl = some (.named name) := by
        rw [Findings.type?, show m.decl? decl = some d from hd]
        dsimp only
        rw [hwritten, Option.some_or]
      rw [if_pos rfl]
      by_cases hshares : ∃ v fields, value = some v ∧
          m.tree.node? v.expr = some (.tableExpr fields)
      · obtain ⟨v, fields, rfl, htable⟩ := hshares
        rw [mem_members_linkTable_iff (hindex ▸ h) (hindex ▸ hm) htype htable, hindex]
        refine or_congr_right ⟨?_, ?_⟩
        · rintro ⟨howner, hmembers⟩
          exact ⟨_, name, .table hd hwritten htable, howner, hmembers⟩
        · rintro ⟨table, name', ⟨hd', hwritten', -⟩, howner, hmembers⟩
          obtain rfl := Option.some.inj (hd.symm.trans hd')
          obtain rfl : name = name' := by simpa using hwritten.symm.trans hwritten'
          exact ⟨howner, hmembers⟩
      · -- Only a table has fields to share.
        have hsame : q.linkTable m decl value = q := by
          unfold linkTable
          rw [htype]
          split
          · next hvalue =>
            split
            · next fields hfields => exact absurd ⟨_, fields, rfl, hfields⟩ hshares
            · rfl
          · rfl
        rw [hsame, hindex]
        refine hnothing fun _ _ hshared => ?_
        obtain ⟨-, -, htable⟩ := hshared
        exact hshares ⟨_, _, rfl, htable⟩

/-- A task that is run adds its field and the fields of its table, and nothing else. -/
theorem mem_members_runTask (h : p.index.Sorted) (hm : m ∈ p.index.models)
    (htask : task.Concerns m.tree m.decls) :
    ref ∈ (p.runTask m task).index.members owner ↔
      ref ∈ p.index.members owner ∨ p.Adds m task owner ref := by
  have hbefore : ref ∈ (p.beforeLink m task).index.members owner ↔ _ :=
    mem_members_beforeLink h hm htask
  have hwrites := p.writes_beforeLink m task
  -- The link of the field is the last thing that a task does.
  have hlinked : ref ∈ (p.runTask m task).index.members owner ↔
      ref ∈ (p.beforeLink m task).index.members owner ∨ ∃ i, task.decl? = some i ∧ ref = m.ref i ∧
        p.linkedTo? m task = some owner := by
    cases task with
    | method closure =>
      have hindex : (p.runTask m (.method closure)).index = p.index := by
        dsimp only [runTask]
        split
        · split <;> rfl
        · rfl
      simp [hindex, beforeLink, Task.decl?]
    | source body => simp [runTask, beforeLink, Task.decl?]
    | declaration decl value todo definesType =>
      rw [runTask_declaration]
      unfold linkedTo?
      cases howner : todo.owner with
      | false => simp [Task.todo, howner]
      | true =>
        rw [if_pos rfl, mem_members_linkField]
        · simp [Task.todo, howner, Task.decl?]
        · exact h.of_models hwrites.models
        · rw [hwrites.models]
          exact hm
  rw [hlinked, hbefore, or_assoc]
  refine or_congr_right ⟨?_, ?_⟩
  · rintro (⟨table, name, hshares, howner, i, rfl, hi⟩ | ⟨i, hi, rfl, howner⟩)
    · exact .table hshares howner hi
    · exact .field hi howner
  · rintro (⟨hi, howner⟩ | ⟨hshares, howner, hi⟩)
    · exact .inr ⟨_, hi, rfl, howner⟩
    · exact .inl ⟨_, _, hshares, howner, _, rfl, hi⟩

/-! ## Many tasks -/

theorem mem_members_events {events : List TaskEvent} (h : p.index.Sorted)
    (hevents : ∀ e ∈ events, e.run = true ∧ e.model ∈ p.index.models ∧
      e.task.Concerns e.model.tree e.model.decls) :
    ref ∈ (events.foldl TaskEvent.apply p).index.members owner ↔ ref ∈ p.index.members owner ∨
      ∃ before e after, events = before ++ e :: after ∧
        (before.foldl TaskEvent.apply p).Adds e.model e.task owner ref := by
  induction events using List.reverseRecOn with
  | nil => simp
  | append_singleton events e ih =>
    obtain ⟨hrun, hm, htask⟩ := hevents e (List.mem_append_right _ (List.mem_singleton_self e))
    have hmodels := p.models_events events
    rw [List.foldl_append, List.foldl_cons, List.foldl_nil, TaskEvent.apply, if_pos hrun,
      mem_members_runTask (h.of_models hmodels) (hmodels ▸ hm) htask,
      ih fun e he => hevents e (List.mem_append_left _ he), or_assoc]
    refine or_congr_right ⟨?_, ?_⟩
    · rintro (⟨before, e', after, rfl, hadds⟩ | hadds)
      · exact ⟨before, e', after ++ [e], by simp, hadds⟩
      · exact ⟨events, e, [], rfl, hadds⟩
    · rintro ⟨before, e', after, heq, hadds⟩
      rcases List.eq_nil_or_concat after with rfl | ⟨after, last, rfl⟩
      · obtain ⟨rfl, heq⟩ := List.append_inj' heq rfl
        obtain rfl : e = e' := by simpa using heq
        exact .inr hadds
      · rw [List.concat_eq_append, ← List.cons_append, ← List.append_assoc] at heq
        obtain ⟨rfl, -⟩ := List.append_inj' heq rfl
        exact .inl ⟨before, e', after, rfl, hadds⟩

end Project

end LuaAnalysis
