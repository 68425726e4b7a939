import LuaAnalysis.Proofs.File.BodyTasks
import LuaAnalysis.Proofs.Resolve.AddedMembers
import LuaAnalysis.Proofs.Resolve.Settling

/-!
# The stages of a resolution

A task finds the project that the tasks before it have left (`Project.stage`). Each task finds
something out about one subject, the type of a declaration or the returns of a body, and no other
task does. So what is known about a subject changes once, when its task is taken, and the members
that a task finds are those that the tasks before it have added.

Main statements: `Project.Orderly.found?_resolve`, `Project.Orderly.mem_members_stage`.
-/

namespace LuaAnalysis

/-- What a task finds something out about: the type of a declaration, or the returns of a body. -/
inductive Subject where
  | decl (i : DeclId)
  | body (closure : Option NodeId)
deriving DecidableEq

def Task.subject : Task → Subject
  | .declaration decl _ _ _ => .decl decl
  | .method closure => .body (some closure)
  | .source _ => .body none

namespace Task

variable {task : Task}

theorem subject_eq_decl {i : DeclId} : task.subject = .decl i ↔ task.decl? = some i := by
  cases task <;> simp [subject, decl?]

theorem subject_eq_body {closure : Option NodeId} :
    task.subject = .body closure ↔ task.body? = some closure := by
  cases task <;> simp [subject, body?]

end Task

/-- What has been found out about a subject. A type is a list of one. -/
def Findings.found? (f : Findings) (m : FileModel) : Subject → Option (List Ty)
  | .decl i => (f.type? m i).map fun type => [type]
  | .body (some closure) => f.inferred? m closure
  | .body none => f.moduleReturns.get? m.revision

theorem Findings.type?_of_found? {f g : Findings} {m m' : FileModel} {i : DeclId}
    (h : g.found? m' (.decl i) = f.found? m (.decl i)) : g.type? m' i = f.type? m i :=
  Option.map_injective (fun _ _ hcons => (List.cons.inj hcons).1) h

namespace Project

variable {config : Config} {p q : Project} {targets : List Target} {m : FileModel} {task : Task}

/-- A task finds out nothing about other subjects. -/
theorem found?_runTask (p : Project) {m' : FileModel} {s : Subject}
    (hother : m.revision = m'.revision → task.subject ≠ s) :
    (p.runTask m task).findings.found? m' s = p.findings.found? m' s := by
  cases s with
  | decl i =>
    refine congrArg (Option.map _) ((p.writes_runTask m task).type? fun hrevision hi => ?_)
    exact hother hrevision (Task.subject_eq_decl.2 hi)
  | body closure =>
    cases closure with
    | some c =>
      refine (p.writes_runTask m task).inferred? fun hrevision htask => hother hrevision ?_
      rw [htask]
      rfl
    | none =>
      cases task with
      | declaration decl value todo definesType =>
        rw [findings_runTask]
        split
        · unfold resolveType
          split
          · rfl
          · exact congrArg (·.get? m'.revision) (p.findings.moduleReturns_setType m decl _)
        · rfl
      | method c =>
        dsimp only [runTask]
        split
        · split <;> rfl
        · rfl
      | source body =>
        apply WriteOnce.get?_put_of_ne
        intro heq
        exact hother heq.symm rfl

theorem found?_events (p : Project) {events : List TaskEvent} {s : Subject}
    (hevents : ∀ e ∈ events, e.run = true ∧
      (e.model.revision = m.revision → e.task.subject ≠ s)) :
    (events.foldl TaskEvent.apply p).findings.found? m s = p.findings.found? m s := by
  induction events generalizing p with
  | nil => rfl
  | cons e events ih =>
    obtain ⟨⟨hrun, hother⟩, hrest⟩ := List.forall_mem_cons.1 hevents
    rw [List.foldl_cons, ih _ hrest, TaskEvent.apply, if_pos hrun, p.found?_runTask hother]

/-! ## Stages -/

/-- The tasks that a resolution takes before one. -/
def earlier (p : Project) (targets : List Target) (e : TaskEvent) : List TaskEvent :=
  (p.resolveEvents targets).takeWhile fun u => decide (u.key ≠ e.key)

/-- The project that a task finds. -/
def stage (p : Project) (targets : List Target) (e : TaskEvent) : Project :=
  (p.earlier targets e).foldl TaskEvent.apply p

/-- Files are published with their tasks, and no two tasks are about one subject. -/
structure Distinct (config : Config) (p : Project) (targets : List Target) : Prop
    extends p.Ready config targets where
  bodies : ∀ t ∈ targets, t.worklist.bodies.Nodup

/-- Moreover, no task lies on a cycle. -/
structure Orderly (config : Config) (p : Project) (targets : List Target) : Prop
    extends p.Distinct config targets where
  acyclic : (p.taskGraph targets).Acyclic

theorem mem_of_earlier {e u : TaskEvent} (hu : u ∈ p.earlier targets e) :
    u ∈ p.resolveEvents targets :=
  (List.takeWhile_sublist _).mem hu

namespace Distinct

variable (h : p.Distinct config targets) {e u : TaskEvent}
include h

theorem eq_of_key (he : e ∈ p.resolveEvents targets) (hu : u ∈ p.resolveEvents targets)
    (hkey : u.key = e.key) : u = e := by
  obtain ⟨before, after, hevents⟩ := List.append_of_mem he
  by_contra hne
  have hother : u ∈ before ++ after := by
    rw [hevents] at hu
    simpa [hne] using hu
  exact p.key_ne_of_other h.once hevents hother hkey

/-- No two tasks are about one subject. -/
theorem eq_of_subject (he : e ∈ p.resolveEvents targets) (hu : u ∈ p.resolveEvents targets)
    (hrevision : u.model.revision = e.model.revision) (hsubject : u.task.subject = e.task.subject) :
    u = e := by
  have hmodel : u.model = e.model :=
    h.unique _ (h.model_mem hu) _ (h.model_mem he) hrevision
  apply h.eq_of_key he hu
  cases hs : e.task.subject with
  | decl i =>
    rw [hs] at hsubject
    exact h.key_unique hu he (by rw [hmodel]) (Task.subject_eq_decl.1 hsubject)
      (Task.subject_eq_decl.1 hs)
  | body closure =>
    rw [hs] at hsubject
    obtain ⟨t, ht, htu, hkeyu, hgetu⟩ := target_of_event hu
    obtain ⟨t', ht', hte, hkeye, hgete⟩ := target_of_event he
    have hfind := find?_eq_some_of_mem h.once ht
    rw [htu, hmodel, ← hte, find?_eq_some_of_mem h.once ht'] at hfind
    obtain rfl := Option.some.inj hfind
    have hplace := Worklist.body_unique (h.bodies t' ht) hgetu hgete
      (Task.subject_eq_body.1 hsubject) (Task.subject_eq_body.1 hs)
    calc u.key = ⟨t'.model.source, u.key.place⟩ := by rw [hkeyu]
      _ = ⟨t'.model.source, e.key.place⟩ := by rw [hplace]
      _ = e.key := by rw [hkeye]

end Distinct

namespace Orderly

variable (h : p.Orderly config targets) {e u : TaskEvent} {owner : Owner} {ref : DeclRef}
include h

theorem earlier_eq {before after : List TaskEvent}
    (hevents : p.resolveEvents targets = before ++ e :: after) : p.earlier targets e = before := by
  have hother : ∀ u ∈ before, decide (u.key ≠ e.key) = true := fun u hu =>
    decide_eq_true (p.key_ne_of_other h.once hevents (List.mem_append_left _ hu))
  rw [earlier, hevents, List.takeWhile_append_of_pos hother, List.takeWhile_cons_of_neg (by simp),
    List.append_nil]

theorem split (he : e ∈ p.resolveEvents targets) :
    ∃ after, p.resolveEvents targets = p.earlier targets e ++ e :: after := by
  obtain ⟨before, after, hevents⟩ := List.append_of_mem he
  exact ⟨after, by rw [h.earlier_eq hevents, hevents]⟩

/-- A task that comes before one of the tasks before a task comes before the task. -/
theorem earlier_split (he : e ∈ p.resolveEvents targets) (hu : u ∈ p.earlier targets e) :
    ∃ between, p.earlier targets e = p.earlier targets u ++ u :: between := by
  obtain ⟨after, hevents⟩ := h.split he
  obtain ⟨before, between, hbefore⟩ := List.append_of_mem hu
  refine ⟨between, ?_⟩
  have hsplit : p.resolveEvents targets = before ++ u :: (between ++ e :: after) := by
    rw [hevents, hbefore, List.append_assoc, List.cons_append]
  rw [h.earlier_eq hsplit, hbefore]

theorem key_ne (he : e ∈ p.resolveEvents targets) (hu : u ∈ p.earlier targets e) :
    u.key ≠ e.key := by
  obtain ⟨after, hevents⟩ := h.split he
  exact p.key_ne_of_other h.once hevents (List.mem_append_left _ hu)

theorem run (he : e ∈ p.resolveEvents targets) : e.run = true :=
  p.run_of_acyclic h.acyclic he

theorem concerns (he : e ∈ p.resolveEvents targets) :
    e.task.Concerns e.model.tree e.model.decls :=
  (concerns_of_taskAt? h.published (p.mem_resolveEvents.1 he).1).2

/-- A task comes after every task that it needs, directly or through others. -/
theorem earlier_of_needs (he : e ∈ p.resolveEvents targets) (hu : u ∈ p.resolveEvents targets)
    (hneeds : (p.taskGraph targets).Needs e.key u.key) : u ∈ p.earlier targets e := by
  -- The sort sees to one edge; a path is followed from its first task on.
  have hedge {e : TaskEvent} (he : e ∈ p.resolveEvents targets) {key : TaskKey}
      (hkey : (p.taskGraph targets).DependsOn e.key key) :
      ∃ w ∈ p.earlier targets e, w.key = key := by
    obtain ⟨after, hevents⟩ := h.split he
    exact List.mem_map.1 (p.dependency_before_run h.once hevents (h.run he) hkey)
  generalize hkey : e.key = key at hneeds
  induction hneeds using Relation.TransGen.head_induction_on generalizing e with
  | single hlast =>
    obtain ⟨w, hw, hwu⟩ := hedge he (hkey ▸ hlast)
    exact h.eq_of_key hu (mem_of_earlier hw) hwu ▸ hw
  | head hfirst _ ih =>
    obtain ⟨w, hw, hwc⟩ := hedge he (hkey ▸ hfirst)
    obtain ⟨between, hbetween⟩ := h.earlier_split he hw
    rw [hbetween]
    exact List.mem_append_left _ (ih (mem_of_earlier hw) hwc)

/-! ## What is found out -/

/-- Nothing is found out about a subject that no task is about. -/
theorem found?_of_no_task {m : FileModel} (hm : m ∈ p.index.models) {s : Subject}
    (hnone : ∀ u ∈ p.resolveEvents targets, u.model = m → u.task.subject ≠ s)
    {events : List TaskEvent} (hevents : events ⊆ p.resolveEvents targets) :
    (events.foldl TaskEvent.apply p).findings.found? m s = p.findings.found? m s := by
  refine p.found?_events fun u hu => ⟨h.run (hevents hu), fun hrevision => ?_⟩
  exact hnone u (hevents hu) (h.unique _ (h.model_mem (hevents hu)) m hm hrevision)

/-- Tasks among which that of a subject is not find nothing out about it. -/
theorem found?_of_not_mem {events : List TaskEvent} (hevents : events ⊆ p.resolveEvents targets)
    (he : e ∈ p.resolveEvents targets) (hnot : e ∉ events) (q : Project) :
    (events.foldl TaskEvent.apply q).findings.found? e.model e.task.subject =
      q.findings.found? e.model e.task.subject := by
  refine q.found?_events fun u hu => ⟨h.run (hevents hu), fun hrevision hsubject => hnot ?_⟩
  exact h.eq_of_subject he (hevents hu) hrevision hsubject ▸ hu

theorem not_mem_earlier (he : e ∈ p.resolveEvents targets) : e ∉ p.earlier targets e :=
  fun hmem => h.key_ne he hmem rfl

/-- A task knows nothing new about its own subject. -/
theorem found?_stage_self (he : e ∈ p.resolveEvents targets) :
    (p.stage targets e).findings.found? e.model e.task.subject =
      p.findings.found? e.model e.task.subject :=
  h.found?_of_not_mem (fun _ hu => mem_of_earlier hu) he (h.not_mem_earlier he) p

/-- What is known about a subject in the end is what its task has found out. -/
theorem found?_resolve (he : e ∈ p.resolveEvents targets) :
    (p.resolve targets).project.findings.found? e.model e.task.subject =
      ((p.stage targets e).runTask e.model e.task).findings.found? e.model e.task.subject := by
  obtain ⟨after, hevents⟩ := h.split he
  have hafter : e ∉ after := by
    intro hmem
    exact p.key_ne_of_other h.once hevents (List.mem_append_right _ hmem) rfl
  have hsubset : after ⊆ p.resolveEvents targets := by
    rw [hevents]
    exact fun u hu => List.mem_append_right _ (List.mem_cons_of_mem _ hu)
  rw [p.project_resolve, hevents, List.foldl_append, List.foldl_cons,
    h.found?_of_not_mem hsubset he hafter, TaskEvent.apply, if_pos (h.run he), stage]

/-- A task knows everything about the subjects of the tasks before it. -/
theorem found?_stage (he : e ∈ p.resolveEvents targets) (hu : u ∈ p.earlier targets e) :
    (p.stage targets e).findings.found? u.model u.task.subject =
      (p.resolve targets).project.findings.found? u.model u.task.subject := by
  obtain ⟨after, hevents⟩ := h.split he
  have hsubset : e :: after ⊆ p.resolveEvents targets := by
    rw [hevents]
    exact fun w hw => List.mem_append_right _ hw
  have hnot : u ∉ e :: after := by
    intro hmem
    obtain ⟨before, between, hbefore⟩ := List.append_of_mem hu
    have hsplit : p.resolveEvents targets = before ++ u :: (between ++ e :: after) := by
      rw [hevents, hbefore, List.append_assoc, List.cons_append]
    exact p.key_ne_of_other h.once hsplit (by simp_all) rfl
  rw [p.project_resolve, hevents, List.foldl_append,
    h.found?_of_not_mem hsubset (mem_of_earlier hu) hnot, stage]

/-! ## Members -/

/-- The members after the first tasks of a resolution are those that there were and those that these
tasks have added. -/
theorem mem_members_prefix {events rest : List TaskEvent}
    (hevents : p.resolveEvents targets = events ++ rest) :
    ref ∈ (events.foldl TaskEvent.apply p).index.members owner ↔ ref ∈ p.index.members owner ∨
      ∃ u ∈ events, (p.stage targets u).Adds u.model u.task owner ref := by
  have hmem {u : TaskEvent} (hu : u ∈ events) : u ∈ p.resolveEvents targets := by
    rw [hevents]
    exact List.mem_append_left _ hu
  rw [mem_members_events h.faithful.sorted
    fun u hu => ⟨h.run (hmem hu), h.model_mem (hmem hu), h.concerns (hmem hu)⟩]
  -- The tasks before one of them are those before it in the resolution.
  have hstage {before after : List TaskEvent} {u : TaskEvent}
      (hsplit : events = before ++ u :: after) :
      p.stage targets u = before.foldl TaskEvent.apply p := by
    have hall : p.resolveEvents targets = before ++ u :: (after ++ rest) := by
      rw [hevents, hsplit, List.append_assoc, List.cons_append]
    rw [stage, h.earlier_eq hall]
  refine or_congr_right ⟨?_, ?_⟩
  · rintro ⟨before, u, after, hsplit, hadds⟩
    refine ⟨u, ?_, hstage hsplit ▸ hadds⟩
    rw [hsplit]
    exact List.mem_append_right _ List.mem_cons_self
  · rintro ⟨u, hu, hadds⟩
    obtain ⟨before, after, hsplit⟩ := List.append_of_mem hu
    exact ⟨before, u, after, hsplit, hstage hsplit ▸ hadds⟩

/-- A task finds the members that there were and those that the tasks before it have added. -/
theorem mem_members_stage (he : e ∈ p.resolveEvents targets) :
    ref ∈ (p.stage targets e).index.members owner ↔ ref ∈ p.index.members owner ∨
      ∃ u ∈ p.earlier targets e, (p.stage targets u).Adds u.model u.task owner ref :=
  h.mem_members_prefix (h.split he).choose_spec

theorem mem_members_resolve :
    ref ∈ (p.resolve targets).project.index.members owner ↔ ref ∈ p.index.members owner ∨
      ∃ u ∈ p.resolveEvents targets, (p.stage targets u).Adds u.model u.task owner ref := by
  rw [p.project_resolve]
  exact h.mem_members_prefix (List.append_nil _).symm

end Orderly

end Project

end LuaAnalysis
