import LuaAnalysis.Compilation
import LuaAnalysis.Proofs.Data.Cycles
import LuaAnalysis.Proofs.Resolve.Advance
import LuaAnalysis.Syntax.Shorthand

/-!
# The tasks that are given up

A task is given up when the sort of the task graph reports it on a cycle. It then lies on a cycle,
and no cycle is without a task that is given up. Where two cycles meet, however, a task may lie on
one of them and be run all the same (`task_on_cycle_is_run`).

Main statement: `Project.given_up_on_cycles`.
-/

namespace LuaAnalysis

namespace Project

variable (p : Project)

theorem run_eq_false_iff {targets : List Target} {e : TaskEvent}
    (he : e ∈ p.resolveEvents targets) :
    e.run = false ↔ (p.taskGraph targets).Reported e.key := by
  rw [(p.mem_resolveEvents.1 he).2.1, decide_eq_false_iff_not, not_not]
  rfl

/-- Without cycles every task is run. -/
theorem run_of_acyclic {targets : List Target} (h : (p.taskGraph targets).Acyclic) {e : TaskEvent}
    (he : e ∈ p.resolveEvents targets) : e.run = true := by
  rw [← Bool.not_eq_false, p.run_eq_false_iff he]
  exact fun hreported => h e.key hreported.needs

/-- Every task of the graph is taken. -/
theorem exists_event {targets : List Target} (h : OnePerSource targets) {key : TaskKey}
    (hkey : key ∈ (p.taskGraph targets).nodes) : ∃ e ∈ p.resolveEvents targets, e.key = key := by
  rw [← DependencyGraph.mem_order_sort (p.wellFormed_taskGraph targets),
    ← p.keys_resolveEvents h] at hkey
  exact List.mem_map.1 hkey

/-- Giving up a declaration makes it unknown if it has no type yet. -/
theorem type?_giveUp {m : FileModel} {i : DeclId} {d : Declaration} (hd : m.decl? i = some d)
    (value : Option ValueRef) (todo : Open) (definesType : Bool) :
    (p.giveUp m (.declaration i value todo definesType)).findings.type? m i =
      some ((p.findings.type? m i).getD .unknown) :=
  p.findings.type?_setType hd .unknown

/-- What is given up is counted and lies on a cycle of the task graph, every cycle has a task that
is given up, and where no two cycles meet just the tasks on cycles are. A declaration that is given
up is unknown for good, if it has no type by then. -/
theorem given_up_on_cycles (files : List Target) :
    let targets := files.foldl addTarget []
    let graph := p.taskGraph targets
    let events := p.resolveEvents targets
    let done := p.resolve targets
    done.summary.cyclic = events.countP (!·.run) ∧
      (∀ e ∈ events, e.run = false → graph.Needs e.key e.key) ∧
      (∀ cycle, graph.Closed cycle → ∃ e ∈ events, e.key ∈ cycle ∧ e.run = false) ∧
      (graph.CyclesApart → ∀ e ∈ events, e.run = false ↔ graph.Needs e.key e.key) ∧
      ∀ before e after, events = before ++ e :: after → e.run = false →
        ∀ i value todo definesType d, e.task = .declaration i value todo definesType →
          e.model.decl? i = some d →
          done.project.findings.type? e.model i =
            some (((before.foldl TaskEvent.apply p).findings.type? e.model i).getD .unknown) := by
  intro targets graph events done
  have h : OnePerSource targets := onePerSource_foldl_addTarget files [] List.nodup_nil
  have hgraph : graph.WellFormed := p.wellFormed_taskGraph targets
  refine ⟨by rw [p.summary_resolve targets], fun e he hrun => ?_, fun cycle hcycle => ?_,
    fun hapart e he => ?_, ?_⟩
  · exact ((p.run_eq_false_iff he).1 hrun).needs
  · obtain ⟨key, hkey, hreported⟩ := DependencyGraph.exists_reported_of_closed hgraph hcycle
    obtain ⟨next, -, hedge⟩ := hcycle.next hkey
    obtain ⟨e, he, rfl⟩ := p.exists_event h (hgraph.ends _ hedge).1
    exact ⟨e, he, hkey, (p.run_eq_false_iff he).2 hreported⟩
  · rw [p.run_eq_false_iff he]
    exact DependencyGraph.reported_iff hgraph hapart
  · intro before e after hevents hrun i value todo definesType d htask hd
    -- The event itself settles the declaration, and the later ones keep its type.
    have hproject : done.project =
        after.foldl TaskEvent.apply (e.apply (before.foldl TaskEvent.apply p)) := by
      rw [p.project_resolve targets, show p.resolveEvents targets = _ from hevents,
        List.foldl_append, List.foldl_cons]
    have hgiven : (e.apply (before.foldl TaskEvent.apply p)).findings.type? e.model i =
        some (((before.foldl TaskEvent.apply p).findings.type? e.model i).getD .unknown) := by
      rw [TaskEvent.apply, hrun, if_neg Bool.false_ne_true, htask]
      exact type?_giveUp _ hd value todo definesType
    rw [hproject]
    exact (advances_events _ after).findings.type? hgiven

end Project

/-! ## Two cycles that meet -/

/-- `a = b or c`, then `b = a`, then `c = not b` -/
def meetingCycles : Sketch :=
  .block [.node (.assignStat [.var "a"] [.binary .or (.var "b") (.var "c")]),
    .node (.assignStat [.var "b"] [.var "a"]),
    .node (.assignStat [.var "c"] [.unary .not (.var "b")])]

/-- A project of some files, before their tasks are done. -/
def published (trees : List SyntaxTree) : Project :=
  { index := { files := trees.map fun t =>
      ⟨(t.analyse {} t.source 1).model, (t.analyse {} t.source 1).entries⟩ }
    maxSuperDepth := ({} : Config).maxSuperDepth }

/-- The files with their tasks. -/
def pendingFiles (trees : List SyntaxTree) : List Target :=
  trees.map fun t => ⟨(t.analyse {} t.source 1).model, (t.analyse {} t.source 1).worklist⟩

/-- The task of `c` needs itself, through those of `b` and `a`. It is run nevertheless and makes `c` a
`boolean`: when the search comes from `a` to `c`, it has listed `b` already, so it never gets back to
`a`. -/
theorem task_on_cycle_is_run :
    let trees := [SyntaxTree.ofSketch 0 (some meetingCycles)]
    let p := published trees
    let targets := pendingFiles trees
    let done := p.resolve targets
    (p.taskGraph targets).Needs ⟨0, 3⟩ ⟨0, 3⟩ ∧
      (∃ e ∈ p.resolveEvents targets, e.key = ⟨0, 3⟩ ∧ e.run = true) ∧
      done.summary = ⟨2, 2⟩ ∧
      ∃ t ∈ targets, done.project.findings.type? t.model 2 = some .boolean := by
  intro trees p targets done
  have hneeds : (p.taskGraph targets).Needs ⟨0, 3⟩ ⟨0, 3⟩ := by
    have hc : (⟨0, 3⟩, ⟨0, 2⟩) ∈ (p.taskGraph targets).edges := by decide +kernel
    have hb : (⟨0, 2⟩, ⟨0, 1⟩) ∈ (p.taskGraph targets).edges := by decide +kernel
    have ha : (⟨0, 1⟩, ⟨0, 3⟩) ∈ (p.taskGraph targets).edges := by decide +kernel
    generalize p.taskGraph targets = graph at ha hb hc
    exact ((Relation.TransGen.single hc).tail hb).tail ha
  exact ⟨hneeds, by decide +kernel, by decide +kernel, by decide +kernel⟩

end LuaAnalysis
