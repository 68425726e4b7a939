import LuaAnalysis.Proofs.File.TargetTasks
import LuaAnalysis.Proofs.Project.CallValues
import LuaAnalysis.Proofs.Project.Settled
import LuaAnalysis.Proofs.Project.StoredTypes

/-!
# Multiple assignment

The names of a local statement take its values in order. The last value gives as many more as are
left to take: the further returns of the function that it calls, and `nil` past the last one. What
the values are is decided when the task of the name is run.

Main statement: `Compilation.names_take_adjusted_values`.
-/

namespace LuaAnalysis

/-! ## Values of positions -/

section
variable {exprs : List NodeId} {i : Nat} {e : NodeId}

theorem valueAt_of_lt (he : exprs[i]? = some e) : valueAt exprs i = some ⟨e, 0⟩ := by
  rw [valueAt, he]

theorem valueAt_of_le (he : exprs.getLast? = some e) (hi : exprs.length ≤ i + 1) :
    valueAt exprs i = some ⟨e, i + 1 - exprs.length⟩ := by
  have hne : exprs ≠ [] := by
    rintro rfl
    cases he
  have hpos : 0 < exprs.length := List.length_pos_of_ne_nil hne
  rcases Nat.lt_or_ge i exprs.length with hlt | hge
  · have hslot : i + 1 - exprs.length = 0 := by omega
    have hi : i = exprs.length - 1 := by omega
    rw [hslot, valueAt_of_lt (by rw [hi, ← List.getLast?_eq_getElem?, he])]
  · have hslot : i - (exprs.length - 1) = i + 1 - exprs.length := by omega
    rw [valueAt, List.getElem?_eq_none hge, he, ← hslot]
    rfl

end

/-! ## The task of a target -/

namespace Project

/-- At some point of a resolution the task of the target at a position of a statement is taken, and
no other task is about its declaration. -/
structure Assigns (p : Project) (targets : List Target) (before : List TaskEvent) (e : TaskEvent)
    (after : List TaskEvent) (stat : NodeId) (exprs : List NodeId) (i : Nat) (x : NodeId)
    (j : DeclId) : Prop where
  events : p.resolveEvents targets = before ++ e :: after
  task : ∃ todo, todo.type = true ∧
    e.task = .declaration j (valueAt exprs i) todo (e.model.tree.annotation stat i).2
  decl : ∃ d, e.model.decl? j = some d ∧ d.node = x ∧ d.kind.isTarget = true ∧
    d.written = (e.model.tree.annotation stat i).1
  once : ∀ e' ∈ before ++ after, e'.model = e.model → e'.task.decl? ≠ some j

namespace Assigns

variable {config : Config} {p : Project} {targets : List Target} {before after : List TaskEvent}
  {e : TaskEvent} {stat x : NodeId} {exprs : List NodeId} {i : Nat} {j : DeclId}
  (ha : p.Assigns targets before e after stat exprs i x j)
include ha

theorem mem : e ∈ p.resolveEvents targets := by
  rw [ha.events]
  exact List.mem_append_right _ List.mem_cons_self

theorem resolve_eq : (p.resolve targets).project =
    after.foldl TaskEvent.apply (e.apply (before.foldl TaskEvent.apply p)) := by
  rw [p.project_resolve, ha.events, List.foldl_append, List.foldl_cons]

/-- A declaration that has no type before is typed by its task, if that is run. -/
theorem type?_eq (h : p.Ready config targets) (hnone : p.findings.type? e.model j = none)
    (hrun : e.run = true) {v : ValueRef} (hv : valueAt exprs i = some v) :
    (p.resolve targets).project.findings.type? e.model j =
      some ((before.foldl TaskEvent.apply p).exprType e.model v.expr v.slot) := by
  obtain ⟨todo, htype, htask⟩ := ha.task
  obtain ⟨d, hd, -⟩ := ha.decl
  -- No task is about the declaration before its own.
  have hbefore : (before.foldl TaskEvent.apply p).findings.type? e.model j = none := by
    rw [type?_events, hnone]
    rintro e' he' ⟨hrevision, hdecl⟩
    have hmem : e' ∈ p.resolveEvents targets := by
      rw [ha.events]
      exact List.mem_append_left _ he'
    have hmodel : e'.model = e.model :=
      h.unique _ (h.model_mem hmem) _ (h.model_mem ha.mem) hrevision
    exact ha.once e' (List.mem_append_left _ he') hmodel hdecl
  have happly : (e.apply (before.foldl TaskEvent.apply p)).findings.type? e.model j =
      some ((before.foldl TaskEvent.apply p).exprType e.model v.expr v.slot) := by
    rw [TaskEvent.apply, if_pos hrun, htask, findings_runTask, if_pos htype]
    unfold resolveType
    rw [hbefore, if_neg (by simp), hv]
    dsimp only
    rw [Findings.type?_setType _ hd, hbefore, Option.getD_none]
  rw [ha.resolve_eq]
  exact (advances_events _ after).findings.type? happly

end Assigns

end Project

namespace Compilation

variable {config : Config} {c c' : Compilation} {trees : List SyntaxTree}
  {summary : ResolveSummary} {f : PublishedFile} {stat x : NodeId} {targets exprs : List NodeId}
  {i : Nat}

/-- An update takes the task of every target that a file of it declares. Before, the target has the
type that is written for it, if any. -/
theorem Reached.exists_assigns (h : Reached config c) (htrees : ∀ t ∈ trees, t.Proper)
    (hupdate : c.update trees = .ok (summary, c')) (hf : f ∈ c'.index.files)
    (hlast : f.model.generation = c'.generation)
    (hassign : f.model.tree.assignment? stat = some (targets, exprs)) (hx : targets[i]? = some x)
    (hdeclared : (f.model.tree.outline config).Declared x) :
    ∃ before e after j,
      (c.openProject trees).Assigns (c.targets trees) before e after stat exprs i x j ∧
      e.model = f.model ∧ c.findings.type? f.model j = (f.model.tree.annotation stat i).1 := by
  have hready := h.ready htrees hupdate
  obtain ⟨target, htarget, hmodel⟩ := target_of_file h htrees hupdate hf hlast
  obtain ⟨a, ha, rfl⟩ := mem_targets htarget
  obtain ⟨t, ht, revision, -, -, rfl⟩ := mem_analyses ha
  have hfile := type?_of_analysis h ha
  rw [h.faithful.1] at htarget hmodel hfile
  rw [← hmodel] at hassign hdeclared ⊢
  obtain ⟨j, d, hd, hnode, hkind, hwritten, todo, htype, htask⟩ :=
    Outline.received_of_target (htrees t ht) hassign hx hdeclared
  obtain ⟨before, e, after, hevents, hem, hetask, honce⟩ :=
    hready.exists_event_of_decl htarget htask rfl
  refine ⟨before, e, after, j, ⟨hevents, ⟨todo, htype, ?_⟩, ⟨d, ?_, hnode, hkind, ?_⟩, ?_⟩, hem, ?_⟩
  · rw [hetask, hem]
    rfl
  · rw [hem]
    exact hd
  · rw [hem]
    exact hwritten
  · rw [hem]
    exact honce
  · calc c.findings.type? _ j
      _ = (some d).bind (·.written) := (hfile j).trans (congrArg (·.bind (·.written)) hd)
      _ = _ := hwritten

/-- A target without a type is typed by its value, as that is when the task is run. -/
theorem Reached.type?_of_assigns (h : Reached config c) (htrees : ∀ t ∈ trees, t.Proper)
    (hupdate : c.update trees = .ok (summary, c')) {before after : List TaskEvent} {e : TaskEvent}
    {j : DeclId}
    (ha : (c.openProject trees).Assigns (c.targets trees) before e after stat exprs i x j)
    (hnone : c.findings.type? e.model j = none) (hrun : e.run = true) {v : ValueRef}
    (hv : valueAt exprs i = some v) (hvalue : e.model.tree.Is .expr v.expr) :
    c'.findings.type? e.model j = some
      ((before.foldl TaskEvent.apply (c.openProject trees)).valueIn e.model v.expr v.slot) := by
  have hready := h.ready htrees hupdate
  have hpassed : c.Passes trees (before.foldl TaskEvent.apply (c.openProject trees)) :=
    ⟨before, e :: after, ha.events, rfl⟩
  have hwellFormed := h.wellFormed_passed htrees hpassed
  obtain ⟨hsorted, hproper⟩ := h.faithful_passed htrees hpassed
  have htype := ha.type?_eq hready hnone hrun hv
  -- The file is there when the task is run.
  have hmodel : e.model ∈ (before.foldl TaskEvent.apply (c.openProject trees)).index.models := by
    rw [Project.models_events]
    exact hready.model_mem ha.mem
  obtain ⟨g, hg, hge⟩ := List.mem_map.1 hmodel
  rw [← hge] at htype hvalue ⊢
  rw [Project.exprType_eq_valueIn hwellFormed hsorted hg (hproper g hg) hvalue] at htype
  rw [eq_of_update hupdate]
  exact htype

/-- A name of a local statement that has no annotation has one task, which types it by the values as
they are then. A value before the last one gives the first of its own values; the names from there
on take all that the last value gives, a call the returns that are known of its function. -/
theorem names_take_adjusted_values (h : Reached config c) (htrees : ∀ t ∈ trees, t.Proper)
    (hupdate : c.update trees = .ok (summary, c')) (hf : f ∈ c'.index.files)
    (hlast : f.model.generation = c'.generation)
    (hstat : stat ∈ f.model.tree.below f.model.tree.root) {names : List NodeId}
    (hnode : f.model.tree.node? stat = some (.localStat names exprs)) {name : NodeId}
    (hname : names[i]? = some name) (hplain : (f.model.tree.annotation stat i).1 = none) :
    let p := c.openProject trees
    ∃ before e after j, p.resolveEvents (c.targets trees) = before ++ e :: after ∧
      e.model = f.model ∧ e.task.decl? = some j ∧ f.model.anchored? name = some j ∧
      (∀ e' ∈ before ++ after, e'.model = f.model → e'.task.decl? ≠ some j) ∧
      (e.run = true →
        let seen := before.foldl TaskEvent.apply p
        (∀ expr, exprs[i]? = some expr → i + 1 < exprs.length →
          c'.findings.type? f.model j = some (seen.valueIn f.model expr 0)) ∧
        ∀ last, exprs.getLast? = some last → exprs.length ≤ i + 1 →
          c'.findings.type? f.model j =
            some (seen.valueIn f.model last (i + 1 - exprs.length))) := by
  intro p
  have hfile : f.Faithful config := (h.update htrees hupdate).faithful.2.files f hf
  have hassign : f.model.tree.assignment? stat = some (names, exprs) := by
    rw [SyntaxTree.assignment?, hnode]
  have hmem : name ∈ names := List.mem_of_getElem? hname
  have hdeclared : (f.model.tree.outline config).Declared name :=
    (Outline.handed config hfile.proper).names stat hstat names exprs hnode name hmem
  obtain ⟨before, e, after, j, ha, hem, hfound⟩ :=
    h.exists_assigns htrees hupdate hf hlast hassign hname hdeclared
  obtain ⟨todo, -, htask⟩ := ha.task
  refine ⟨before, e, after, j, ha.events, hem, by rw [htask]; rfl, ?_, hem ▸ ha.once, fun hrun => ?_⟩
  · obtain ⟨d, hd, rfl, -⟩ := ha.decl
    obtain ⟨revision, generation, hanalysed⟩ := hfile.analysed
    rw [hem] at hd
    exact FileModel.anchored_of_localStat hfile.proper hanalysed hnode hd hmem
  · -- A name has the value in its own place, or a later value of the last expression.
    have hproper := hfile.proper
    rw [← hem] at hfound hplain hassign hproper ⊢
    have htyped {v : ValueRef} (hv : valueAt exprs i = some v) (hvalue : v.expr ∈ exprs) :=
      h.type?_of_assigns htrees hupdate ha (hfound.trans hplain) hrun hv
        (hproper.is_expr_of_value hassign hvalue)
    refine ⟨fun expr hexpr _ => ?_, fun last hlast hi => ?_⟩
    · exact htyped (valueAt_of_lt hexpr) (List.mem_of_getElem? hexpr)
    · exact htyped (valueAt_of_le hlast hi) (List.mem_of_getLast? hlast)

/-- `function f() return "s", true end` and `local a, b, c, d = f(), f()` -/
def callsTwice : SyntaxTree :=
  .ofSketch 0 (some (.block [
    .function (.var "f") [] [.node (.returnStat [.literal (.string "s"), .literal (.bool true)])],
    .declare ["a", "b", "c", "d"] [.call (.var "f") [], .call (.var "f") []]]))

/-- The name `c` is the node 9. The second call is the node 14; `b` takes its first return and `c` the
second one. -/
theorem adjusted_values_callsTwice :
    ∃ summary c' f, twoSources.update [callsTwice] = .ok (summary, c') ∧ f ∈ c'.index.files ∧
      f.model.anchored? 9 = some 3 ∧ c'.findings.type? f.model 3 = some .boolean ∧
      ∃ before e after, (twoSources.openProject [callsTwice]).resolveEvents
          (twoSources.targets [callsTwice]) = before ++ e :: after ∧ e.task.decl? = some 3 ∧
        (before.foldl TaskEvent.apply (twoSources.openProject [callsTwice])).valueIn f.model 14 1 =
          .boolean := by
  have htrees : ∀ t ∈ [callsTwice], t.Proper :=
    List.forall_mem_singleton.2 (SyntaxTree.proper_ofSketch 0 _ (by decide))
  have hnil : ((twoSources.openProject [callsTwice]).taskGraph
      (twoSources.targets [callsTwice])).sort.cycles = [] := by decide +kernel
  have hacyclic := (DependencyGraph.cycles_sort_eq_nil_iff
    (Project.wellFormed_taskGraph _ (twoSources.targets [callsTwice]))).1 hnil
  have hrun : ((twoSources.update [callsTwice]).toOption.any fun done =>
      (done.2.index.file? 0).any fun f =>
        decide (f.model.generation = done.2.generation ∧
          15 ∈ f.model.tree.below f.model.tree.root ∧
          f.model.tree.node? 15 = some (.localStat [7, 8, 9, 10] [12, 14]) ∧
          (f.model.tree.annotation 15 2).1 = none ∧ f.model.anchored? 9 = some 3 ∧
          done.2.findings.type? f.model 3 = some .boolean)) = true := by decide +kernel
  obtain ⟨summary, c', hupdate, hrun⟩ := exists_of_update hrun
  obtain ⟨f, hfile, hrun⟩ := (Option.any_eq_true _ _).1 hrun
  obtain ⟨hlast, hstat, hnode, hplain, hanchored, htype⟩ := of_decide_eq_true hrun
  have hf : f ∈ c'.index.files := List.mem_of_find?_eq_some hfile
  obtain ⟨before, e, after, j, hevents, -, hdecl, hanchor, -, hvalue⟩ :=
    names_take_adjusted_values reached_twoSources htrees hupdate hf hlast hstat hnode (i := 2) rfl
      hplain
  obtain rfl : 3 = j := Option.some.inj (hanchored.symm.trans hanchor)
  have he : e ∈ (twoSources.openProject [callsTwice]).resolveEvents
      (twoSources.targets [callsTwice]) := by
    rw [hevents]
    exact List.mem_append_right _ List.mem_cons_self
  have hrun : e.run = true := Project.run_of_acyclic _ hacyclic he
  refine ⟨summary, c', f, hupdate, hf, hanchored, htype, before, e, after, hevents, hdecl, ?_⟩
  have hslot := (hvalue hrun).2 14 rfl (by decide)
  exact Option.some.inj (hslot.symm.trans htype)

end Compilation

end LuaAnalysis
