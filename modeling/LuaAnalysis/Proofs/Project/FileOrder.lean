import LuaAnalysis.Proofs.Project.TreeOrder
import LuaAnalysis.Proofs.Resolve.Rearranged
import LuaAnalysis.Syntax.Shorthand

/-!
# The order of the files of an update

When its trees come in another order, an update may do its tasks in another order. Where no task
lies on a cycle and every task needs what it reads, this makes no difference: the same types and
returns are found out, the same members are there, and all look-ups have the same answers. The task
graph alone does not see to it that a task needs what it reads: whether a field is found that a
table shares with a class may depend on which file comes first.

Main statement: `Compilation.update_in_any_order`.
-/

namespace LuaAnalysis

/-- The same has been found out about two models. -/
structure Findings.SameFor (f g : Findings) (m m' : FileModel) : Prop where
  type : ∀ i, g.type? m' i = f.type? m i
  returns : ∀ closure, g.inferred? m' closure = f.inferred? m closure
  moduleReturns : g.moduleReturnsOf m' = f.moduleReturnsOf m

/-- Two projects that give the same answers. They have the same files, up to the revisions of these
and the order of their members. -/
structure Project.SameAnswers (p q : Project) : Prop where
  files : p.index.Alike q.index
  found : ∀ source m m', p.index.model? source = some m → q.index.model? source = some m' →
    p.findings.SameFor q.findings m m'
  members : ∀ owner ref, ref ∈ q.index.members owner ↔ ref ∈ p.index.members owner
  global : ∀ name source, q.global? name source = p.global? name source
  namedType : ∀ name source, q.namedType? name source = p.namedType? name source
  member : ∀ owner name, q.member? owner name = p.member? owner name

namespace Project

variable {config : Config} {p q r : Project} {targets targets' : List Target}

theorem SameAnswers.trans (h : p.SameAnswers q) (h' : q.SameAnswers r) : p.SameAnswers r where
  files := h.files.trans h'.files
  found source m m'' hm hm'' := by
    have hmodel := ProjectIndex.model?_alike h.files source
    rw [hm] at hmodel
    generalize hq : q.index.model? source = found at hmodel
    cases hmodel with
    | @some _ m' _ =>
      have hfirst := h.found source m m' hm hq
      have hsecond := h'.found source m' m'' hq hm''
      exact ⟨fun i => (hsecond.type i).trans (hfirst.type i),
        fun closure => (hsecond.returns closure).trans (hfirst.returns closure),
        hsecond.moduleReturns.trans hfirst.moduleReturns⟩
  members owner ref := (h'.members owner ref).trans (h.members owner ref)
  global name source := (h'.global name source).trans (h.global name source)
  namedType name source := (h'.namedType name source).trans (h.namedType name source)
  member owner name := (h'.member owner name).trans (h.member owner name)

/-- Other revisions change no answer. -/
theorem Renumbered.sameAnswers {σ : Equiv.Perm Revision}
    (h : p.Renumbered (.ofRevisions σ) q) (hfiles : p.index.Alike q.index) : p.SameAnswers q where
  files := hfiles
  found source m m' hm hm' := by
    have hmodel := ProjectIndex.model?_renumbered h.index source
    rw [hm, hm', Option.map_some] at hmodel
    obtain rfl := Option.some.inj hmodel
    exact ⟨h.findings.type? trivial, h.findings.inferred? trivial,
      h.findings.moduleReturnsOf trivial⟩
  members owner ref := by
    rw [ProjectIndex.members_renumbered h.index, Renumbering.ref_ofRevisions, List.map_id]
  global name source := by
    rw [Lookup.global?_renumbered h.index, Renumbering.ref_ofRevisions, Option.map_id, id]
  namedType name source := by
    rw [Lookup.namedType?_renumbered h.index, Renumbering.ref_ofRevisions, Option.map_id, id]
  member owner name := by
    rw [Lookup.member?_renumbered h.index h.depth, Renumbering.ref_ofRevisions, Option.map_id, id]

namespace Orderly

variable (h : p.Orderly config targets)
include h

/-- All tasks are run, in whatever order. -/
theorem summary_perm (hperm : targets.Perm targets') :
    (p.resolve targets').summary = (p.resolve targets).summary := by
  have hcounts {targets : List Target} (h : p.Orderly config targets) :
      (p.resolve targets).summary = ⟨(pendingTasks targets).length, 0⟩ := by
    have hrun : ∀ e ∈ p.resolveEvents targets, e.run = true := fun e he => h.run he
    have hlength : (p.resolveEvents targets).length = (pendingTasks targets).length := by
      rw [← (p.pending_resolveEvents_perm h.once).length_eq, List.length_map]
    rw [p.summary_resolve, List.countP_eq_length.2 hrun, hlength,
      List.countP_eq_zero.2 fun e he => by simp [hrun e he]]
  rw [hcounts h, hcounts (h.perm hperm), (pendingTasks_perm hperm).length_eq]

/-- Another order of the targets changes no answer. -/
theorem sameAnswers_perm (hc : p.Covered targets) (hperm : targets.Perm targets') :
    (p.resolve targets).project.SameAnswers (p.resolve targets').project := by
  have hadvances (targets : List Target) : p.Advances (p.resolve targets).project := by
    rw [p.project_resolve]
    exact p.advances_events _
  have hmodels (targets : List Target) :
      (p.resolve targets).project.index.models = p.index.models := by
    rw [p.project_resolve]
    exact p.models_events _
  have hfiles : (p.resolve targets).project.index.Alike (p.resolve targets').project.index :=
    (hadvances targets).files.symm.trans (hadvances targets').files
  have hmembers (owner : Owner) (ref : DeclRef) :
      ref ∈ (p.resolve targets').project.index.members owner ↔
        ref ∈ (p.resolve targets).project.index.members owner :=
    h.mem_members_perm hc hperm
  refine ⟨hfiles, fun source m m' hm hm' => ?_, hmembers, fun name source => ?_,
    fun name source => ?_, fun owner name => ?_⟩
  · rw [ProjectIndex.model?_congr ((hmodels targets').trans (hmodels targets).symm), hm] at hm'
    obtain rfl := Option.some.inj hm'
    have hmem : m ∈ p.index.models := by
      rw [← hmodels targets]
      obtain ⟨f, hf, rfl⟩ := Option.map_eq_some_iff.1 hm
      exact List.mem_map_of_mem (List.mem_of_find?_eq_some hf)
    have hfound := h.found?_perm hc hperm hmem
    exact ⟨fun i => Findings.type?_of_found? (hfound (.decl i)),
      fun closure => hfound (.body (some closure)), congrArg (·.getD []) (hfound (.body none))⟩
  · exact (Lookup.global?_congr hfiles.sameNames name source).symm
  · exact (Lookup.namedType?_alike hfiles name source).symm
  · refine (Lookup.member?_congr hfiles.sameNames ?_ (fun owner => ?_) owner).symm
    · exact (hadvances targets).depth.symm.trans (hadvances targets').depth
    · exact (h.directMember?_congr hc.apart (hmodels targets) (hmodels targets') (fun _ => id)
        fun m _ i _ _ _ => hmembers owner (m.ref i)).symm

end Orderly

end Project

namespace Compilation

variable {config : Config} {c d : Compilation} {trees trees' : List SyntaxTree}
  {summary : ResolveSummary}

/-- An update does its tasks in order, if none of them lies on a cycle. -/
theorem Reached.orderly (h : Reached config c) (htrees : ∀ t ∈ trees, t.Proper)
    (hupdate : c.update trees = .ok (summary, d))
    (hacyclic : ((c.openProject trees).taskGraph (c.targets trees)).Acyclic) :
    (c.openProject trees).Orderly config (c.targets trees) where
  toReady := h.ready htrees hupdate
  bodies t ht := by
    obtain ⟨a, ha, rfl⟩ := mem_targets ht
    obtain ⟨tree, htree, -, -, -, rfl⟩ := mem_analyses ha
    exact Outline.nodup_bodies c.config (htrees tree htree)
  acyclic := hacyclic

/-- An update is refused in no order or in all. -/
theorem exists_update_perm (hperm : trees.Perm trees')
    (hupdate : c.update trees = .ok (summary, d)) :
    ∃ summary' d', c.update trees' = .ok (summary', d') := by
  rw [update_eq] at hupdate ⊢
  cases hfind : trees'.find? fun tree => !c.sources.contains tree.source with
  | none => exact ⟨_, _, rfl⟩
  | some tree =>
    have hmem : tree ∈ trees := hperm.mem_iff.2 (List.mem_of_find?_eq_some hfind)
    split at hupdate
    · cases hupdate
    · next hnone => exact absurd (List.find?_some hfind) (List.find?_eq_none.1 hnone tree hmem)

/-- An update of trees of different sources gives the same answers in whatever order they come, if
no task lies on a cycle and every task needs what it reads. As many tasks are run. -/
theorem update_in_any_order (h : Reached config c) (htrees : ∀ t ∈ trees, t.Proper)
    (hsources : (trees.map (·.source)).Nodup) (hperm : trees.Perm trees')
    (hupdate : c.update trees = .ok (summary, d))
    (hacyclic : ((c.openProject trees).taskGraph (c.targets trees)).Acyclic)
    (hcovered : (c.openProject trees).Covered (c.targets trees)) :
    ∃ d', c.update trees' = .ok (summary, d') ∧ d.project.SameAnswers d'.project := by
  have horderly := h.orderly htrees hupdate hacyclic
  obtain ⟨σ, hσ⟩ := c.exists_renames hperm
  obtain ⟨targets, htargets, hrenamed⟩ := targets_perm hsources hperm hσ
  have hopened := openProject_perm h hsources hperm hσ
  have hlive : ∀ t ∈ targets, (Renumbering.ofRevisions σ).live t.model.revision :=
    fun _ _ => trivial
  obtain ⟨summary', d', hupdate'⟩ := exists_update_perm hperm hupdate
  have hproject := project_of_update hupdate
  have hproject' := project_of_update hupdate'
  have hsummary : summary' = summary := by
    calc summary'
      _ = ((c.openProject trees').resolve (c.targets trees')).summary := summary_of_update hupdate'
      _ = ((c.openProject trees).resolve targets).summary := by
        rw [← hrenamed, Project.summary_resolve_renumbered hopened hlive]
      _ = ((c.openProject trees).resolve (c.targets trees)).summary :=
        horderly.summary_perm htargets
      _ = summary := (summary_of_update hupdate).symm
  -- First the targets are put in the new order, then their revisions are renamed.
  have hperm' := horderly.sameAnswers_perm hcovered htargets
  have hrenumbered := Project.resolve_renumbered hopened hlive
  rw [hrenamed] at hrenumbered
  have hfiles : ((c.openProject trees).resolve targets).project.index.Alike
      ((c.openProject trees').resolve (c.targets trees')).project.index := by
    rw [Project.project_resolve, Project.project_resolve]
    exact (Project.advances_events _ _).files.symm.trans
      ((opened_alike h hsources hperm).trans
        (Project.advances_events (c.openProject trees') _).files)
  refine ⟨d', hsummary ▸ hupdate', ?_⟩
  rw [hproject, hproject']
  exact hperm'.trans (hrenumbered.sameAnswers hfiles)

/-- `---@class P` above `P = {x = 1}`, then `function f() return 1 end` -/
def definesBoth : Sketch :=
  .block [.node (.comment [.classTag "P" []]),
    .node (.assignStat [.var "P"]
      [.node (.tableExpr [.entry (.name "x") (.literal (.integer 1))])]),
    .function (.var "f") [] [.node (.returnStat [.literal (.integer 1)])]]

/-- `local y = P.x` and `local z = f()` -/
def readsBoth : Sketch :=
  .block [.declare ["y"] [.member (.var "P") "x" false], .declare ["z"] [.call (.var "f") []]]

def readLast : List SyntaxTree :=
  [.ofSketch 0 (some definesBoth), .ofSketch 1 (some readsBoth)]

/-- The field of the class and the result of the function are found when they are read first. -/
theorem read_in_any_order :
    ∃ summary d d' m, twoSources.update readLast = .ok (summary, d) ∧
      twoSources.update readLast.reverse = .ok (summary, d') ∧ d.project.SameAnswers d'.project ∧
      d'.index.model? 1 = some m ∧ d'.findings.type? m 0 = some .integer ∧
        d'.findings.type? m 1 = some .integer := by
  have htrees : ∀ t ∈ readLast, t.Proper :=
    List.forall_mem_cons.2 ⟨SyntaxTree.proper_ofSketch 0 _ (by decide),
      List.forall_mem_singleton.2 (SyntaxTree.proper_ofSketch 1 _ (by decide))⟩
  have hnil : ((twoSources.openProject readLast).taskGraph
      (twoSources.targets readLast)).sort.cycles = [] := by decide +kernel
  have hacyclic := (DependencyGraph.cycles_sort_eq_nil_iff
    (Project.wellFormed_taskGraph _ (twoSources.targets readLast))).1 hnil
  have hcovered : (twoSources.openProject readLast).Covered (twoSources.targets readLast) := by
    apply Project.Covered.of_edges <;> decide +kernel
  have hrun : ((twoSources.update readLast).toOption.any fun done =>
      (done.2.index.model? 1).any fun m => decide (done.2.findings.type? m 0 = some .integer ∧
        done.2.findings.type? m 1 = some .integer)) = true := by decide +kernel
  obtain ⟨summary, d, hupdate, hrun⟩ := exists_of_update hrun
  obtain ⟨m, hm, hrun⟩ := (Option.any_eq_true _ _).1 hrun
  obtain ⟨hy, hz⟩ := of_decide_eq_true hrun
  obtain ⟨d', hupdate', hsame⟩ := update_in_any_order reached_twoSources htrees (by decide +kernel)
    (List.reverse_perm readLast).symm hupdate hacyclic hcovered
  have hmodel := ProjectIndex.model?_alike hsame.files 1
  rw [show d.project.index.model? 1 = some m from hm] at hmodel
  generalize hm' : d'.project.index.model? 1 = found at hmodel
  cases hmodel with
  | @some _ m' _ =>
    have hfound := hsame.found 1 m m' hm hm'
    exact ⟨summary, d, d', m', hupdate, hupdate', hsame, hm', (hfound.type 0).trans hy,
      (hfound.type 1).trans hz⟩

end Compilation

/-- `---@class P` above `local P = {x = 1}` -/
def definesClass : Sketch :=
  .block [.node (.comment [.classTag "P" []]),
    .declare ["P"] [.node (.tableExpr [.entry (.name "x") (.literal (.integer 1))])]]

/-- `---@type P` above `local p`, then `local y = p.x` -/
def selectsField : Sketch :=
  .block [.node (.comment [.typeTag [.typeName "P"]]), .declare ["p"] [],
    .declare ["y"] [.member (.var "p") "x" false]]

/-- How many tasks are given up when two files are registered and updated at once, and the type of
the second declaration of the second one. -/
def typedAfter (trees : List SyntaxTree) : Option (Nat × Option Ty) :=
  match ((({} : Compilation).register "/a.lua").2.register "/b.lua").2.update trees with
  | .ok (summary, c) =>
    (c.index.model? 1).map fun m => (summary.cyclic, c.findings.type? m 1)
  | .error _ => none

/-- A field is typed before the table of its class adds it, when its file comes first. -/
theorem class_table_comes_late :
    typedAfter [.ofSketch 0 (some definesClass), .ofSketch 1 (some selectsField)] =
        some (0, some .integer) ∧
      typedAfter [.ofSketch 1 (some selectsField), .ofSketch 0 (some definesClass)] =
        some (0, some .unknown) := by
  decide +kernel

end LuaAnalysis
