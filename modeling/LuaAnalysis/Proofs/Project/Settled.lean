import LuaAnalysis.Proofs.File.ClosureTasks
import LuaAnalysis.Proofs.Project.AssignedFields
import LuaAnalysis.Proofs.Resolve.Settling

/-!
# What is known after an update

An update settles every task of the files that it publishes, on a cycle or not. So whatever happened
to a compilation, in every file of it the declarations that get their types from values have types,
and the closures with bodies have returns. Written types stay, and so does everything that has been
found out before.

Main statements: `Compilation.Reached.settled`, `Compilation.update_settles_tasks`.
-/

namespace LuaAnalysis

variable {config : Config}

/-- Nothing that a task of a file finds out is missing: the types of declarations, and the returns
of closures that have a body if they are asked for. -/
structure FileModel.Settled (config : Config) (m : FileModel) (f : Findings) : Prop where
  typed : ∀ i d, m.decl? i = some d → d.kind.isValued = true → (f.type? m i).isSome
  returns : config.inferReturns = true → ∀ x ∈ m.tree.below m.tree.root, ∀ params body,
    m.tree.node? x = some (.closureExpr params (some body)) →
      ∃ method, m.method? x = some method ∧ (method.returns? (f.inferred? m x)).isSome

theorem FileModel.Settled.kept {m : FileModel} {f f' : Findings} (h : m.Settled config f)
    (hkept : f.Kept f') : m.Settled config f' := by
  refine ⟨fun i d hd hvalued => ?_, fun hinfer x hx params body hn => ?_⟩
  · obtain ⟨type, htype⟩ := Option.isSome_iff_exists.1 (h.typed i d hd hvalued)
    rw [hkept.type? htype]
    rfl
  · obtain ⟨method, hmethod, hreturns⟩ := h.returns hinfer x hx params body hn
    exact ⟨method, hmethod, hkept.returns? hreturns⟩

/-- A file is settled when all of its tasks are. -/
theorem FileModel.settled_of_tasks {t : SyntaxTree} (h : t.Proper) {revision : Revision}
    {generation : Nat} {p : Project}
    (htasks : ∀ task, some task ∈ (t.analyse config revision generation).worklist.places →
      p.Settled (t.analyse config revision generation).model task) :
    (t.analyse config revision generation).model.Settled config p.findings := by
  refine ⟨fun i d hd hvalued => ?_, fun hinfer x hx params body hn => ?_⟩
  · obtain ⟨value, todo, definesType, hplace, htype, -⟩ :=
      (Outline.posted config h).tasks hd hvalued
    exact htasks _ hplace htype
  · have hclosures := Outline.closures config h
    have hmethod : ((t.analyse config revision generation).model.method? x).isSome := by
      obtain ⟨method, hmem, hclosure⟩ := hclosures.methods x hx params _ hn
      exact List.find?_isSome.2 ⟨method, hmem, decide_eq_true hclosure⟩
    obtain ⟨method, hmethod⟩ := Option.isSome_iff_exists.1 hmethod
    have hbody : (t.analyse config revision generation).model.closureBody? x = some body := by
      unfold FileModel.closureBody?
      rw [hn]
    refine ⟨method, hmethod, ?_⟩
    exact htasks _ (hclosures.tasks hinfer x hx params body hn) method hmethod (by rw [hbody]; rfl)

namespace Compilation

variable {c c' : Compilation} {trees : List SyntaxTree} {summary : ResolveSummary}

/-! ## Updates -/

/-- An update takes nothing back that has been found out. -/
theorem kept_update (hupdate : c.update trees = .ok (summary, c')) :
    c.findings.Kept c'.findings := by
  rw [eq_of_update hupdate, Project.project_resolve]
  exact (Project.advances_events (c.openProject trees) _).findings

theorem settled_of_target (h : Reached config c) (htrees : ∀ t ∈ trees, t.Proper)
    (hupdate : c.update trees = .ok (summary, c')) {target : Target}
    (htarget : target ∈ c.targets trees) : target.model.Settled config c'.findings := by
  obtain ⟨a, ha, rfl⟩ := mem_targets htarget
  obtain ⟨t, ht, revision, -, -, rfl⟩ := mem_analyses ha
  have hready := h.ready htrees hupdate
  rw [eq_of_update hupdate]
  rw [h.faithful.1] at htarget ⊢
  exact FileModel.settled_of_tasks (htrees t ht) fun task htask => hready.settled htarget htask

/-- Whatever happened, every file is settled. -/
theorem Reached.settled (h : Reached config c) :
    ∀ f ∈ c.index.files, f.model.Settled config c.findings := by
  induction h with
  | start => simp
  | register _ _ ih => exact ih
  | @update c c' trees summary h htrees hupdate ih =>
    intro f hf
    rcases file_of_update h.faithful.2.sorted hupdate hf with ⟨a, ha, hmodel⟩ | ⟨g, hg, hmodel, -⟩
    · have hlast : f.model.generation = c'.generation := by
        obtain ⟨t, -, revision, -, -, rfl⟩ := mem_analyses ha
        rw [hmodel, eq_of_update hupdate]
        rfl
      obtain ⟨target, htarget, hsame⟩ := target_of_file h htrees hupdate hf hlast
      exact hsame ▸ settled_of_target h htrees hupdate htarget
    · exact hmodel ▸ (ih g hg).kept (kept_update hupdate)
  | remove _ hremove ih =>
    rw [eq_of_remove hremove]
    exact fun f hf => ih f (ProjectIndex.mem_files_retract.1 hf).1

/-! ## The files of a change set -/

theorem sorted_publishAll (analyses : List Analysis) {idx : ProjectIndex} (h : idx.Sorted) :
    (analyses.foldl (fun idx b => idx.publish ⟨b.model, b.entries⟩) idx).Sorted := by
  induction analyses generalizing idx with
  | nil => exact h
  | cons b analyses ih => exact ih (h.publish _)

/-- What is published for other sources leaves a file where it is. -/
theorem mem_publishAll_of_other {analyses : List Analysis} {idx : ProjectIndex} (h : idx.Sorted)
    {f : PublishedFile} (hf : f ∈ idx.files) (hother : ∀ b ∈ analyses, b.model.source ≠ f.source) :
    f ∈ (analyses.foldl (fun idx b => idx.publish ⟨b.model, b.entries⟩) idx).files := by
  induction analyses generalizing idx with
  | nil => exact hf
  | cons b analyses ih =>
    obtain ⟨hb, hrest⟩ := List.forall_mem_cons.1 hother
    exact ih (h.publish _) ((ProjectIndex.mem_files_publish h).2 (.inr ⟨hf, hb.symm⟩)) hrest

/-- The last analysis of a source is in the index after an update. -/
theorem model_of_last_analysis (h : Reached config c)
    (hupdate : c.update trees = .ok (summary, c')) {before after : List Analysis} {a : Analysis}
    (hanalyses : c.analyses trees = before ++ a :: after)
    (hlast : ∀ b ∈ after, b.model.source ≠ a.model.source) : a.model ∈ c'.index.models := by
  have hmodels : c'.index.models = (c.opened trees).models := by
    rw [eq_of_update hupdate]
    exact (changesOnly_update c trees).models
  have hsorted := sorted_publishAll before h.faithful.2.sorted
  rw [hmodels, ProjectIndex.models, opened, hanalyses, List.foldl_append, List.foldl_cons]
  have hpublished : ⟨a.model, a.entries⟩ ∈ ((before.foldl (fun idx b =>
      idx.publish ⟨b.model, b.entries⟩) c.index).publish ⟨a.model, a.entries⟩).files :=
    (ProjectIndex.mem_files_publish hsorted).2 (.inl rfl)
  exact List.mem_map_of_mem (mem_publishAll_of_other (hsorted.publish _) hpublished hlast)

/-- When a file is built its declarations have the types that are written, and no others. -/
theorem type?_of_analysis (h : Reached config c) {a : Analysis} (ha : a ∈ c.analyses trees)
    (i : DeclId) : c.findings.type? a.model i = (a.model.decl? i).bind (·.written) := by
  obtain ⟨t, -, revision, hle, -, rfl⟩ := mem_analyses ha
  rw [h.stamped.findings.type? hle, Findings.type?]
  cases (t.analyse c.config revision (c.generation + 1)).model.decl? i with
  | none => rfl
  | some d => exact Option.or_none

/-- The analyses of an update have one task for each declaration that gets its type from a value,
and none for any other. The last analysis of each source is published, and then no type and no
returns are missing in any file. A declaration has the type that was written when its file was
built, and keeps every type it had. -/
theorem update_settles_tasks (h : Reached config c) (htrees : ∀ t ∈ trees, t.Proper)
    (hupdate : c.update trees = .ok (summary, c')) :
    (∀ a ∈ c.analyses trees, ∀ i, a.worklist.decls.count i =
        if (a.model.decl? i).any (·.kind.isValued) then 1 else 0) ∧
      (∀ before a after, c.analyses trees = before ++ a :: after →
        (∀ b ∈ after, b.model.source ≠ a.model.source) → a.model ∈ c'.index.models) ∧
      (∀ f ∈ c'.index.files, f.model.Settled config c'.findings) ∧
      (∀ a ∈ c.analyses trees, ∀ i,
        c.findings.type? a.model i = (a.model.decl? i).bind (·.written)) ∧
      ∀ m i type, c.findings.type? m i = some type → c'.findings.type? m i = some type := by
  refine ⟨fun a ha i => ?_, fun before a after => model_of_last_analysis h hupdate,
    (h.update htrees hupdate).settled, fun a ha => type?_of_analysis h ha,
    fun m i type => (kept_update hupdate).type?⟩
  obtain ⟨t, ht, revision, -, -, rfl⟩ := mem_analyses ha
  exact (Outline.posted c.config (htrees t ht)).count_decls i

/-- `---@type number` above `local n = f()` and `function f() return f() end`; in the other file
`t.a = t.b` and `t.b = t.a` -/
def filesOnCycles : List SyntaxTree :=
  [.ofSketch 0 (some (.block [.node (.comment [.typeTag [.typeName "number"]]),
      .declare ["n"] [.call (.var "f") []],
      .function (.var "f") [] [.node (.returnStat [.call (.var "f") []])]])),
    .ofSketch 1 (some assignsEachOther)]

/-- The two fields are given up, and `n` is a number whatever `f` returns. -/
theorem tasks_on_cycles_settled :
    ∃ summary c', twoSources.update filesOnCycles = .ok (summary, c') ∧ summary.cyclic = 2 ∧
      (twoSources.analyses filesOnCycles).map (fun a => a.worklist.decls) = [[0, 1], [0, 1, 2]] ∧
      (∀ f ∈ c'.index.files, f.model.Settled {} c'.findings) ∧
      ∃ f ∈ c'.index.files, c'.findings.type? f.model 0 = some .number := by
  have htrees : ∀ t ∈ filesOnCycles, t.Proper :=
    List.forall_mem_cons.2 ⟨SyntaxTree.proper_ofSketch 0 _ (by decide),
      List.forall_mem_singleton.2 (SyntaxTree.proper_ofSketch 1 _ (by decide))⟩
  have hrun : ((twoSources.update filesOnCycles).toOption.any fun done =>
      decide (done.1.cyclic = 2 ∧
        ∃ f ∈ done.2.index.files, done.2.findings.type? f.model 0 = some .number)) = true := by
    decide +kernel
  obtain ⟨summary, c', hupdate, hrun⟩ := exists_of_update hrun
  obtain ⟨hcyclic, htyped⟩ := of_decide_eq_true hrun
  obtain ⟨-, -, hsettled, -⟩ := update_settles_tasks reached_twoSources htrees hupdate
  exact ⟨summary, c', hupdate, hcyclic, by decide +kernel, hsettled, htyped⟩

end Compilation

end LuaAnalysis
