import LuaAnalysis.Compilation
import LuaAnalysis.Proofs.Project.Linked
import LuaAnalysis.Proofs.Syntax.ProperTree

/-!
# The compilations that come about

A compilation comes about by registrations, updates and removals. An update that is not refused
analyses its trees under new revisions, publishes the analyses and does their tasks
(`Compilation.update_eq`). Whatever the order of the operations, the index is faithful: every file is
the analysis of its tree, and its entries say what is so.

Main statement: `Compilation.Reached.faithful`.
-/

namespace LuaAnalysis

theorem mem_addTarget {targets : List Target} {t target : Target}
    (h : t ∈ addTarget targets target) :
    t = target ∨ t ∈ targets ∧ t.model.source ≠ target.model.source := by
  unfold addTarget at h
  split at h
  · obtain ⟨t', ht', rfl⟩ := List.mem_map.1 h
    split
    · exact .inl rfl
    · next hne => exact .inr ⟨ht', hne⟩
  · next hnone =>
    rcases List.mem_append.1 h with ht | ht
    · exact .inr ⟨ht, fun heq => hnone (List.any_eq_true.2 ⟨t, ht, decide_eq_true heq⟩)⟩
    · exact .inl (List.mem_singleton.1 ht)

namespace Compilation

/-- The compilations of a configuration, after any registrations, updates and removals. -/
inductive Reached (config : Config) : Compilation → Prop where
  | start : Reached config { config }
  | register {c : Compilation} (h : Reached config c) (path : String) :
      Reached config (c.register path).2
  | update {c c' : Compilation} {trees : List SyntaxTree} {summary : ResolveSummary}
      (h : Reached config c) (htrees : ∀ t ∈ trees, t.Proper)
      (hupdate : c.update trees = .ok (summary, c')) : Reached config c'
  | remove {c c' : Compilation} {source : SourceId} {found : Bool} (h : Reached config c)
      (hremove : c.remove source = .ok (found, c')) : Reached config c'

variable {c c' : Compilation} {trees : List SyntaxTree}

/-! ## The parts of an update -/

/-- The analyses of the trees of an update. -/
def analyses (c : Compilation) (trees : List SyntaxTree) : List Analysis :=
  (trees.zipIdx c.revision).map fun (t, revision) =>
    t.analyse c.config revision (c.generation + 1)

/-- The index with the files of an update, before their tasks are done. -/
def opened (c : Compilation) (trees : List SyntaxTree) : ProjectIndex :=
  (c.analyses trees).foldl (fun idx a => idx.publish ⟨a.model, a.entries⟩) c.index

/-- The project that the tasks of an update start from. -/
def openProject (c : Compilation) (trees : List SyntaxTree) : Project :=
  { index := c.opened trees, maxSuperDepth := c.config.maxSuperDepth, findings := c.findings }

/-- The files whose tasks an update does. -/
def targets (c : Compilation) (trees : List SyntaxTree) : List Target :=
  (c.analyses trees).foldl (fun ts a => addTarget ts ⟨a.model, a.worklist⟩) []

theorem analyseAll_eq (generation : Nat) (c : Compilation) (trees : List SyntaxTree) :
    analyseAll generation c trees =
      ((trees.zipIdx c.revision).map fun (t, revision) => t.analyse c.config revision generation,
        { c with revision := c.revision + trees.length }) := by
  induction trees generalizing c with
  | nil => rfl
  | cons tree trees ih =>
    show ((c.analyse tree generation).1 ::
        (analyseAll generation (c.analyse tree generation).2 trees).1,
      (analyseAll generation (c.analyse tree generation).2 trees).2) = _
    rw [ih]
    simp [analyse, Nat.add_assoc, Nat.add_comm 1]

theorem publishAll_eq (analyses : List Analysis) (c : Compilation) :
    analyses.foldl (fun c a => c.publish ⟨a.model, a.entries⟩) c =
      { c with
        index := analyses.foldl (fun idx a => idx.publish ⟨a.model, a.entries⟩) c.index } := by
  induction analyses generalizing c with
  | nil => rfl
  | cons a analyses ih => exact ih _

/-- What an update is: the first tree of a source that is not registered has it refused; otherwise
the tasks of the new files are done in the project that has all of them. -/
theorem update_eq (c : Compilation) (trees : List SyntaxTree) :
    c.update trees =
      match trees.find? fun tree => !c.sources.contains tree.source with
      | some tree => .error (.unknownSource tree.source)
      | none =>
        let done := (c.openProject trees).resolve (c.targets trees)
        .ok (done.summary,
          { c with
            index := done.project.index
            findings := done.project.findings
            generation := c.generation + 1
            revision := c.revision + trees.length }) := by
  unfold update
  cases trees.find? fun tree => !c.sources.contains tree.source with
  | some tree => rfl
  | none =>
    dsimp only
    rw [analyseAll_eq]
    dsimp only
    rw [publishAll_eq]
    rfl

/-- The compilation that a successful update leaves. -/
theorem eq_of_update {summary : ResolveSummary} (h : c.update trees = .ok (summary, c')) :
    let done := (c.openProject trees).resolve (c.targets trees)
    c' = { c with
      index := done.project.index
      findings := done.project.findings
      generation := c.generation + 1
      revision := c.revision + trees.length } := by
  rw [update_eq] at h
  split at h
  · cases h
  · exact (Prod.mk.inj (Except.ok.inj h)).2.symm

theorem index_of_update {summary : ResolveSummary} (h : c.update trees = .ok (summary, c')) :
    c'.index = ((c.openProject trees).resolve (c.targets trees)).project.index := by
  rw [eq_of_update h]

theorem summary_of_update {summary : ResolveSummary} (h : c.update trees = .ok (summary, c')) :
    summary = ((c.openProject trees).resolve (c.targets trees)).summary := by
  rw [update_eq] at h
  split at h
  · cases h
  · exact (Prod.mk.inj (Except.ok.inj h)).1.symm

/-- What is tested after an update holds of the compilation that the update gives. -/
theorem exists_of_update {test : ResolveSummary × Compilation → Bool}
    (h : (c.update trees).toOption.any test = true) :
    ∃ summary c', c.update trees = .ok (summary, c') ∧ test (summary, c') = true := by
  cases hupdate : c.update trees with
  | error e =>
    rw [hupdate] at h
    cases h
  | ok done =>
    rw [hupdate] at h
    exact ⟨done.1, done.2, rfl, h⟩

theorem mem_analyses {a : Analysis} (h : a ∈ c.analyses trees) :
    ∃ t ∈ trees, ∃ revision, c.revision ≤ revision ∧ revision < c.revision + trees.length ∧
      a = t.analyse c.config revision (c.generation + 1) := by
  obtain ⟨⟨t, revision⟩, hmem, rfl⟩ := List.mem_map.1 h
  obtain ⟨hle, hlt, ht⟩ := List.mem_zipIdx hmem
  exact ⟨t, ht ▸ List.getElem_mem _, revision, hle, hlt, rfl⟩

/-! ## Faithful files -/

/-- An analysis of a proper tree, ready to be published. -/
structure Analysed (config : Config) (a : Analysis) : Prop where
  file : PublishedFile.Faithful config ⟨a.model, a.entries⟩
  tasks : ∀ task, some task ∈ a.worklist.places → task.Concerns a.model.tree a.model.decls

theorem analysed_analyse (config : Config) (revision : Revision) (generation : Nat)
    {t : SyntaxTree} (h : t.Proper) : Analysed config (t.analyse config revision generation) :=
  ⟨PublishedFile.faithful_analyse config revision generation h,
    (Outline.contributed config h).tasks⟩

/-- Publishing some analyses keeps the index faithful, and the targets are those of the files that
stand in it at last. -/
theorem faithful_publishAll {config : Config} {analyses : List Analysis}
    (hanalyses : ∀ a ∈ analyses, Analysed config a) (idx : ProjectIndex) (targets : List Target)
    (h : idx.Faithful config) (htargets : ∀ t ∈ targets, t.Of idx) :
    let idx' := analyses.foldl (fun idx a => idx.publish ⟨a.model, a.entries⟩) idx
    idx'.Faithful config ∧
      ∀ t ∈ analyses.foldl (fun ts a => addTarget ts ⟨a.model, a.worklist⟩) targets, t.Of idx' := by
  induction analyses generalizing idx targets with
  | nil => exact ⟨h, htargets⟩
  | cons a analyses ih =>
    obtain ⟨hfile, htasks⟩ := hanalyses a List.mem_cons_self
    refine ih (fun a ha => hanalyses a (List.mem_cons_of_mem _ ha)) _ _ (h.publish hfile) ?_
    intro t ht
    rcases mem_addTarget ht with rfl | ⟨ht, hne⟩
    · exact ⟨List.mem_map.2 ⟨_, (ProjectIndex.mem_files_publish h.sorted).2 (.inl rfl), rfl⟩,
        htasks⟩
    · -- A file of another source is still there.
      obtain ⟨hmodel, htasks⟩ := htargets t ht
      obtain ⟨f, hf, hfm⟩ := List.mem_map.1 hmodel
      have hother : f.source ≠ a.model.source := by
        rw [PublishedFile.source, hfm]
        exact hne
      have hkept : f ∈ (idx.publish ⟨a.model, a.entries⟩).files :=
        (ProjectIndex.mem_files_publish h.sorted).2 (.inr ⟨hf, hother⟩)
      exact ⟨List.mem_map.2 ⟨f, hkept, hfm⟩, htasks⟩

/-- An update does its tasks in a project that has all of its files. -/
theorem faithful_opened {config : Config} (hconfig : c.config = config)
    (h : c.index.Faithful config) (htrees : ∀ t ∈ trees, t.Proper) :
    (c.opened trees).Faithful config ∧ ∀ t ∈ c.targets trees, t.Of (c.opened trees) := by
  have hanalysed : ∀ a ∈ c.analyses trees, Analysed config a := by
    intro a ha
    obtain ⟨t, ht, revision, -, -, rfl⟩ := mem_analyses ha
    rw [hconfig]
    exact analysed_analyse config revision _ (htrees t ht)
  exact faithful_publishAll hanalysed c.index [] h (List.forall_mem_nil _)

theorem faithful_update {config : Config} {summary : ResolveSummary} (hconfig : c.config = config)
    (h : c.index.Faithful config) (htrees : ∀ t ∈ trees, t.Proper)
    (hupdate : c.update trees = .ok (summary, c')) :
    c'.config = config ∧ c'.index.Faithful config := by
  obtain ⟨hfaithful, htargets⟩ := faithful_opened hconfig h htrees
  rw [eq_of_update hupdate]
  refine ⟨hconfig, ?_⟩
  exact (Project.linked_resolve hfaithful htargets).faithful hfaithful

/-- Whatever happened, the index is faithful. -/
theorem Reached.faithful {config : Config} {c : Compilation} (h : Reached config c) :
    c.config = config ∧ c.index.Faithful config := by
  induction h with
  | start => exact ⟨rfl, .empty config⟩
  | register _ _ ih => exact ih
  | update _ htrees hupdate ih => exact faithful_update ih.1 ih.2 htrees hupdate
  | @remove c c' source found _ hremove ih =>
    unfold Compilation.remove at hremove
    split at hremove
    · obtain ⟨-, rfl⟩ := Prod.mk.inj (Except.ok.inj hremove)
      exact ⟨ih.1, ih.2.retract source⟩
    · cases hremove

/-- A project of two sources after one update. -/
def ofUpdate (trees : List SyntaxTree) : Compilation :=
  match ((({} : Compilation).register "/a.lua").2.register "/b.lua").2.update trees with
  | .ok (_, c) => c
  | .error _ => {}

theorem reached_ofUpdate {source source' : SourceId} {block block' : Option Sketch}
    (h : (Sketch.node (.source block)).proper = true)
    (h' : (Sketch.node (.source block')).proper = true) :
    Reached {} (ofUpdate [.ofSketch source block, .ofSketch source' block']) := by
  have hproper : ∀ t ∈ [SyntaxTree.ofSketch source block, .ofSketch source' block'], t.Proper :=
    List.forall_mem_cons.2 ⟨SyntaxTree.proper_ofSketch source block h,
      List.forall_mem_singleton.2 (SyntaxTree.proper_ofSketch source' block' h')⟩
  unfold ofUpdate
  split
  · next hupdate =>
    exact ((Reached.start.register "/a.lua").register "/b.lua").update hproper hupdate
  · exact .start

end Compilation

end LuaAnalysis
