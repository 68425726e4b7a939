import LuaAnalysis.Proofs.Project.Reached
import LuaAnalysis.Proofs.Resolve.Advance
import LuaAnalysis.Proofs.Resolve.Frame

/-!
# What an update publishes

After an update a file is one of its analyses, or it was there before and is of another source
(`Compilation.file_of_update`). Every analysis has a new revision, so every published model has a
revision of its own, and nothing is found out under a revision before the analysis that has it.

Main statement: `Compilation.Reached.stamped`.
-/

namespace LuaAnalysis

namespace Compilation

variable {c c' : Compilation} {trees : List SyntaxTree}

/-! ## Analyses and files -/

/-- Two analyses of an update that have one revision are the same. -/
theorem analyses_unique {a b : Analysis} (ha : a ∈ c.analyses trees) (hb : b ∈ c.analyses trees)
    (h : a.model.revision = b.model.revision) : a = b := by
  obtain ⟨⟨t, r⟩, hr, rfl⟩ := List.mem_map.1 ha
  obtain ⟨⟨t', r'⟩, hr', rfl⟩ := List.mem_map.1 hb
  obtain rfl : r = r' := h
  have ht := (List.mem_zipIdx hr).2.2
  have ht' := (List.mem_zipIdx hr').2.2
  rw [ht, ht']

/-- What stands in the index after some analyses are published: they, and what no file of their
sources was. -/
theorem mem_publishAll {analyses : List Analysis} {idx : ProjectIndex} (h : idx.Sorted)
    {f : PublishedFile}
    (hf : f ∈ (analyses.foldl (fun idx a => idx.publish ⟨a.model, a.entries⟩) idx).files) :
    (∃ a ∈ analyses, f = ⟨a.model, a.entries⟩) ∨
      f ∈ idx.files ∧ ∀ a ∈ analyses, a.model.source ≠ f.source := by
  induction analyses generalizing idx with
  | nil => exact .inr ⟨hf, by simp⟩
  | cons a analyses ih =>
    rcases ih (h.publish _) hf with ⟨b, hb, rfl⟩ | ⟨hmem, hsource⟩
    · exact .inl ⟨b, List.mem_cons_of_mem _ hb, rfl⟩
    · rcases (ProjectIndex.mem_files_publish h).1 hmem with rfl | ⟨hold, hne⟩
      · exact .inl ⟨a, List.mem_cons_self, rfl⟩
      · exact .inr ⟨hold, List.forall_mem_cons.2 ⟨fun heq => hne heq.symm, hsource⟩⟩

theorem mem_opened (h : c.index.Sorted) {f : PublishedFile} (hf : f ∈ (c.opened trees).files) :
    (∃ a ∈ c.analyses trees, f = ⟨a.model, a.entries⟩) ∨
      f ∈ c.index.files ∧ f.source ∉ trees.map (·.source) := by
  rcases mem_publishAll h hf with ⟨a, ha, rfl⟩ | ⟨hold, hsource⟩
  · exact .inl ⟨a, ha, rfl⟩
  · refine .inr ⟨hold, fun hmem => ?_⟩
    obtain ⟨t, ht, heq⟩ := List.mem_map.1 hmem
    obtain ⟨i, hi, rfl⟩ := List.mem_iff_getElem.1 ht
    -- The tree was analysed, under a revision that depends on its place.
    have hzip : (trees[i], c.revision + i) ∈ trees.zipIdx c.revision :=
      List.mk_mem_zipIdx_iff_le_and_getElem?_sub.2 ⟨Nat.le_add_right _ _, by simp [hi]⟩
    exact hsource _ (List.mem_map_of_mem hzip) heq

/-- Every target is one of the analyses. -/
theorem mem_targets {t : Target} (h : t ∈ c.targets trees) :
    ∃ a ∈ c.analyses trees, t = ⟨a.model, a.worklist⟩ := by
  unfold targets at h
  generalize c.analyses trees = analyses at h ⊢
  -- Each analysis adds itself and may drop one that was there before.
  have hfold (analyses : List Analysis) (ts : List Target)
      (h : t ∈ analyses.foldl (fun ts a => addTarget ts ⟨a.model, a.worklist⟩) ts) :
      t ∈ ts ∨ ∃ a ∈ analyses, t = ⟨a.model, a.worklist⟩ := by
    induction analyses generalizing ts with
    | nil => exact .inl h
    | cons a analyses ih =>
      rcases ih _ h with hts | ⟨b, hb, rfl⟩
      · rcases mem_addTarget hts with rfl | ⟨hts, -⟩
        · exact .inr ⟨a, List.mem_cons_self, rfl⟩
        · exact .inl hts
      · exact .inr ⟨b, List.mem_cons_of_mem _ hb, rfl⟩
  exact (hfold analyses [] h).resolve_left List.not_mem_nil

/-- Every analysis has a target of its source. -/
theorem exists_target {a : Analysis} (ha : a ∈ c.analyses trees) :
    ∃ t ∈ c.targets trees, t.model.source = a.model.source := by
  unfold targets
  generalize c.analyses trees = analyses at ha ⊢
  -- A source that has a target keeps one.
  have hfold (source : SourceId) (analyses : List Analysis) (ts : List Target)
      (h : source ∈ ts.map (fun t => t.model.source) ∨ ∃ a ∈ analyses, a.model.source = source) :
      source ∈ (analyses.foldl (fun ts a => addTarget ts ⟨a.model, a.worklist⟩) ts).map
        (fun t => t.model.source) := by
    induction analyses generalizing ts with
    | nil => exact h.resolve_right (by simp)
    | cons a analyses ih =>
      apply ih
      rw [sources_addTarget]
      rcases h with hts | ⟨b, hb, rfl⟩
      · left
        split
        · exact hts
        · exact List.mem_append_left _ hts
      · rcases List.mem_cons.1 hb with rfl | hb
        · left
          split
          · next hmem => exact hmem
          · exact List.mem_append_right _ List.mem_cons_self
        · exact .inr ⟨b, hb, rfl⟩
  exact List.mem_map.1 (hfold a.model.source analyses [] (.inr ⟨a, ha, rfl⟩))

/-- Every event of an update takes a task of one of the analyses. -/
theorem analysis_of_event {e : TaskEvent}
    (h : e ∈ (c.openProject trees).resolveEvents (c.targets trees)) :
    ∃ a ∈ c.analyses trees, e.model = a.model ∧ some e.task ∈ a.worklist.places := by
  have htask := ((c.openProject trees).mem_resolveEvents.1 h).1
  obtain ⟨t, hfind, hmap⟩ := Option.bind_eq_some_iff.1 htask
  obtain ⟨task, hget, heq⟩ := Option.map_eq_some_iff.1 hmap
  obtain ⟨hmodel, rfl⟩ := Prod.mk.inj heq
  obtain ⟨a, ha, rfl⟩ := mem_targets (List.mem_of_find?_eq_some hfind)
  exact ⟨a, ha, hmodel.symm, List.mem_of_getElem? (Option.join_eq_some_iff.1 hget)⟩

/-- What an update does to files and findings is done to the files that it publishes. -/
theorem changesOnly_update (c : Compilation) (trees : List SyntaxTree) :
    Project.ChangesOnly ((c.analyses trees).map (·.model)) (c.openProject trees)
      ((c.openProject trees).resolve (c.targets trees)).project := by
  rw [Project.project_resolve]
  apply (Project.changesOnly_events _ _).mono
  intro m hm
  obtain ⟨e, he, rfl⟩ := List.mem_map.1 hm
  obtain ⟨a, ha, hmodel, -⟩ := analysis_of_event he
  exact hmodel ▸ List.mem_map_of_mem ha

/-- The project of the compilation that a successful update leaves. -/
theorem project_of_update {summary : ResolveSummary} (h : c.update trees = .ok (summary, c')) :
    c'.project = ((c.openProject trees).resolve (c.targets trees)).project := by
  have hdepth : ((c.openProject trees).resolve (c.targets trees)).project.maxSuperDepth =
      c.config.maxSuperDepth := by
    rw [Project.project_resolve]
    exact (Project.advances_events _ _).depth.symm
  rw [eq_of_update h]
  unfold project projectWithin
  dsimp only
  rw [← hdepth]

/-! ## Revisions -/

/-- No revision is used twice, and nothing is found out under one that was not used yet. -/
structure Stamped (c : Compilation) : Prop where
  revision : ∀ f ∈ c.index.files, f.model.revision < c.revision
  generation : ∀ f ∈ c.index.files, f.model.generation ≤ c.generation
  unique : ∀ f ∈ c.index.files, ∀ g ∈ c.index.files,
    f.model.revision = g.model.revision → f.model = g.model
  findings : Findings.SameUnder (c.revision ≤ ·) {} c.findings

/-- A file that is there after an update is one of its analyses, or it was there and is of another
source. -/
theorem file_of_update (h : c.index.Sorted) {summary : ResolveSummary}
    (hupdate : c.update trees = .ok (summary, c')) {f : PublishedFile}
    (hf : f ∈ c'.index.files) :
    (∃ a ∈ c.analyses trees, f.model = a.model) ∨
      ∃ g ∈ c.index.files, g.model = f.model ∧ f.source ∉ trees.map (·.source) := by
  rw [eq_of_update hupdate] at hf
  have hmodel : f.model ∈ (c.opened trees).models := by
    have hmodels := (changesOnly_update c trees).models
    exact hmodels ▸ List.mem_map_of_mem hf
  obtain ⟨g, hg, hgf⟩ := List.mem_map.1 hmodel
  rcases mem_opened h hg with ⟨a, ha, rfl⟩ | ⟨hold, hsource⟩
  · exact .inl ⟨a, ha, hgf.symm⟩
  · refine .inr ⟨g, hold, hgf, ?_⟩
    rwa [PublishedFile.source, ← hgf]

theorem Stamped.update (hsorted : c.index.Sorted) (h : c.Stamped) {summary : ResolveSummary}
    (hupdate : c.update trees = .ok (summary, c')) : c'.Stamped := by
  have hfile {f : PublishedFile} (hf : f ∈ c'.index.files) := file_of_update hsorted hupdate hf
  have hc' := eq_of_update hupdate
  have hrevision : c'.revision = c.revision + trees.length := by rw [hc']
  have hgeneration : c'.generation = c.generation + 1 := by rw [hc']
  -- A file of the new compilation is one of the new analyses, or it was there before.
  refine ⟨fun f hf => ?_, fun f hf => ?_, fun f hf g hg hfg => ?_, ?_⟩
  · rw [hrevision]
    rcases hfile hf with ⟨a, ha, hmodel⟩ | ⟨g, hg, hmodel, -⟩
    · obtain ⟨t, -, revision, -, hlt, rfl⟩ := mem_analyses ha
      exact hmodel ▸ hlt
    · exact hmodel ▸ Nat.lt_add_right _ (h.revision g hg)
  · rw [hgeneration]
    rcases hfile hf with ⟨a, ha, hmodel⟩ | ⟨g, hg, hmodel, -⟩
    · obtain ⟨t, -, revision, -, -, rfl⟩ := mem_analyses ha
      exact hmodel ▸ Nat.le_refl _
    · exact hmodel ▸ Nat.le_succ_of_le (h.generation g hg)
  · -- An old revision is less than every new one.
    have hold {f : PublishedFile} (hf : f ∈ c.index.files) {a : Analysis}
        (ha : a ∈ c.analyses trees) : f.model.revision ≠ a.model.revision := by
      obtain ⟨t, -, revision, hle, -, rfl⟩ := mem_analyses ha
      exact Nat.ne_of_lt (Nat.lt_of_lt_of_le (h.revision f hf) hle)
    rcases hfile hf with ⟨a, ha, hfa⟩ | ⟨f', hf', hff', -⟩
    · rcases hfile hg with ⟨b, hb, hgb⟩ | ⟨g', hg', hgg', -⟩
      · rw [hfa, hgb] at hfg ⊢
        rw [analyses_unique ha hb hfg]
      · rw [hfa, ← hgg'] at hfg
        exact absurd hfg.symm (hold hg' ha)
    · rcases hfile hg with ⟨b, hb, hgb⟩ | ⟨g', hg', hgg', -⟩
      · rw [hgb, ← hff'] at hfg
        exact absurd hfg (hold hf' hb)
      · rw [← hff', ← hgg'] at hfg ⊢
        exact h.unique f' hf' g' hg' hfg
  · rw [hc']
    apply (h.findings.mono fun hr => Nat.le_trans (Nat.le_add_right _ _) hr).trans
    apply (changesOnly_update c trees).findings.mono
    intro revision hr m hm
    obtain ⟨a, ha, rfl⟩ := List.mem_map.1 hm
    obtain ⟨t, -, r, -, hlt, rfl⟩ := mem_analyses ha
    exact Nat.ne_of_lt (Nat.lt_of_lt_of_le hlt hr)

/-- Removing a source leaves everything else as it is. -/
theorem eq_of_remove {source : SourceId} {found : Bool} (h : c.remove source = .ok (found, c')) :
    c' = c.retract source := by
  unfold remove at h
  split at h
  · exact (Prod.mk.inj (Except.ok.inj h)).2.symm
  · cases h

theorem Stamped.retract (h : c.Stamped) (source : SourceId) : (c.retract source).Stamped := by
  have hmem {f : PublishedFile} (hf : f ∈ (c.retract source).index.files) : f ∈ c.index.files :=
    (ProjectIndex.mem_files_retract.1 hf).1
  exact ⟨fun f hf => h.revision f (hmem hf), fun f hf => h.generation f (hmem hf),
    fun f hf g hg => h.unique f (hmem hf) g (hmem hg), h.findings⟩

/-- Whatever happened, every published model has a revision of its own. -/
theorem Reached.stamped {config : Config} (h : Reached config c) : c.Stamped := by
  induction h with
  | start => exact ⟨by simp, by simp, by simp, .refl _ _⟩
  | register _ _ ih => exact ⟨ih.revision, ih.generation, ih.unique, ih.findings⟩
  | update h _ hupdate ih => exact ih.update h.faithful.2.sorted hupdate
  | remove _ hremove ih => exact eq_of_remove hremove ▸ ih.retract _

/-! ## Entries -/

/-- Tasks have changed nothing but the members of a file since it was analysed. -/
theorem Reached.entries {config : Config} (h : Reached config c) :
    ∀ f ∈ c.index.files, ∃ members,
      f.entries = { (f.model.tree.outline config).entries with members } := by
  induction h with
  | start => simp
  | register _ _ ih => exact ih
  | @update c c' trees summary h _ hupdate ih =>
    intro f hf
    have hadvances : (c.openProject trees).Advances
        ((c.openProject trees).resolve (c.targets trees)).project := by
      rw [Project.project_resolve]
      exact Project.advances_events _ _
    rw [eq_of_update hupdate] at hf
    obtain ⟨g, hg, hgf⟩ := hadvances.files.exists_file hf
    obtain ⟨members, hentries⟩ := hgf.entries
    rw [hgf.model.tree, hentries]
    rcases mem_opened h.faithful.2.sorted hg with ⟨a, ha, rfl⟩ | ⟨hold, -⟩
    · obtain ⟨t, -, revision, -, -, rfl⟩ := mem_analyses ha
      exact ⟨members, by rw [← h.faithful.1]; rfl⟩
    · obtain ⟨members', hentries'⟩ := ih g hold
      exact ⟨members, by rw [hentries']⟩
  | remove _ hremove ih =>
    rw [eq_of_remove hremove]
    exact fun f hf => ih f (ProjectIndex.mem_files_retract.1 hf).1

end Compilation

end LuaAnalysis
