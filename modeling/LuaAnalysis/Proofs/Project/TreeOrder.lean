import LuaAnalysis.Proofs.Project.LatestVersions
import LuaAnalysis.Proofs.Project.Settled
import LuaAnalysis.Proofs.Resolve.RenumberedTasks
import Mathlib.Logic.Equiv.Basic

/-!
# The trees of an update in another order

The analyses of an update are numbered in the order of the trees. In another order they have other
revisions, and nothing else about them changes: the index that the tasks start from has the same
files up to their revisions, and the targets are those that there were, in another order.

Main statements: `Compilation.openProject_perm`, `Compilation.targets_perm`.
-/

namespace LuaAnalysis

/-- The values of a list that are numbered in another order have other numbers, all of them among
those that are given out. -/
theorem exists_renumbering {α : Type} {as bs : List α} (h : as.Perm bs) (n : Nat) :
    ∃ σ : Equiv.Perm Nat, (∀ i < n, σ i = i) ∧
      (bs.zipIdx n).Perm ((as.zipIdx n).map fun e => (e.1, σ e.2)) := by
  have hfixed {σ : Equiv.Perm Nat} {n : Nat} (hσ : ∀ i, n ≤ i → σ i = i) (as : List α) :
      (as.zipIdx n).map (fun e => (e.1, σ e.2)) = as.zipIdx n := by
    refine (List.map_congr_left fun e he => ?_).trans (List.map_id _)
    rw [hσ e.2 (List.mem_zipIdx he).1]
    rfl
  induction h generalizing n with
  | nil => exact ⟨.refl Nat, fun _ _ => rfl, .nil⟩
  | cons a _ ih =>
    obtain ⟨σ, hσ, hperm⟩ := ih (n + 1)
    refine ⟨σ, fun i hi => hσ i (Nat.lt_succ_of_lt hi), ?_⟩
    rw [List.zipIdx_cons, List.zipIdx_cons, List.map_cons, hσ n (Nat.lt_succ_self n)]
    exact hperm.cons _
  | swap a b as =>
    refine ⟨Equiv.swap n (n + 1), fun i hi => ?_, ?_⟩
    · exact Equiv.swap_apply_of_ne_of_ne (by omega) (by omega)
    · have hrest : ∀ i, n + 1 + 1 ≤ i → Equiv.swap n (n + 1) i = i := fun i hi =>
        Equiv.swap_apply_of_ne_of_ne (by omega) (by omega)
      simp only [List.zipIdx_cons, List.map_cons, hfixed hrest, Equiv.swap_apply_left,
        Equiv.swap_apply_right]
      exact .swap _ _ _
  | trans _ _ ih ih' =>
    obtain ⟨σ, hσ, hperm⟩ := ih n
    obtain ⟨τ, hτ, hperm'⟩ := ih' n
    refine ⟨σ.trans τ, fun i hi => ?_, ?_⟩
    · rw [Equiv.trans_apply, hσ i hi, hτ i hi]
    · refine hperm'.trans ((hperm.map _).trans ?_)
      rw [List.map_map]
      exact .refl _

namespace Renumbering

/-- New revisions for the analyses, which keep their generations. -/
def ofRevisions (σ : Equiv.Perm Revision) : Renumbering where
  gen _ generation := generation
  rev := σ
  live _ := True
  gen_injective _ := Function.injective_id
  rev_injective := σ.injective

def analysis (σ : Renumbering) (a : Analysis) : Analysis :=
  { a with model := σ.model a.model }

def file (σ : Renumbering) (f : PublishedFile) : PublishedFile :=
  { f with model := σ.model f.model }

variable (σ : Equiv.Perm Revision)

theorem ref_ofRevisions : (ofRevisions σ).ref = id :=
  rfl

theorem alike_ofRevisions (m : FileModel) : m.Alike ((ofRevisions σ).model m) :=
  rfl

theorem model_ofRevisions {m : FileModel} (h : σ m.revision = m.revision) :
    (ofRevisions σ).model m = m := by
  show { m with revision := σ m.revision } = m
  rw [h]

theorem target_ofRevisions_symm (t : Target) :
    (ofRevisions σ).target ((ofRevisions σ.symm).target t) = t := by
  show (⟨{ t.model with revision := σ (σ.symm t.model.revision) }, t.worklist⟩ : Target) = t
  rw [σ.apply_symm_apply]

end Renumbering

namespace Compilation

variable {config : Config} {c : Compilation} {trees trees' : List SyntaxTree}

/-- The analyses have the sources of the trees. -/
theorem sources_analyses (c : Compilation) (trees : List SyntaxTree) :
    (c.analyses trees).map (·.model.source) = trees.map (·.source) := by
  unfold analyses
  rw [List.map_map]
  show (trees.zipIdx c.revision).map ((·.source) ∘ Prod.fst) = _
  rw [← List.map_map, List.zipIdx_map_fst]

/-- A renaming of the revisions that are not used yet takes the analyses of some trees to those of
others, in whatever order. -/
structure Renames (c : Compilation) (trees trees' : List SyntaxTree) (σ : Equiv.Perm Revision) :
    Prop where
  used : ∀ revision < c.revision, σ revision = revision
  analyses : (c.analyses trees').Perm ((c.analyses trees).map (Renumbering.ofRevisions σ).analysis)

/-- In another order the analyses have other revisions. -/
theorem exists_renames (c : Compilation) (hperm : trees.Perm trees') :
    ∃ σ, c.Renames trees trees' σ := by
  obtain ⟨σ, hσ, hzip⟩ := exists_renumbering hperm c.revision
  refine ⟨σ, hσ, (hzip.map _).trans ?_⟩
  unfold analyses
  rw [List.map_map, List.map_map]
  exact .refl _

/-! ## Targets -/

/-- Where no source comes twice, every analysis has its own target. -/
theorem targets_eq (hsources : (trees.map (·.source)).Nodup) :
    c.targets trees = (c.analyses trees).map fun a => ⟨a.model, a.worklist⟩ := by
  rw [← c.sources_analyses trees] at hsources
  unfold targets
  generalize c.analyses trees = analyses at hsources
  -- Targets that are there already are of other sources, so none of them is replaced.
  suffices hfold : ∀ targets : List Target,
      (∀ t ∈ targets, ∀ a ∈ analyses, t.model.source ≠ a.model.source) →
        analyses.foldl (fun ts a => addTarget ts ⟨a.model, a.worklist⟩) targets =
          targets ++ analyses.map fun a => ⟨a.model, a.worklist⟩ from
    hfold [] (by simp)
  induction analyses with
  | nil => simp
  | cons a analyses ih =>
    intro targets hother
    rw [List.map_cons, List.nodup_cons] at hsources
    have hnew : (targets.any fun t => t.model.source = a.model.source) = false := by
      simpa using fun t ht => hother t ht a List.mem_cons_self
    have hadd : addTarget targets ⟨a.model, a.worklist⟩ = targets ++ [⟨a.model, a.worklist⟩] := by
      rw [addTarget, hnew]
      rfl
    rw [List.foldl_cons, hadd, ih hsources.2]
    · simp
    · intro t ht b hb
      rcases List.mem_append.1 ht with ht | ht
      · exact hother t ht b (List.mem_cons_of_mem _ hb)
      · rw [List.mem_singleton.1 ht]
        exact fun heq => hsources.1 (heq ▸ List.mem_map_of_mem hb)

/-- In another order the targets are those that there were. -/
theorem targets_perm (hsources : (trees.map (·.source)).Nodup) (hperm : trees.Perm trees')
    {σ : Equiv.Perm Revision} (hσ : c.Renames trees trees' σ) :
    ∃ targets, (c.targets trees).Perm targets ∧
      targets.map (Renumbering.ofRevisions σ).target = c.targets trees' := by
  have hsources' : (trees'.map (·.source)).Nodup := (hperm.map _).nodup_iff.1 hsources
  refine ⟨(c.targets trees').map (Renumbering.ofRevisions σ.symm).target, ?_, ?_⟩
  · rw [targets_eq hsources, targets_eq hsources', List.map_map]
    refine .trans (.of_eq ?_) (hσ.analyses.map _).symm
    rw [List.map_map]
    refine List.map_congr_left fun a _ => ?_
    show _ = (⟨{ a.model with revision := σ.symm (σ a.model.revision) }, a.worklist⟩ : Target)
    rw [σ.symm_apply_apply]
  · rw [List.map_map]
    refine (List.map_congr_left fun t _ => ?_).trans (List.map_id _)
    exact Renumbering.target_ofRevisions_symm σ t

/-! ## The index -/

/-- Where no source comes twice, all analyses are published, and what no analysis takes the place
of stays. -/
theorem mem_publishAll_iff {analyses : List Analysis} {idx : ProjectIndex} (h : idx.Sorted)
    (hsources : (analyses.map (·.model.source)).Nodup) {f : PublishedFile} :
    f ∈ (analyses.foldl (fun idx a => idx.publish ⟨a.model, a.entries⟩) idx).files ↔
      (∃ a ∈ analyses, f = ⟨a.model, a.entries⟩) ∨
        f ∈ idx.files ∧ ∀ a ∈ analyses, a.model.source ≠ f.source := by
  refine ⟨mem_publishAll h, ?_⟩
  rintro (⟨a, ha, rfl⟩ | ⟨hold, hother⟩)
  · obtain ⟨before, after, rfl⟩ := List.append_of_mem ha
    have hlast : ∀ b ∈ after, b.model.source ≠ a.model.source := by
      rw [List.map_append, List.map_cons] at hsources
      have hafter := (List.nodup_cons.1 (List.nodup_append.1 hsources).2.1).1
      exact fun b hb heq => hafter (heq ▸ List.mem_map_of_mem hb)
    have hsorted := sorted_publishAll before h
    rw [List.foldl_append, List.foldl_cons]
    exact mem_publishAll_of_other (hsorted.publish _)
      ((ProjectIndex.mem_files_publish hsorted).2 (.inl rfl)) hlast
  · exact mem_publishAll_of_other h hold hother

/-- The index that the tasks start from has the same files, up to their revisions. -/
theorem opened_perm (h : Reached config c) (hsources : (trees.map (·.source)).Nodup)
    (hperm : trees.Perm trees') {σ : Equiv.Perm Revision} (hσ : c.Renames trees trees' σ) :
    (c.opened trees').files = (c.opened trees).files.map (Renumbering.ofRevisions σ).file := by
  have hsorted := h.faithful.2.sorted
  have hsources' : (trees'.map (·.source)).Nodup := (hperm.map _).nodup_iff.1 hsources
  rw [← c.sources_analyses] at hsources hsources'
  refine ProjectIndex.files_eq_of_mem_iff (sorted_publishAll _ hsorted) ?_ fun f => ?_
  · rw [List.pairwise_map]
    exact sorted_publishAll (c.analyses trees) hsorted
  · have hfiles {f : PublishedFile} := mem_publishAll_iff hsorted hsources (f := f)
    have hfiles' := mem_publishAll_iff hsorted hsources' (f := f)
    refine hfiles'.trans ?_
    rw [List.mem_map]
    -- A file of an analysis has a new revision, and a file that was there keeps its own.
    constructor
    · rintro (⟨a', ha', rfl⟩ | ⟨hold, hother⟩)
      · obtain ⟨a, ha, rfl⟩ := List.mem_map.1 (hσ.analyses.mem_iff.1 ha')
        exact ⟨⟨a.model, a.entries⟩, hfiles.2 (.inl ⟨a, ha, rfl⟩), rfl⟩
      · refine ⟨f, hfiles.2 (.inr ⟨hold, fun a ha => ?_⟩), ?_⟩
        · exact hother ((Renumbering.ofRevisions σ).analysis a)
            (hσ.analyses.mem_iff.2 (List.mem_map_of_mem ha))
        · have hrevision := hσ.used _ (h.stamped.revision f hold)
          unfold Renumbering.file
          rw [Renumbering.model_ofRevisions σ hrevision]
    · rintro ⟨g, hg, rfl⟩
      rcases hfiles.1 hg with ⟨a, ha, rfl⟩ | ⟨hold, hother⟩
      · exact .inl ⟨_, hσ.analyses.mem_iff.2 (List.mem_map_of_mem ha), rfl⟩
      · have hrevision := hσ.used _ (h.stamped.revision g hold)
        have hsame : (Renumbering.ofRevisions σ).file g = g := by
          unfold Renumbering.file
          rw [Renumbering.model_ofRevisions σ hrevision]
        rw [hsame]
        refine .inr ⟨hold, fun a' ha' => ?_⟩
        obtain ⟨a, ha, rfl⟩ := List.mem_map.1 (hσ.analyses.mem_iff.1 ha')
        exact hother a ha

theorem opened_alike (h : Reached config c) (hsources : (trees.map (·.source)).Nodup)
    (hperm : trees.Perm trees') : (c.opened trees).Alike (c.opened trees') := by
  obtain ⟨σ, hσ⟩ := c.exists_renames hperm
  unfold ProjectIndex.Alike
  rw [opened_perm h hsources hperm hσ, List.forall₂_map_right_iff, List.forall₂_same]
  exact fun f _ => ⟨Renumbering.alike_ofRevisions σ f.model, f.entries.members, rfl⟩

/-- Nothing has been found out under revisions that are not used yet, so nothing is renumbered. -/
theorem findings_perm (h : Reached config c) {σ : Equiv.Perm Revision}
    (hσ : c.Renames trees trees' σ) :
    c.findings.Renumbered (Renumbering.ofRevisions σ) c.findings := by
  -- A revision that is not used yet is renamed to another one that is not.
  have hnew {revision : Revision} (hle : c.revision ≤ revision) : c.revision ≤ σ revision := by
    by_contra hlt
    have hfixed := σ.injective (hσ.used _ (Nat.lt_of_not_le hlt))
    exact hlt (hle.trans_eq hfixed.symm)
  have hstamped := h.stamped.findings
  have hsame {α : Type} (get : Revision → Option α)
      (hnone : ∀ revision, c.revision ≤ revision → get revision = none) (revision : Revision) :
      get (σ revision) = get revision := by
    rcases Nat.lt_or_ge revision c.revision with hlt | hle
    · rw [hσ.used revision hlt]
    · rw [hnone _ (hnew hle), hnone _ hle]
  constructor
  · intro revision _ id
    exact hsame (fun revision => c.findings.types.get? (revision, id))
      (fun revision hle => hstamped.types hle) revision
  · intro revision _ id
    exact hsame (fun revision => c.findings.returns.get? (revision, id))
      (fun revision hle => hstamped.returns hle) revision
  · intro revision _
    exact hsame c.findings.moduleReturns.get? (fun revision hle => hstamped.moduleReturns hle)
      revision

theorem openProject_perm (h : Reached config c) (hsources : (trees.map (·.source)).Nodup)
    (hperm : trees.Perm trees') {σ : Equiv.Perm Revision} (hσ : c.Renames trees trees' σ) :
    (c.openProject trees).Renumbered (Renumbering.ofRevisions σ) (c.openProject trees') where
  index := by
    show List.Forall₂ _ (c.opened trees).files (c.opened trees').files
    rw [opened_perm h hsources hperm hσ, List.forall₂_map_right_iff, List.forall₂_same]
    exact fun f _ => ⟨rfl, rfl, trivial⟩
  depth := rfl
  findings := findings_perm h hσ

end Compilation

end LuaAnalysis
