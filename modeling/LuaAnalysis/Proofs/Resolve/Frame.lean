import LuaAnalysis.Proofs.Project.Linked
import LuaAnalysis.Proofs.Resolve.Writes

/-!
# What a task cannot touch

A task reads the whole project, yet it writes in two places only: the entries of the file of its own
model, and the cells of the findings under the revision of that model. What tasks of some models do
is therefore confined to these models (`Project.ChangesOnly`).

Main statement: `Project.changesOnly_events`.
-/

namespace LuaAnalysis

/-! ## Findings -/

/-- The cells under some revisions hold the same in both stores. -/
structure Findings.SameUnder (under : Revision → Prop) (f f' : Findings) : Prop where
  types : ∀ {key : Revision × DeclId}, under key.1 → f'.types.get? key = f.types.get? key
  returns : ∀ {key : Revision × NodeId}, under key.1 → f'.returns.get? key = f.returns.get? key
  moduleReturns : ∀ {revision : Revision}, under revision →
    f'.moduleReturns.get? revision = f.moduleReturns.get? revision

namespace Findings

variable {under : Revision → Prop} {f f' f'' : Findings} {m : FileModel}

theorem SameUnder.refl (under : Revision → Prop) (f : Findings) : f.SameUnder under f :=
  ⟨fun _ => rfl, fun _ => rfl, fun _ => rfl⟩

theorem SameUnder.trans (h : f.SameUnder under f') (h' : f'.SameUnder under f'') :
    f.SameUnder under f'' :=
  ⟨fun hr => (h'.types hr).trans (h.types hr), fun hr => (h'.returns hr).trans (h.returns hr),
    fun hr => (h'.moduleReturns hr).trans (h.moduleReturns hr)⟩

theorem SameUnder.mono {under' : Revision → Prop} (h : f.SameUnder under f')
    (himp : ∀ {revision}, under' revision → under revision) : f.SameUnder under' f' :=
  ⟨fun hr => h.types (himp hr), fun hr => h.returns (himp hr), fun hr => h.moduleReturns (himp hr)⟩

/-- The declarations of a model have the types they had. -/
theorem SameUnder.type? (h : f.SameUnder under f') (hm : under m.revision) (i : DeclId) :
    f'.type? m i = f.type? m i := by
  unfold Findings.type?
  cases m.decl? i with
  | none => rfl
  | some d => exact congrArg d.written.or (h.types hm)

theorem SameUnder.inferred? (h : f.SameUnder under f') (hm : under m.revision) (closure : NodeId) :
    f'.inferred? m closure = f.inferred? m closure :=
  h.returns hm

theorem sameUnder_setType (f : Findings) (hm : ¬under m.revision) (i : DeclId) (type : Ty) :
    f.SameUnder under (f.setType m i type) := by
  unfold setType
  split
  · exact .refl under f
  · refine ⟨fun {key} hr => ?_, fun _ => rfl, fun _ => rfl⟩
    apply WriteOnce.get?_put_of_ne
    rintro rfl
    exact hm hr

theorem sameUnder_setReturns (f : Findings) (hm : ¬under m.revision) (closure : NodeId)
    (returns : List Ty) : f.SameUnder under (f.setReturns m closure returns) := by
  refine ⟨fun _ => rfl, fun {key} hr => ?_, fun _ => rfl⟩
  apply WriteOnce.get?_put_of_ne
  rintro rfl
  exact hm hr

theorem sameUnder_setModuleReturns (f : Findings) (hm : ¬under m.revision) (returns : List Ty) :
    f.SameUnder under (f.setModuleReturns m returns) := by
  refine ⟨fun _ => rfl, fun _ => rfl, fun {revision} hr => ?_⟩
  apply WriteOnce.get?_put_of_ne
  rintro rfl
  exact hm hr

end Findings

/-! ## Files -/

/-- Amending the file of a source is seen there only. -/
theorem ProjectIndex.file?_amend (idx : ProjectIndex) (source s : SourceId)
    (change : Entries → Entries) :
    (idx.amend source change).file? s =
      if s = source then (idx.file? s).map fun f => { f with entries := change f.entries }
      else idx.file? s := by
  -- An amended file is still of its source, so the search finds the same file.
  have hsource : (fun f : PublishedFile => decide (f.source = s)) ∘
      (fun f => if f.source = source then { f with entries := change f.entries } else f) =
      fun f => decide (f.source = s) := by
    funext f
    show decide (PublishedFile.source (if f.source = source then _ else f) = s) = _
    split <;> rfl
  unfold file? amend
  rw [List.find?_map, hsource]
  cases hfind : idx.files.find? fun f => decide (f.source = s) with
  | none => split <;> rfl
  | some f =>
    have hf : f.source = s := by simpa using List.find?_some hfind
    rw [Option.map_some, hf]
    split <;> rfl

/-- The revision of a model is none of those that are not its own. -/
theorem FileModel.own_revision (m : FileModel) : ¬∀ m' ∈ [m], m'.revision ≠ m.revision :=
  fun h => h m List.mem_cons_self rfl

namespace Project

/-- `q` comes from `p` by changes to the files of some models, and to what is found out about these
models. -/
structure ChangesOnly (ms : List FileModel) (p q : Project) : Prop where
  models : q.index.models = p.index.models
  files : ∀ {s : SourceId}, (∀ m ∈ ms, m.source ≠ s) → q.index.file? s = p.index.file? s
  findings : p.findings.SameUnder (fun revision => ∀ m ∈ ms, m.revision ≠ revision) q.findings

namespace ChangesOnly

variable {ms ms' : List FileModel} {p q r : Project}

theorem refl (ms : List FileModel) (p : Project) : ChangesOnly ms p p :=
  ⟨rfl, fun _ => rfl, .refl _ p.findings⟩

theorem trans (h : ChangesOnly ms p q) (h' : ChangesOnly ms q r) : ChangesOnly ms p r :=
  ⟨h'.models.trans h.models, fun hs => (h'.files hs).trans (h.files hs),
    h.findings.trans h'.findings⟩

theorem mono (h : ChangesOnly ms p q) (hms : ms ⊆ ms') : ChangesOnly ms' p q :=
  ⟨h.models, fun hs => h.files fun m hm => hs m (hms hm),
    h.findings.mono fun hr m hm => hr m (hms hm)⟩

end ChangesOnly

variable (p : Project) (m : FileModel)

theorem changesOnly_amend (change : Entries → Entries) :
    ChangesOnly [m] p (p.amend m.source change) := by
  refine ⟨p.index.models_amend _ _, fun {s} hs => ?_, .refl _ p.findings⟩
  have hne : s ≠ m.source := (hs m List.mem_cons_self).symm
  show (p.index.amend m.source change).file? s = _
  rw [ProjectIndex.file?_amend, if_neg hne]

/-- Findings that differ under the revision of a model only. -/
theorem changesOnly_findings {findings : Findings}
    (h : p.findings.SameUnder (fun revision => ∀ m' ∈ [m], m'.revision ≠ revision) findings) :
    ChangesOnly [m] p { p with findings } :=
  ⟨rfl, fun _ => rfl, h⟩

/-- The owner of a field may be a type or a table of any file; the link is kept in the file of the
field. -/
theorem Writes.changesOnly {m : FileModel} {task : Task} {p q : Project} (h : Writes m task p q) :
    ChangesOnly [m] p q := by
  induction h with
  | nothing => exact .refl _ p
  | @type q _ decl _ type ih =>
    exact ih.trans
      (q.changesOnly_findings m (q.findings.sameUnder_setType m.own_revision decl type))
  | @returns q _ closure _ returns ih =>
    exact ih.trans
      (q.changesOnly_findings m (q.findings.sameUnder_setReturns m.own_revision closure returns))
  | @moduleReturns q _ returns ih =>
    exact ih.trans
      (q.changesOnly_findings m (q.findings.sameUnder_setModuleReturns m.own_revision returns))
  | @table q _ _ _ _ ih => exact ih.trans (q.changesOnly_amend m _)
  | @field q _ _ _ _ _ ih => exact ih.trans (q.changesOnly_amend m _)

theorem Writes.models {m : FileModel} {task : Task} {p q : Project} (h : Writes m task p q) :
    q.index.models = p.index.models :=
  h.changesOnly.models

/-- Taking tasks one after the other changes the files of their models and nothing else. -/
theorem changesOnly_events (events : List TaskEvent) :
    ChangesOnly (events.map (·.model)) p (events.foldl TaskEvent.apply p) := by
  induction events generalizing p with
  | nil => exact .refl _ p
  | cons e events ih =>
    apply ChangesOnly.trans
    · exact (p.writes_apply e).changesOnly.mono (by simp)
    · exact (ih (e.apply p)).mono (List.subset_cons_self _ _)

theorem models_events (events : List TaskEvent) :
    (events.foldl TaskEvent.apply p).index.models = p.index.models :=
  (p.changesOnly_events events).models

end Project

end LuaAnalysis
