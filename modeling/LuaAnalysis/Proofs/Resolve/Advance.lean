import LuaAnalysis.Proofs.Project.Alike
import LuaAnalysis.Proofs.Resolve.Writes

/-!
# What tasks leave as it is

A task adds members to the files and puts findings into empty cells. The files stay alike, and what
has been found out once stays.

Main statement: `Project.advances_events`.
-/

namespace LuaAnalysis

/-! ## Findings -/

/-- What one store has found out the other has found out too. -/
structure Findings.Kept (f f' : Findings) : Prop where
  types : ∀ {key : Revision × DeclId} {type : Ty}, f.types.get? key = some type →
    f'.types.get? key = some type
  returns : ∀ {key : Revision × NodeId} {returns : List Ty}, f.returns.get? key = some returns →
    f'.returns.get? key = some returns
  moduleReturns : ∀ {key : Revision} {returns : List Ty},
    f.moduleReturns.get? key = some returns → f'.moduleReturns.get? key = some returns

namespace Findings

variable {f f' f'' : Findings} {m : FileModel}

theorem Kept.refl (f : Findings) : f.Kept f :=
  ⟨fun h => h, fun h => h, fun h => h⟩

theorem Kept.trans (h : f.Kept f') (h' : f'.Kept f'') : f.Kept f'' :=
  ⟨fun hk => h'.types (h.types hk), fun hk => h'.returns (h.returns hk),
    fun hk => h'.moduleReturns (h.moduleReturns hk)⟩

theorem Kept.type? (h : f.Kept f') {i : DeclId} {type : Ty} (ht : f.type? m i = some type) :
    f'.type? m i = some type := by
  unfold Findings.type? at *
  cases hd : m.decl? i with
  | none =>
    rw [hd] at ht
    cases ht
  | some d =>
    rw [hd] at ht
    dsimp only at *
    rcases Option.or_eq_some_iff.1 ht with hwritten | ⟨hnone, hfound⟩
    · rw [hwritten, Option.some_or]
    · rw [hnone, Option.none_or, h.types hfound]

theorem kept_setType (f : Findings) (m : FileModel) (i : DeclId) (type : Ty) :
    f.Kept (f.setType m i type) := by
  unfold setType
  split
  · exact .refl f
  · exact ⟨WriteOnce.get?_put_of_some, fun h => h, fun h => h⟩

theorem kept_setReturns (f : Findings) (m : FileModel) (closure : NodeId) (returns : List Ty) :
    f.Kept (f.setReturns m closure returns) :=
  ⟨fun h => h, WriteOnce.get?_put_of_some, fun h => h⟩

theorem kept_setModuleReturns (f : Findings) (m : FileModel) (returns : List Ty) :
    f.Kept (f.setModuleReturns m returns) :=
  ⟨fun h => h, fun h => h, WriteOnce.get?_put_of_some⟩

/-- A declaration that is given a type has the one it had before, if any. -/
theorem type?_setType (f : Findings) {i : DeclId} {d : Declaration} (hd : m.decl? i = some d)
    (type : Ty) : (f.setType m i type).type? m i = some ((f.type? m i).getD type) := by
  unfold setType
  cases ht : f.type? m i with
  | some found => rw [Option.isSome_some, if_pos rfl, ht, Option.getD_some]
  | none =>
    rw [Option.isSome_none, if_neg Bool.false_ne_true, Option.getD_none]
    unfold type? at *
    rw [hd] at ht ⊢
    dsimp only at *
    obtain ⟨hwritten, hfound⟩ := Option.or_eq_none_iff.1 ht
    rw [hwritten, Option.none_or, WriteOnce.get?_put, if_pos rfl, hfound, Option.getD_none]

theorem inferred?_setReturns (f : Findings) (m : FileModel) (closure : NodeId)
    (returns : List Ty) : (f.setReturns m closure returns).inferred? m closure =
      some ((f.inferred? m closure).getD returns) := by
  unfold inferred? setReturns
  rw [WriteOnce.get?_put, if_pos rfl]

end Findings

/-! ## Files -/

theorem FileModel.Alike.trans {m m' m'' : FileModel} (h : m.Alike m') (h' : m'.Alike m'') :
    m.Alike m'' := by
  unfold FileModel.Alike at *
  rw [h', h]

theorem PublishedFile.Alike.trans {f g k : PublishedFile} (h : f.Alike g) (h' : g.Alike k) :
    f.Alike k := by
  obtain ⟨members, hentries⟩ := h.entries
  obtain ⟨members', hentries'⟩ := h'.entries
  exact ⟨h.model.trans h'.model, members', by rw [hentries', hentries]⟩

namespace ProjectIndex

variable {idx idx' idx'' : ProjectIndex}

theorem Alike.trans (h : idx.Alike idx') (h' : idx'.Alike idx'') : idx.Alike idx'' := by
  unfold ProjectIndex.Alike at *
  generalize idx.files = files at h
  generalize idx'.files = files' at h h'
  generalize idx''.files = files'' at h'
  induction h generalizing files'' with
  | nil =>
    cases h'
    exact .nil
  | cons hfg _ ih =>
    cases h' with
    | cons hgk hrest => exact .cons (hfg.trans hgk) (ih _ hrest)

/-- Members are all that sets the files apart. -/
theorem alike_amend (idx : ProjectIndex) (source : SourceId) {change : Entries → Entries}
    (hchange : ∀ e, ∃ members, change e = { e with members }) :
    idx.Alike (idx.amend source change) := by
  unfold ProjectIndex.Alike amend
  rw [List.forall₂_map_right_iff, List.forall₂_same]
  intro f _
  split
  · exact ⟨.refl f.model, hchange f.entries⟩
  · exact ⟨.refl f.model, f.entries.members, rfl⟩

end ProjectIndex

/-! ## Projects -/

namespace Project

/-- `q` comes from `p` by tasks: the files are alike, and what was found out is kept. -/
structure Advances (p q : Project) : Prop where
  files : p.index.Alike q.index
  depth : p.maxSuperDepth = q.maxSuperDepth
  findings : p.findings.Kept q.findings

variable {p q r : Project} {m : FileModel}

theorem Advances.refl (p : Project) : p.Advances p :=
  ⟨.refl p.index, rfl, .refl p.findings⟩

theorem Advances.trans (h : p.Advances q) (h' : q.Advances r) : p.Advances r :=
  ⟨h.files.trans h'.files, h.depth.trans h'.depth, h.findings.trans h'.findings⟩

theorem advances_findings (p : Project) {findings : Findings} (h : p.findings.Kept findings) :
    p.Advances { p with findings } :=
  ⟨.refl p.index, rfl, h⟩

theorem advances_amend (p : Project) (source : SourceId) {change : Entries → Entries}
    (hchange : ∀ e, ∃ members, change e = { e with members }) :
    p.Advances (p.amend source change) :=
  ⟨p.index.alike_amend source hchange, rfl, .refl p.findings⟩

theorem Writes.advances {task : Task} (h : Writes m task p q) : p.Advances q := by
  induction h with
  | nothing => exact .refl p
  | @type q _ decl _ type ih =>
    exact ih.trans (q.advances_findings (Findings.kept_setType q.findings m decl type))
  | @returns q _ closure _ returns ih =>
    exact ih.trans (q.advances_findings (Findings.kept_setReturns q.findings m closure returns))
  | @moduleReturns q _ returns ih =>
    exact ih.trans (q.advances_findings (Findings.kept_setModuleReturns q.findings m returns))
  | @table q _ _ name added ih =>
    exact ih.trans (q.advances_amend m.source fun e => e.exists_members_addMembers _ added)
  | @field q _ decl _ _ owner ih => exact ih.trans (q.advances_amend m.source fun e => ⟨_, rfl⟩)

/-- Taking tasks one after the other keeps what there is. -/
theorem advances_events (p : Project) (events : List TaskEvent) :
    p.Advances (events.foldl TaskEvent.apply p) := by
  induction events generalizing p with
  | nil => exact .refl p
  | cons e events ih =>
    exact (p.writes_apply e).advances.trans (ih (e.apply p))

end Project

end LuaAnalysis
