import LuaAnalysis.Proofs.Project.Update
import LuaAnalysis.Syntax.Shorthand

/-!
# Updates and removals in place

A program holds one compilation and changes it in place. An operation that is accepted changes the
files that it is about and no other: what another file contributes and what has been found out about
it stay as they are. An operation that is refused changes nothing at all, because the sources are
checked before anything else is done.

Main statement: `Compilation.operations_keep_to_their_files`.
-/

namespace LuaAnalysis

namespace Compilation

variable {config : Config} {c c' : Compilation} {trees : List SyntaxTree}

/-! ## In place -/

/-- A refusal keeps the state that there is by then. -/
theorem InPlace.attempt_bind {α β : Type} (x : InPlace α) (f : α → InPlace β) (c : Compilation) :
    (x >>= f).attempt c =
      match x.attempt c with
      | (.ok a, c') => (f a).attempt c'
      | (.error e, c') => (.error e, c') := by
  show (ExceptT.run (x >>= f)).run c = _
  rw [ExceptT.run_bind, StateT.run_bind]
  unfold attempt
  obtain ⟨_ | a, c'⟩ := (ExceptT.run x).run c <;> rfl

theorem attempt_requireSource (source : SourceId) (c : Compilation) :
    (requireSource source).attempt c =
      if c.sources.contains source then (.ok (), c) else (.error (.unknownSource source), c) := by
  unfold requireSource
  rw [InPlace.attempt_bind]
  show (unless c.sources.contains source do
    throw (.unknownSource source) : InPlace Unit).attempt c = _
  cases c.sources.contains source <;> rfl

/-- Checking sources changes nothing, and the first that is not registered is reported. -/
theorem attempt_requireSources (c : Compilation) (trees : List SyntaxTree) :
    (forM trees fun tree => requireSource tree.source).attempt c =
      match trees.find? fun tree => !c.sources.contains tree.source with
      | some tree => (.error (.unknownSource tree.source), c)
      | none => (.ok (), c) := by
  induction trees with
  | nil => rfl
  | cons tree trees ih =>
    rw [List.forM_cons, InPlace.attempt_bind, attempt_requireSource, List.find?_cons]
    cases c.sources.contains tree.source with
    | true => exact ih
    | false => rfl

theorem attempt_publishAll (analyses : List Analysis) (c : Compilation) :
    (forM analyses fun a => modify (publish · ⟨a.model, a.entries⟩) : InPlace Unit).attempt c =
      (.ok (), analyses.foldl (fun c a => c.publish ⟨a.model, a.entries⟩) c) := by
  induction analyses generalizing c with
  | nil => rfl
  | cons a analyses ih =>
    rw [List.forM_cons, InPlace.attempt_bind]
    exact ih _

theorem attempt_updateInPlace (c : Compilation) (trees : List SyntaxTree) :
    (updateInPlace trees).attempt c =
      match c.update trees with
      | .ok (summary, c') => (.ok summary, c')
      | .error e => (.error e, c) := by
  unfold updateInPlace update
  rw [InPlace.attempt_bind, attempt_requireSources]
  cases trees.find? fun tree => !c.sources.contains tree.source with
  | some tree => rfl
  | none =>
    dsimp only
    rw [InPlace.attempt_bind]
    show (modifyGet (fun c => analyseAll c.generation c trees) >>= _ :
      InPlace ResolveSummary).attempt { c with generation := c.generation + 1 } = _
    rw [InPlace.attempt_bind]
    show (forM (analyseAll (c.generation + 1) { c with generation := c.generation + 1 } trees).1 _
      >>= _ : InPlace ResolveSummary).attempt
        (analyseAll (c.generation + 1) { c with generation := c.generation + 1 } trees).2 = _
    rw [InPlace.attempt_bind, attempt_publishAll]
    rfl

theorem attempt_removeInPlace (c : Compilation) (source : SourceId) :
    (removeInPlace source).attempt c =
      match c.remove source with
      | .ok (found, c') => (.ok found, c')
      | .error e => (.error e, c) := by
  unfold removeInPlace remove
  rw [InPlace.attempt_bind, attempt_requireSource]
  cases c.sources.contains source <;> rfl

/-! ## What stays as it is -/

/-- A file contributes what it did, and what has been found out about it is the same: the types of
its declarations, the returns of its closures and its own returns. -/
structure SameFile (c c' : Compilation) (source : SourceId) : Prop where
  file : c'.index.file? source = c.index.file? source
  types : ∀ f, c.index.file? source = some f → ∀ i,
    c'.findings.type? f.model i = c.findings.type? f.model i
  returns : ∀ f, c.index.file? source = some f → ∀ closure,
    c'.findings.inferred? f.model closure = c.findings.inferred? f.model closure
  moduleReturns : ∀ f, c.index.file? source = some f →
    c'.findings.moduleReturns.get? f.model.revision = c.findings.moduleReturns.get? f.model.revision

theorem sameFile_of_findings {source : SourceId}
    (hfile : c'.index.file? source = c.index.file? source)
    (hfindings : ∀ f, c.index.file? source = some f →
      c.findings.SameUnder (· = f.model.revision) c'.findings) : c.SameFile c' source :=
  ⟨hfile, fun f hf i => (hfindings f hf).type? rfl i,
    fun f hf closure => (hfindings f hf).inferred? rfl closure,
    fun f hf => (hfindings f hf).moduleReturns rfl⟩

/-- Publishing files of other sources is not seen at a source. -/
theorem file?_publishAll {analyses : List Analysis} {idx : ProjectIndex} (h : idx.Sorted)
    {source : SourceId} (hsource : ∀ a ∈ analyses, a.model.source ≠ source) :
    (analyses.foldl (fun idx a => idx.publish ⟨a.model, a.entries⟩) idx).file? source =
      idx.file? source := by
  induction analyses generalizing idx with
  | nil => rfl
  | cons a analyses ih =>
    obtain ⟨hne, hrest⟩ := List.forall_mem_cons.1 hsource
    rw [List.foldl_cons, ih (h.publish _) hrest]
    apply Option.ext
    intro f
    rw [ProjectIndex.file?_eq_some (h.publish _), ProjectIndex.file?_eq_some h,
      ProjectIndex.mem_files_publish h]
    constructor
    · rintro ⟨rfl | ⟨hf, -⟩, hfs⟩
      · exact absurd hfs hne
      · exact ⟨hf, hfs⟩
    · rintro ⟨hf, rfl⟩
      exact ⟨.inr ⟨hf, fun heq => hne heq.symm⟩, rfl⟩

theorem sameFile_update (h : Reached config c) {summary : ResolveSummary}
    (hupdate : c.update trees = .ok (summary, c')) {source : SourceId}
    (hsource : source ∉ trees.map (·.source)) : c.SameFile c' source := by
  have hsorted : c.index.Sorted := h.faithful.2.sorted
  have hchanges := changesOnly_update c trees
  -- No analysis of the update is of the source, nor of a revision used before.
  have hanalysis : ∀ a ∈ c.analyses trees, a.model.source ≠ source := by
    intro a ha heq
    obtain ⟨t, ht, revision, -, -, rfl⟩ := mem_analyses ha
    exact hsource (heq ▸ List.mem_map_of_mem ht)
  rw [eq_of_update hupdate]
  apply sameFile_of_findings
  · show ((c.openProject trees).resolve (c.targets trees)).project.index.file? source = _
    rw [hchanges.files (by simpa using hanalysis)]
    exact file?_publishAll hsorted hanalysis
  · intro f hf
    have hfiles : f ∈ c.index.files := ((ProjectIndex.file?_eq_some hsorted).1 hf).1
    apply hchanges.findings.mono
    rintro _ rfl m hm
    obtain ⟨a, ha, rfl⟩ := List.mem_map.1 hm
    obtain ⟨t, -, revision, hle, -, rfl⟩ := mem_analyses ha
    exact (Nat.ne_of_lt (Nat.lt_of_lt_of_le (h.stamped.revision f hfiles) hle)).symm

theorem sameFile_remove {removed source : SourceId} {found : Bool}
    (hremove : c.remove removed = .ok (found, c')) (hsource : source ≠ removed) :
    c.SameFile c' source := by
  rw [eq_of_remove hremove]
  apply sameFile_of_findings
  · show (c.index.files.filter fun f => f.source ≠ removed).find? (fun f => f.source = source) = _
    rw [List.find?_filter]
    congr 1
    funext f
    by_cases hf : f.source = source
    · simp [hf, hsource]
    · simp [hf]
  · exact fun f _ => .refl _ _

/-- An update that is accepted leaves every file alone that is not among its own, and an accepted
removal every file but the one that it removes. An operation in place does the same as the one that
gives a new compilation; it is refused just when some source is not registered, and then leaves the
whole compilation as it was, the generation included. -/
theorem operations_keep_to_their_files (h : Reached config c) (trees : List SyntaxTree)
    (removed : SourceId) :
    (∀ summary c', c.update trees = .ok (summary, c') →
      (updateInPlace trees).attempt c = (.ok summary, c') ∧
        ∀ source ∉ trees.map (·.source), c.SameFile c' source) ∧
      (∀ found c', c.remove removed = .ok (found, c') →
        (removeInPlace removed).attempt c = (.ok found, c') ∧
          ∀ source ≠ removed, c.SameFile c' source) ∧
      (∀ e, c.update trees = .error e ↔ (updateInPlace trees).attempt c = (.error e, c)) ∧
      (∀ e, c.remove removed = .error e ↔ (removeInPlace removed).attempt c = (.error e, c)) ∧
      ((∃ e, c.update trees = .error e) ↔ ∃ t ∈ trees, c.sources.contains t.source = false) ∧
      ((∃ e, c.remove removed = .error e) ↔ c.sources.contains removed = false) := by
  refine ⟨fun summary c' hupdate => ?_, fun found c' hremove => ?_, fun e => ?_, fun e => ?_,
    ?_, ?_⟩
  · refine ⟨by rw [attempt_updateInPlace, hupdate], fun source hsource => ?_⟩
    exact sameFile_update h hupdate hsource
  · refine ⟨by rw [attempt_removeInPlace, hremove], fun source hsource => ?_⟩
    exact sameFile_remove hremove hsource
  · rw [attempt_updateInPlace]
    cases c.update trees <;> simp
  · rw [attempt_removeInPlace]
    cases c.remove removed <;> simp
  · rw [update_eq]
    cases hfind : trees.find? fun tree => !c.sources.contains tree.source with
    | none =>
      have hall := List.find?_eq_none.1 hfind
      simpa using hall
    | some tree =>
      have htree := List.find?_some hfind
      exact iff_of_true ⟨_, rfl⟩ ⟨tree, List.mem_of_find?_eq_some hfind, by simpa using htree⟩
  · unfold remove
    cases c.sources.contains removed <;> simp

/-- `t = {}` in one file and `t.x = 1` in another one. -/
def tableAndField : Compilation :=
  ofUpdate [.ofSketch 0 (some (.block [.node (.assignStat [.var "t"] [.node (.tableExpr [])])])),
    .ofSketch 1 (some (.block [.node (.assignStat [.member (.var "t") "x" false]
      [.literal (.integer 1)])]))]

theorem reached_tableAndField : Reached {} tableAndField :=
  reached_ofUpdate (by decide) (by decide)

/-- The table is gone after an update of the first file, and yet the second file keeps its field as
a member of it; an update with a third file is refused. -/
theorem field_keeps_owner :
    let c := tableAndField
    let rebuilt := SyntaxTree.ofSketch 0 (some (.block []))
    let unknown := SyntaxTree.ofSketch 2 none
    (∃ summary c', c.update [rebuilt] = .ok (summary, c') ∧ c.SameFile c' 1 ∧
        c'.index.ownersOf ⟨1, 1, 0⟩ = [.anonymous ⟨0, 1⟩]) ∧
      (∃ found c', c.remove 0 = .ok (found, c') ∧ c.SameFile c' 1) ∧
      ∃ e, (updateInPlace [rebuilt, unknown]).attempt c = (.error e, c) := by
  intro c rebuilt unknown
  obtain ⟨hupdate, hremove, -⟩ :=
    operations_keep_to_their_files reached_tableAndField [rebuilt] 0
  obtain ⟨-, -, hrefused, -, hunknown, -⟩ :=
    operations_keep_to_their_files reached_tableAndField [rebuilt, unknown] 0
  refine ⟨?_, ?_, ?_⟩
  · have howners : ((c.update [rebuilt]).toOption.any fun (_, c') =>
        c'.index.ownersOf ⟨1, 1, 0⟩ = [.anonymous ⟨0, 1⟩]) = true := by decide +kernel
    obtain ⟨summary, c', hok, howners⟩ := exists_of_update howners
    exact ⟨summary, c', hok, (hupdate summary c' hok).2 1 (by decide), of_decide_eq_true howners⟩
  · have hcontains : c.sources.contains 0 = true := by decide +kernel
    have hok : c.remove 0 = .ok ((c.index.file? 0).isSome, c.retract 0) := if_pos hcontains
    exact ⟨_, _, hok, (hremove _ _ hok).2 1 (by decide)⟩
  · obtain ⟨e, he⟩ := hunknown.2 ⟨unknown, by simp, by decide +kernel⟩
    exact ⟨e, (hrefused e).1 he⟩

end Compilation

end LuaAnalysis
