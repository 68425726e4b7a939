import LuaAnalysis.Proofs.Project.OwnFiles
import LuaAnalysis.Proofs.Project.StoredTypes
import LuaAnalysis.Proofs.Resolve.KnownIdentities

/-!
# Tables and closures of files that go

A reference to a declaration carries the generation of its file, so it leads nowhere once the file
has been analysed again. The identity of a table or a closure has a source and a node and no
generation. What a file holds about another one stays as it is when the other one is analysed again,
so a link to an old table is a link to whatever stands in its place in the new tree
(`Compilation.field_of_replaced_table`).

It is otherwise as long as no file that stays holds anything of a file that goes
(`Compilation.Spares`): then whatever a file holds was found out when the tree that it is about was
the published one.

Main statement: `Compilation.identities_are_current`.
-/

namespace LuaAnalysis

/-- A table has no supertypes, so its members are all that a search finds. -/
theorem Lookup.member?_anonymous (l : Lookup) (id : SyntaxId) (name : String) :
    l.member? (.anonymous id) name = l.directMember? (.anonymous id) name := by
  have hnew : unseen [] [Owner.anonymous id] = [.anonymous id] := rfl
  have hsupers : [Owner.anonymous id].flatMap l.superOwners = [] := rfl
  unfold member?
  cases l.maxSuperDepth with
  | zero =>
    rw [memberAbove?, hnew, List.findSome?_singleton]
    cases l.directMember? (.anonymous id) name <;> rfl
  | succ levels =>
    rw [memberAbove?, hnew, hsupers, memberAbove?_nil, List.findSome?_singleton]
    cases l.directMember? (.anonymous id) name <;> rfl

namespace Compilation

variable {config : Config} {c c' : Compilation} {trees : List SyntaxTree}

/-! ## Runs that leave nothing behind -/

/-- No file that stays speaks of a table or a closure of a source that goes. -/
def Spares (c : Compilation) (going : List SourceId) : Prop :=
  ∀ f ∈ c.index.files, f.source ∉ going → ∀ i, f.Holds c.findings i → i.source ∉ going

/-- The compilations that come about when a file is analysed again or removed only together with the
files that speak of its tables and closures. -/
inductive Careful (config : Config) : Compilation → Prop where
  | start : Careful config { config }
  | register {c : Compilation} (h : Careful config c) (path : String) :
      Careful config (c.register path).2
  | update {c c' : Compilation} {trees : List SyntaxTree} {summary : ResolveSummary}
      (h : Careful config c) (hspares : c.Spares (trees.map (·.source)))
      (htrees : ∀ t ∈ trees, t.Proper) (hupdate : c.update trees = .ok (summary, c')) :
      Careful config c'
  | remove {c c' : Compilation} {source : SourceId} {found : Bool} (h : Careful config c)
      (hspares : c.Spares [source]) (hremove : c.remove source = .ok (found, c')) :
      Careful config c'

theorem Careful.reached (h : Careful config c) : Reached config c := by
  induction h with
  | start => exact .start
  | register _ path ih => exact ih.register path
  | update _ _ htrees hupdate ih => exact ih.update htrees hupdate
  | remove _ _ hremove ih => exact ih.remove hremove

/-- The table or closure is one of the tree that is published for its source, and has been since
some generation. -/
def Current (c : Compilation) (generation : Nat) (i : Identity) : Prop :=
  ∃ g, c.index.file? i.source = some g ∧ g.model.tree.Makes i ∧ g.model.generation ≤ generation

/-- Whatever a file speaks of is of trees that were published when the file was analysed, and are
still. -/
def Grounded (c : Compilation) : Prop :=
  ∀ f ∈ c.index.files, ∀ i, f.Holds c.findings i → c.Current f.model.generation i

theorem Current.of_same {generation : Nat} {i : Identity} (h : c.Current generation i)
    (hsame : c.SameFile c' i.source) : c'.Current generation i := by
  obtain ⟨g, hg, hrest⟩ := h
  exact ⟨g, hsame.file.trans hg, hrest⟩

theorem Current.mono {generation generation' : Nat} {i : Identity} (h : c.Current generation i)
    (hle : generation ≤ generation') : c.Current generation' i := by
  obtain ⟨g, hg, hmakes, hgeneration⟩ := h
  exact ⟨g, hg, hmakes, Nat.le_trans hgeneration hle⟩

/-- What a published tree makes is current by now. -/
theorem Reached.current_of_makes (h : Reached config c) {m : FileModel} (hm : m ∈ c.index.models)
    {i : Identity} (hi : m.tree.Makes i) : c.Current c.generation i := by
  obtain ⟨g, hg, rfl⟩ := List.mem_map.1 hm
  have hfile : c.index.file? i.source = some g :=
    (ProjectIndex.file?_eq_some h.faithful.2.sorted).2 ⟨hg, hi.source.symm⟩
  exact ⟨g, hfile, hi, h.stamped.generation g hg⟩

theorem SameFile.symm {source : SourceId} (h : c.SameFile c' source) : c'.SameFile c source := by
  refine ⟨h.file.symm, fun f hf i => ?_, fun f hf closure => ?_, fun f hf => ?_⟩
  · exact (h.types f (h.file.symm.trans hf) i).symm
  · exact (h.returns f (h.file.symm.trans hf) closure).symm
  · exact (h.moduleReturns f (h.file.symm.trans hf)).symm

/-- A file that stays as it is speaks of what it spoke of. -/
theorem SameFile.holds {source : SourceId} (h : c.SameFile c' source) {f : PublishedFile}
    (hf : c.index.file? source = some f) {i : Identity} (hi : f.Holds c'.findings i) :
    f.Holds c.findings i := by
  cases hi with
  | entry hi => exact .entry hi
  | type hget hi => exact .type (h.types f hf _ ▸ hget) hi
  | method hmethod hi => exact .method hmethod hi
  | returned hget hi => exact .returned (h.returns f hf _ ▸ hget) hi
  | moduleReturned hget hi => exact .moduleReturned (h.moduleReturns f hf ▸ hget) hi

/-- A file that stays speaks of nothing but what is still published. -/
theorem Grounded.kept (h : c.Grounded) {going : List SourceId} (hspares : c.Spares going)
    (hsame : ∀ source ∉ going, c.SameFile c' source) {source : SourceId} (hsource : source ∉ going)
    {f : PublishedFile} (hf : c.index.file? source = some f) {i : Identity}
    (hi : f.Holds c'.findings i) : c'.Current f.model.generation i := by
  have hmem : f ∈ c.index.files := List.mem_of_find?_eq_some hf
  have hfsource : f.source = source := by simpa using List.find?_some hf
  have hheld := (hsame source hsource).holds hf hi
  apply (h f hmem i hheld).of_same
  apply hsame
  exact hspares f hmem (hfsource ▸ hsource) i hheld

/-- And the other way round: if a file that stays speaks of a file that goes, it is not of the tree
that is published afterwards, which is none or a later one. -/
theorem Grounded.spares (h : c'.Grounded) {going : List SourceId}
    (hsame : ∀ source ∉ going, c.SameFile c' source) (hsorted : c.index.Sorted)
    (hlater : ∀ f ∈ c.index.files, ∀ source ∈ going, ∀ g, c'.index.file? source = some g →
      f.model.generation < g.model.generation) : c.Spares going := by
  intro f hf hstays i hi hgoes
  have hsamef := hsame f.source hstays
  have hfile : c'.index.file? f.source = some f := by
    rw [hsamef.file]
    exact (ProjectIndex.file?_eq_some hsorted).2 ⟨hf, rfl⟩
  have hheld := hsamef.symm.holds hfile hi
  obtain ⟨g, hg, -, hle⟩ := h f (List.mem_of_find?_eq_some hfile) i hheld
  exact Nat.not_le_of_lt (hlater f hf i.source hgoes g hg) hle

/-! ## Updates -/

/-- An analysis speaks of the tables and closures of its own tree, as nothing has been found out for
it yet. -/
theorem makes_of_holds_analysis (h : Reached config c) (htrees : ∀ t ∈ trees, t.Proper)
    {a : Analysis} (ha : a ∈ c.analyses trees) {i : Identity}
    (hi : PublishedFile.Holds c.findings ⟨a.model, a.entries⟩ i) : a.model.tree.Makes i := by
  obtain ⟨type, htype, hi⟩ := PublishedFile.holds_iff.1 hi
  exact h.allTypes_of_analysis htrees ha a.model.tree.admits_only htype i hi

/-- What an update finds out is about the trees that it leaves. -/
theorem Grounded.knows (h : c.Grounded) (hreached : Reached config c)
    (hspares : c.Spares (trees.map (·.source))) (htrees : ∀ t ∈ trees, t.Proper)
    {summary : ResolveSummary} (hupdate : c.update trees = .ok (summary, c')) :
    c'.project.Knows (c'.Current c'.generation) := by
  have hsorted := hreached.faithful.2.sorted
  have hreached' := hreached.update htrees hupdate
  obtain ⟨-, htargets⟩ := faithful_opened hreached.faithful.1 hreached.faithful.2 htrees
  have hproject := project_of_update hupdate
  -- The trees that are open are those that the update leaves.
  have hmodels : c'.index.models = (c.opened trees).models := by
    rw [eq_of_update hupdate]
    exact (changesOnly_update c trees).models
  have hown : ∀ m ∈ (c.opened trees).models, ∀ {i : Identity}, m.tree.Makes i →
      c'.Current c'.generation i :=
    fun m hm i hi => hreached'.current_of_makes (hmodels ▸ hm) hi
  have hopened : (c.openProject trees).Knows (c'.Current c'.generation) := by
    refine ⟨hown, fun f hf i hi => ?_⟩
    rcases mem_opened hsorted hf with ⟨a, ha, rfl⟩ | ⟨hold, hsource⟩
    · exact hown a.model (List.mem_map_of_mem hf) (makes_of_holds_analysis hreached htrees ha hi)
    · have hsame := sameFile_update hreached hupdate (hspares f hold hsource i hi)
      have hle : f.model.generation ≤ c'.generation := by
        rw [eq_of_update hupdate]
        exact Nat.le_succ_of_le (hreached.stamped.generation f hold)
      exact ((h f hold i hi).of_same hsame).mono hle
  rw [hproject, Project.project_resolve]
  apply hopened.events
  intro e he
  exact (concerns_of_taskAt? htargets (((c.openProject trees).mem_resolveEvents).1 he).1).1

theorem Grounded.update (h : c.Grounded) (hreached : Reached config c)
    (hspares : c.Spares (trees.map (·.source))) (htrees : ∀ t ∈ trees, t.Proper)
    {summary : ResolveSummary} (hupdate : c.update trees = .ok (summary, c')) : c'.Grounded := by
  have hsorted := hreached.faithful.2.sorted
  have hknows := h.knows hreached hspares htrees hupdate
  intro f hf i hi
  rcases file_of_update hsorted hupdate hf with ⟨a, ha, hmodel⟩ | ⟨g, hg, hmodel, hsource⟩
  · -- A new file has the generation of the update.
    obtain ⟨t, -, revision, -, -, rfl⟩ := mem_analyses ha
    have hgeneration : f.model.generation = c'.generation := by
      rw [hmodel, eq_of_update hupdate]
      rfl
    rw [hgeneration]
    exact hknows.held f hf hi
  · have hsame (source : SourceId) (hs : source ∉ trees.map (·.source)) : c.SameFile c' source :=
      sameFile_update hreached hupdate hs
    have hsorted' := (hreached.update htrees hupdate).faithful.2.sorted
    have hfile : c.index.file? f.source = some f := by
      rw [← (hsame f.source hsource).file]
      exact (ProjectIndex.file?_eq_some hsorted').2 ⟨hf, rfl⟩
    exact h.kept hspares hsame hsource hfile hi

theorem Grounded.remove (h : c.Grounded) (hreached : Reached config c) {source : SourceId}
    (hspares : c.Spares [source]) {found : Bool} (hremove : c.remove source = .ok (found, c')) :
    c'.Grounded := by
  have hsame (other : SourceId) (hother : other ∉ [source]) : c.SameFile c' other :=
    sameFile_remove hremove fun heq => hother (List.mem_singleton.2 heq)
  intro f hf i hi
  rw [eq_of_remove hremove] at hf
  obtain ⟨hmem, hne⟩ := ProjectIndex.mem_files_retract.1 hf
  have hfile : c.index.file? f.source = some f :=
    (ProjectIndex.file?_eq_some hreached.faithful.2.sorted).2 ⟨hmem, rfl⟩
  exact h.kept hspares hsame (fun heq => hne (List.mem_singleton.1 heq)) hfile hi

/-- An update leaves things grounded just when no file that stays speaks of a file that it
replaces. -/
theorem Grounded.update_iff (h : c.Grounded) (hreached : Reached config c)
    (htrees : ∀ t ∈ trees, t.Proper) {summary : ResolveSummary}
    (hupdate : c.update trees = .ok (summary, c')) :
    c'.Grounded ↔ c.Spares (trees.map (·.source)) := by
  have hsorted := hreached.faithful.2.sorted
  refine ⟨fun h' => ?_, fun hspares => h.update hreached hspares htrees hupdate⟩
  apply h'.spares (fun source hs => sameFile_update hreached hupdate hs) hsorted
  intro f hf source hgoes g hg
  have hgsource : g.source = source := by simpa using List.find?_some hg
  rcases file_of_update hsorted hupdate (List.mem_of_find?_eq_some hg) with
    ⟨a, ha, hmodel⟩ | ⟨-, -, -, hstays⟩
  · obtain ⟨t, -, revision, -, -, rfl⟩ := mem_analyses ha
    rw [hmodel]
    exact Nat.lt_succ_of_le (hreached.stamped.generation f hf)
  · exact absurd (hgsource ▸ hgoes) hstays

theorem Grounded.remove_iff (h : c.Grounded) (hreached : Reached config c) {source : SourceId}
    {found : Bool} (hremove : c.remove source = .ok (found, c')) :
    c'.Grounded ↔ c.Spares [source] := by
  refine ⟨fun h' => ?_, fun hspares => h.remove hreached hspares hremove⟩
  have hsame (other : SourceId) (hother : other ∉ [source]) : c.SameFile c' other :=
    sameFile_remove hremove fun heq => hother (List.mem_singleton.2 heq)
  apply h'.spares hsame hreached.faithful.2.sorted
  intro f _ other hgoes g hg
  -- The file is gone.
  rw [eq_of_remove hremove] at hg
  obtain ⟨-, hne⟩ := ProjectIndex.mem_files_retract.1 (List.mem_of_find?_eq_some hg)
  have hgsource : g.source = other := by simpa using List.find?_some hg
  exact absurd (hgsource.trans (List.mem_singleton.1 hgoes)) hne

/-! ## Runs -/

/-- Care is enough, whatever the order of the operations. -/
theorem Careful.grounded (h : Careful config c) : c.Grounded := by
  induction h with
  | start => exact List.forall_mem_nil _
  | register _ _ ih => exact ih
  | update h hspares htrees hupdate ih => exact ih.update h.reached hspares htrees hupdate
  | remove h hspares hremove ih => exact ih.remove h.reached hspares hremove

/-- What an expression has for its type is about published trees, too. -/
theorem Careful.knows (h : Careful config c) : c.project.Knows (c.Current c.generation) := by
  refine ⟨fun m hm i hi => h.reached.current_of_makes hm hi, fun f hf i hi => ?_⟩
  exact (h.grounded f hf i hi).mono (h.reached.stamped.generation f hf)

/-- In a run that takes care, every table and closure that a file speaks of is one of the published
tree of its source, and this tree was published by the time the file was analysed. So what is found
among the members of a table has been linked to this table, and a call through a type that a file
has gives the returns of the very closure that was found out. The care is needed: the next update or
removal leaves the project like that just when no file that stays speaks of a file that goes. -/
theorem identities_are_current (h : Careful config c) :
    (∀ f ∈ c.index.files, ∀ i, f.Holds c.findings i → c.Current f.model.generation i) ∧
      (∀ id, ∀ ref ∈ c.index.members (.anonymous id), c.Current ref.generation (.table id)) ∧
      (∀ id name ref, c.project.member? (.anonymous id) name = some ref →
        c.Current ref.generation (.table id)) ∧
      (∀ f ∈ c.index.files, ∀ expr slot,
        (c.project.exprType f.model expr slot).Only (c.Current c.generation)) ∧
      (∀ f ∈ c.index.files, ∀ decl id, c.findings.type? f.model decl = some (.method id) →
        ∃ g, c.index.file? id.source = some g ∧ g.model.tree.Makes (.closure id) ∧
          g.model.generation ≤ f.model.generation ∧
          c.project.closureResult f.model id =
            (c.findings.returnType? g.model id.node).getD .unknown) ∧
      (∀ trees summary c', (∀ t ∈ trees, t.Proper) → c.update trees = .ok (summary, c') →
        (c'.Grounded ↔ c.Spares (trees.map (·.source)))) ∧
      ∀ source found c', c.remove source = .ok (found, c') → (c'.Grounded ↔ c.Spares [source]) := by
  have hgrounded := h.grounded
  have hsorted := h.reached.faithful.2.sorted
  have hmembers : ∀ id, ∀ ref ∈ c.index.members (.anonymous id),
      c.Current ref.generation (.table id) := by
    intro id ref href
    obtain ⟨f, hf, decl, hdecl, rfl⟩ := ProjectIndex.mem_refs.1 href
    exact hgrounded f hf _ (.entry (.member hdecl List.mem_cons_self))
  refine ⟨hgrounded, hmembers, fun id name ref hfound => ?_, fun f hf expr slot => ?_,
    fun f hf decl id htype => ?_, fun trees summary c' htrees hupdate => ?_,
    fun source found c' hremove => ?_⟩
  · rw [Lookup.member?_anonymous] at hfound
    exact hmembers id ref (Lookup.mem_of_directMember? hfound)
  · exact h.knows.exprType (List.mem_map_of_mem hf) expr slot
  · obtain ⟨g, hg, hmakes, hle⟩ := hgrounded f hf (.closure id) (.type htype List.mem_cons_self)
    refine ⟨g, hg, hmakes, hle, ?_⟩
    have hg : c.index.file? id.source = some g := hg
    unfold Project.closureResult
    dsimp only
    split
    · next hown =>
      -- A closure of the file itself.
      have hfile : c.index.file? f.model.source = some f :=
        (ProjectIndex.file?_eq_some hsorted).2 ⟨hf, rfl⟩
      rw [hown, hfile] at hg
      obtain rfl := Option.some.inj hg
      rfl
    · show ((c.index.model? id.source).bind _).getD _ = _
      rw [ProjectIndex.model?, hg]
      rfl
  · exact hgrounded.update_iff h.reached htrees hupdate
  · exact hgrounded.remove_iff h.reached hremove

/-! ## A table and its field -/

/-- `u = {}` and `y = u.x` -/
def otherTable : SyntaxTree :=
  .ofSketch 0 (some (.block [.node (.assignStat [.var "u"] [.node (.tableExpr [])]),
    .node (.assignStat [.var "y"] [.member (.var "u") "x" false])]))

/-- `u.x = 1` -/
def otherField : SyntaxTree :=
  .ofSketch 1 (some (.block [.node (.assignStat [.member (.var "u") "x" false]
    [.literal (.integer 1)])]))

/-- Both files are analysed again, the one with the table and the one with its field. -/
def bothRebuilt : Compilation :=
  match tableAndField.update [otherTable, otherField] with
  | .ok (_, c) => c
  | .error _ => tableAndField

theorem careful_tableAndField : Careful {} tableAndField := by
  unfold tableAndField ofUpdate
  split
  · next hupdate =>
    refine ((Careful.start.register "/a.lua").register "/b.lua").update (List.forall_mem_nil _)
      (List.forall_mem_cons.2 ⟨?_, List.forall_mem_singleton.2 ?_⟩) hupdate
    · exact SyntaxTree.proper_ofSketch 0 _ (by decide)
    · exact SyntaxTree.proper_ofSketch 1 _ (by decide)
  · exact .start

theorem careful_bothRebuilt : Careful {} bothRebuilt := by
  unfold bothRebuilt
  split
  · next hupdate =>
    refine careful_tableAndField.update (fun f hf hstays => ?_)
      (List.forall_mem_cons.2 ⟨?_, List.forall_mem_singleton.2 ?_⟩) hupdate
    · -- No file stays.
      have hsources : ∀ f ∈ tableAndField.index.files,
          f.source ∈ [otherTable, otherField].map (·.source) := by decide +kernel
      exact absurd (hsources f hf) hstays
    · exact SyntaxTree.proper_ofSketch 0 _ (by decide)
    · exact SyntaxTree.proper_ofSketch 1 _ (by decide)
  · exact careful_tableAndField

/-- The new table has the new field, which was linked when this table was there. Had the file with
the field stayed, it would speak of a table that is gone. -/
theorem fields_rebuilt_together : Careful {} bothRebuilt ∧
    bothRebuilt.index.members (.anonymous ⟨0, 1⟩) = [⟨1, 2, 0⟩] ∧
      bothRebuilt.Current 2 (.table ⟨0, 1⟩) ∧
        ∀ summary c', tableAndField.update [otherTable] = .ok (summary, c') → ¬c'.Grounded := by
  have hmembers : bothRebuilt.index.members (.anonymous ⟨0, 1⟩) = [⟨1, 2, 0⟩] := by decide +kernel
  obtain ⟨-, hcurrent, -⟩ := identities_are_current careful_bothRebuilt
  obtain ⟨-, -, -, -, -, hupdates, -⟩ := identities_are_current careful_tableAndField
  refine ⟨careful_bothRebuilt, hmembers, hcurrent ⟨0, 1⟩ ⟨1, 2, 0⟩ ?_, ?_⟩
  · rw [hmembers]
    exact List.mem_cons_self
  · intro summary c' hupdate hgrounded
    have hproper : ∀ t ∈ [otherTable], t.Proper :=
      List.forall_mem_singleton.2 (SyntaxTree.proper_ofSketch 0 _ (by decide))
    have hspares := (hupdates _ _ _ hproper hupdate).1 hgrounded
    have hheld : ∃ f ∈ tableAndField.index.files, f.source ∉ [otherTable].map (·.source) ∧
        0 ∈ f.entries.members.values (.anonymous ⟨0, 1⟩) := by decide +kernel
    have hgoes : (Identity.table ⟨0, 1⟩).source ∈ [otherTable].map (·.source) := by decide +kernel
    obtain ⟨f, hf, hstays, hmember⟩ := hheld
    exact hspares f hf hstays _ (.entry (.member hmember List.mem_cons_self)) hgoes

/-- The file with `t = {}` is replaced by one with another table in the same place. The field `t.x`
of the file that stays is a member of the new table, so `u.x` leads to it and `y` is an integer. -/
theorem field_of_replaced_table :
    Reached {} tableAndField ∧ ∃ summary c', tableAndField.update [otherTable] = .ok (summary, c') ∧
      c'.index.members (.anonymous ⟨0, 1⟩) = [⟨1, 1, 0⟩] ∧
      ∃ f ∈ c'.index.files, f.model.tree = otherTable ∧ f.model.generation = 2 ∧
        f.model.tree.node? 1 = some (.tableExpr []) ∧
        c'.project.declaration? f.model 6 = some ⟨1, 1, 0⟩ ∧
        c'.findings.type? f.model 1 = some .integer := by
  have hrun : ((tableAndField.update [otherTable]).toOption.any fun done =>
      decide (done.2.index.members (.anonymous ⟨0, 1⟩) = [⟨1, 1, 0⟩]) &&
        (done.2.index.file? 0).any fun f => decide (f.model.tree = otherTable ∧
          f.model.generation = 2 ∧ f.model.tree.node? 1 = some (.tableExpr []) ∧
          done.2.project.declaration? f.model 6 = some ⟨1, 1, 0⟩ ∧
          done.2.findings.type? f.model 1 = some .integer)) = true := by decide +kernel
  obtain ⟨summary, c', hupdate, hrun⟩ := exists_of_update hrun
  obtain ⟨hmembers, hrun⟩ := Bool.and_eq_true_iff.1 hrun
  obtain ⟨f, hfile, hrun⟩ := (Option.any_eq_true _ _).1 hrun
  have hf := List.mem_of_find?_eq_some hfile
  exact ⟨reached_tableAndField, summary, c', hupdate, of_decide_eq_true hmembers, f, hf,
    of_decide_eq_true hrun⟩

end Compilation

end LuaAnalysis
