import LuaAnalysis.Proofs.Project.AssignedFields
import LuaAnalysis.Proofs.Project.LatestVersions
import LuaAnalysis.Proofs.Project.Lifetimes
import LuaAnalysis.Proofs.Project.LinkedMembers
import LuaAnalysis.Proofs.Resolve.RenumberedTasks
import Mathlib.Logic.Equiv.Basic

/-!
# Publishing a file again

A file that is removed and published again with the same tree contributes what it did, under a new
generation. Only the members that its tasks add may be others: the tasks find the project as it is
now, which other files may have changed since. They are the same, too, if the file was published by
itself before and nothing has been touched since; so to publish it once more changes nothing.

Main statement: `Compilation.republishing_renews`.
-/

namespace LuaAnalysis

/-- A reference as it is when the file of a source has got another generation. -/
def DeclRef.renewed (source : SourceId) (generation : Nat) (r : DeclRef) : DeclRef :=
  if r.source = source then { r with generation } else r

namespace ProjectIndex

variable {idx idx' : ProjectIndex}

/-- Every look-up but that of members finds the same, with a new generation in the references into
one file. -/
structure RenewedBesidesMembers (idx : ProjectIndex) (source : SourceId) (generation : Nat)
    (idx' : ProjectIndex) : Prop where
  globals : ∀ name, idx'.globals name = (idx.globals name).map (.renewed source generation)
  types : ∀ name, idx'.types name =
    (idx.types name).map fun (ref, category) => (ref.renewed source generation, category)
  aliases : ∀ name, idx'.aliases name =
    (idx.aliases name).map fun (base, ref) => (base, ref.renewed source generation)
  supers : ∀ name, idx'.supers name = idx.supers name
  generics : ∀ name, idx'.generics name = (idx.generics name).map (.renewed source generation)
  operators : ∀ owner, idx'.operators owner = idx.operators owner
  nameExprs : ∀ name, (idx'.nameExprs name).map (fun (m, id) => m.tree.syntaxId id) =
    (idx.nameExprs name).map fun (m, id) => m.tree.syntaxId id
  indexExprs : ∀ field, (idx'.indexExprs field).map (fun (m, id) => m.tree.syntaxId id) =
    (idx.indexExprs field).map fun (m, id) => m.tree.syntaxId id
  typeRefs : ∀ name, (idx'.typeRefs name).map (fun (m, id) => m.tree.syntaxId id) =
    (idx.typeRefs name).map fun (m, id) => m.tree.syntaxId id

/-- Every look-up finds the same, with a new generation in the references into one file. -/
structure Renewed (idx : ProjectIndex) (source : SourceId) (generation : Nat)
    (idx' : ProjectIndex) : Prop extends idx.RenewedBesidesMembers source generation idx' where
  members : ∀ owner, idx'.members owner = (idx.members owner).map (.renewed source generation)

/-- A file takes the place of the one of its source, whether that is retracted before or not. -/
theorem publish_of_retract (h : idx.Sorted) (f : PublishedFile) :
    (idx.retract f.source).publish f = idx.publish f := by
  apply ((h.retract f.source).publish f).ext (h.publish f)
  intro source
  rw [file?_publish (h.retract f.source), file?_publish h, file?_retract h]
  by_cases hs : f.source = source
  · rw [if_pos hs, if_pos hs]
  · rw [if_neg hs, if_neg hs, if_neg hs]

/-- A file that is retracted and published anew stands where it stood. -/
theorem publish_retract (h : idx.Sorted) {f g : PublishedFile} (hf : f ∈ idx.files)
    (hsource : g.source = f.source) :
    (idx.retract f.source).publish g =
      ⟨idx.files.map fun x => if x.source = f.source then g else x⟩ := by
  have hsame (x : PublishedFile) :
      PublishedFile.source (if x.source = f.source then g else x) = x.source := by
    split
    · next hx => rw [hsource, hx]
    · rfl
  apply ((h.retract f.source).publish g).ext
  · unfold Sorted
    rw [List.pairwise_map]
    simp only [hsame]
    exact h
  · intro source
    rw [file?_publish (h.retract f.source), file?_retract h, hsource]
    have hfind : (fun x : PublishedFile => decide (x.source = source)) ∘
        (fun x => if x.source = f.source then g else x) = fun x => decide (x.source = source) := by
      funext x
      show decide (PublishedFile.source _ = source) = _
      rw [hsame]
    unfold file?
    rw [List.find?_map, hfind]
    show _ = (idx.file? source).map _
    by_cases hs : f.source = source
    · subst hs
      rw [if_pos rfl, (file?_eq_some h).2 ⟨hf, rfl⟩, Option.map_some, if_pos rfl]
    · rw [if_neg hs, if_neg hs]
      show idx.file? source = _
      cases hx : idx.file? source with
      | none => rfl
      | some x =>
        have hsource : x.source = source := ((file?_eq_some h).1 hx).2
        rw [Option.map_some, if_neg fun heq => hs (heq.symm.trans hsource)]

end ProjectIndex

theorem SourceMap.contains_register (m : SourceMap) (path : String) {source : SourceId}
    (h : m.contains source = true) : (m.register path).2.contains source = true := by
  unfold register
  split
  · exact h
  · unfold contains at h ⊢
    simp only [decide_eq_true_eq, List.length_append] at h ⊢
    exact Nat.lt_of_lt_of_le h (Nat.le_add_right _ _)

namespace Compilation

variable {config : Config} {c c₀ c₁ : Compilation} {f : PublishedFile}

/-- Removes the file of a tree and publishes the tree again by itself. -/
def republish (c : Compilation) (t : SyntaxTree) : Compilation :=
  c.run [.remove t.source, .update [t]]

/-! ## Nothing is refused -/

/-- Only registered sources have files. -/
theorem Reached.registered (h : Reached config c) :
    ∀ f ∈ c.index.files, c.sources.contains f.source = true := by
  induction h with
  | start => simp
  | @register c _ path ih => exact fun f hf => c.sources.contains_register path (ih f hf)
  | @update c c' trees summary h _ hupdate ih =>
    intro f hf
    have hsources : c'.sources = c.sources := by rw [eq_of_update hupdate]
    rw [hsources]
    rcases file_of_update h.faithful.2.sorted hupdate hf with ⟨a, ha, hmodel⟩ | ⟨g, hg, hmodel, -⟩
    · obtain ⟨t, ht, revision, -, -, rfl⟩ := mem_analyses ha
      rw [update_eq] at hupdate
      split at hupdate
      · cases hupdate
      · next hnone =>
        have hknown : c.sources.contains t.source = true := by
          simpa using List.find?_eq_none.1 hnone t ht
        show c.sources.contains f.model.source = true
        rw [hmodel]
        exact hknown
    · show c.sources.contains f.model.source = true
      rw [← hmodel]
      exact ih g hg
  | remove _ hremove ih =>
    rw [eq_of_remove hremove]
    exact fun f hf => ih f (ProjectIndex.mem_files_retract.1 hf).1

theorem remove_published (h : Reached config c) (hf : f ∈ c.index.files) :
    c.remove f.source = .ok (true, c.retract f.source) := by
  unfold remove
  rw [if_pos (h.registered f hf), (ProjectIndex.file?_eq_some h.faithful.2.sorted).2 ⟨hf, rfl⟩]
  rfl

theorem update_removed (h : Reached config c) (hf : f ∈ c.index.files) :
    ∃ summary, (c.retract f.source).update [f.model.tree] =
      .ok (summary, c.republish f.model.tree) := by
  have hknown : c.sources.contains f.model.tree.source = true := h.registered f hf
  have hnone : [f.model.tree].find? (fun tree =>
      !(c.retract f.source).sources.contains tree.source) = none := by
    rw [List.find?_eq_none]
    intro t ht
    rw [List.mem_singleton.1 ht, show (c.retract f.source).sources = c.sources from rfl, hknown]
    decide
  have hok : ∃ done, (c.retract f.source).update [f.model.tree] = .ok done := by
    rw [update_eq, hnone]
    exact ⟨_, rfl⟩
  obtain ⟨⟨summary, c'⟩, hupdate⟩ := hok
  refine ⟨summary, ?_⟩
  have hremove : c.remove f.model.tree.source = .ok (true, c.retract f.source) :=
    remove_published h hf
  unfold republish run
  rw [List.foldl_cons, List.foldl_cons, List.foldl_nil, Operation.apply, Operation.apply, hremove]
  dsimp only
  rw [hupdate]

/-! ## The files afterwards -/

/-- The analysis that takes the place of the file of a tree. -/
def reanalysis (c : Compilation) (t : SyntaxTree) : Analysis :=
  t.analyse c.config c.revision (c.generation + 1)

theorem generation_republish (h : Reached config c) (hf : f ∈ c.index.files) :
    (c.republish f.model.tree).generation = c.generation + 1 := by
  obtain ⟨summary, hupdate⟩ := update_removed h hf
  rw [eq_of_update hupdate]
  rfl

theorem Reached.republish (h : Reached config c) (hf : f ∈ c.index.files) :
    Reached config (c.republish f.model.tree) := by
  obtain ⟨summary, hupdate⟩ := update_removed h hf
  exact (h.remove (remove_published h hf)).update
    (List.forall_mem_singleton.2 (h.faithful.2.files f hf).proper) hupdate

theorem models_republish (h : Reached config c) (hf : f ∈ c.index.files) :
    (c.republish f.model.tree).index.models = c.index.models.map fun m =>
      if m.source = f.source then (c.reanalysis f.model.tree).model else m := by
  obtain ⟨summary, hupdate⟩ := update_removed h hf
  have hopened : (c.retract f.source).opened [f.model.tree] =
      (c.index.retract f.source).publish
        ⟨(c.reanalysis f.model.tree).model, (c.reanalysis f.model.tree).entries⟩ := rfl
  have hsource : PublishedFile.source
      ⟨(c.reanalysis f.model.tree).model, (c.reanalysis f.model.tree).entries⟩ = f.source := rfl
  have hmodels := (changesOnly_update (c.retract f.source) [f.model.tree]).models
  rw [index_of_update hupdate, hmodels]
  show ((c.retract f.source).opened [f.model.tree]).models = _
  rw [hopened, ProjectIndex.publish_retract h.faithful.2.sorted hf hsource]
  unfold ProjectIndex.models
  rw [List.map_map, List.map_map]
  apply List.map_congr_left
  intro g _
  show PublishedFile.model (if g.source = f.source then _ else g) =
    if g.source = f.source then _ else _
  split <;> rfl

/-- A published model has the tree and, but for the new generation, the references that it had. -/
theorem renewed_model (h : Reached config c) (hf : f ∈ c.index.files) {m : FileModel}
    (hm : m ∈ c.index.models) :
    let m' := if m.source = f.source then (c.reanalysis f.model.tree).model else m
    m'.tree = m.tree ∧ ∀ i, m'.ref i = (m.ref i).renewed f.source (c.generation + 1) := by
  dsimp only
  by_cases hsource : m.source = f.source
  · obtain ⟨g, hg, rfl⟩ := List.mem_map.1 hm
    obtain rfl := h.faithful.2.sorted.unique hg hf hsource
    rw [if_pos hsource]
    refine ⟨rfl, fun i => ?_⟩
    unfold DeclRef.renewed
    exact (if_pos hsource).symm
  · rw [if_neg hsource]
    refine ⟨rfl, fun i => ?_⟩
    unfold DeclRef.renewed
    exact (if_neg hsource).symm

/-- What the files contribute besides members is what the analyses of their trees do. -/
theorem Reached.flatMap_files (h : Reached config c) {α : Type}
    {get : FileModel → Entries → List α}
    (hget : ∀ m e members, get m { e with members } = get m e) :
    c.index.files.flatMap (fun f => get f.model f.entries) =
      c.index.models.flatMap fun m => get m (m.tree.outline config).entries := by
  unfold ProjectIndex.models
  rw [List.flatMap_map]
  apply List.flatMap_congr
  intro f hf
  obtain ⟨members, hentries⟩ := h.entries f hf
  rw [hentries, hget]

/-- What the files contribute besides members, when it is renamed as their references are. -/
theorem flatMap_republish (h : Reached config c) (hf : f ∈ c.index.files) {α : Type}
    (get : FileModel → Entries → List α) (rename : α → α)
    (hget : ∀ m e members, get m { e with members } = get m e)
    (hrename : ∀ m m' : FileModel, m'.tree = m.tree →
      (∀ i, m'.ref i = (m.ref i).renewed f.source (c.generation + 1)) →
      ∀ e, get m' e = (get m e).map rename) :
    (c.republish f.model.tree).index.files.flatMap (fun g => get g.model g.entries) =
      (c.index.files.flatMap fun g => get g.model g.entries).map rename := by
  rw [(h.republish hf).flatMap_files hget, h.flatMap_files hget, models_republish h hf,
    List.flatMap_map, List.map_flatMap]
  apply List.flatMap_congr
  intro m hm
  obtain ⟨htree, href⟩ := renewed_model h hf hm
  rw [hrename _ _ htree href, htree]

theorem refs_republish (h : Reached config c) (hf : f ∈ c.index.files) {κ : Type} [DecidableEq κ]
    {table : Entries → Grouped κ DeclId}
    (htable : ∀ e members, table { e with members } = table e) (k : κ) :
    (c.republish f.model.tree).index.refs table k =
      (c.index.refs table k).map (.renewed f.source (c.generation + 1)) := by
  refine flatMap_republish h hf (fun m e => ((table e).values k).map m.ref) _ ?_ ?_
  · intro m e members
    rw [htable]
  · intro m m' _ href e
    rw [List.map_map]
    exact List.map_congr_left fun i _ => href i

theorem occurrences_republish (h : Reached config c) (hf : f ∈ c.index.files)
    {table : Entries → Grouped String NodeId}
    (htable : ∀ e members, table { e with members } = table e) (name : String) :
    ((c.republish f.model.tree).index.occurrences table name).map
        (fun (m, id) => m.tree.syntaxId id) =
      (c.index.occurrences table name).map fun (m, id) => m.tree.syntaxId id := by
  have hids (idx : ProjectIndex) :
      (idx.occurrences table name).map (fun (m, id) => m.tree.syntaxId id) =
        idx.files.flatMap fun g => ((table g.entries).values name).map g.model.tree.syntaxId := by
    unfold ProjectIndex.occurrences
    rw [List.map_flatMap]
    apply List.flatMap_congr
    intro g _
    rw [List.map_map]
    rfl
  rw [hids, hids]
  have hsame := flatMap_republish h hf
    (fun m e => ((table e).values name).map m.tree.syntaxId) id
    (fun m e members => by rw [htable]) (fun m m' htree _ e => by rw [htree, List.map_id])
  exact hsame.trans (List.map_id _)

theorem renewed_republish (h : Reached config c) (hf : f ∈ c.index.files) :
    c.index.RenewedBesidesMembers f.source (c.generation + 1)
      (c.republish f.model.tree).index where
  globals name := refs_republish h hf (fun _ _ => rfl) name
  types name := by
    refine flatMap_republish h hf (fun m e =>
      (e.types.values name).map fun entry => (m.ref entry.1, entry.2)) _ (fun _ _ _ => rfl) ?_
    intro m m' _ href e
    rw [List.map_map]
    exact List.map_congr_left fun entry _ => Prod.ext (href entry.1) rfl
  aliases name := by
    refine flatMap_republish h hf (fun m e =>
      (e.aliases.values name).map fun entry => (entry.1, m.ref entry.2)) _ (fun _ _ _ => rfl) ?_
    intro m m' _ href e
    rw [List.map_map]
    exact List.map_congr_left fun entry _ => Prod.ext rfl (href entry.2)
  supers name := by
    have hsame := flatMap_republish h hf (fun _ e => e.supers.values name) id
      (fun _ _ _ => rfl) fun _ _ _ _ _ => (List.map_id _).symm
    exact hsame.trans (List.map_id _)
  generics name := refs_republish h hf (fun _ _ => rfl) name
  operators owner := by
    have hsame := flatMap_republish h hf (fun _ e => e.operators.values owner) id
      (fun _ _ _ => rfl) fun _ _ _ _ _ => (List.map_id _).symm
    exact hsame.trans (List.map_id _)
  nameExprs name := occurrences_republish h hf (fun _ _ => rfl) name
  indexExprs field := occurrences_republish h hf (fun _ _ => rfl) field
  typeRefs name := occurrences_republish h hf (fun _ _ => rfl) name

/-! ## Members -/

theorem file?_republish (h : Reached config c) (hf : f ∈ c.index.files) {source : SourceId}
    (hne : source ≠ f.source) :
    (c.republish f.model.tree).index.file? source = c.index.file? source := by
  have hremove := remove_published h hf
  obtain ⟨summary, hupdate⟩ := update_removed h hf
  have hother : source ∉ [f.model.tree].map (·.source) :=
    fun hmem => hne (List.mem_singleton.1 hmem)
  rw [(sameFile_update (h.remove hremove) hupdate hother).file, (sameFile_remove hremove hne).file]

/-- The members that other files contribute are the same. -/
theorem members_of_others (h : Reached config c) (hf : f ∈ c.index.files) (owner : Owner)
    {ref : DeclRef} (hne : ref.source ≠ f.source) :
    ref ∈ (c.republish f.model.tree).index.members owner ↔ ref ∈ c.index.members owner := by
  rw [ProjectIndex.mem_members (h.republish hf).faithful.2.sorted,
    ProjectIndex.mem_members h.faithful.2.sorted, file?_republish h hf hne]

/-- The file that stands where the file stood is the analysis of the same tree. -/
theorem file_of_republish (h : Reached config c) (hf : f ∈ c.index.files) :
    ∃ g ∈ (c.republish f.model.tree).index.files,
      g.model = (c.reanalysis f.model.tree).model := by
  have hmodel : (c.reanalysis f.model.tree).model ∈ (c.republish f.model.tree).index.models := by
    rw [models_republish h hf, List.mem_map]
    exact ⟨f.model, List.mem_map_of_mem hf, if_pos rfl⟩
  exact List.mem_map.1 hmodel

/-- The members that the file contributes are the same, besides those that tasks may add. -/
theorem members_of_republished (h : Reached config c) (hf : f ∈ c.index.files) {owner : Owner}
    {i : DeclId} (hnot : ¬f.model.tree.MayLink config owner i) :
    (f.model.ref i).renewed f.source (c.generation + 1) ∈
        (c.republish f.model.tree).index.members owner ↔
      f.model.ref i ∈ c.index.members owner := by
  have h' := h.republish hf
  obtain ⟨g, hg, hgmodel⟩ := file_of_republish h hf
  have htree : g.model.tree = f.model.tree := by
    rw [hgmodel]
    rfl
  have href : (f.model.ref i).renewed f.source (c.generation + 1) = g.model.ref i := by
    rw [hgmodel]
    unfold DeclRef.renewed
    exact if_pos rfl
  rw [href, ProjectIndex.ref_mem_members h'.faithful.2.sorted hg,
    ProjectIndex.ref_mem_members h.faithful.2.sorted hf,
    h'.listsMembers g hg owner i (by rwa [htree]), h.listsMembers f hf owner i hnot, htree]

/-! ## Nothing touched in between -/

/-- Two compilations with the same files and findings. -/
structure SameProject (c c' : Compilation) : Prop where
  config : c'.config = c.config
  index : c'.index = c.index
  findings : c'.findings = c.findings
  revision : c'.revision = c.revision

/-- What touches no file leaves the project as it is. -/
theorem sameProject_apply {op : Operation} (huntouched : op.touched c = []) :
    c.SameProject (op.apply c) := by
  rcases op.apply_cases c with ⟨-, sources, happly⟩ |
    ⟨trees, summary, rfl, hupdate, htouched⟩ | ⟨source, removed, rfl, -, htouched⟩
  · rw [happly]
    exact ⟨rfl, rfl, rfl, rfl⟩
  · -- An update of no trees publishes nothing.
    rw [htouched, List.map_eq_nil_iff] at huntouched
    subst huntouched
    rw [eq_of_update hupdate]
    exact ⟨rfl, rfl, rfl, rfl⟩
  · rw [htouched] at huntouched
    cases huntouched

theorem sameProject_run {ops : List Operation} (huntouched : touchedBy c ops = []) :
    c.SameProject (c.run ops) := by
  induction ops generalizing c with
  | nil => exact ⟨rfl, rfl, rfl, rfl⟩
  | cons op ops ih =>
    obtain ⟨hop, hops⟩ := List.append_eq_nil_iff.1 huntouched
    have hstep := sameProject_apply hop
    have hrest := ih hops
    exact ⟨hrest.config.trans hstep.config, hrest.index.trans hstep.index,
      hrest.findings.trans hstep.findings, hrest.revision.trans hstep.revision⟩

/-! ## A file that was published by itself -/

/-- Swaps two generations of a source and two revisions. The second revision is not used yet. -/
def swapping (source : SourceId) (g g' : Nat) (r r' : Revision) : Renumbering where
  gen x generation := if x = source then Equiv.swap g g' generation else generation
  rev := Equiv.swap r r'
  live revision := revision ≠ r'
  gen_injective x := by
    by_cases hx : x = source
    · simp only [hx, if_true]
      exact (Equiv.swap g g').injective
    · simp only [hx, if_false]
      exact Function.injective_id
  rev_injective := (Equiv.swap r r').injective

/-- Nothing has been found out under the revisions that are swapped, before and after. -/
theorem findings_swapped {f g : Findings} {r r' : Revision} (hsame : f.SameUnder (· ≠ r) g)
    (hf : Findings.SameUnder (· = r) {} f) (hg : Findings.SameUnder (· = r') {} g)
    (source : SourceId) (n n' : Nat) : f.Renumbered (swapping source n n' r r') g := by
  have hrev {revision : Revision} (hlive : revision ≠ r') (hne : revision ≠ r) :
      (swapping source n n' r r').rev revision = revision :=
    Equiv.swap_apply_of_ne_of_ne hne hlive
  have hfirst : (swapping source n n' r r').rev r = r' := Equiv.swap_apply_left r r'
  constructor
  · intro revision hlive id
    by_cases hne : revision = r
    · subst hne
      have hafter : g.types.get? (r', id) = none := hg.types rfl
      have hbefore : f.types.get? (revision, id) = none := hf.types rfl
      rw [hfirst, hafter, hbefore]
    · rw [hrev hlive hne]
      exact hsame.types hne
  · intro revision hlive id
    by_cases hne : revision = r
    · subst hne
      have hafter : g.returns.get? (r', id) = none := hg.returns rfl
      have hbefore : f.returns.get? (revision, id) = none := hf.returns rfl
      rw [hfirst, hafter, hbefore]
    · rw [hrev hlive hne]
      exact hsame.returns hne
  · intro revision hlive
    by_cases hne : revision = r
    · subst hne
      rw [hfirst]
      exact (hg.moduleReturns rfl).trans (hf.moduleReturns rfl).symm
    · rw [hrev hlive hne]
      exact hsame.moduleReturns hne

section
variable {t : SyntaxTree} {summary : ResolveSummary} (h₀ : Reached config c₀)
  (hupdate : c₀.update [t] = .ok (summary, c₁)) (hc : c₁.SameProject c)

/-- The numbers of the file of `t` in `c₀` and in `c` are swapped. -/
def swappingNumbers (c₀ c : Compilation) (t : SyntaxTree) : Renumbering :=
  swapping t.source (c₀.generation + 1) (c.generation + 1) c₀.revision (c₀.revision + 1)

/-- The new analysis of the tree is the old one with the new numbers. -/
theorem reanalysis_swapped (hconfig : c.config = c₀.config)
    (hrevision : c.revision = c₀.revision + 1) :
    (c.reanalysis t).model = (swappingNumbers c₀ c t).model (c₀.reanalysis t).model ∧
      (c.reanalysis t).entries = (c₀.reanalysis t).entries ∧
      (c.reanalysis t).worklist = (c₀.reanalysis t).worklist := by
  have hrev : (swappingNumbers c₀ c t).rev c₀.revision = c₀.revision + 1 :=
    Equiv.swap_apply_left _ _
  have hgen : (swappingNumbers c₀ c t).gen t.source (c₀.generation + 1) = c.generation + 1 :=
    (if_pos rfl).trans (Equiv.swap_apply_left _ _)
  unfold reanalysis
  rw [hconfig, hrevision]
  refine ⟨?_, rfl, rfl⟩
  show _ = { (t.analyse c₀.config c₀.revision (c₀.generation + 1)).model with
    revision := (swappingNumbers c₀ c t).rev c₀.revision
    generation := (swappingNumbers c₀ c t).gen t.source (c₀.generation + 1) }
  rw [hrev, hgen]
  rfl

include hupdate hc

theorem sameNumbers : c.config = c₀.config ∧ c.revision = c₀.revision + 1 := by
  have h₁ := eq_of_update hupdate
  exact ⟨by rw [hc.config, h₁], by rw [hc.revision, h₁]; rfl⟩

theorem targets_republished :
    (c.retract t.source).targets [t] = (c₀.targets [t]).map (swappingNumbers c₀ c t).target := by
  obtain ⟨hconfig, hrevision⟩ := sameNumbers hupdate hc
  obtain ⟨hmodel, -, hworklist⟩ := reanalysis_swapped (t := t) hconfig hrevision
  show [Target.mk (c.reanalysis t).model (c.reanalysis t).worklist] = _
  rw [hmodel, hworklist]
  rfl

include h₀

/-- Nothing has been found out under the old revision before the first update, nor under the new
one since. -/
theorem findings_republished (ht : t.Proper) :
    c₀.findings.Renumbered (swappingNumbers c₀ c t) c.findings := by
  have h₁ := h₀.update (List.forall_mem_singleton.2 ht) hupdate
  have hchanges := (changesOnly_update c₀ [t]).findings
  have hfindings : c.findings =
      ((c₀.openProject [t]).resolve (c₀.targets [t])).project.findings := by
    rw [hc.findings, eq_of_update hupdate]
  apply findings_swapped
  · rw [hfindings]
    exact hchanges.mono fun hne m hm => by
      rw [List.mem_singleton.1 hm]
      exact fun heq => hne heq.symm
  · exact h₀.stamped.findings.mono fun heq => Nat.le_of_eq heq.symm
  · have hstamped := h₁.stamped.findings
    rw [← hc.findings, ← hc.revision, (sameNumbers hupdate hc).2] at hstamped
    exact hstamped.mono fun heq => Nat.le_of_eq heq.symm

/-- The other files are those that there were. -/
theorem index_retracted (ht : t.Proper) :
    c.index.retract t.source = c₀.index.retract t.source := by
  have h₁ := h₀.update (List.forall_mem_singleton.2 ht) hupdate
  have hsorted := h₀.faithful.2.sorted
  have hsorted₁ := h₁.faithful.2.sorted
  rw [hc.index]
  apply (hsorted₁.retract t.source).ext (hsorted.retract t.source)
  intro source
  rw [ProjectIndex.file?_retract hsorted₁, ProjectIndex.file?_retract hsorted]
  by_cases hs : t.source = source
  · rw [if_pos hs, if_pos hs]
  · rw [if_neg hs, if_neg hs]
    exact (sameFile_update h₀ hupdate fun hmem => hs (List.mem_singleton.1 hmem).symm).file

theorem openProject_republished (ht : t.Proper) :
    (c₀.openProject [t]).Renumbered (swappingNumbers c₀ c t)
      ((c.retract t.source).openProject [t]) where
  index := by
    obtain ⟨hconfig, hrevision⟩ := sameNumbers hupdate hc
    obtain ⟨hmodel, hentries, -⟩ := reanalysis_swapped (t := t) hconfig hrevision
    have hsorted := h₀.faithful.2.sorted
    show (c₀.index.publish ⟨(c₀.reanalysis t).model, (c₀.reanalysis t).entries⟩).Renumbered _
      ((c.index.retract t.source).publish ⟨(c.reanalysis t).model, (c.reanalysis t).entries⟩)
    rw [index_retracted h₀ hupdate hc ht, ← ProjectIndex.publish_of_retract hsorted]
    apply ProjectIndex.publish_renumbered
    · -- The files of other sources have none of the numbers.
      apply List.forall₂_same.2
      intro g hg
      obtain ⟨hg, hne⟩ := ProjectIndex.mem_files_retract.1 hg
      have hold := h₀.stamped.revision g hg
      have hrev : (swappingNumbers c₀ c t).rev g.model.revision = g.model.revision :=
        Equiv.swap_apply_of_ne_of_ne (Nat.ne_of_lt hold) (Nat.ne_of_lt (Nat.lt_succ_of_lt hold))
      have hgen : (swappingNumbers c₀ c t).gen g.model.source g.model.generation =
          g.model.generation := if_neg hne
      refine ⟨?_, rfl, Nat.ne_of_lt (Nat.lt_succ_of_lt hold)⟩
      unfold Renumbering.model
      rw [hrev, hgen]
    · refine ⟨hmodel, congrArg Entries.withoutOccurrences hentries, ?_⟩
      exact Nat.ne_of_lt (Nat.lt_succ_self c₀.revision)
  depth := by
    show c.config.maxSuperDepth = c₀.config.maxSuperDepth
    rw [(sameNumbers hupdate hc).1]
  findings := findings_republished h₀ hupdate hc ht

end

/-- A file that was published by itself, and nothing touched since, has the same members when it is
published again. -/
theorem members_of_alone (h₀ : Reached config c₀) {summary : ResolveSummary}
    (hupdate : c₀.update [f.model.tree] = .ok (summary, c₁)) (hc : c₁.SameProject c)
    (h : Reached config c) (hf : f ∈ c.index.files) (owner : Owner) :
    (c.republish f.model.tree).index.members owner =
      (c.index.members owner).map (.renewed f.source (c.generation + 1)) := by
  have ht := (h.faithful.2.files f hf).proper
  have hsorted := h₀.faithful.2.sorted
  obtain ⟨summary', hagain⟩ := update_removed h hf
  have hagain : (c.retract f.model.tree.source).update [f.model.tree] =
      .ok (summary', c.republish f.model.tree) := hagain
  -- The two updates do their tasks in projects that differ in the numbers of the file.
  have hlive : ∀ target ∈ c₀.targets [f.model.tree],
      (swappingNumbers c₀ c f.model.tree).live target.model.revision := by
    intro target htarget
    obtain ⟨a, ha, rfl⟩ := mem_targets htarget
    rw [List.mem_singleton.1 ha]
    exact Nat.ne_of_lt (Nat.lt_succ_self c₀.revision)
  have hresolved := Project.resolve_renumbered (openProject_republished h₀ hupdate hc ht) hlive
  rw [← targets_republished hupdate hc] at hresolved
  have hmembers := ProjectIndex.members_renumbered hresolved.index owner
  rw [← index_of_update hupdate, ← hc.index, ← index_of_update hagain] at hmembers
  rw [hmembers]
  refine List.map_congr_left fun ref href => ?_
  -- A reference into the file has the first generation.
  obtain ⟨g, hg, i, -, rfl⟩ := ProjectIndex.mem_refs.1 href
  rw [hc.index] at hg
  rcases file_of_update hsorted hupdate hg with ⟨a, ha, hmodel⟩ | ⟨k, -, -, hne⟩
  · rw [List.mem_singleton.1 ha] at hmodel
    have hsource : (g.model.ref i).source = f.source := by
      rw [hmodel]
      rfl
    have hgeneration : (g.model.ref i).generation = c₀.generation + 1 := by
      rw [hmodel]
      rfl
    unfold Renumbering.ref DeclRef.renewed
    rw [if_pos hsource, hgeneration, hsource]
    exact congrArg (DeclRef.mk f.source · i)
      ((if_pos rfl).trans (Equiv.swap_apply_left (c₀.generation + 1) (c.generation + 1)))
  · have hsource : (g.model.ref i).source ≠ f.source := fun heq => hne (List.mem_singleton.2 heq)
    unfold Renumbering.ref DeclRef.renewed
    rw [if_neg hsource]
    exact congrArg (DeclRef.mk _ · i) (if_neg hsource)

/-! ## Publishing again -/

/-- All look-ups find the same when a file is published again that was published by itself before,
if nothing has been touched since. -/
theorem renewed_of_alone (h₀ : Reached config c₀) {summary : ResolveSummary}
    (hupdate : c₀.update [f.model.tree] = .ok (summary, c₁)) (hc : c₁.SameProject c)
    (h : Reached config c) (hf : f ∈ c.index.files) :
    c.index.Renewed f.source (c.republish f.model.tree).generation
      (c.republish f.model.tree).index := by
  rw [generation_republish h hf]
  exact { renewed_republish h hf with members := members_of_alone h₀ hupdate hc h hf }

/-- A file that is published again is published by itself, so publishing it once more changes
nothing but its generation. -/
theorem renewed_again (h : Reached config c) (hf : f ∈ c.index.files) :
    let c' := c.republish f.model.tree
    c'.index.Renewed f.source (c'.republish f.model.tree).generation
      (c'.republish f.model.tree).index := by
  obtain ⟨summary, hupdate⟩ := update_removed h hf
  obtain ⟨g, hg, hmodel⟩ := file_of_republish h hf
  have htree : g.model.tree = f.model.tree := by
    rw [hmodel]
    rfl
  have hsource : g.source = f.source := congrArg SyntaxTree.source htree
  dsimp only
  rw [← hsource, ← htree]
  rw [← htree] at hupdate hg
  exact renewed_of_alone (h.remove (remove_published h hf)) hupdate ⟨rfl, rfl, rfl, rfl⟩
    (htree ▸ h.republish hf) hg

/-- Any published file may be removed and published again with its tree. Afterwards every look-up
but that of members finds the same, with the new generation in the references into the file. The
members that other files contribute are the same, and those of the file that no task may have added.
From then on publishing it again changes no look-up any more, and neither does the first time, if
the file was published by itself and nothing has been touched since. -/
theorem republishing_renews (h : Reached config c) (hf : f ∈ c.index.files) :
    let s := f.source
    let t := f.model.tree
    let c' := c.republish t
    c.remove s = .ok (true, c.retract s) ∧
      (∃ summary, (c.retract s).update [t] = .ok (summary, c')) ∧
      c.index.RenewedBesidesMembers s c'.generation c'.index ∧
      (∀ owner ref, ref.source ≠ s →
        (ref ∈ c'.index.members owner ↔ ref ∈ c.index.members owner)) ∧
      (∀ owner i, ¬t.MayLink config owner i →
        ((f.model.ref i).renewed s c'.generation ∈ c'.index.members owner ↔
          f.model.ref i ∈ c.index.members owner)) ∧
      c'.index.Renewed s (c'.republish t).generation (c'.republish t).index ∧
      ∀ c₀ c₁ summary ops, Reached config c₀ → c₀.update [t] = .ok (summary, c₁) →
        touchedBy c₁ ops = [] → c = c₁.run ops → c.index.Renewed s c'.generation c'.index := by
  intro s t c'
  have hgeneration : c'.generation = c.generation + 1 := generation_republish h hf
  refine ⟨remove_published h hf, update_removed h hf, hgeneration ▸ renewed_republish h hf,
    fun owner ref => members_of_others h hf owner,
    fun owner i hnot => hgeneration ▸ members_of_republished h hf hnot, renewed_again h hf, ?_⟩
  intro c₀ c₁ summary ops h₀ hupdate huntouched hrun
  have hsame : c₁.SameProject c := hrun ▸ sameProject_run huntouched
  exact renewed_of_alone h₀ hupdate hsame h hf

/-- `t.x = true` in the second file -/
def assignsField : SyntaxTree :=
  .ofSketch 1 (some (assigns (.member (.var "t") "x" false) (.literal (.bool true))))

theorem proper_assignsTable : assignsTable.Proper :=
  SyntaxTree.proper_ofSketch 0 _ (by decide)

theorem proper_assignsField : assignsField.Proper :=
  SyntaxTree.proper_ofSketch 1 _ (by decide)

/-- A file with a table. -/
def tableOnly : Compilation :=
  twoSources.run [.update [assignsTable]]

theorem reached_tableOnly : Reached {} tableOnly :=
  reached_twoSources.run
    (List.forall_mem_singleton.2 (List.forall_mem_singleton.2 proper_assignsTable))

/-- The field is published by itself after its table; then a third path is registered. The field is
a member of the table, and it still is when it is published again. -/
theorem republishing_renews_field :
    ∃ summary c₁, tableOnly.update [assignsField] = .ok (summary, c₁) ∧
      let c := c₁.run [.register "/c.lua"]
      c.index.members (.anonymous ⟨0, 1⟩) = [⟨1, 2, 0⟩] ∧
        (c.republish assignsField).index.members (.anonymous ⟨0, 1⟩) = [⟨1, 3, 0⟩] ∧
        (c.republish assignsField).index.globals "t" = [⟨0, 1, 0⟩] := by
  have hrun : ((tableOnly.update [assignsField]).toOption.any fun done =>
      decide ((done.2.index.file? 1).isSome = true ∧
        done.2.index.members (.anonymous ⟨0, 1⟩) = [⟨1, 2, 0⟩] ∧
        done.2.index.globals "t" = [⟨0, 1, 0⟩] ∧ done.2.generation = 2)) = true := by
    decide +kernel
  obtain ⟨summary, c₁, hupdate, hrun⟩ := exists_of_update hrun
  obtain ⟨hsome, hmember, hglobal, hgeneration⟩ := of_decide_eq_true hrun
  obtain ⟨f, hfile⟩ := Option.isSome_iff_exists.1 hsome
  refine ⟨summary, c₁, hupdate, ?_⟩
  have h₁ := reached_tableOnly.update (List.forall_mem_singleton.2 proper_assignsField) hupdate
  have h : Reached {} (c₁.run [.register "/c.lua"]) := h₁.register "/c.lua"
  obtain ⟨hf, hsource⟩ := (ProjectIndex.file?_eq_some h₁.faithful.2.sorted).1 hfile
  have htree : f.model.tree = assignsField := by
    rcases file_of_update reached_tableOnly.faithful.2.sorted hupdate hf with
      ⟨a, ha, hmodel⟩ | ⟨g, -, -, hother⟩
    · obtain ⟨t, ht, revision, -, -, rfl⟩ := mem_analyses ha
      rw [hmodel]
      exact List.mem_singleton.1 ht
    · have hown : assignsField.source = 1 := by decide +kernel
      rw [List.map_singleton, hown] at hother
      exact absurd (List.mem_singleton.2 hsource) hother
  obtain ⟨-, -, -, -, -, -, halone⟩ := republishing_renews h hf
  have hrenewed := halone tableOnly c₁ summary [.register "/c.lua"] reached_tableOnly
    (htree ▸ hupdate) rfl rfl
  have hmembers := hrenewed.members (.anonymous ⟨0, 1⟩)
  have hglobals := hrenewed.globals "t"
  rw [generation_republish h hf, htree, hsource] at hmembers
  rw [generation_republish h hf, htree, hsource] at hglobals
  refine ⟨hmember, hmembers.trans ?_, hglobals.trans ?_⟩
  · show (c₁.index.members (.anonymous ⟨0, 1⟩)).map (DeclRef.renewed 1 (c₁.generation + 1)) = _
    rw [hmember, hgeneration]
    rfl
  · show (c₁.index.globals "t").map (DeclRef.renewed 1 (c₁.generation + 1)) = _
    rw [hglobal, hgeneration]
    rfl

/-- The field comes before the table, whose file is published later. -/
def fieldBeforeTable : List Operation :=
  [.update [assignsField], .update [assignsTable]]

/-- `t = {}` and `t.a = t.b` in the first file, `t.b = t.a` in the second one -/
def fieldsOnCycle : List SyntaxTree :=
  [.ofSketch 0 (some (.block [.node (.assignStat [.var "t"] [.node (.tableExpr [])]),
      .node (.assignStat [.member (.var "t") "a" false] [.member (.var "t") "b" false])])),
    .ofSketch 1 (some (assigns (.member (.var "t") "b" false) (.member (.var "t") "a" false)))]

/-- Whether an owner without members gets one when some file is published again. -/
def LinksAnew (c : Compilation) (owner : Owner) (ref : DeclRef) : Prop :=
  ∃ f ∈ c.index.files, c.index.members owner = [] ∧
    (c.republish f.model.tree).index.members owner = [ref]

theorem linksAnew_of_file? {owner : Owner} {ref : DeclRef} (source : SourceId)
    (h : ((c.index.file? source).any fun f => decide (c.index.members owner = [] ∧
      (c.republish f.model.tree).index.members owner = [ref])) = true) :
    c.LinksAnew owner ref := by
  obtain ⟨f, hfile, hrun⟩ := (Option.any_eq_true _ _).1 h
  exact ⟨f, List.mem_of_find?_eq_some hfile, of_decide_eq_true hrun⟩

/-- A field has no owner as long as nothing is known about its base, when it is given up with a
field of another file, or when its base gets its type later in the same update. When its file is
published again, it becomes a member of the table. -/
theorem republishing_links_anew :
    let late := twoSources.run fieldBeforeTable
    let cyclic := twoSources.run [.update fieldsOnCycle]
    (Reached {} late ∧ late.LinksAnew (.anonymous ⟨0, 1⟩) ⟨1, 3, 0⟩) ∧
      (Reached {} cyclic ∧ cyclic.LinksAnew (.anonymous ⟨0, 1⟩) ⟨1, 2, 0⟩) ∧
      Reached {} beforeTable ∧ beforeTable.LinksAnew (.anonymous ⟨0, 5⟩) ⟨1, 2, 1⟩ := by
  have hlate : ∀ op ∈ fieldBeforeTable, op.Proper :=
    List.forall_mem_cons.2 ⟨List.forall_mem_singleton.2 proper_assignsField,
      List.forall_mem_singleton.2 (List.forall_mem_singleton.2 proper_assignsTable)⟩
  have hfields : ∀ t ∈ fieldsOnCycle, t.Proper :=
    List.forall_mem_cons.2 ⟨SyntaxTree.proper_ofSketch 0 _ (by decide),
      List.forall_mem_singleton.2 (SyntaxTree.proper_ofSketch 1 _ (by decide))⟩
  have hcycle : ∀ op ∈ [Operation.update fieldsOnCycle], op.Proper :=
    List.forall_mem_singleton.2 hfields
  refine ⟨⟨reached_twoSources.run hlate, ?_⟩, ⟨reached_twoSources.run hcycle, ?_⟩,
    reached_beforeTable, ?_⟩
  · exact linksAnew_of_file? 1 (by decide +kernel)
  · exact linksAnew_of_file? 1 (by decide +kernel)
  · exact linksAnew_of_file? 1 (by decide +kernel)

end Compilation

end LuaAnalysis
