import LuaAnalysis.Proofs.Resolve.Frame

/-!
# The latest versions of the files

Publishing, retracting and amending one source leaves the files of the others as they are. So after
any run of these operations a look-up finds what the latest version of every file contributes, by
increasing source, whichever way the operations came to it and in whichever order a map of the files
lists them.

Main statements: `file?_runOperations` (the file of a source is its latest version),
`lookups_eq_latest`.
-/

namespace LuaAnalysis

namespace ProjectIndex

/-- A change of one file. The members of an owner stand in one group, as in a map that is keyed by
the owners: a published file has them so and an amendment keeps them so. -/
inductive IndexOperation where
  | publish (file : PublishedFile) (keyed : file.entries.members.keys.Nodup)
  | retract (source : SourceId)
  | amend (source : SourceId) (change : Entries → Entries)
      (keyed : ∀ e : Entries, e.members.keys.Nodup → (change e).members.keys.Nodup)

namespace IndexOperation

def source : IndexOperation → SourceId
  | publish file _ => file.source
  | retract source => source
  | amend source _ _ => source

def apply (p : ProjectIndex) : IndexOperation → ProjectIndex
  | publish file _ => p.publish file
  | retract source => p.retract source
  | amend source change _ => p.amend source change

/-- What becomes of the version of the file that the operation is about. -/
def replace (version : Option PublishedFile) : IndexOperation → Option PublishedFile
  | publish file _ => some file
  | retract _ => none
  | amend _ change _ => version.map fun f => { f with entries := change f.entries }

end IndexOperation

/-- The index after some operations on an empty one. -/
def runOperations (ops : List IndexOperation) : ProjectIndex :=
  ops.foldl IndexOperation.apply {}

/-- The latest version of the file of a source: what the operations on that source make of it. -/
def latest (ops : List IndexOperation) (source : SourceId) : Option PublishedFile :=
  (ops.filter fun op => op.source = source).foldl IndexOperation.replace none

/-- What the latest versions contribute, one source after the other. -/
def concatLatest {α : Type} (ops : List IndexOperation) (sources : List SourceId)
    (select : PublishedFile → List α) : List α :=
  sources.flatMap fun source => ((latest ops source).map select).getD []

/-- What is selected from each file, unless it is nothing. -/
def selections {α : Type} (files : List PublishedFile) (select : PublishedFile → List α) :
    List (SourceId × List α) :=
  (files.map fun f => (f.source, select f)).filter fun selection => !selection.2.isEmpty

/-- Selects from files that a map lists in any order, and puts the selections in the order of their
sources. -/
def collect {α : Type} (iteration : List PublishedFile) (select : PublishedFile → List α) : List α :=
  ((selections iteration select).mergeSort fun a b => a.1 ≤ b.1).flatMap (·.2)

variable {idx idx' : ProjectIndex} {f : PublishedFile}

/-! ## One operation -/

theorem file?_publish (h : idx.Sorted) (file : PublishedFile) (source : SourceId) :
    (idx.publish file).file? source = if file.source = source then some file
      else idx.file? source := by
  ext f
  rw [file?_eq_some (h.publish file), mem_files_publish h]
  split
  · next heq =>
    subst heq
    rw [Option.some.injEq]
    constructor
    · rintro ⟨rfl | ⟨-, hne⟩, hsource⟩
      · rfl
      · exact absurd hsource hne
    · rintro rfl
      exact ⟨.inl rfl, rfl⟩
  · next hne =>
    rw [file?_eq_some h]
    constructor
    · rintro ⟨rfl | ⟨hf, -⟩, hsource⟩
      · exact absurd hsource hne
      · exact ⟨hf, hsource⟩
    · rintro ⟨hf, rfl⟩
      exact ⟨.inr ⟨hf, fun h => hne h.symm⟩, rfl⟩

theorem file?_retract (h : idx.Sorted) (s source : SourceId) :
    (idx.retract s).file? source = if s = source then none else idx.file? source := by
  ext f
  rw [file?_eq_some (h.retract s), mem_files_retract]
  split
  · next heq =>
    subst heq
    simp
  · next hne =>
    rw [file?_eq_some h]
    constructor
    · rintro ⟨⟨hf, -⟩, hsource⟩
      exact ⟨hf, hsource⟩
    · rintro ⟨hf, rfl⟩
      exact ⟨⟨hf, fun h => hne h.symm⟩, rfl⟩

theorem Sorted.apply (h : idx.Sorted) (op : IndexOperation) : (op.apply idx).Sorted := by
  cases op with
  | publish file keyed => exact h.publish file
  | retract source => exact h.retract source
  | amend source change keyed => exact h.amend source change

/-- An operation replaces the version of its own file and no other. -/
theorem file?_apply (h : idx.Sorted) (op : IndexOperation) (source : SourceId) :
    (op.apply idx).file? source =
      if op.source = source then op.replace (idx.file? source) else idx.file? source := by
  cases op with
  | publish file keyed => exact file?_publish h file source
  | retract s => exact file?_retract h s source
  | amend s change keyed =>
    show (idx.amend s change).file? source = _
    rw [file?_amend]
    by_cases hs : s = source
    · rw [if_pos hs.symm]
      exact (if_pos hs).symm
    · rw [if_neg fun h => hs h.symm]
      exact (if_neg hs).symm

/-- The owners of every file's members are keys of one group each. -/
def Keyed (idx : ProjectIndex) : Prop :=
  ∀ f ∈ idx.files, f.entries.members.keys.Nodup

theorem Keyed.apply (h : idx.Sorted) (hkeyed : idx.Keyed) (op : IndexOperation) :
    (op.apply idx).Keyed := by
  intro f hf
  cases op with
  | publish file keyed =>
    rcases (mem_files_publish h).1 hf with rfl | ⟨hf, -⟩
    · exact keyed
    · exact hkeyed f hf
  | retract source => exact hkeyed f (mem_files_retract.1 hf).1
  | amend source change keyed =>
    obtain ⟨g, hg, rfl⟩ := List.mem_map.1 hf
    split
    · exact keyed _ (hkeyed g hg)
    · exact hkeyed g hg

theorem Keyed.empty : Keyed {} :=
  fun _ hf => absurd hf List.not_mem_nil

/-! ## A run of operations -/

theorem foldl_apply (h : idx.Sorted) (hkeyed : idx.Keyed) (ops : List IndexOperation) :
    (ops.foldl IndexOperation.apply idx).Sorted ∧ (ops.foldl IndexOperation.apply idx).Keyed ∧
      ∀ source, (ops.foldl IndexOperation.apply idx).file? source =
        (ops.filter fun op => op.source = source).foldl IndexOperation.replace
          (idx.file? source) := by
  -- The run goes on from the index that the first operation leaves.
  induction ops generalizing idx with
  | nil => exact ⟨h, hkeyed, fun source => rfl⟩
  | cons op ops ih =>
    obtain ⟨hsorted, hkeys, hfile⟩ := ih (h.apply op) (hkeyed.apply h op)
    refine ⟨hsorted, hkeys, fun source => ?_⟩
    rw [List.foldl_cons, hfile source, file?_apply h op source, List.filter_cons]
    by_cases hs : op.source = source <;> simp [hs]

theorem sorted_runOperations (ops : List IndexOperation) : (runOperations ops).Sorted :=
  (foldl_apply List.Pairwise.nil Keyed.empty ops).1

theorem keyed_runOperations (ops : List IndexOperation) : (runOperations ops).Keyed :=
  (foldl_apply List.Pairwise.nil Keyed.empty ops).2.1

theorem file?_runOperations (ops : List IndexOperation) (source : SourceId) :
    (runOperations ops).file? source = latest ops source :=
  (foldl_apply List.Pairwise.nil Keyed.empty ops).2.2 source

/-! ## Look-ups -/

theorem nodup_files {files : List PublishedFile}
    (h : files.Pairwise fun f g => f.source < g.source) : files.Nodup := by
  refine h.imp fun {f g} hlt heq => ?_
  rw [heq] at hlt
  exact Nat.lt_irrefl _ hlt

/-- Files by increasing source are told by which ones they are. -/
theorem files_eq_of_mem_iff {files files' : List PublishedFile}
    (h : files.Pairwise fun f g => f.source < g.source)
    (h' : files'.Pairwise fun f g => f.source < g.source)
    (hmem : ∀ f, f ∈ files ↔ f ∈ files') : files = files' := by
  have hperm : files.Perm files' :=
    (List.perm_ext_iff_of_nodup (nodup_files h) (nodup_files h')).2 hmem
  refine hperm.eq_of_pairwise (fun f g _ _ hlt hgt => ?_) h h'
  exact absurd (Nat.lt_trans hlt hgt) (Nat.lt_irrefl _)

theorem Sorted.mem_iff (h : idx.Sorted) : f ∈ idx.files ↔ idx.file? f.source = some f := by
  rw [file?_eq_some h]
  exact (and_iff_left rfl).symm

theorem Sorted.ext (h : idx.Sorted) (h' : idx'.Sorted)
    (hfile : ∀ source, idx.file? source = idx'.file? source) : idx = idx' := by
  have hfiles : idx.files = idx'.files :=
    files_eq_of_mem_iff h h' fun f => by rw [h.mem_iff, h'.mem_iff, hfile]
  cases idx
  cases idx'
  exact congrArg ProjectIndex.mk hfiles

/-- The files are those of all sources, when these are listed by increasing number. -/
theorem Sorted.files_eq (h : idx.Sorted) {sources : List SourceId}
    (hsources : sources.Pairwise (· < ·)) (hall : ∀ f ∈ idx.files, f.source ∈ sources) :
    idx.files = sources.filterMap idx.file? := by
  refine files_eq_of_mem_iff h ?_ fun f => ?_
  · refine hsources.filterMap _ fun s s' hlt f hf g hg => ?_
    rwa [((file?_eq_some h).1 hf).2, ((file?_eq_some h).1 hg).2]
  · rw [List.mem_filterMap]
    constructor
    · intro hf
      exact ⟨f.source, hall f hf, h.mem_iff.1 hf⟩
    · rintro ⟨s, -, hf⟩
      exact ((file?_eq_some h).1 hf).1

theorem Sorted.flatMap_files (h : idx.Sorted) {sources : List SourceId}
    (hsources : sources.Pairwise (· < ·)) (hall : ∀ f ∈ idx.files, f.source ∈ sources)
    {α : Type} (select : PublishedFile → List α) :
    idx.files.flatMap select = sources.flatMap fun s => ((idx.file? s).map select).getD [] := by
  rw [h.files_eq hsources hall]
  clear hsources hall
  induction sources with
  | nil => rfl
  | cons s rest ih =>
    cases hs : idx.file? s with
    | none => simpa [hs] using ih
    | some f => simpa [hs] using ih

/-- An empty selection contributes nothing. -/
theorem flatMap_selections {α : Type} (files : List PublishedFile)
    (select : PublishedFile → List α) :
    (selections files select).flatMap (·.2) = files.flatMap select := by
  induction files with
  | nil => rfl
  | cons f rest ih =>
    by_cases hf : select f = []
    · simpa [selections, hf] using ih
    · simpa [selections, hf] using ih

/-- Sorting brings selections into the order of the index, whichever way a map lists its files. -/
theorem Sorted.mergeSort_selections (h : idx.Sorted) {iteration : List PublishedFile}
    (hperm : iteration.Perm idx.files) {α : Type} (select : PublishedFile → List α) :
    (selections iteration select).mergeSort (fun a b => a.1 ≤ b.1) =
      selections idx.files select := by
  have hselected : ((selections iteration select).mergeSort fun a b => a.1 ≤ b.1).Perm
      (selections idx.files select) :=
    (List.mergeSort_perm _ _).trans ((hperm.map _).filter _)
  have hmerged : ((selections iteration select).mergeSort fun a b => a.1 ≤ b.1).Pairwise
      fun a b => a.1 ≤ b.1 := by
    have htrans : ∀ a b c : SourceId × List α, decide (a.1 ≤ b.1) = true →
        decide (b.1 ≤ c.1) = true → decide (a.1 ≤ c.1) = true := by
      intro a b c hab hbc
      simp only [decide_eq_true_eq] at hab hbc ⊢
      exact Nat.le_trans hab hbc
    have htotal : ∀ a b : SourceId × List α,
        (decide (a.1 ≤ b.1) || decide (b.1 ≤ a.1)) = true := by
      intro a b
      simpa using Nat.le_total a.1 b.1
    exact (List.pairwise_mergeSort htrans htotal (selections iteration select)).imp
      of_decide_eq_true
  have hsorted : (selections idx.files select).Pairwise fun a b => a.1 ≤ b.1 :=
    List.Pairwise.filter _ (List.pairwise_map.2 (List.Pairwise.imp Nat.le_of_lt h))
  refine hselected.eq_of_pairwise (fun a b ha hb hle hge => ?_) hmerged hsorted
  -- Two selections of one source are of the one file that the source has.
  obtain ⟨f, hf, rfl⟩ := List.mem_map.1 (List.mem_filter.1 (hselected.subset ha)).1
  obtain ⟨g, hg, rfl⟩ := List.mem_map.1 (List.mem_filter.1 hb).1
  rw [h.unique hf hg (Nat.le_antisymm hle hge)]

theorem Sorted.collect_eq (h : idx.Sorted) {iteration : List PublishedFile}
    (hperm : iteration.Perm idx.files) {α : Type} (select : PublishedFile → List α) :
    collect iteration select = idx.files.flatMap select := by
  unfold collect
  rw [h.mergeSort_selections hperm, flatMap_selections]

/-- A declaration has the owners under which it is found. -/
theorem mem_ownersOf (h : idx.Sorted) (hkeyed : idx.Keyed) {ref : DeclRef} {owner : Owner} :
    owner ∈ idx.ownersOf ref ↔ ref ∈ idx.members owner := by
  show owner ∈ idx.ownersOf ref ↔ ref ∈ idx.refs (·.members) owner
  rw [mem_refs]
  constructor
  · intro howner
    unfold ownersOf at howner
    cases hfile : idx.file? ref.source with
    | none => simp [hfile] at howner
    | some f =>
      obtain ⟨hf, hsource⟩ := (file?_eq_some h).1 hfile
      rw [hfile] at howner
      dsimp only at howner
      split at howner
      · next hgeneration =>
        refine ⟨f, hf, ref.decl, (Grouped.mem_keysOf (hkeyed f hf)).1 howner, ?_⟩
        rw [FileModel.ref, hgeneration, show f.model.source = ref.source from hsource]
      · exact absurd howner List.not_mem_nil
  · rintro ⟨f, hf, i, hi, rfl⟩
    have hfile : idx.file? (f.model.ref i).source = some f := (file?_eq_some h).2 ⟨hf, rfl⟩
    have howners : idx.ownersOf (f.model.ref i) = f.entries.members.keysOf i := by
      unfold ownersOf
      rw [hfile]
      exact if_pos rfl
    rw [howners]
    exact (Grouped.mem_keysOf (hkeyed f hf)).2 hi

/-! ## Look-ups after a run -/

/-- Every look-up finds what the latest versions of the files contribute, by increasing source. It
does so whichever way a map lists the files, and after all runs that lead to the same versions. A
declaration has an owner exactly if it is among the owner's members. -/
theorem lookups_eq_latest (ops : List IndexOperation) {sources : List SourceId}
    (hsources : sources.Pairwise (· < ·))
    (hall : ∀ source, (latest ops source).isSome → source ∈ sources)
    {iteration : List PublishedFile} (hnodup : iteration.Nodup)
    (hiteration : ∀ f, f ∈ iteration ↔ latest ops f.source = some f) :
    (∀ name, (runOperations ops).globals name = concatLatest ops sources fun f =>
      (f.entries.globals.values name).map f.model.ref) ∧
    (∀ name, (runOperations ops).types name = concatLatest ops sources fun f =>
      (f.entries.types.values name).map fun (id, category) => (f.model.ref id, category)) ∧
    (∀ owner, (runOperations ops).members owner = concatLatest ops sources fun f =>
      (f.entries.members.values owner).map f.model.ref) ∧
    (∀ name, (runOperations ops).aliases name = concatLatest ops sources fun f =>
      (f.entries.aliases.values name).map fun (base, id) => (base, f.model.ref id)) ∧
    (∀ name, (runOperations ops).supers name = concatLatest ops sources fun f =>
      f.entries.supers.values name) ∧
    (∀ name, (runOperations ops).generics name = concatLatest ops sources fun f =>
      (f.entries.generics.values name).map f.model.ref) ∧
    (∀ owner, (runOperations ops).operators owner = concatLatest ops sources fun f =>
      f.entries.operators.values owner) ∧
    (∀ name, (runOperations ops).nameExprs name = concatLatest ops sources fun f =>
      (f.entries.nameExprs.values name).map fun id => (f.model, id)) ∧
    (∀ field, (runOperations ops).indexExprs field = concatLatest ops sources fun f =>
      (f.entries.indexExprs.values field).map fun id => (f.model, id)) ∧
    (∀ name, (runOperations ops).typeRefs name = concatLatest ops sources fun f =>
      (f.entries.typeRefs.values name).map fun id => (f.model, id)) ∧
    (∀ {α : Type} (select : PublishedFile → List α),
      collect iteration select = concatLatest ops sources select) ∧
    (∀ ops' : List IndexOperation, (∀ source, latest ops' source = latest ops source) →
      runOperations ops' = runOperations ops) ∧
    ∀ ref owner, owner ∈ (runOperations ops).ownersOf ref ↔
      ref ∈ (runOperations ops).members owner := by
  have hsorted := sorted_runOperations ops
  have hcover : ∀ f ∈ (runOperations ops).files, f.source ∈ sources := by
    intro f hf
    apply hall
    rw [← file?_runOperations, hsorted.mem_iff.1 hf, Option.isSome_some]
  -- Every look-up is a selection from the files, which stand in the order of their sources.
  have hconcat : ∀ {α : Type} (select : PublishedFile → List α),
      (runOperations ops).files.flatMap select = concatLatest ops sources select := by
    intro α select
    rw [hsorted.flatMap_files hsources hcover, concatLatest]
    simp only [file?_runOperations]
  have hperm : iteration.Perm (runOperations ops).files := by
    apply (List.perm_ext_iff_of_nodup hnodup (nodup_files hsorted)).2
    intro f
    rw [hiteration, hsorted.mem_iff, file?_runOperations]
  refine ⟨fun _ => hconcat _, fun _ => hconcat _, fun _ => hconcat _, fun _ => hconcat _,
    fun _ => hconcat _, fun _ => hconcat _, fun _ => hconcat _, fun _ => hconcat _,
    fun _ => hconcat _, fun _ => hconcat _, ?_, ?_, ?_⟩
  · intro α select
    rw [hsorted.collect_eq hperm, hconcat]
  · intro ops' hlatest
    apply (sorted_runOperations ops').ext hsorted
    intro source
    rw [file?_runOperations, file?_runOperations, hlatest]
  · intro ref owner
    exact mem_ownersOf hsorted (keyed_runOperations ops)

/-- A version of a file whose one declaration is a global `a` and a member of the type `T`. -/
def versionOf (source : SourceId) (generation : Nat) : PublishedFile :=
  { model :=
      { revision := generation, generation, tree := .ofPlaced source #[] 0, decls := #[],
        scopes := {}, anchors := [], methods := [] }
    entries := { globals := ({} : Grouped String DeclId).add "a" 0,
                 members := ({} : Grouped Owner DeclId).addNew (.named "T") 0 } }

/-- The third file comes before the first, which is published twice and amended; the second is
retracted. -/
def interleaved : List IndexOperation :=
  [.publish (versionOf 3 0) (by decide), .publish (versionOf 1 1) (by decide),
    .publish (versionOf 2 2) (by decide), .publish (versionOf 1 3) (by decide), .retract 2,
    .amend 1 (fun e => e.addMember (.named "T") 1) fun _ h => Grouped.nodup_keys_addNew h _ _]

/-- The latest version of the first file. -/
def amendedVersion : PublishedFile :=
  { versionOf 1 3 with entries := (versionOf 1 3).entries.addMember (.named "T") 1 }

theorem latest_interleaved (source : SourceId) :
    latest interleaved source = if source = 1 then some amendedVersion
      else if source = 3 then some (versionOf 3 0) else none := by
  by_cases h1 : source = 1
  · subst h1
    rfl
  · by_cases h2 : source = 2
    · subst h2
      rfl
    · by_cases h3 : source = 3
      · subst h3
        rfl
      · have hnone : interleaved.filter (fun op => op.source = source) = [] := by
          have hops : interleaved.map (·.source) = [3, 1, 2, 1, 2, 1] := rfl
          rw [List.filter_eq_nil_iff]
          intro op hop
          have hmem : op.source ∈ [3, 1, 2, 1, 2, 1] := hops ▸ List.mem_map_of_mem hop
          simp only [decide_eq_true_eq]
          rintro rfl
          simp only [List.mem_cons, List.not_mem_nil, or_false] at hmem
          tauto
        rw [latest, hnone, if_neg h1, if_neg h3]
        rfl

theorem lookups_interleaved :
    (runOperations interleaved).globals "a" = [⟨1, 3, 0⟩, ⟨3, 0, 0⟩] ∧
      (runOperations interleaved).members (.named "T") = [⟨1, 3, 0⟩, ⟨1, 3, 1⟩, ⟨3, 0, 0⟩] ∧
      collect [versionOf 3 0, amendedVersion]
        (fun f => (f.entries.members.values (.named "T")).map f.model.ref) =
          [⟨1, 3, 0⟩, ⟨1, 3, 1⟩, ⟨3, 0, 0⟩] ∧
      .named "T" ∈ (runOperations interleaved).ownersOf ⟨1, 3, 1⟩ := by
  have hall : ∀ source, (latest interleaved source).isSome → source ∈ [1, 3] := by
    intro source hsome
    rw [latest_interleaved] at hsome
    grind
  have hiteration : ∀ f, f ∈ [versionOf 3 0, amendedVersion] ↔
      latest interleaved f.source = some f := by
    intro f
    rw [latest_interleaved]
    constructor
    · intro hf
      simp only [List.mem_cons, List.not_mem_nil, or_false] at hf
      rcases hf with rfl | rfl <;> rfl
    · intro hf
      split at hf
      · simp [Option.some.inj hf]
      · split at hf
        · simp [Option.some.inj hf]
        · cases hf
  obtain ⟨hglobals, -, hmembers, -, -, -, -, -, -, -, hcollect, -, howners⟩ :=
    lookups_eq_latest interleaved (by decide) hall (by decide) hiteration
  have hvalues := (hmembers (.named "T")).trans (show _ = [⟨1, 3, 0⟩, ⟨1, 3, 1⟩, ⟨3, 0, 0⟩] by rfl)
  refine ⟨(hglobals "a").trans rfl, hvalues, (hcollect _).trans rfl, ?_⟩
  rw [howners, hvalues]
  decide

end ProjectIndex

end LuaAnalysis
