import LuaAnalysis.Project.Lookup
import LuaAnalysis.Proofs.File.Homes

/-!
# Published files

An index holds at most one file of each source, so a reference leads to one declaration at most. In
a faithful index every file is an analysis of its tree, what stands in its entries is so, and every
field has an owner that it may have.

Main statements: `ProjectIndex.decl?_eq_some`, `ProjectIndex.Faithful.publish`.
-/

namespace LuaAnalysis

namespace ProjectIndex

/-- No source has two files. -/
def Sorted (idx : ProjectIndex) : Prop :=
  idx.files.Pairwise fun f g => f.source < g.source

/-- The models of the files. -/
def models (idx : ProjectIndex) : List FileModel :=
  idx.files.map (·.model)

variable {idx : ProjectIndex} {f g : PublishedFile}

theorem Sorted.unique (h : idx.Sorted) (hf : f ∈ idx.files) (hg : g ∈ idx.files)
    (hsource : f.source = g.source) : f = g := by
  -- Two files that stand in some order are of different sources.
  refine List.Pairwise.forall_of_forall_of_flip (R := fun f g => f.source = g.source → f = g)
    (fun _ _ _ => rfl) ?_ ?_ hf hg hsource
  · exact List.Pairwise.imp (fun hlt heq => absurd heq (Nat.ne_of_lt hlt)) h
  · exact List.Pairwise.imp (fun hlt heq => absurd heq.symm (Nat.ne_of_lt hlt)) h

theorem Sorted.model_unique (h : idx.Sorted) {m m' : FileModel} (hm : m ∈ idx.models)
    (hm' : m' ∈ idx.models) (hsource : m.source = m'.source) : m = m' := by
  obtain ⟨f, hf, rfl⟩ := List.mem_map.1 hm
  obtain ⟨g, hg, rfl⟩ := List.mem_map.1 hm'
  rw [h.unique hf hg hsource]

theorem file?_eq_some (h : idx.Sorted) {source : SourceId} :
    idx.file? source = some f ↔ f ∈ idx.files ∧ f.source = source := by
  constructor
  · intro hfind
    exact ⟨List.mem_of_find?_eq_some hfind, by simpa using List.find?_some hfind⟩
  · rintro ⟨hf, rfl⟩
    cases hfind : idx.file? f.source with
    | none => exact absurd (List.find?_eq_none.1 hfind f hf) (by simp)
    | some g =>
      have hg : g.source = f.source := by simpa using List.find?_some hfind
      rw [h.unique (List.mem_of_find?_eq_some hfind) hf hg]

/-! ## Publishing and retracting -/

theorem mem_insertInto {files : List PublishedFile}
    (h : files.Pairwise fun f g => f.source < g.source) :
    g ∈ insertInto f files ↔ g = f ∨ g ∈ files ∧ g.source ≠ f.source := by
  induction files with
  | nil => simp [insertInto]
  | cons a rest ih =>
    obtain ⟨hhead, hrest⟩ := List.pairwise_cons.1 h
    unfold insertInto
    split
    · next hlt =>
      -- The file comes before all others, so none of them is of its source.
      have hother : ∀ b ∈ a :: rest, b.source ≠ f.source := by
        intro b hb
        rcases List.mem_cons.1 hb with rfl | hb
        · exact (Nat.ne_of_lt hlt).symm
        · exact (Nat.ne_of_lt (Nat.lt_trans hlt (hhead b hb))).symm
      rw [List.mem_cons]
      exact or_congr_right ⟨fun hg => ⟨hg, hother g hg⟩, And.left⟩
    · split
      · next heq =>
        have hother : ∀ b ∈ rest, b.source ≠ f.source := by
          intro b hb
          rw [heq]
          exact (Nat.ne_of_lt (hhead b hb)).symm
        rw [List.mem_cons, List.mem_cons]
        refine or_congr_right ⟨fun hg => ⟨.inr hg, hother g hg⟩, ?_⟩
        rintro ⟨rfl | hg, hne⟩
        · exact absurd heq.symm hne
        · exact hg
      · next hne =>
        rw [List.mem_cons, ih hrest, List.mem_cons]
        constructor
        · rintro (rfl | rfl | ⟨hg, hsource⟩)
          · exact .inr ⟨.inl rfl, fun h => hne h.symm⟩
          · exact .inl rfl
          · exact .inr ⟨.inr hg, hsource⟩
        · rintro (rfl | ⟨rfl | hg, hsource⟩)
          · exact .inr (.inl rfl)
          · exact .inl rfl
          · exact .inr (.inr ⟨hg, hsource⟩)

theorem Sorted.publish (h : idx.Sorted) (f : PublishedFile) : (idx.publish f).Sorted := by
  have hsorted {files : List PublishedFile}
      (h : files.Pairwise fun f g => f.source < g.source) :
      (insertInto f files).Pairwise fun f g => f.source < g.source := by
    induction files with
    | nil => simp [insertInto]
    | cons a rest ih =>
      obtain ⟨hhead, hrest⟩ := List.pairwise_cons.1 h
      unfold insertInto
      split
      · next hlt =>
        refine List.pairwise_cons.2 ⟨fun b hb => ?_, h⟩
        rcases List.mem_cons.1 hb with rfl | hb
        · exact hlt
        · exact Nat.lt_trans hlt (hhead b hb)
      · next hle =>
        split
        · next heq =>
          exact List.pairwise_cons.2 ⟨fun b hb => heq ▸ hhead b hb, hrest⟩
        · next hne =>
          refine List.pairwise_cons.2 ⟨fun b hb => ?_, ih hrest⟩
          rcases (mem_insertInto hrest).1 hb with rfl | ⟨hb, -⟩
          · exact Nat.lt_of_le_of_ne (Nat.le_of_not_lt hle) fun h => hne h.symm
          · exact hhead b hb
  exact hsorted h

theorem mem_files_publish (h : idx.Sorted) :
    g ∈ (idx.publish f).files ↔ g = f ∨ g ∈ idx.files ∧ g.source ≠ f.source :=
  mem_insertInto h

theorem mem_files_retract {source : SourceId} :
    g ∈ (idx.retract source).files ↔ g ∈ idx.files ∧ g.source ≠ source := by
  simp [retract]

theorem Sorted.retract (h : idx.Sorted) (source : SourceId) : (idx.retract source).Sorted :=
  List.Pairwise.filter _ h

/-! ## Declarations by reference -/

theorem decl?_ref (h : idx.Sorted) (hf : f ∈ idx.files) (i : DeclId) :
    idx.decl? (f.model.ref i) = (f.model.decl? i).map fun d => (f.model, d) := by
  have hfile : idx.file? (f.model.ref i).source = some f := (file?_eq_some h).2 ⟨hf, rfl⟩
  have hmodel : idx.model? (f.model.ref i).source = some f.model := by
    rw [model?, hfile, Option.map_some]
  rw [decl?, hmodel]
  exact if_pos rfl

theorem decl?_eq_some (h : idx.Sorted) {ref : DeclRef} {m : FileModel} {d : Declaration} :
    idx.decl? ref = some (m, d) ↔
      ∃ f ∈ idx.files, f.model = m ∧ ref = m.ref ref.decl ∧ m.decl? ref.decl = some d := by
  constructor
  · intro hd
    unfold decl? model? at hd
    cases hfile : idx.file? ref.source with
    | none =>
      rw [hfile] at hd
      cases hd
    | some f =>
      obtain ⟨hf, hsource⟩ := (file?_eq_some h).1 hfile
      rw [hfile, Option.map_some] at hd
      dsimp only at hd
      split at hd
      · next hgeneration =>
        obtain ⟨e, he, heq⟩ := Option.map_eq_some_iff.1 hd
        obtain ⟨rfl, rfl⟩ := Prod.mk.inj heq
        refine ⟨f, hf, rfl, ?_, he⟩
        rw [FileModel.ref, hgeneration, show f.model.source = ref.source from hsource]
      · cases hd
  · rintro ⟨f, hf, rfl, href, hd⟩
    rw [href, decl?_ref h hf, hd]
    rfl

theorem mem_refs {κ : Type} [DecidableEq κ] {table : Entries → Grouped κ DeclId} {k : κ}
    {ref : DeclRef} : ref ∈ idx.refs table k ↔
      ∃ f ∈ idx.files, ∃ i ∈ (table f.entries).values k, ref = f.model.ref i := by
  simp [refs, eq_comm]

theorem mem_members (h : idx.Sorted) {owner : Owner} {ref : DeclRef} :
    ref ∈ idx.members owner ↔ ∃ f, idx.file? ref.source = some f ∧
      f.model.generation = ref.generation ∧ ref.decl ∈ f.entries.members.values owner := by
  show ref ∈ idx.refs (·.members) owner ↔ _
  rw [mem_refs]
  constructor
  · intro hmem
    obtain ⟨f, hf, i, hi, heq⟩ := hmem
    subst heq
    exact ⟨f, (file?_eq_some h).2 ⟨hf, rfl⟩, rfl, hi⟩
  · intro hfile
    obtain ⟨f, hfind, hgeneration, hdecl⟩ := hfile
    obtain ⟨hf, hsource⟩ := (file?_eq_some h).1 hfind
    refine ⟨f, hf, ref.decl, hdecl, ?_⟩
    rw [FileModel.ref, hgeneration, show f.model.source = ref.source from hsource]

theorem ref_mem_members (h : idx.Sorted) {f : PublishedFile} (hf : f ∈ idx.files) {owner : Owner}
    {i : DeclId} : f.model.ref i ∈ idx.members owner ↔ i ∈ f.entries.members.values owner := by
  rw [mem_members h, show (f.model.ref i).source = f.source from rfl,
    (file?_eq_some h).2 ⟨hf, rfl⟩]
  constructor
  · intro hmem
    obtain ⟨g, hg, -, hi⟩ := hmem
    rwa [← Option.some.inj hg] at hi
  · exact fun hi => ⟨f, rfl, rfl, hi⟩

theorem mem_occurrences {table : Entries → Grouped String NodeId} {name : String} {m : FileModel}
    {x : NodeId} : (m, x) ∈ idx.occurrences table name ↔
      ∃ f ∈ idx.files, x ∈ (table f.entries).values name ∧ f.model = m := by
  simp only [occurrences, List.mem_flatMap, List.mem_map, Prod.mk.injEq]
  refine ⟨?_, ?_⟩
  · rintro ⟨f, hf, y, hy, hm, rfl⟩
    exact ⟨f, hf, hy, hm⟩
  · rintro ⟨f, hf, hx, hm⟩
    exact ⟨f, hf, x, hx, hm, rfl⟩

end ProjectIndex

/-! ## Faithful files -/

/-- A file that is the analysis of its tree, with entries that say what is so, give fields no other
owners than they may have and miss no occurrence. -/
structure PublishedFile.Faithful (config : Config) (f : PublishedFile) : Prop where
  proper : f.model.tree.Proper
  analysed : ∃ revision generation,
    f.model = (f.model.tree.analyse config revision generation).model
  sound : f.entries.Sound f.model.tree (f.model.tree.below f.model.tree.root) f.model.decls
  homed : f.entries.Homed f.model.tree f.model.decls
  names : config.indexNameExprs = true → ∀ x ∈ f.model.tree.below f.model.tree.root, ∀ name,
    f.model.tree.node? x = some (.nameExpr name) → x ∈ f.entries.nameExprs.values name
  types : config.indexNameExprs = true → ∀ x ∈ f.model.tree.below f.model.tree.root, ∀ name,
    f.model.tree.node? x = some (.docNameType name) → x ∈ f.entries.typeRefs.values name

theorem PublishedFile.faithful_analyse (config : Config) (revision : Revision) (generation : Nat)
    {t : SyntaxTree} (h : t.Proper) :
    Faithful config ⟨(t.analyse config revision generation).model,
      (t.analyse config revision generation).entries⟩ := by
  obtain ⟨hsound, hnames, htypes, -⟩ := Outline.contributed config h
  exact ⟨h, ⟨revision, generation, rfl⟩, hsound, (Outline.atHome config h).homed h, hnames, htypes⟩

/-- Another member that is no field changes nothing about that. -/
theorem PublishedFile.Faithful.addMember {config : Config} {f : PublishedFile}
    (h : f.Faithful config) (owner : Owner) {i : DeclId} {d : Declaration}
    (hd : f.model.decl? i = some d) (hkind : d.kind.isMember = true)
    (hfield : d.kind.isField = false) :
    Faithful config { f with entries := f.entries.addMember owner i } :=
  ⟨h.proper, h.analysed, h.sound.addMember owner hd hkind, h.homed.addMember owner hd hfield,
    h.names, h.types⟩

/-- Neither do the members of a table that defines a type, when they become those of the type. -/
theorem PublishedFile.Faithful.shareMembers {config : Config} {f : PublishedFile}
    (h : f.Faithful config) {expr : NodeId} {name : String}
    (hdefines : f.model.tree.Defines expr name) :
    Faithful config
      { f with entries := f.entries.shareMembers (f.model.tree.syntaxId expr) name } := by
  obtain ⟨members, hmembers⟩ := f.entries.exists_members_addMembers (.named name)
    (f.entries.members.values (.anonymous (f.model.tree.syntaxId expr)))
  have hentries : f.entries.shareMembers (f.model.tree.syntaxId expr) name =
      { f.entries with members } := hmembers
  refine ⟨h.proper, h.analysed, ?_, h.homed.shareMembers h.proper hdefines, ?_, ?_⟩
  · exact h.sound.addMembers _ fun i hi => h.sound.members hi
  · rw [hentries]
    exact h.names
  · rw [hentries]
    exact h.types

structure ProjectIndex.Faithful (config : Config) (idx : ProjectIndex) : Prop where
  sorted : idx.Sorted
  files : ∀ f ∈ idx.files, f.Faithful config

namespace ProjectIndex

variable {config : Config} {idx : ProjectIndex} {f : PublishedFile}

theorem Faithful.empty (config : Config) : Faithful config {} :=
  ⟨List.Pairwise.nil, by simp⟩

theorem Faithful.publish (h : idx.Faithful config) (hf : f.Faithful config) :
    (idx.publish f).Faithful config := by
  refine ⟨h.sorted.publish f, fun g hg => ?_⟩
  rcases (mem_files_publish h.sorted).1 hg with rfl | ⟨hg, -⟩
  · exact hf
  · exact h.files g hg

theorem Faithful.retract (h : idx.Faithful config) (source : SourceId) :
    (idx.retract source).Faithful config :=
  ⟨h.sorted.retract source, fun g hg => h.files g (mem_files_retract.1 hg).1⟩

end ProjectIndex

end LuaAnalysis
