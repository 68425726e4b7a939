import LuaAnalysis.Proofs.Project.LookupReads
import Mathlib.Data.List.Forall2

/-!
# Alike projects

Two projects are alike when their files are the same up to the numbers of their analyses and to the
members that tasks have added. So they know the same names, and look-up by name and the owners of
types are the same in both.

Main statements: `ProjectIndex.Alike.sameNames`, `Lookup.ownersOfType_alike`.
-/

namespace LuaAnalysis

/-- Two analyses that differ only in their numbers. -/
def FileModel.Alike (m m' : FileModel) : Prop :=
  m' = { m with revision := m'.revision }

structure PublishedFile.Alike (f g : PublishedFile) : Prop where
  model : f.model.Alike g.model
  entries : ∃ members, g.entries = { f.entries with members }

/-- Two indexes with alike files. -/
def ProjectIndex.Alike (idx idx' : ProjectIndex) : Prop :=
  List.Forall₂ PublishedFile.Alike idx.files idx'.files

namespace FileModel.Alike

variable {m m' : FileModel}

theorem refl (m : FileModel) : m.Alike m :=
  rfl

theorem symm (h : m.Alike m') : m'.Alike m := by
  unfold FileModel.Alike
  rw [h]

theorem tree (h : m.Alike m') : m'.tree = m.tree := by
  rw [h]

theorem source (h : m.Alike m') : m'.source = m.source := by
  rw [h]
  rfl

theorem generation (h : m.Alike m') : m'.generation = m.generation := by
  rw [h]

theorem decl? (h : m.Alike m') (i : DeclId) : m'.decl? i = m.decl? i := by
  rw [h]
  rfl

theorem ref (h : m.Alike m') (i : DeclId) : m'.ref i = m.ref i := by
  rw [h]
  rfl

theorem sameButTypes (h : m.Alike m') : m.SameButTypes m' := by
  rw [h]
  exact ⟨rfl, rfl, rfl, rfl, rfl, rfl⟩

end FileModel.Alike

namespace ProjectIndex

theorem Alike.refl (idx : ProjectIndex) : idx.Alike idx :=
  List.forall₂_same.2 fun f _ => ⟨.refl f.model, f.entries.members, rfl⟩

variable {idx idx' : ProjectIndex} (h : idx.Alike idx')
include h

theorem Alike.symm : idx'.Alike idx := by
  refine h.flip.imp fun f g hgf => ?_
  obtain ⟨members, hentries⟩ := hgf.entries
  exact ⟨hgf.model.symm, g.entries.members, by rw [hentries]⟩

theorem Alike.exists_file {g : PublishedFile} (hg : g ∈ idx'.files) : ∃ f ∈ idx.files, f.Alike g := by
  unfold ProjectIndex.Alike at h
  generalize idx.files = files at h
  generalize idx'.files = files' at h hg
  induction h with
  | nil => cases hg
  | @cons f g' files files' hfg _ ih =>
    rcases List.mem_cons.1 hg with rfl | hg
    · exact ⟨f, List.mem_cons_self, hfg⟩
    · obtain ⟨f', hf', hfg'⟩ := ih hg
      exact ⟨f', List.mem_cons_of_mem _ hf', hfg'⟩

/-- What the files contribute one after the other is the same when it is the same for every two
alike files. -/
theorem flatMap_alike {α : Type} {get : PublishedFile → List α}
    (hget : ∀ {f g : PublishedFile}, f.Alike g → get f = get g) :
    idx.files.flatMap get = idx'.files.flatMap get := by
  unfold ProjectIndex.Alike at h
  generalize idx.files = files at h
  generalize idx'.files = files' at h
  induction h with
  | nil => rfl
  | cons hfg _ ih => rw [List.flatMap_cons, List.flatMap_cons, hget hfg, ih]

theorem globals_alike (name : String) : idx.globals name = idx'.globals name := by
  refine flatMap_alike h fun {f g} hfg => ?_
  obtain ⟨members, hentries⟩ := hfg.entries
  rw [hentries]
  exact List.map_congr_left fun i _ => (hfg.model.ref i).symm

theorem aliases_alike (name : String) : idx.aliases name = idx'.aliases name := by
  refine flatMap_alike h fun {f g} hfg => ?_
  obtain ⟨members, hentries⟩ := hfg.entries
  rw [hentries]
  exact List.map_congr_left fun e _ => congrArg (e.1, ·) (hfg.model.ref e.2).symm

theorem types_alike (name : String) : idx.types name = idx'.types name := by
  refine flatMap_alike h fun {f g} hfg => ?_
  obtain ⟨members, hentries⟩ := hfg.entries
  rw [hentries]
  exact List.map_congr_left fun e _ => congrArg (·, e.2) (hfg.model.ref e.1).symm

theorem supers_alike (name : String) : idx.supers name = idx'.supers name := by
  refine flatMap_alike h fun {f g} hfg => ?_
  obtain ⟨members, hentries⟩ := hfg.entries
  rw [hentries]

theorem operators_alike (owner : Owner) : idx.operators owner = idx'.operators owner := by
  refine flatMap_alike h fun {f g} hfg => ?_
  obtain ⟨members, hentries⟩ := hfg.entries
  rw [hentries]

theorem model?_alike (source : SourceId) :
    Option.Rel FileModel.Alike (idx.model? source) (idx'.model? source) := by
  unfold ProjectIndex.Alike at h
  unfold model? file?
  generalize idx.files = files at h
  generalize idx'.files = files' at h
  induction h with
  | nil => exact .none
  | @cons f g _ _ hfg _ ih =>
    have hsource : g.source = f.source := hfg.model.source
    rw [List.find?_cons, List.find?_cons, hsource]
    split
    · exact .some hfg.model
    · exact ih

theorem decl?_alike (ref : DeclRef) :
    Option.Rel (fun x y => x.1.Alike y.1 ∧ x.2 = y.2) (idx.decl? ref) (idx'.decl? ref) := by
  have hmodel := model?_alike h ref.source
  unfold decl?
  generalize idx.model? ref.source = found at hmodel
  generalize idx'.model? ref.source = found' at hmodel
  cases hmodel with
  | none => exact .none
  | @some m m' hm =>
    dsimp only
    rw [hm.generation, hm.decl?]
    split
    · cases m.decl? ref.decl with
      | none => exact .none
      | some d => exact .some ⟨hm, rfl⟩
    · exact .none

theorem Alike.sameNames : idx.SameNames idx' := by
  refine ⟨fun ref => ?_, globals_alike h, aliases_alike h, supers_alike h, operators_alike h⟩
  have hdecl := decl?_alike h ref
  generalize idx.decl? ref = found at hdecl ⊢
  generalize idx'.decl? ref = found' at hdecl ⊢
  cases hdecl with
  | none => exact .none
  | some hd => exact .some (congrArg Declaration.untyped hd.2)

end ProjectIndex

theorem Lookup.namedType?_alike {l l' : Lookup} (h : l.index.Alike l'.index) (name : String)
    (source : SourceId) : l.namedType? name source = l'.namedType? name source := by
  rw [namedType?, namedType?, prefer?_congr h.sameNames, ProjectIndex.types_alike h]

theorem Lookup.ownersOfType_alike {l l' : Lookup} (h : l.index.Alike l'.index)
    (hdepth : l.maxSuperDepth = l'.maxSuperDepth) (type : Ty) :
    l.ownersOfType type = l'.ownersOfType type :=
  ownersOfType_congr h.sameNames hdepth type

end LuaAnalysis
