import LuaAnalysis.Proofs.Project.Update

/-!
# The members that tasks add

An analysis lists members where they are written. Tasks add two kinds: an assigned field becomes a
member of an owner, and the fields of a table members of the type that the table defines. All other
members are those that the analysis has listed, whatever was done since.

Main statement: `Compilation.Reached.listsMembers`.
-/

namespace LuaAnalysis

/-- Whether a task may make a declaration of a tree a member of an owner: an assigned field of any
owner, a field of a table of the type that the table defines. -/
def SyntaxTree.MayLink (config : Config) (t : SyntaxTree) (owner : Owner) (i : DeclId) : Prop :=
  (∃ d, (t.outline config).decls[i]? = some d ∧ d.kind.isAssignedField = true ∧
      d.kind.isField = false) ∨
    ∃ expr name, owner = .named name ∧ t.Defines expr name ∧
      i ∈ (t.outline config).entries.members.values (.anonymous (t.syntaxId expr))

/-- The members that no task may have added are those that the analysis lists. -/
def PublishedFile.ListsMembers (config : Config) (f : PublishedFile) : Prop :=
  ∀ owner i, ¬f.model.tree.MayLink config owner i →
    (i ∈ f.entries.members.values owner ↔
      i ∈ (f.model.tree.outline config).entries.members.values owner)

variable {config : Config}

namespace PublishedFile.ListsMembers

variable {f : PublishedFile} (h : f.ListsMembers config)
include h

theorem addMember (owner : Owner) {i : DeclId} {d : Declaration}
    (hd : (f.model.tree.outline config).decls[i]? = some d)
    (hassigned : d.kind.isAssignedField = true) (hfield : d.kind.isField = false) :
    ListsMembers config { f with entries := f.entries.addMember owner i } := by
  intro owner' j hnot
  rw [← h owner' j hnot]
  show j ∈ (f.entries.members.addNew owner i).values owner' ↔ _
  rw [Grouped.mem_values_addNew]
  constructor
  · intro hj
    rcases hj with hj | ⟨-, rfl⟩
    · exact hj
    · exact absurd (.inl ⟨d, hd, hassigned, hfield⟩) hnot
  · exact .inl

theorem shareMembers {expr : NodeId} {name : String} (hdefines : f.model.tree.Defines expr name) :
    ListsMembers config
      { f with entries := f.entries.shareMembers (f.model.tree.syntaxId expr) name } := by
  intro owner j hnot
  rw [← h owner j hnot]
  show j ∈ (f.entries.shareMembers _ _).members.values owner ↔ _
  unfold Entries.shareMembers
  rw [Entries.mem_values_addMembers]
  constructor
  · intro hj
    rcases hj with hj | ⟨rfl, hj⟩
    · exact hj
    · -- A member of the table is an assigned field, or the analysis lists it there.
      by_cases hlinked : f.model.tree.MayLink config (.anonymous (f.model.tree.syntaxId expr)) j
      · rcases hlinked with hassigned | ⟨_, _, howner, -⟩
        · exact absurd (.inl hassigned) hnot
        · cases howner
      · exact absurd (.inr ⟨expr, name, rfl, hdefines, (h _ _ hlinked).1 hj⟩) hnot
  · exact .inl

end PublishedFile.ListsMembers

theorem ProjectIndex.Linked.listsMembers {idx idx' : ProjectIndex} (h : Linked idx idx')
    (hfaithful : idx.Faithful config) (hidx : ∀ f ∈ idx.files, f.ListsMembers config) :
    ∀ f ∈ idx'.files, f.ListsMembers config := by
  induction h with
  | refl => exact hidx
  | @field idx' m i d hlinked hm hd hassigned hfield owner ih =>
    refine (hlinked.faithful hfaithful).sorted.forall_amend (hlinked.models ▸ hm) ih ?_
    intro f hf hlists
    subst hf
    obtain ⟨g, hg, hmodel⟩ := List.mem_map.1 hm
    obtain ⟨revision, generation, hanalysed⟩ := (hfaithful.files g hg).analysed
    rw [hmodel] at hanalysed
    have hdecls : (f.model.tree.outline config).decls = f.model.decls :=
      (congrArg FileModel.decls hanalysed).symm
    exact hlists.addMember owner (hdecls ▸ hd) hassigned hfield
  | table hlinked hm hdefines ih =>
    refine (hlinked.faithful hfaithful).sorted.forall_amend (hlinked.models ▸ hm) ih ?_
    intro f hf hlists
    subst hf
    exact hlists.shareMembers hdefines

namespace Compilation

/-- Whatever happened, the members that no task may have added are those that the analyses list. -/
theorem Reached.listsMembers {c : Compilation} (h : Reached config c) :
    ∀ f ∈ c.index.files, f.ListsMembers config := by
  induction h with
  | start => simp
  | register _ _ ih => exact ih
  | @update c c' trees summary h htrees hupdate ih =>
    obtain ⟨hfaithful, htargets⟩ := faithful_opened h.faithful.1 h.faithful.2 htrees
    have hopened : ∀ f ∈ (c.opened trees).files, f.ListsMembers config := by
      intro f hf
      rcases mem_opened h.faithful.2.sorted hf with ⟨a, ha, rfl⟩ | ⟨hold, -⟩
      · obtain ⟨t, -, revision, -, -, rfl⟩ := mem_analyses ha
        rw [h.faithful.1]
        exact fun _ _ _ => Iff.rfl
      · exact ih f hold
    rw [eq_of_update hupdate]
    exact (Project.linked_resolve hfaithful htargets).listsMembers hfaithful hopened
  | remove _ hremove ih =>
    rw [eq_of_remove hremove]
    exact fun f hf => ih f (ProjectIndex.mem_files_retract.1 hf).1

end Compilation

end LuaAnalysis
