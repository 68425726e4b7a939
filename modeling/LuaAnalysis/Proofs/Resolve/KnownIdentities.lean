import LuaAnalysis.Proofs.Resolve.FoundTypes

/-!
# What tasks can speak of

A file speaks of the tables and closures in the types that it stores. The analysis of one file sees
no other file, and a task types a declaration with what the files of the project hold already and
with the tables and closures of its own tree. So a project whose files speak of some tables and
closures only does so after any tasks (`Project.Knows`).

Main statements: `Project.Knows.exprType`, `Project.Knows.events`.
-/

namespace LuaAnalysis

/-! ## What files speak of -/

/-- The table whose members an owner has, if it is one. -/
def Owner.identities : Owner → List Identity
  | .named _ => []
  | .anonymous id => [.table id]

theorem Owner.identities_type (owner : Owner) : owner.type.identities = owner.identities := by
  cases owner <;> rfl

def Overload.identities (o : Overload) : List Identity :=
  Ty.identitiesOf (o.result :: o.operands)

/-- The tables and closures in what is written about a closure. -/
def Method.identities (m : Method) : List Identity :=
  Ty.identitiesOf (m.overloads.map .signature ++ m.declared)

/-- What the entries of a file speak of. -/
inductive Entries.Holds (e : Entries) : Identity → Prop where
  | member {owner : Owner} {decl : DeclId} {i : Identity} (h : decl ∈ e.members.values owner)
      (hi : i ∈ owner.identities) : Holds e i
  | operator {owner : Owner} {o : Overload} {i : Identity} (h : o ∈ e.operators.values owner)
      (hi : i ∈ owner.identities ++ o.identities) : Holds e i
  | aliased {name : String} {base : Ty} {decl : DeclId} {i : Identity}
      (h : (base, decl) ∈ e.aliases.values name) (hi : i ∈ base.identities) : Holds e i
  | super {name : String} {type : Ty} {i : Identity} (h : type ∈ e.supers.values name)
      (hi : i ∈ type.identities) : Holds e i

/-- The entries speak of what the types in them speak of. -/
theorem Entries.holds_iff {e : Entries} {i : Identity} :
    e.Holds i ↔ ∃ type, e.Stores type ∧ i ∈ type.identities := by
  constructor
  · rintro (⟨h, hi⟩ | ⟨h, hi⟩ | ⟨h, hi⟩ | ⟨h, hi⟩)
    · exact ⟨_, .member h, by rwa [Owner.identities_type]⟩
    · rcases List.mem_append.1 hi with hi | hi
      · exact ⟨_, .operator h, by rwa [Owner.identities_type]⟩
      · obtain ⟨type, htype, hi⟩ := Ty.mem_identitiesOf.1 hi
        rcases List.mem_cons.1 htype with rfl | htype
        · exact ⟨_, .result h, hi⟩
        · exact ⟨type, .operand h htype, hi⟩
    · exact ⟨_, .aliased h, hi⟩
    · exact ⟨_, .super h, hi⟩
  · rintro ⟨type, h | h | ⟨h, htype⟩ | h | h | h, hi⟩
    · exact .member h (by rwa [Owner.identities_type] at hi)
    · rw [Owner.identities_type] at hi
      exact .operator h (List.mem_append_left _ hi)
    · refine .operator h (List.mem_append_right _ ?_)
      exact Ty.mem_identitiesOf.2 ⟨type, List.mem_cons_of_mem _ htype, hi⟩
    · refine .operator h (List.mem_append_right _ ?_)
      exact Ty.mem_identitiesOf.2 ⟨_, List.mem_cons_self, hi⟩
    · exact .aliased h hi
    · exact .super h hi

/-- What a published file speaks of: in its entries, in the types of its declarations, in what is
written about its closures, and in the returns that have been found out for it. -/
inductive PublishedFile.Holds (findings : Findings) (f : PublishedFile) : Identity → Prop where
  | entry {i : Identity} (h : f.entries.Holds i) : Holds findings f i
  | type {decl : DeclId} {type : Ty} {i : Identity} (h : findings.type? f.model decl = some type)
      (hi : i ∈ type.identities) : Holds findings f i
  | method {m : Method} {i : Identity} (h : m ∈ f.model.methods) (hi : i ∈ m.identities) :
      Holds findings f i
  | returned {closure : NodeId} {types : List Ty} {i : Identity}
      (h : findings.inferred? f.model closure = some types) (hi : i ∈ Ty.identitiesOf types) :
      Holds findings f i
  | moduleReturned {types : List Ty} {i : Identity}
      (h : findings.moduleReturns.get? f.model.revision = some types)
      (hi : i ∈ Ty.identitiesOf types) : Holds findings f i

/-- A file speaks of what the types that it stores speak of. -/
theorem PublishedFile.holds_iff {findings : Findings} {f : PublishedFile} {i : Identity} :
    f.Holds findings i ↔ ∃ type, f.Stores findings type ∧ i ∈ type.identities := by
  constructor
  · rintro (h | ⟨h, hi⟩ | ⟨h, hi⟩ | ⟨h, hi⟩ | ⟨h, hi⟩)
    · obtain ⟨type, htype, hi⟩ := Entries.holds_iff.1 h
      exact ⟨type, .entry htype, hi⟩
    · exact ⟨_, .decl h, hi⟩
    · obtain ⟨type, htype, hi⟩ := Ty.mem_identitiesOf.1 hi
      exact ⟨type, .method h htype, hi⟩
    · obtain ⟨type, htype, hi⟩ := Ty.mem_identitiesOf.1 hi
      exact ⟨type, .returned h htype, hi⟩
    · obtain ⟨type, htype, hi⟩ := Ty.mem_identitiesOf.1 hi
      exact ⟨type, .moduleReturned h htype, hi⟩
  · rintro ⟨type, h | h | ⟨h, htype⟩ | ⟨h, htype⟩ | ⟨h, htype⟩, hi⟩
    · exact .entry (Entries.holds_iff.2 ⟨type, h, hi⟩)
    · exact .type h hi
    · exact .method h (Ty.mem_identitiesOf.2 ⟨type, htype, hi⟩)
    · exact .returned h (Ty.mem_identitiesOf.2 ⟨type, htype, hi⟩)
    · exact .moduleReturned h (Ty.mem_identitiesOf.2 ⟨type, htype, hi⟩)

/-! ## Tasks -/

namespace Project

/-- Every table and closure that the trees of a project make, or that its files speak of, is one of
those allowed. -/
structure Knows (allowed : Identity → Prop) (p : Project) : Prop where
  own : ∀ m ∈ p.index.models, ∀ {i : Identity}, m.tree.Makes i → allowed i
  held : ∀ f ∈ p.index.files, ∀ {i : Identity}, f.Holds p.findings i → allowed i

namespace Knows

variable {allowed : Identity → Prop} {p : Project} {m : FileModel}

theorem allTypes (h : p.Knows allowed) : p.AllTypes (Ty.Only allowed) :=
  ⟨Ty.closed_only allowed, fun m hm _ hi => Ty.only_type.2 (h.own m hm hi),
    fun f hf type htype _ hi => h.held f hf (PublishedFile.holds_iff.2 ⟨type, htype, hi⟩)⟩

theorem of_allTypes (h : p.AllTypes (Ty.Only allowed)) : p.Knows allowed := by
  refine ⟨fun m hm _ hi => Ty.only_type.1 (h.own m hm hi), fun f hf i hi => ?_⟩
  obtain ⟨type, htype, hi⟩ := PublishedFile.holds_iff.1 hi
  exact h.stored f hf type htype i hi

/-- An expression has a type from the tables and closures that the project knows. -/
theorem exprType (h : p.Knows allowed) (hm : m ∈ p.index.models) (expr : NodeId) (slot : Nat) :
    (p.exprType m expr slot).Only allowed :=
  h.allTypes.exprType hm expr slot

/-- Tasks of published files bring in nothing from elsewhere. -/
theorem events {events : List TaskEvent} (h : p.Knows allowed)
    (hevents : ∀ e ∈ events, e.model ∈ p.index.models) :
    Knows allowed (events.foldl TaskEvent.apply p) :=
  of_allTypes (h.allTypes.events hevents)

end Knows

end Project

end LuaAnalysis
