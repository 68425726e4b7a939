import LuaAnalysis.Proofs.Types.Closed

/-!
# The tables and closures that a type speaks of

A type holds the identities of table constructors, table type annotations and closures. Operations
on types bring in no identity of their own: a type made of others speaks of nothing that these do
not speak of.

Main statement: `Ty.closed_only`.
-/

namespace LuaAnalysis

/-- What has no name and is known by its node. -/
inductive Identity where
  /-- A table constructor or a table type annotation. -/
  | table (id : SyntaxId)
  | closure (id : SyntaxId)
deriving DecidableEq

namespace Identity

def id : Identity → SyntaxId
  | table id | closure id => id

def source (i : Identity) : SourceId :=
  i.id.source

/-- The type of what has this identity. -/
def type : Identity → Ty
  | table id => .tableLiteral id
  | closure id => .method id

end Identity

namespace Ty

/-! ## What a type speaks of -/

mutual
/-- The tables and closures in a type, at any depth. -/
def identities : Ty → List Identity
  | array element => identities element
  | union ts | tuple ts | genericApp _ ts => identitiesOf ts
  | signature ⟨params, returns⟩ => identitiesOfParams params ++ identitiesOf returns
  | method id => [.closure id]
  | tableLiteral id => [.table id]
  | unknown | nil | any | boolean | integer | number | string | table | function | named _ => []

def identitiesOf : List Ty → List Identity
  | [] => []
  | t :: ts => identities t ++ identitiesOf ts

def identitiesOfParams : List (Param Ty) → List Identity
  | [] => []
  | ⟨_, t⟩ :: params => identities t ++ identitiesOfParams params
end

/-- Every table and closure in a type is one of those allowed. -/
def Only (allowed : Identity → Prop) (t : Ty) : Prop :=
  ∀ i ∈ t.identities, allowed i

variable {allowed : Identity → Prop} {s t : Ty} {ts : List Ty}

theorem mem_identitiesOf {i : Identity} : i ∈ identitiesOf ts ↔ ∃ t ∈ ts, i ∈ t.identities := by
  induction ts with
  | nil => simp [identitiesOf]
  | cons t ts ih => simp [identitiesOf, ih]

theorem mem_identitiesOfParams {params : List (Param Ty)} {i : Identity} :
    i ∈ identitiesOfParams params ↔ ∃ param ∈ params, i ∈ param.type.identities := by
  induction params with
  | nil => simp [identitiesOfParams]
  | cons param params ih =>
    obtain ⟨name, t⟩ := param
    simp [identitiesOfParams, ih]

theorem only_of_isWord (h : t.isWord = true) : t.Only allowed := by
  have hnone : t.identities = [] := by
    cases t with
    | array | union | tuple | signature | method | tableLiteral | genericApp => cases h
    | _ => rfl
  intro i hi
  rw [hnone] at hi
  cases hi

@[simp] theorem only_type {i : Identity} : Only allowed i.type ↔ allowed i := by
  cases i <;> simp [Only, identities, Identity.type]

@[simp] theorem only_array : Only allowed (array t) ↔ t.Only allowed := by
  simp [Only, identities]

theorem forall_identitiesOf :
    (∀ i ∈ identitiesOf ts, allowed i) ↔ ∀ t ∈ ts, t.Only allowed := by
  simp only [mem_identitiesOf, Only]
  exact ⟨fun h t ht i hi => h i ⟨t, ht, hi⟩, fun h i ⟨t, ht, hi⟩ => h t ht i hi⟩

@[simp] theorem only_union : Only allowed (union ts) ↔ ∀ t ∈ ts, t.Only allowed := by
  rw [Only, identities, forall_identitiesOf]

@[simp] theorem only_tuple : Only allowed (tuple ts) ↔ ∀ t ∈ ts, t.Only allowed := by
  rw [Only, identities, forall_identitiesOf]

@[simp] theorem only_genericApp {name : String} :
    Only allowed (genericApp name ts) ↔ ∀ t ∈ ts, t.Only allowed := by
  rw [Only, identities, forall_identitiesOf]

@[simp] theorem only_signature {s : Signature Ty} :
    Only allowed (signature s) ↔
      (∀ param ∈ s.params, param.type.Only allowed) ∧ ∀ t ∈ s.returns, t.Only allowed := by
  obtain ⟨params, returns⟩ := s
  simp only [Only, identities, List.forall_mem_append, mem_identitiesOfParams, mem_identitiesOf]
  constructor
  · rintro ⟨hparams, hreturns⟩
    exact ⟨fun p hp i hi => hparams i ⟨p, hp, hi⟩, fun t ht i hi => hreturns i ⟨t, ht, hi⟩⟩
  · rintro ⟨hparams, hreturns⟩
    exact ⟨fun i ⟨p, hp, hi⟩ => hparams p hp i hi, fun i ⟨t, ht, hi⟩ => hreturns t ht i hi⟩

/-! ## Operations -/

theorem Only.alternatives (h : t.Only allowed) : ∀ a ∈ t.alternatives, a.Only allowed := by
  unfold Ty.alternatives
  split
  · simp
  · exact only_union.1 h
  · simpa using h

theorem only_ofAlternatives (h : ∀ t ∈ ts, t.Only allowed) : (ofAlternatives ts).Only allowed := by
  unfold ofAlternatives
  split
  · exact only_of_isWord rfl
  · exact h _ List.mem_cons_self
  · exact only_union.2 h

/-- A value that has one of two types. -/
theorem Only.join (hs : s.Only allowed) (ht : t.Only allowed) : (s.join t).Only allowed := by
  unfold Ty.join
  apply only_ofAlternatives
  intro a ha
  rcases List.mem_append.1 (distinct_subset _ ha) with ha | ha
  · exact hs.alternatives a ha
  · exact ht.alternatives a ha

/-- What a type speaks of is kept by all operations. -/
theorem closed_only (allowed : Identity → Prop) : Closed (Only allowed) :=
  ⟨only_of_isWord, only_array, only_genericApp, only_signature, only_union.1, only_tuple.1,
    Only.join⟩

end Ty

/-! ## Trees -/

namespace SyntaxTree

/-- The tables and closures that a tree makes. -/
inductive Makes (t : SyntaxTree) : Identity → Prop where
  | table {id : NodeId} {fields : List NodeId} (h : t.node? id = some (.tableExpr fields)) :
      Makes t (.table (t.syntaxId id))
  | tableType {id : NodeId} {fields : List NodeId} (h : t.node? id = some (.docTableType fields)) :
      Makes t (.table (t.syntaxId id))
  | closure {id : NodeId} {params : List NodeId} {body : Option NodeId}
      (h : t.node? id = some (.closureExpr params body)) : Makes t (.closure (t.syntaxId id))

variable {t : SyntaxTree}

theorem Makes.source {i : Identity} (h : t.Makes i) : i.source = t.source := by
  cases h <;> rfl

/-- The types of the tables and closures of a tree have a property that operations keep. -/
structure Admits (t : SyntaxTree) (P : Ty → Prop) : Prop extends Ty.Closed P where
  makes : ∀ {i : Identity}, t.Makes i → P i.type

/-- So does every type that is written in the tree. -/
theorem Admits.written {P : Ty → Prop} (h : t.Admits P) (id : NodeId) : P (t.annotatedType id) :=
  h.annotatedType (fun hn => h.makes (.tableType hn)) id

theorem Admits.written? {P : Ty → Prop} (h : t.Admits P) (id : Option NodeId) :
    P (t.annotatedType? id) :=
  h.annotatedType? (fun hn => h.makes (.tableType hn)) id

/-- The types of a tree speak of its own tables and closures. -/
theorem admits_only (t : SyntaxTree) : t.Admits (Ty.Only t.Makes) :=
  { Ty.closed_only t.Makes with makes := Ty.only_type.2 }

end SyntaxTree

end LuaAnalysis
