import LuaAnalysis.Types.Annotation

/-!
# What operations on types keep

Types are written in annotations, or they come from others: they are joined, taken out of arrays
and signatures, and spread over several targets. `Ty.Closed` says of a property of types that all of
this keeps it. Then every written type has the property if the table types in it do
(`Ty.Closed.annotatedType`), and every value of a call does if the returns do (`Ty.Closed.slot`,
`Ty.Closed.ofReturns`).

The value of a call may be a tuple, which need not have the property itself: `Ty.values` are what it
stands for.
-/

namespace LuaAnalysis

namespace Ty

/-- Whether a type is no more than a word: it has no parts and no identity. -/
def isWord : Ty → Bool
  | unknown | nil | any | boolean | integer | number | string | table | function | named _ => true
  | array _ | union _ | tuple _ | signature _ | method _ | tableLiteral _ | genericApp _ _ => false

/-- The values that the value of a call stands for. -/
def values : Ty → List Ty
  | tuple ts => ts
  | t => [t]

theorem distinct_subset (ts : List Ty) : distinct ts ⊆ ts := by
  unfold distinct
  -- What has been seen so far, and what is still to come, are all from the list.
  suffices hfold : ∀ rest seen : List Ty, seen ⊆ ts → rest ⊆ ts →
      rest.foldl (fun seen t => if t ∈ seen then seen else seen ++ [t]) seen ⊆ ts from
    hfold ts [] (List.nil_subset _) (List.Subset.refl _)
  intro rest
  induction rest with
  | nil => exact fun seen hseen _ => hseen
  | cons t rest ih =>
    intro seen hseen hrest
    obtain ⟨ht, hrest⟩ := List.cons_subset.1 hrest
    apply ih _ _ hrest
    dsimp only
    split
    · exact hseen
    · exact List.append_subset.2 ⟨hseen, List.cons_subset.2 ⟨ht, List.nil_subset _⟩⟩

/-- A property that a type has when its parts have it, that the parts have when it has it, and that
joining types keeps. -/
structure Closed (P : Ty → Prop) : Prop where
  word : ∀ {t : Ty}, t.isWord = true → P t
  array : ∀ {t : Ty}, P (.array t) ↔ P t
  genericApp : ∀ {name : String} {ts : List Ty}, P (.genericApp name ts) ↔ ∀ t ∈ ts, P t
  signature : ∀ {s : Signature Ty}, P (.signature s) ↔
    (∀ param ∈ s.params, P param.type) ∧ ∀ t ∈ s.returns, P t
  union : ∀ {ts : List Ty}, P (.union ts) → ∀ t ∈ ts, P t
  tuple : ∀ {ts : List Ty}, P (.tuple ts) → ∀ t ∈ ts, P t
  join : ∀ {s t : Ty}, P s → P t → P (s.join t)

namespace Closed

variable {P : Ty → Prop} (h : Closed P) {s t : Ty} {ts : List Ty}
include h

theorem unknown : P .unknown :=
  h.word rfl

theorem nil : P .nil :=
  h.word rfl

theorem nullable (ht : P t) : P t.nullable :=
  h.join ht h.nil

/-- A type that may be missing. -/
theorem getD {type : Option Ty} (htype : ∀ t ∈ type, P t) : P (type.getD .unknown) := by
  cases type with
  | none => exact h.unknown
  | some t => exact htype t rfl

theorem foldl_join (hs : P s) (hts : ∀ t ∈ ts, P t) : P (ts.foldl Ty.join s) := by
  induction ts generalizing s with
  | nil => exact hs
  | cons t ts ih =>
    obtain ⟨ht, hts⟩ := List.forall_mem_cons.1 hts
    exact ih (h.join hs ht) hts

/-! ## Values of calls -/

theorem values (ht : P t) : ∀ a ∈ t.values, P a := by
  unfold Ty.values
  split
  · exact h.tuple ht
  · exact List.forall_mem_singleton.2 ht

/-- One of the values of a call. -/
theorem slot (ht : ∀ a ∈ t.values, P a) (i : Nat) : P (t.slot i) := by
  unfold Ty.slot
  split
  · exact h.unknown
  · exact h.word rfl
  · next ts =>
    rw [List.getD_eq_getElem?_getD]
    cases hget : ts[i]? with
    | none => exact h.nil
    | some a => exact ht a (List.mem_of_getElem? hget)
  · next htuple =>
    refine ht _ ?_
    unfold Ty.values
    split
    · exact absurd rfl (htuple _)
    · exact List.mem_singleton_self _
  · exact h.nil

theorem ofReturns (hts : ∀ t ∈ ts, P t) : ∀ a ∈ (ofReturns ts).values, P a := by
  unfold Ty.ofReturns
  split
  · exact h.values h.nil
  · exact h.values (hts _ List.mem_cons_self)
  · exact hts

/-! ## Written types -/

theorem builtin? {text : String} (ht : builtin? text = some t) : P t := by
  unfold Ty.builtin? at ht
  split at ht
  all_goals cases ht
  all_goals exact h.word rfl

section
variable {tree : SyntaxTree} (htables : ∀ {id : NodeId} {fields : List NodeId},
  tree.node? id = some (.docTableType fields) → P (.tableLiteral (tree.syntaxId id)))
include htables

theorem annotationStep {type : NodeId → Ty} (htypes : ∀ id, P (type id)) (id : NodeId) :
    P (tree.annotationStep type id) := by
  have hpart (part : Option NodeId) : P ((part.map type).getD .unknown) := by
    refine h.getD fun t ht => ?_
    obtain ⟨id, -, rfl⟩ := Option.map_eq_some_iff.1 ht
    exact htypes id
  have hlist (ids : List NodeId) : ∀ a ∈ ids.map type, P a := by
    intro a ha
    obtain ⟨id, -, rfl⟩ := List.mem_map.1 ha
    exact htypes id
  unfold SyntaxTree.annotationStep
  split
  · next name _ =>
    cases hname : Ty.builtin? name with
    | none => exact h.word rfl
    | some a => exact h.builtin? hname
  · exact h.array.2 (hpart _)
  · exact h.foldl_join h.unknown (hlist _)
  · refine h.signature.2 ⟨fun param hparam => ?_, hlist _⟩
    obtain ⟨id, -, hid⟩ := List.mem_filterMap.1 hparam
    split at hid
    · obtain rfl := Option.some.inj hid
      dsimp only
      split
      · exact h.nullable (hpart _)
      · exact hpart _
    · cases hid
  · next hn => exact htables hn
  · split
    · exact h.genericApp.2 (hlist _)
    · exact h.unknown
  · exact h.unknown

/-- A written type has the property if the table types that are written have it. -/
theorem annotatedType (id : NodeId) : P (tree.annotatedType id) := by
  have hlevels (levels : Nat) (id : NodeId) : P (tree.annotatedTypeWithin levels id) := by
    induction levels generalizing id with
    | zero => exact h.unknown
    | succ levels ih => exact h.annotationStep htables ih id
  exact hlevels (id + 1) id

theorem annotatedType? (id : Option NodeId) : P (tree.annotatedType? id) := by
  cases id with
  | none => exact h.unknown
  | some id => exact h.annotatedType htables id

end

end Closed

end Ty

end LuaAnalysis
