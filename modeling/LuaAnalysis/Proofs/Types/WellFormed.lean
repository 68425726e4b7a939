import LuaAnalysis.Proofs.Types.Identity
import Mathlib.Data.List.Nodup

/-!
# Well-formed types

A type that is good for a single value has no tuple in it, and every union in it has several
alternatives, each of them once, that say something and are no unions themselves. Joining types
keeps it so; a tuple comes about only as the value of a call, and whatever takes it apart gets
well-formed types again.

Main statement: `Ty.closed_wellFormed`.
-/

namespace LuaAnalysis

namespace Ty

/-! ## Types inside a type -/

mutual
/-- The types in a type at any depth, with the type itself. -/
def parts : Ty → List Ty
  | array element => array element :: parts element
  | union ts => union ts :: partsOf ts
  | tuple ts => tuple ts :: partsOf ts
  | genericApp name args => genericApp name args :: partsOf args
  | signature ⟨params, returns⟩ =>
    signature ⟨params, returns⟩ :: (partsOfParams params ++ partsOf returns)
  | t => [t]

def partsOf : List Ty → List Ty
  | [] => []
  | t :: ts => parts t ++ partsOf ts

def partsOfParams : List (Param Ty) → List Ty
  | [] => []
  | ⟨_, t⟩ :: params => parts t ++ partsOfParams params
end

def isUnion : Ty → Bool
  | union _ => true
  | _ => false

/-- Whether a type can be the type of one value, as far as its own form goes: it is no tuple, and if
it is a union, then of two alternatives at least, all different, of which none is unknown or a
union. -/
def Single : Ty → Prop
  | tuple _ => False
  | union ts => 2 ≤ ts.length ∧ ts.Nodup ∧ ∀ t ∈ ts, t ≠ unknown ∧ t.isUnion = false
  | _ => True

instance : DecidablePred Single
  | tuple _ => inferInstanceAs (Decidable False)
  | union ts => inferInstanceAs (Decidable
      (2 ≤ ts.length ∧ ts.Nodup ∧ ∀ t ∈ ts, t ≠ unknown ∧ t.isUnion = false))
  | unknown | nil | any | boolean | integer | number | string | table | function | named _ | array _
  | signature _ | method _ | tableLiteral _ | genericApp _ _ => inferInstanceAs (Decidable True)

/-- Every type inside a type, at any depth, has the form of a single value. -/
def WellFormed (t : Ty) : Prop :=
  ∀ s ∈ t.parts, s.Single

instance : DecidablePred WellFormed := fun t =>
  inferInstanceAs (Decidable (∀ s ∈ t.parts, s.Single))

variable {s t : Ty} {ts : List Ty}

theorem forall_partsOf : (∀ s ∈ partsOf ts, s.Single) ↔ ∀ t ∈ ts, t.WellFormed := by
  induction ts with
  | nil => simp [partsOf]
  | cons t ts ih => rw [partsOf, List.forall_mem_append, ih, List.forall_mem_cons, WellFormed]

theorem forall_partsOfParams {params : List (Param Ty)} :
    (∀ s ∈ partsOfParams params, s.Single) ↔ ∀ param ∈ params, param.type.WellFormed := by
  induction params with
  | nil => simp [partsOfParams]
  | cons param params ih =>
    obtain ⟨name, t⟩ := param
    rw [partsOfParams, List.forall_mem_append, ih, List.forall_mem_cons, WellFormed]

theorem wellFormed_of_parts (hparts : t.parts = [t]) (h : t.Single) : t.WellFormed := by
  rw [WellFormed, hparts]
  exact List.forall_mem_singleton.2 h

theorem wellFormed_of_isWord (h : t.isWord = true) : t.WellFormed := by
  cases t with
  | array | union | tuple | signature | method | tableLiteral | genericApp => cases h
  | _ => exact wellFormed_of_parts rfl trivial

theorem wellFormed_type (i : Identity) : i.type.WellFormed := by
  cases i <;> exact wellFormed_of_parts rfl trivial

theorem wellFormed_array : WellFormed (array t) ↔ t.WellFormed := by
  rw [WellFormed, parts, List.forall_mem_cons]
  exact and_iff_right trivial

theorem wellFormed_genericApp {name : String} :
    WellFormed (genericApp name ts) ↔ ∀ t ∈ ts, t.WellFormed := by
  rw [WellFormed, parts, List.forall_mem_cons, forall_partsOf]
  exact and_iff_right trivial

theorem wellFormed_signature {s : Signature Ty} : WellFormed (signature s) ↔
    (∀ param ∈ s.params, param.type.WellFormed) ∧ ∀ t ∈ s.returns, t.WellFormed := by
  obtain ⟨params, returns⟩ := s
  rw [WellFormed, parts, List.forall_mem_cons, List.forall_mem_append, forall_partsOfParams,
    forall_partsOf]
  exact and_iff_right trivial

theorem wellFormed_union : WellFormed (union ts) ↔
    (2 ≤ ts.length ∧ ts.Nodup ∧ ∀ t ∈ ts, t ≠ unknown ∧ t.isUnion = false) ∧
      ∀ t ∈ ts, t.WellFormed := by
  rw [WellFormed, parts, List.forall_mem_cons, forall_partsOf]
  rfl

theorem not_wellFormed_tuple : ¬WellFormed (tuple ts) := fun h =>
  h (tuple ts) (by rw [parts]; exact List.mem_cons_self)

/-! ## Joined types -/

theorem nodup_distinct (ts : List Ty) : (distinct ts).Nodup := by
  unfold distinct
  -- What has been seen so far has been seen once.
  suffices hfold : ∀ rest seen : List Ty, seen.Nodup →
      (rest.foldl (fun seen t => if t ∈ seen then seen else seen ++ [t]) seen).Nodup from
    hfold ts [] List.nodup_nil
  intro rest
  induction rest with
  | nil => exact fun _ hseen => hseen
  | cons t rest ih =>
    intro seen hseen
    apply ih
    dsimp only
    split
    · exact hseen
    · next hnew =>
      rw [← List.concat_eq_append]
      exact List.Nodup.concat hnew hseen

/-- What may stand in a union. -/
def Alternative (t : Ty) : Prop :=
  t.WellFormed ∧ t ≠ unknown ∧ t.isUnion = false

theorem WellFormed.alternatives (h : t.WellFormed) : ∀ a ∈ t.alternatives, a.Alternative := by
  unfold Ty.alternatives
  split
  · exact List.forall_mem_nil _
  · next ts =>
    obtain ⟨⟨-, -, hform⟩, hparts⟩ := wellFormed_union.1 h
    exact fun a ha => ⟨hparts a ha, hform a ha⟩
  · next hunknown hunion =>
    refine List.forall_mem_singleton.2 ⟨h, hunknown, ?_⟩
    cases t with
    | union ts => exact absurd rfl (hunion ts)
    | _ => rfl

theorem wellFormed_ofAlternatives (hnodup : ts.Nodup) (h : ∀ t ∈ ts, t.Alternative) :
    (ofAlternatives ts).WellFormed := by
  unfold ofAlternatives
  split
  · exact wellFormed_of_isWord rfl
  · exact (h _ List.mem_cons_self).1
  · next hnil hsingle =>
    have hlength : 2 ≤ ts.length := by
      match ts with
      | [] => exact absurd rfl hnil
      | [t] => exact absurd rfl (hsingle t)
      | _ :: _ :: _ => exact Nat.le_add_left 2 _
    exact wellFormed_union.2 ⟨⟨hlength, hnodup, fun t ht => (h t ht).2⟩, fun t ht => (h t ht).1⟩

theorem WellFormed.join (hs : s.WellFormed) (ht : t.WellFormed) : (s.join t).WellFormed := by
  unfold Ty.join
  apply wellFormed_ofAlternatives (nodup_distinct _)
  intro a ha
  rcases List.mem_append.1 (distinct_subset _ ha) with ha | ha
  · exact hs.alternatives a ha
  · exact ht.alternatives a ha

/-- All operations give well-formed types for well-formed types. -/
theorem closed_wellFormed : Closed WellFormed :=
  ⟨wellFormed_of_isWord, wellFormed_array, wellFormed_genericApp, wellFormed_signature,
    fun h => (wellFormed_union.1 h).2, fun h => absurd h not_wellFormed_tuple, WellFormed.join⟩

end Ty

end LuaAnalysis
