import LuaAnalysis.Proofs.Syntax.Descent
import LuaAnalysis.Proofs.Types.WellFormed
import Mathlib.Data.List.Induction

/-!
# Unions as joins

A normal type is no union, or it is a flat union without repetition. Normal types are the same as
lists of alternatives without repetition (`Ty.ofAlternatives_alternatives`,
`Ty.Flat.alternatives_ofAlternatives`), and joining two of them appends the lists and leaves out what
has been there before (`Ty.Normal.alternatives_join`). So the laws of a join are laws of `distinct`.

Main statement: `Ty.join_laws`.
-/

namespace LuaAnalysis

namespace Ty

variable {a b c t : Ty} {ts us : List Ty}

/-! ## Lists without repetition -/

theorem mem_distinct : t ∈ distinct ts ↔ t ∈ ts := by
  refine ⟨fun ht => distinct_subset ts ht, fun ht => ?_⟩
  unfold distinct
  -- What has been seen stays, and what comes is there as soon as it has come.
  suffices hfold : ∀ rest seen : List Ty, t ∈ seen ∨ t ∈ rest →
      t ∈ rest.foldl (fun seen t => if t ∈ seen then seen else seen ++ [t]) seen from
    hfold ts [] (.inr ht)
  intro rest
  induction rest with
  | nil => exact fun seen h => h.resolve_right (List.not_mem_nil)
  | cons u rest ih =>
    intro seen h
    apply ih
    dsimp only
    rcases h with h | h
    · split
      · exact .inl h
      · exact .inl (List.mem_append_left _ h)
    · rcases List.mem_cons.1 h with rfl | h
      · split
        · next hseen => exact .inl hseen
        · exact .inl (List.mem_append_right _ (List.mem_singleton_self _))
      · exact .inr h

theorem distinct_concat (ts : List Ty) (t : Ty) :
    distinct (ts ++ [t]) = if t ∈ ts then distinct ts else distinct ts ++ [t] := by
  rw [distinct, List.foldl_concat]
  exact if_congr mem_distinct rfl rfl

theorem distinct_of_nodup (h : ts.Nodup) : distinct ts = ts := by
  induction ts using List.reverseRecOn with
  | nil => rfl
  | append_singleton ts t ih =>
    rw [List.nodup_append] at h
    have hnew : t ∉ ts := fun ht => h.2.2 t ht t (List.mem_singleton_self t) rfl
    rw [distinct_concat, if_neg hnew, ih h.1]

/-- A list that follows another adds what the other has not. -/
theorem distinct_append (ts us : List Ty) :
    distinct (ts ++ us) = distinct ts ++ (distinct us).filter (· ∉ ts) := by
  induction us using List.reverseRecOn with
  | nil => simp [distinct]
  | append_singleton us u ih =>
    rw [← List.append_assoc, distinct_concat, distinct_concat, ih]
    by_cases hu : u ∈ us
    · rw [if_pos hu, if_pos (List.mem_append_right _ hu)]
    · by_cases ht : u ∈ ts
      · simp [hu, ht]
      · simp [hu, ht]

theorem distinct_distinct (ts : List Ty) : distinct (distinct ts) = distinct ts :=
  distinct_of_nodup (nodup_distinct ts)

theorem distinct_append_left (ts us : List Ty) :
    distinct (distinct ts ++ us) = distinct (ts ++ us) := by
  simp only [distinct_append, distinct_distinct, mem_distinct]

theorem distinct_append_right (ts us : List Ty) :
    distinct (ts ++ distinct us) = distinct (ts ++ us) := by
  rw [distinct_append, distinct_append, distinct_distinct]

theorem distinct_append_self (h : ts.Nodup) : distinct (ts ++ ts) = ts := by
  rw [distinct_append, distinct_of_nodup h, List.filter_eq_nil_iff.2 fun t ht => by simp [ht],
    List.append_nil]

/-! ## Normal types -/

/-- Whether a type is no union, or a union of two alternatives at least, all different, of which none
is unknown or a union. -/
def Normal : Ty → Prop
  | union ts => 2 ≤ ts.length ∧ ts.Nodup ∧ ∀ t ∈ ts, t ≠ unknown ∧ t.isUnion = false
  | _ => True

instance : DecidablePred Normal
  | union ts => inferInstanceAs (Decidable
      (2 ≤ ts.length ∧ ts.Nodup ∧ ∀ t ∈ ts, t ≠ unknown ∧ t.isUnion = false))
  | unknown | nil | any | boolean | integer | number | string | table | function | named _ | array _
  | tuple _ | signature _ | method _ | tableLiteral _ | genericApp _ _ =>
    inferInstanceAs (Decidable True)

theorem Single.normal (h : t.Single) : t.Normal := by
  cases t with
  | union ts => exact h
  | _ => trivial

/-- Whether a list is one of alternatives: all different, and none of them unknown or a union. -/
structure Flat (ts : List Ty) : Prop where
  nodup : ts.Nodup
  plain : ∀ t ∈ ts, t ≠ unknown ∧ t.isUnion = false

theorem alternatives_of_plain (h : t ≠ unknown ∧ t.isUnion = false) : t.alternatives = [t] := by
  cases t with
  | unknown => exact absurd rfl h.1
  | union ts => cases h.2
  | _ => rfl

theorem Normal.flat (h : t.Normal) : Flat t.alternatives := by
  by_cases ht : t ≠ unknown ∧ t.isUnion = false
  · rw [alternatives_of_plain ht]
    exact ⟨List.nodup_singleton t, List.forall_mem_singleton.2 ht⟩
  · cases t with
    | unknown => exact ⟨List.nodup_nil, List.forall_mem_nil _⟩
    | union ts => exact ⟨h.2.1, h.2.2⟩
    | _ => exact absurd ⟨nofun, rfl⟩ ht

theorem ofAlternatives_alternatives (h : t.Normal) : ofAlternatives t.alternatives = t := by
  cases t with
  | union ts =>
    obtain ⟨hlength, -⟩ := h
    match ts, hlength with
    | _ :: _ :: _, _ => rfl
  | _ => rfl

theorem Flat.alternatives_ofAlternatives (h : Flat ts) : (ofAlternatives ts).alternatives = ts := by
  match ts, h with
  | [], _ => rfl
  | [t], h => exact alternatives_of_plain (h.plain t List.mem_cons_self)
  | _ :: _ :: _, _ => rfl

theorem Flat.normal (h : Flat ts) : (ofAlternatives ts).Normal := by
  match ts, h with
  | [], _ => trivial
  | [t], h =>
    obtain ⟨-, hunion⟩ := h.plain t List.mem_cons_self
    cases t with
    | union ts => cases hunion
    | _ => trivial
  | t :: u :: ts, h => exact ⟨Nat.le_add_left 2 _, h.nodup, h.plain⟩

theorem Flat.distinct_append (hts : Flat ts) (hus : Flat us) : Flat (distinct (ts ++ us)) where
  nodup := nodup_distinct _
  plain t ht := (List.mem_append.1 (mem_distinct.1 ht)).elim (hts.plain t) (hus.plain t)

/-! ## Joins of normal types -/

theorem Normal.alternatives_join (ha : a.Normal) (hb : b.Normal) :
    (a.join b).alternatives = distinct (a.alternatives ++ b.alternatives) :=
  (ha.flat.distinct_append hb.flat).alternatives_ofAlternatives

theorem Normal.join (ha : a.Normal) (hb : b.Normal) : (a.join b).Normal :=
  (ha.flat.distinct_append hb.flat).normal

theorem join_assoc (ha : a.Normal) (hb : b.Normal) (hc : c.Normal) :
    (a.join b).join c = a.join (b.join c) := by
  unfold Ty.join
  apply congrArg ofAlternatives
  calc distinct ((a.join b).alternatives ++ c.alternatives)
      = distinct (distinct (a.alternatives ++ b.alternatives) ++ c.alternatives) := by
        rw [ha.alternatives_join hb]
    _ = distinct (a.alternatives ++ (b.alternatives ++ c.alternatives)) := by
        rw [distinct_append_left, List.append_assoc]
    _ = distinct (a.alternatives ++ distinct (b.alternatives ++ c.alternatives)) := by
        rw [distinct_append_right]
    _ = distinct (a.alternatives ++ (b.join c).alternatives) := by
        rw [hb.alternatives_join hc]

theorem join_self (ha : a.Normal) : a.join a = a := by
  rw [Ty.join, distinct_append_self ha.flat.nodup, ofAlternatives_alternatives ha]

theorem unknown_join (ha : a.Normal) : unknown.join a = a := by
  rw [Ty.join, alternatives, List.nil_append, distinct_of_nodup ha.flat.nodup,
    ofAlternatives_alternatives ha]

theorem join_unknown (ha : a.Normal) : a.join unknown = a := by
  rw [Ty.join, show unknown.alternatives = [] from rfl, List.append_nil,
    distinct_of_nodup ha.flat.nodup, ofAlternatives_alternatives ha]

theorem mem_parts_self (t : Ty) : t ∈ t.parts := by
  cases t <;> simp [parts]

theorem mem_alternatives_join (ha : a.Normal) (hb : b.Normal) :
    t ∈ (a.join b).alternatives ↔ t ∈ a.alternatives ∨ t ∈ b.alternatives := by
  rw [ha.alternatives_join hb, mem_distinct, List.mem_append]

/-- What is joined later adds the alternatives that have not been there. -/
theorem alternatives_foldl_join (ha : a.Normal) (hts : ∀ t ∈ ts, t.Normal) :
    (ts.foldl Ty.join a).alternatives = distinct (a.alternatives ++ ts.flatMap alternatives) := by
  induction ts generalizing a with
  | nil => rw [List.foldl_nil, List.flatMap_nil, List.append_nil, distinct_of_nodup ha.flat.nodup]
  | cons t ts ih =>
    obtain ⟨ht, hts⟩ := List.forall_mem_cons.1 hts
    rw [List.foldl_cons, ih (ha.join ht) hts, ha.alternatives_join ht, distinct_append_left,
      List.flatMap_cons, List.append_assoc]

end Ty

/-! ## Written types -/

namespace SyntaxTree

variable {t : SyntaxTree}

theorem BottomUp.part_lt (h : t.BottomUp) {id c : NodeId} {n : Node NodeId}
    (hn : t.node? id = some n) (hc : c ∈ n.children) : c < id :=
  h.child_lt (part_mem_children hn hc)

/-- The type of an annotation depends on the types of those inside it alone. -/
theorem BottomUp.annotationStep_congr (h : t.BottomUp) {id : NodeId} {f g : NodeId → Ty}
    (hsame : ∀ c < id, f c = g c) : t.annotationStep f id = t.annotationStep g id := by
  have hoption {part : Option NodeId} (hpart : ∀ c ∈ part, c < id) : part.map f = part.map g :=
    Option.map_congr fun c hc => hsame c (hpart c hc)
  have hlist {parts : List NodeId} (hparts : ∀ c ∈ parts, c < id) : parts.map f = parts.map g :=
    List.map_congr_left fun c hc => hsame c (hparts c hc)
  unfold annotationStep
  split
  · rfl
  · next element hn =>
    rw [hoption fun c hc => h.part_lt hn (by simpa [Node.children] using hc)]
  · next types hn =>
    have htypes : ∀ c ∈ types, c < id := fun c hc => h.part_lt hn hc
    rw [hlist htypes]
  · next params returns hn =>
    have hparam : ∀ param ∈ params, param < id := fun param hparam =>
      h.part_lt hn (List.mem_append_left _ hparam)
    rw [hlist fun c hc => h.part_lt hn (List.mem_append_right _ hc)]
    congr 2
    apply List.filterMap_congr
    intro param hp
    split
    · next token type nullable hn' =>
      have htype : ∀ c ∈ type, c < id := fun c hc =>
        Nat.lt_trans (h.part_lt hn' (by simp_all [Node.children])) (hparam param hp)
      rw [hoption htype]
    · rfl
  · rfl
  · next head args hn =>
    rw [hlist fun c hc => h.part_lt hn (List.mem_cons_of_mem _ hc)]
  · rfl

theorem BottomUp.annotatedTypeWithin_stable (h : t.BottomUp) {k l : Nat} {id : NodeId}
    (hk : id < k) (hl : id < l) : t.annotatedTypeWithin k id = t.annotatedTypeWithin l id := by
  refine levels_stable (f := t.annotatedTypeWithin) (fun k l id hsame => ?_) hk hl
  rw [annotatedTypeWithin, annotatedTypeWithin]
  exact h.annotationStep_congr hsame

theorem BottomUp.annotatedType_eq (h : t.BottomUp) (id : NodeId) :
    t.annotatedType id = t.annotationStep t.annotatedType id := by
  rw [annotatedType, annotatedTypeWithin]
  exact h.annotationStep_congr fun c hc => h.annotatedTypeWithin_stable hc (Nat.lt_succ_self c)

theorem wellFormed_annotatedType (t : SyntaxTree) (id : NodeId) :
    (t.annotatedType id).WellFormed :=
  Ty.closed_wellFormed.annotatedType (fun _ => Ty.wellFormed_of_parts rfl trivial) id

theorem normal_of_mem_annotatedType {id : NodeId} {s : Ty} (hs : s ∈ (t.annotatedType id).parts) :
    s.Normal :=
  (t.wellFormed_annotatedType id s hs).normal

theorem normal_annotatedType (t : SyntaxTree) (id : NodeId) : (t.annotatedType id).Normal :=
  normal_of_mem_annotatedType (Ty.mem_parts_self _)

/-- A written union has the alternatives of what is written in it, each where it comes first. -/
theorem BottomUp.alternatives_annotatedType (h : t.BottomUp) {id : NodeId} {types : List NodeId}
    (hn : t.node? id = some (.docUnionType types)) : (t.annotatedType id).alternatives =
      Ty.distinct (types.flatMap fun type => (t.annotatedType type).alternatives) := by
  have hnormal : ∀ a ∈ types.map t.annotatedType, a.Normal := by
    intro a ha
    obtain ⟨type, -, rfl⟩ := List.mem_map.1 ha
    exact t.normal_annotatedType type
  have hunknown : Ty.unknown.Normal := trivial
  rw [h.annotatedType_eq, annotationStep, hn]
  dsimp only
  rw [Ty.alternatives_foldl_join hunknown hnormal, List.flatMap_map]
  rfl

end SyntaxTree

/-- Normal types are closed under joins. Joining them is associative and idempotent and has `unknown`
as its unit, and a second mark for `nil` adds nothing. The alternatives of a join are those of both
sides, those of the left side first, so they are the same set in both orders. Every written type is
normal, as are the types in it, and a written union has the alternatives of what is written in it,
nested unions dissolved. -/
theorem Ty.join_laws :
    (∀ a b c : Ty, a.Normal → b.Normal → c.Normal →
      (a.join b).Normal ∧ (a.join b).join c = a.join (b.join c) ∧
      a.join a = a ∧ unknown.join a = a ∧ a.join unknown = a ∧
      a.nullable.Normal ∧ a.nullable.nullable = a.nullable ∧
      (∀ t, t ∈ (a.join b).alternatives ↔ t ∈ (b.join a).alternatives) ∧
      (∀ t, t ∈ (a.join b).alternatives ↔ t ∈ a.alternatives ∨ t ∈ b.alternatives) ∧
      (a.join b).alternatives = a.alternatives ++ b.alternatives.filter (· ∉ a.alternatives)) ∧
    ∀ (tree : SyntaxTree) (id : NodeId),
      (tree.annotatedType id).Normal ∧ (∀ t ∈ (tree.annotatedType id).parts, t.Normal) ∧
      ∀ types, tree.BottomUp → tree.node? id = some (.docUnionType types) →
        (tree.annotatedType id).alternatives =
          distinct (types.flatMap fun type => (tree.annotatedType type).alternatives) := by
  refine ⟨fun a b c ha hb hc => ?_, fun tree id => ?_⟩
  · have hsame (t : Ty) : t ∈ (a.join b).alternatives ↔ t ∈ (b.join a).alternatives := by
      rw [mem_alternatives_join ha hb, mem_alternatives_join hb ha, or_comm]
    have horder : (a.join b).alternatives =
        a.alternatives ++ b.alternatives.filter (· ∉ a.alternatives) := by
      rw [ha.alternatives_join hb, distinct_append, distinct_of_nodup ha.flat.nodup,
        distinct_of_nodup hb.flat.nodup]
    have hnil : nil.Normal := trivial
    have htwice : a.nullable.nullable = a.nullable := by
      rw [nullable, nullable, join_assoc ha hnil hnil, join_self hnil]
    exact ⟨ha.join hb, join_assoc ha hb hc, join_self ha, unknown_join ha, join_unknown ha,
      ha.join hnil, htwice, hsame, fun t => mem_alternatives_join ha hb, horder⟩
  · exact ⟨tree.normal_annotatedType id, fun t => SyntaxTree.normal_of_mem_annotatedType,
      fun types hup hn => hup.alternatives_annotatedType hn⟩

/-- `---@type integer?|string|integer|nil` above `local x` -/
def repeatedUnion : Sketch :=
  .block [.node (.comment [.typeTag [.unionType ["integer?", "string", "integer", "nil"]]]),
    .declare ["x"] []]

theorem Ty.join_laws_of_unions :
    let a := union [integer, nil]
    let b := string
    let c := union [nil, boolean]
    (a.Normal ∧ b.Normal ∧ c.Normal ∧ (a.join b).join c = a.join (b.join c) ∧
      ∀ t, t ∈ (a.join c).alternatives ↔ t ∈ (c.join a).alternatives) ∧
    ((SyntaxTree.ofSketch 0 (some repeatedUnion)).annotatedType 6).alternatives =
      [integer, nil, string] := by
  intro a b c
  have ha : a.Normal := by decide
  have hb : b.Normal := by decide
  have hc : c.Normal := by decide
  obtain ⟨-, hassoc, -⟩ := join_laws.1 a b c ha hb hc
  obtain ⟨-, -, -, -, -, -, -, hsame, -⟩ := join_laws.1 a c b ha hc hb
  have hup : (SyntaxTree.ofSketch 0 (some repeatedUnion)).BottomUp :=
    (SyntaxTree.proper_ofSketch 0 (some repeatedUnion) (by decide)).bottomUp
  have hunion : (SyntaxTree.ofSketch 0 (some repeatedUnion)).node? 6 =
      some (.docUnionType [2, 3, 4, 5]) := by decide +kernel
  refine ⟨⟨ha, hb, hc, hassoc, hsame⟩, ?_⟩
  rw [(join_laws.2 _ 6).2.2 _ hup hunion]
  decide +kernel

end LuaAnalysis
