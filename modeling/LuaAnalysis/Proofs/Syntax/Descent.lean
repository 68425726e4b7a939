import LuaAnalysis.Proofs.Syntax.ProperTree
import Mathlib.Logic.Relation

/-!
# Ways up and down a tree

Where every child stands before its parent (`SyntaxTree.BottomUp`), `SyntaxTree.below` lists a node
and everything below it, each node before its own children. Where parents and children are those of
one tree (`SyntaxTree.Consistent`), the way up from a node is unique, so the nodes below different
children of one node are different. Proper trees have both.

Main statements: `below_eq`, `nodup_below`, `descendants_eq`, `ancestors_child`.
-/

namespace LuaAnalysis.SyntaxTree

variable {t : SyntaxTree}

/-- The nodes from `id` down, at most a number of levels. -/
def belowWithin (t : SyntaxTree) : Nat → NodeId → List NodeId
  | 0, _ => []
  | levels + 1, id => id :: (t.children id).flatMap (t.belowWithin levels)

/-- The nodes from `id` down, each before its own children. -/
def below (t : SyntaxTree) (id : NodeId) : List NodeId :=
  t.belowWithin (id + 1) id

/-- Whether every child stands before its parent. -/
structure BottomUp (t : SyntaxTree) : Prop where
  child_lt : ∀ {id c}, c ∈ t.children id → c < id

/-- Whether the parents and the children of a tree are those of one tree. -/
structure Consistent (t : SyntaxTree) : Prop extends t.BottomUp where
  nodup_children : ∀ id, (t.children id).Nodup
  parent?_eq : ∀ {c id}, t.parent? c = some id ↔ c ∈ t.children id

/-- Whether a node is a child of another. -/
def ChildOf (t : SyntaxTree) (c p : NodeId) : Prop :=
  c ∈ t.children p

/-- A way up, maybe of no step. -/
abbrev Under (t : SyntaxTree) : NodeId → NodeId → Prop :=
  Relation.ReflTransGen t.ChildOf

theorem Proper.bottomUp (h : t.Proper) : t.BottomUp :=
  ⟨h.child_lt⟩

theorem Proper.consistent (h : t.Proper) : t.Consistent :=
  ⟨h.bottomUp, h.nodup_children, h.parent?_eq⟩

/-- A recursion that asks only for smaller ids is the same for all numbers of levels that are
enough. -/
theorem levels_stable {β : Sort*} {f : Nat → NodeId → β}
    (hstep : ∀ k l id, (∀ c < id, f k c = f l c) → f (k + 1) id = f (l + 1) id) {k l : Nat}
    {id : NodeId} (hk : id < k) (hl : id < l) : f k id = f l id := by
  induction k generalizing l id with
  | zero => exact absurd hk (Nat.not_lt_zero id)
  | succ k ih =>
    cases l with
    | zero => exact absurd hl (Nat.not_lt_zero id)
    | succ l =>
      exact hstep k l id fun c hc => ih (Nat.lt_of_lt_of_le hc (Nat.le_of_lt_succ hk))
        (Nat.lt_of_lt_of_le hc (Nat.le_of_lt_succ hl))

/-! ## Downwards -/

theorem visitsWithin_eq (levels : Nat) (id : NodeId) :
    t.visitsWithin levels id = (t.belowWithin levels id).length := by
  induction levels generalizing id with
  | zero => rfl
  | succ levels ih =>
    rw [visitsWithin, belowWithin, List.length_cons, List.length_flatMap, Nat.add_comm]
    congr 2
    exact List.map_congr_left fun c _ => ih c

theorem visits_eq (id : NodeId) : t.visits id = (t.below id).length :=
  visitsWithin_eq (id + 1) id

namespace BottomUp

theorem belowWithin_stable (h : t.BottomUp) {levels : Nat} {id : NodeId} (hlevels : id < levels) :
    t.belowWithin levels id = t.below id := by
  refine levels_stable (fun k l id hsame => ?_) hlevels (Nat.lt_succ_self id)
  rw [belowWithin, belowWithin]
  congr 1
  exact List.flatMap_congr fun c hc => hsame c (h.child_lt hc)

theorem below_eq (h : t.BottomUp) (id : NodeId) :
    t.below id = id :: (t.children id).flatMap t.below := by
  rw [below, belowWithin]
  congr 1
  apply List.flatMap_congr
  intro c hc
  exact h.belowWithin_stable (h.child_lt hc)

theorem unstack_eq (h : t.BottomUp) (steps : Nat) (stack : List NodeId)
    (hsteps : (stack.flatMap t.below).length ≤ steps) :
    t.unstack steps stack = stack.flatMap t.below := by
  induction steps generalizing stack with
  | zero =>
    rw [unstack]
    exact (List.eq_nil_of_length_eq_zero (Nat.le_zero.1 hsteps)).symm
  | succ steps ih =>
    cases stack with
    | nil => rfl
    | cons id stack =>
      rw [List.flatMap_cons, h.below_eq id, List.cons_append, ← List.flatMap_append] at hsteps ⊢
      rw [unstack, ih _ (Nat.le_of_succ_le_succ hsteps)]

theorem descendants_eq (h : t.BottomUp) (id : NodeId) :
    t.descendants id = (t.children id).flatMap t.below := by
  refine h.unstack_eq _ _ ?_
  rw [visits_eq, h.below_eq id, List.length_cons]
  exact Nat.le_succ _

theorem below_eq_descendants (h : t.BottomUp) (id : NodeId) :
    t.below id = id :: t.descendants id := by
  rw [h.descendants_eq, h.below_eq]

theorem mem_below (h : t.BottomUp) {x id : NodeId} : x ∈ t.below id ↔ t.Under x id := by
  induction id using Nat.strongRecOn generalizing x with
  | _ id ih =>
    rw [h.below_eq, List.mem_cons, List.mem_flatMap]
    constructor
    · rintro (rfl | ⟨c, hc, hx⟩)
      · exact .refl
      · exact .tail ((ih c (h.child_lt hc)).1 hx) hc
    · intro hx
      cases hx with
      | refl => exact .inl rfl
      | tail hx hc => exact .inr ⟨_, hc, (ih _ (h.child_lt hc)).2 hx⟩

theorem le_of_under (h : t.BottomUp) {x id : NodeId} (hx : t.Under x id) : x ≤ id := by
  induction hx with
  | refl => exact Nat.le_refl x
  | tail _ hc ih => exact Nat.le_trans ih (Nat.le_of_lt (h.child_lt hc))

end BottomUp

/-! ## Upwards -/

theorem lt_size_of_child {c id : NodeId} (hc : c ∈ t.children id) : id < t.size := by
  obtain ⟨p, hp, -⟩ := PlacedNode.mem_childrenIn hc
  exact (Array.getElem?_eq_some_iff.1 hp).1

namespace Consistent

theorem childOf_unique (h : t.Consistent) : Relator.RightUnique t.ChildOf := by
  intro c p q hp hq
  have hp := h.parent?_eq.2 hp
  have hq := h.parent?_eq.2 hq
  exact Option.some.inj (hp.symm.trans hq)

/-- No node is below two children of one node. -/
theorem sibling_unique (h : t.Consistent) {x c d p : NodeId} (hc : t.Under x c)
    (hd : t.Under x d) (hcp : c ∈ t.children p) (hdp : d ∈ t.children p) : c = d := by
  -- A way from one sibling to the other would go through their parent and down again.
  have hno {c d : NodeId} (hcp : c ∈ t.children p) (hdp : d ∈ t.children p)
      (hcd : t.Under c d) : c = d := by
    rcases hcd.cases_head with heq | ⟨q, hq, hqd⟩
    · exact heq
    · have hqp := h.childOf_unique hq hcp
      subst hqp
      exact absurd (h.child_lt hdp) (Nat.not_lt.2 (h.le_of_under hqd))
  rcases Relation.ReflTransGen.total_of_right_unique h.childOf_unique hc hd with hcd | hdc
  · exact hno hcp hdp hcd
  · exact (hno hdp hcp hdc).symm

theorem nodup_below (h : t.Consistent) (id : NodeId) : (t.below id).Nodup := by
  induction id using Nat.strongRecOn with
  | _ id ih =>
    rw [h.below_eq, List.nodup_cons, List.nodup_flatMap]
    refine ⟨?_, fun c hc => ih c (h.child_lt hc), ?_⟩
    · intro hid
      obtain ⟨c, hc, hid⟩ := List.mem_flatMap.1 hid
      have hle := h.le_of_under (h.mem_below.1 hid)
      exact absurd (h.child_lt hc) (Nat.not_lt.2 hle)
    · refine (h.nodup_children id).pairwise_of_forall_ne fun c hc d hd hne x hxc hxd => hne ?_
      exact h.sibling_unique (h.mem_below.1 hxc) (h.mem_below.1 hxd) hc hd

theorem ancestorsWithin_stable (h : t.Consistent) (k l : Nat) (id : NodeId)
    (hk : t.size ≤ id + k) (hl : t.size ≤ id + l) :
    t.ancestorsWithin k id = t.ancestorsWithin l id := by
  induction k generalizing l id with
  | zero =>
    have hnone : t.parent? id = none := by
      cases hp : t.parent? id with
      | none => rfl
      | some p =>
        have hc := h.parent?_eq.1 hp
        have hsize := Nat.le_trans hk (Nat.le_of_lt (h.child_lt hc))
        exact absurd (lt_size_of_child hc) (Nat.not_lt.2 hsize)
    cases l <;> simp [ancestorsWithin, hnone]
  | succ k ih =>
    cases l with
    | zero =>
      cases hp : t.parent? id with
      | none => simp [ancestorsWithin, hp]
      | some p =>
        have hc := h.parent?_eq.1 hp
        have hsize := Nat.le_trans hl (Nat.le_of_lt (h.child_lt hc))
        exact absurd (lt_size_of_child hc) (Nat.not_lt.2 hsize)
    | succ l =>
      rw [ancestorsWithin, ancestorsWithin]
      cases hp : t.parent? id with
      | none => rfl
      | some p =>
        have hlt : id + 1 ≤ p := h.child_lt (h.parent?_eq.1 hp)
        have hstep (steps : Nat) : id + (steps + 1) ≤ p + steps := by
          rw [Nat.add_comm steps 1, ← Nat.add_assoc]
          exact Nat.add_le_add_right hlt steps
        dsimp only
        rw [ih l p (Nat.le_trans hk (hstep k)) (Nat.le_trans hl (hstep l))]

theorem ancestors_child (h : t.Consistent) {c id : NodeId} (hc : c ∈ t.children id) :
    t.ancestors c = id :: t.ancestors id := by
  have hp := h.parent?_eq.2 hc
  have hsize : t.size ≠ 0 := by
    have := lt_size_of_child hc
    exact Nat.ne_of_gt (Nat.lt_of_le_of_lt (Nat.zero_le _) this)
  obtain ⟨k, hk⟩ := Nat.exists_eq_succ_of_ne_zero hsize
  rw [ancestors, hk, ancestorsWithin, hp]
  dsimp only
  rw [ancestors, h.ancestorsWithin_stable k t.size id]
  · rw [hk, Nat.succ_eq_add_one, Nat.add_comm]
    exact Nat.add_le_add_right (Nat.lt_of_le_of_lt (Nat.zero_le c) (h.child_lt hc)) k
  · exact Nat.le_add_left _ _

end Consistent

/-! ## Proper trees -/

theorem below_eq (h : t.Proper) (id : NodeId) :
    t.below id = id :: (t.children id).flatMap t.below :=
  h.bottomUp.below_eq id

theorem descendants_eq (h : t.Proper) (id : NodeId) :
    t.descendants id = (t.children id).flatMap t.below :=
  h.bottomUp.descendants_eq id

theorem below_eq_descendants (h : t.Proper) (id : NodeId) :
    t.below id = id :: t.descendants id :=
  h.bottomUp.below_eq_descendants id

theorem mem_below (h : t.Proper) {x id : NodeId} : x ∈ t.below id ↔ t.Under x id :=
  h.bottomUp.mem_below

theorem Under.le (h : t.Proper) {x id : NodeId} (hx : t.Under x id) : x ≤ id :=
  h.bottomUp.le_of_under hx

theorem childOf_unique (h : t.Proper) : Relator.RightUnique t.ChildOf :=
  h.consistent.childOf_unique

theorem Under.sibling_unique (h : t.Proper) {x c d p : NodeId} (hc : t.Under x c)
    (hd : t.Under x d) (hcp : c ∈ t.children p) (hdp : d ∈ t.children p) : c = d :=
  h.consistent.sibling_unique hc hd hcp hdp

theorem nodup_below (h : t.Proper) (id : NodeId) : (t.below id).Nodup :=
  h.consistent.nodup_below id

theorem ancestors_child (h : t.Proper) {c id : NodeId} (hc : c ∈ t.children id) :
    t.ancestors c = id :: t.ancestors id :=
  h.consistent.ancestors_child hc

end LuaAnalysis.SyntaxTree
