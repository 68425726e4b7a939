import LuaAnalysis.Proofs.Syntax.Kinship
import Mathlib.Data.List.Pairwise

/-!
# Trees in post order

`SyntaxTree.postOrder` lists a node behind everything below it. A tree is written in post order
(`SyntaxTree.PostOrdered`) when the listing from its root is the row of its nodes. Then what is below
a node is one run of the row that ends with the node, and so the tree is consistent: no node has two
parents.

Main statements: `PostOrdered.under_of_between`, `PostOrdered.consistent`.
-/

namespace LuaAnalysis.SyntaxTree

variable {t : SyntaxTree}

/-- The nodes from `id` down, at most a number of levels, each behind its own children. -/
def postOrderWithin (t : SyntaxTree) : Nat → NodeId → List NodeId
  | 0, _ => []
  | levels + 1, id => (t.children id).flatMap (t.postOrderWithin levels) ++ [id]

/-- The nodes from `id` down, each behind its own children. -/
def postOrder (t : SyntaxTree) (id : NodeId) : List NodeId :=
  t.postOrderWithin (id + 1) id

/-- Whether the row of the nodes is the tree in post order. The comments of a block's statements are
children of the block, so they stand right before the first node of their statement. -/
structure PostOrdered (t : SyntaxTree) : Prop extends t.BottomUp where
  listed : t.postOrder t.root = List.range t.size

/-! ## The listing -/

theorem postOrderWithin_perm (levels : Nat) (id : NodeId) :
    (t.postOrderWithin levels id).Perm (t.belowWithin levels id) := by
  induction levels generalizing id with
  | zero => exact .nil
  | succ levels ih =>
    rw [postOrderWithin, belowWithin]
    have hchildren : ((t.children id).flatMap (t.postOrderWithin levels)).Perm
        ((t.children id).flatMap (t.belowWithin levels)) :=
      List.Perm.flatMap_left _ fun c _ => ih c
    exact (List.perm_append_singleton id _).trans (hchildren.cons id)

namespace BottomUp

theorem mem_postOrder (h : t.BottomUp) {x id : NodeId} : x ∈ t.postOrder id ↔ t.Under x id :=
  (postOrderWithin_perm (id + 1) id).mem_iff.trans h.mem_below

theorem postOrder_eq (h : t.BottomUp) (id : NodeId) :
    t.postOrder id = (t.children id).flatMap t.postOrder ++ [id] := by
  rw [postOrder, postOrderWithin]
  congr 1
  refine List.flatMap_congr fun c hc => levels_stable (fun k l id hsame => ?_) (h.child_lt hc)
    (Nat.lt_succ_self c)
  rw [postOrderWithin, postOrderWithin]
  congr 1
  exact List.flatMap_congr fun c hc => hsame c (h.child_lt hc)

/-- What is below a node is one run of every listing that has the node. -/
theorem postOrder_infix (h : t.BottomUp) {x id : NodeId} (hx : t.Under x id) :
    t.postOrder x <:+: t.postOrder id := by
  induction hx with
  | refl => exact List.infix_rfl
  | @tail b c _ hc ih =>
    rw [h.postOrder_eq c]
    have hchild : t.postOrder b <:+: (t.children c).flatMap t.postOrder :=
      List.infix_flatMap_of_mem hc t.postOrder
    exact ih.trans (hchild.trans (List.prefix_append _ _).isInfix)

end BottomUp

namespace PostOrdered

variable (h : t.PostOrdered)
include h

theorem under_root {id : NodeId} (hid : id < t.size) : t.Under id t.root := by
  rw [← h.mem_postOrder, h.listed]
  exact List.mem_range.2 hid

/-- A node and what is below it are neighbours in the row. -/
theorem postOrder_eq_range' {id : NodeId} (hid : id < t.size) :
    ∃ first length, t.postOrder id = List.range' first length := by
  obtain ⟨before, after, hlisted⟩ := h.postOrder_infix (h.under_root hid)
  rw [h.listed, List.range_eq_range'] at hlisted
  obtain ⟨k, -, hk, -⟩ := List.range'_eq_append_iff.1 hlisted.symm
  obtain ⟨l, -, -, hl⟩ := List.range'_eq_append_iff.1 hk.symm
  exact ⟨_, _, hl⟩

/-- What stands between a node and a node below it is below it too. -/
theorem under_of_between {x y id : NodeId} (hid : id < t.size) (hx : t.Under x id) (hxy : x ≤ y)
    (hy : y ≤ id) : t.Under y id := by
  obtain ⟨first, length, hrun⟩ := h.postOrder_eq_range' hid
  have hfirst : x ∈ t.postOrder id := h.mem_postOrder.2 hx
  have hlast : id ∈ t.postOrder id := h.mem_postOrder.2 .refl
  rw [← h.mem_postOrder]
  rw [hrun, List.mem_range'_1] at *
  exact ⟨Nat.le_trans hfirst.1 hxy, Nat.lt_of_le_of_lt hy hlast.2⟩

theorem nodup_postOrder {id : NodeId} (hid : id < t.size) : (t.postOrder id).Nodup := by
  obtain ⟨first, length, hrun⟩ := h.postOrder_eq_range' hid
  rw [hrun]
  exact List.nodup_range'

theorem disjoint_children {id : NodeId} (hid : id < t.size) :
    (t.children id).Pairwise (Function.onFun List.Disjoint t.postOrder) := by
  have hnodup := h.nodup_postOrder hid
  rw [h.postOrder_eq] at hnodup
  exact (List.nodup_flatMap.1 hnodup.of_append_left).2

/-- No node is below two children of one node. -/
theorem sibling_unique {x c d p : NodeId} (hc : c ∈ t.children p) (hd : d ∈ t.children p)
    (hxc : t.Under x c) (hxd : t.Under x d) : c = d := by
  have hdisjoint := h.disjoint_children (lt_size_of_child hc)
  have : Std.Symm (Function.onFun List.Disjoint t.postOrder) := ⟨fun _ _ hcd _ hd hc => hcd hc hd⟩
  by_contra hne
  exact hdisjoint.forall hc hd hne (h.mem_postOrder.2 hxc) (h.mem_postOrder.2 hxd)

theorem parent_le {c p q : NodeId} (hp : c ∈ t.children p) (hq : c ∈ t.children q) : q ≤ p := by
  by_contra hlt
  have hpq : p < q := Nat.lt_of_not_le hlt
  -- `p` stands between `c` and `q`, so it is below a child of `q`, and `c` is below that one too.
  have hunder : t.Under p q := h.under_of_between (lt_size_of_child hq) (.single hq)
    (Nat.le_of_lt (h.child_lt hp)) (Nat.le_of_lt hpq)
  obtain heq | ⟨d, hpd, hd⟩ := hunder.cases_tail
  · exact Nat.lt_irrefl p (heq ▸ hpq)
  · have hcd : t.Under c d := .head hp hpd
    obtain rfl := h.sibling_unique hq hd .refl hcd
    exact Nat.lt_irrefl c (Nat.lt_of_lt_of_le (h.child_lt hp) (h.le_of_under hpd))

theorem parent_unique {c p q : NodeId} (hp : c ∈ t.children p) (hq : c ∈ t.children q) : p = q :=
  Nat.le_antisymm (h.parent_le hq hp) (h.parent_le hp hq)

theorem nodup_children (id : NodeId) : (t.children id).Nodup := by
  by_cases hid : id < t.size
  · refine (h.disjoint_children hid).imp fun {c d} hcd heq => ?_
    subst heq
    exact hcd (h.mem_postOrder.2 .refl) (h.mem_postOrder.2 .refl)
  · rw [List.eq_nil_iff_forall_not_mem.2 fun c hc => hid (lt_size_of_child hc)]
    exact List.nodup_nil

/-- All nodes below the later one of two nodes stand behind the earlier one, unless that is below it
itself. -/
theorem lt_of_under {i j x : NodeId} (hj : j < t.size) (hij : i < j) (hapart : ¬t.Under i j)
    (hx : t.Under x j) : i < x := by
  by_contra hle
  exact hapart (h.under_of_between hj hx (Nat.le_of_not_lt hle) (Nat.le_of_lt hij))

end PostOrdered

theorem PostOrdered.consistent {source : SourceId} {placed : Array PlacedNode} {root : NodeId}
    (h : (ofPlaced source placed root).PostOrdered) : (ofPlaced source placed root).Consistent :=
  ⟨h.toBottomUp, h.nodup_children, parent?_ofPlaced_of_unique h.child_lt h.parent_unique _ _⟩

end LuaAnalysis.SyntaxTree
