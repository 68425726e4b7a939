import LuaAnalysis.Proofs.Syntax.Descent

/-!
# Outside closures

`SyntaxTree.outsideClosures` lists what an expression evaluates: the nodes below it, without those
inside closures.

Main statements: with a node that is no closure its children are listed
(`child_mem_outsideClosures`); the nodes are all those that are inside no closure
(`outsideClosures_eq_filter`).
-/

namespace LuaAnalysis.SyntaxTree

variable {t : SyntaxTree}

/-- The children that are evaluated with a node. -/
def evaluated (t : SyntaxTree) (id : NodeId) : List NodeId :=
  match t.node? id with
  | some (.closureExpr ..) => []
  | _ => t.children id

theorem evaluated_subset (t : SyntaxTree) (id : NodeId) : t.evaluated id ⊆ t.children id := by
  unfold evaluated
  split
  · exact List.nil_subset _
  · exact List.Subset.refl _

theorem mem_evaluated {id c : NodeId} {n : Node NodeId} (hn : t.node? id = some n)
    (hclosure : ∀ params body, n ≠ .closureExpr params body) (hc : c ∈ n.children) :
    c ∈ t.evaluated id := by
  unfold evaluated
  split
  · next params body hclosed => exact absurd (Option.some.inj (hn.symm.trans hclosed)) (hclosure _ _)
  · exact part_mem_children hn hc

theorem outsideClosuresWithin_succ (levels : Nat) (id : NodeId) :
    t.outsideClosuresWithin (levels + 1) id =
      id :: (t.evaluated id).flatMap (t.outsideClosuresWithin levels) := by
  rw [outsideClosuresWithin, evaluated]
  cases t.node? id with
  | none => rfl
  | some n => cases n <;> rfl

theorem outsideClosuresWithin_stable (h : t.Proper) (k l : Nat) (id : NodeId) (hk : id < k)
    (hl : id < l) : t.outsideClosuresWithin k id = t.outsideClosuresWithin l id := by
  refine levels_stable (fun k l id hsame => ?_) hk hl
  rw [outsideClosuresWithin_succ, outsideClosuresWithin_succ]
  congr 1
  exact List.flatMap_congr fun c hc => hsame c (h.child_lt (evaluated_subset t id hc))

theorem outsideClosures_eq (h : t.Proper) (id : NodeId) :
    t.outsideClosures id = id :: (t.evaluated id).flatMap t.outsideClosures := by
  rw [outsideClosures, outsideClosuresWithin_succ]
  congr 1
  apply List.flatMap_congr
  intro c hc
  exact outsideClosuresWithin_stable h id (c + 1) c (h.child_lt (evaluated_subset t id hc))
    (Nat.lt_succ_self c)

theorem mem_outsideClosures_self (h : t.Proper) (id : NodeId) : id ∈ t.outsideClosures id := by
  rw [outsideClosures_eq h]
  exact List.mem_cons_self

theorem child_mem_outsideClosures (h : t.Proper) {root x c : NodeId}
    (hx : x ∈ t.outsideClosures root) (hc : c ∈ t.evaluated x) : c ∈ t.outsideClosures root := by
  induction root using Nat.strongRecOn with
  | _ root ih =>
    rw [outsideClosures_eq h, List.mem_cons, List.mem_flatMap] at hx ⊢
    rcases hx with rfl | ⟨y, hy, hx⟩
    · exact .inr ⟨c, hc, mem_outsideClosures_self h c⟩
    · exact .inr ⟨y, hy, ih y (h.child_lt (evaluated_subset t root hy)) hx⟩

/-! ## Inside closures -/

def isClosure (t : SyntaxTree) (id : NodeId) : Bool :=
  match t.node? id with
  | some (.closureExpr ..) => true
  | _ => false

/-- Whether a node is inside a closure that stands from `root` down. -/
def enclosed (t : SyntaxTree) (root x : NodeId) : Bool :=
  (t.below root).any fun closure => t.isClosure closure && (t.descendants closure).contains x

theorem enclosed_iff (h : t.Proper) {root x : NodeId} :
    t.enclosed root x = true ↔
      ∃ closure ∈ t.below root, t.isClosure closure = true ∧
        ∃ c ∈ t.children closure, t.Under x c := by
  simp only [enclosed, List.any_eq_true, Bool.and_eq_true, List.contains_iff_mem,
    descendants_eq h, List.mem_flatMap, mem_below h]

theorem not_enclosed_self (h : t.Proper) (root : NodeId) : t.enclosed root root = false := by
  rw [← Bool.not_eq_true, enclosed_iff h]
  rintro ⟨closure, hclosure, -, c, hc, hroot⟩
  have hle : closure ≤ root := Under.le h ((mem_below h).1 hclosure)
  have hback : root ≤ c := Under.le h hroot
  exact Nat.lt_irrefl root (Nat.lt_of_lt_of_le (Nat.lt_of_le_of_lt hback (h.child_lt hc)) hle)

/-- In a child the same nodes are inside closures, if the parent is no closure. -/
theorem enclosed_child (h : t.Proper) {root c x : NodeId} (hroot : t.isClosure root = false)
    (hc : c ∈ t.children root) (hx : t.Under x c) : t.enclosed root x = t.enclosed c x := by
  rw [Bool.eq_iff_iff, enclosed_iff h, enclosed_iff h]
  constructor
  · rintro ⟨closure, hclosure, his, hinside⟩
    refine ⟨closure, ?_, his, hinside⟩
    rw [below_eq h, List.mem_cons, List.mem_flatMap] at hclosure
    rcases hclosure with rfl | ⟨d, hd, hclosure⟩
    · rw [hroot] at his
      cases his
    · obtain ⟨e, he, hxe⟩ := hinside
      have hxd : t.Under x d := (hxe.tail he).trans ((mem_below h).1 hclosure)
      rwa [Under.sibling_unique h hx hxd hc hd]
  · rintro ⟨closure, hclosure, his, hinside⟩
    refine ⟨closure, ?_, his, hinside⟩
    exact (mem_below h).2 (((mem_below h).1 hclosure).tail hc)

theorem evaluated_eq (t : SyntaxTree) (id : NodeId) :
    t.evaluated id = if t.isClosure id then [] else t.children id := by
  unfold evaluated isClosure
  split <;> rfl

/-- The nodes outside closures, in the order of all nodes. -/
theorem outsideClosures_eq_filter (h : t.Proper) (root : NodeId) :
    t.outsideClosures root = (t.below root).filter fun x => !t.enclosed root x := by
  induction root using Nat.strongRecOn with
  | _ root ih =>
    rw [outsideClosures_eq h, below_eq h, List.filter_cons_of_pos (by rw [not_enclosed_self h]; rfl),
      List.filter_flatMap, evaluated_eq]
    congr 1
    split
    · next hroot =>
      -- Whatever is below a closure is inside it.
      rw [eq_comm, List.flatMap_nil, List.flatMap_eq_nil_iff]
      intro c hc
      rw [List.filter_eq_nil_iff]
      intro x hx
      have henclosed : t.enclosed root x = true := by
        rw [enclosed_iff h]
        exact ⟨root, (mem_below h).2 .refl, hroot, c, hc, (mem_below h).1 hx⟩
      rw [henclosed]
      exact Bool.false_ne_true
    · next hroot =>
      apply List.flatMap_congr
      intro c hc
      rw [ih c (h.child_lt hc)]
      apply List.filter_congr
      intro x hx
      rw [enclosed_child h (Bool.not_eq_true _ ▸ hroot) hc ((mem_below h).1 hx)]

end LuaAnalysis.SyntaxTree
