import LuaAnalysis.Proofs.Syntax.Descent
import LuaAnalysis.Syntax.Shorthand

/-!
# Parents, ancestors and descendants

Parents are found out by a pass over all nodes, and ways up follow them; ways down follow the
children. In a row of nodes that is one tree (`PlacedNode.Whole`) both are ways of the same tree:
each is `Relation.TransGen` of being a child.

Main statements: `SyntaxTree.parents_mirror_children`, and `SyntaxTree.whole_ofSketch`, by which what
is written from a sketch is such a tree when no comment is left over.
-/

namespace LuaAnalysis

namespace SyntaxTree

variable {t : SyntaxTree}

/-! ## Ways up -/

theorem ancestors_of_parent?_none {c : NodeId} (hc : t.parent? c = none) : t.ancestors c = [] := by
  rw [ancestors]
  cases t.size with
  | zero => rfl
  | succ steps => rw [ancestorsWithin, hc]

/-- What holds of a node when it holds of its parent holds of every node. -/
theorem BottomUp.upward_induction (h : t.BottomUp) {P : NodeId → Prop}
    (step : ∀ c, (∀ p, c ∈ t.children p → P p) → P c) (c : NodeId) : P c := by
  -- The ids above grow, and none is past the size of the tree.
  suffices hbound : ∀ k c, t.size ≤ c + k → P c from hbound t.size c (Nat.le_add_left _ _)
  intro k
  induction k with
  | zero =>
    intro c hsize
    refine step c fun p hc => ?_
    have hlt := Nat.lt_trans (h.child_lt hc) (lt_size_of_child hc)
    omega
  | succ k ih =>
    intro c hsize
    refine step c fun p hc => ih p ?_
    have hlt : c + 1 ≤ p := h.child_lt hc
    omega

theorem Consistent.ancestors_eq (h : t.Consistent) (c : NodeId) :
    t.ancestors c = (t.parent? c).elim [] fun p => p :: t.ancestors p := by
  cases hp : t.parent? c with
  | none => exact ancestors_of_parent?_none hp
  | some p => exact h.ancestors_child (h.parent?_eq.1 hp)

/-- The nodes above a node are those from which a way of some steps leads down to it. -/
theorem Consistent.mem_ancestors (h : t.Consistent) {a c : NodeId} :
    a ∈ t.ancestors c ↔ Relation.TransGen t.ChildOf c a := by
  constructor
  · induction c using h.upward_induction with
    | step c ih =>
      intro ha
      rw [h.ancestors_eq] at ha
      cases hp : t.parent? c with
      | none =>
        rw [hp] at ha
        cases ha
      | some p =>
        have hc : c ∈ t.children p := h.parent?_eq.1 hp
        rw [hp] at ha
        rcases List.mem_cons.1 ha with rfl | ha
        · exact .single hc
        · exact .head hc (ih p hc ha)
  · intro ha
    induction ha using Relation.TransGen.head_induction_on with
    | single hc =>
      rw [h.ancestors_child hc]
      exact List.mem_cons_self
    | head hc _ ih =>
      rw [h.ancestors_child hc]
      exact List.mem_cons_of_mem _ ih

theorem BottomUp.mem_descendants (h : t.BottomUp) {a c : NodeId} :
    c ∈ t.descendants a ↔ Relation.TransGen t.ChildOf c a := by
  rw [h.descendants_eq, List.mem_flatMap, Relation.TransGen.tail'_iff]
  constructor
  · rintro ⟨d, hd, hc⟩
    exact ⟨d, h.mem_below.1 hc, hd⟩
  · rintro ⟨d, hc, hd⟩
    exact ⟨d, hd, h.mem_below.2 hc⟩

theorem Consistent.pairwise_ancestors (h : t.Consistent) (c : NodeId) :
    (c :: t.ancestors c).Pairwise (· < ·) := by
  induction c using h.upward_induction with
  | step c ih =>
    rw [h.ancestors_eq]
    cases hp : t.parent? c with
    | none => exact List.pairwise_singleton _ c
    | some p =>
      have hc : c ∈ t.children p := h.parent?_eq.1 hp
      have hlt := h.child_lt hc
      refine List.pairwise_cons.2 ⟨fun a ha => ?_, ih p hc⟩
      rcases List.mem_cons.1 ha with rfl | ha
      · exact hlt
      · exact Nat.lt_trans hlt ((List.pairwise_cons.1 (ih p hc)).1 a ha)

theorem Consistent.nodup_descendants (h : t.Consistent) (a : NodeId) : (t.descendants a).Nodup := by
  have hnodup := h.nodup_below a
  rw [h.below_eq_descendants, List.nodup_cons] at hnodup
  exact hnodup.2

/-! ## The statement around a node -/

def isStat (t : SyntaxTree) (id : NodeId) : Bool :=
  (t.node? id).any Node.isStat

theorem Consistent.mem_cons_ancestors (h : t.Consistent) {a c : NodeId} :
    a ∈ c :: t.ancestors c ↔ t.Under c a := by
  rw [List.mem_cons, h.mem_ancestors]
  exact Relation.reflTransGen_iff_eq_or_transGen.symm

theorem enclosingStat?_eq_some_iff {c s : NodeId} :
    t.enclosingStat? c = some s ↔ t.isStat s = true ∧ ∃ before after,
      c :: t.ancestors c = before ++ s :: after ∧ ∀ x ∈ before, t.isStat x = false := by
  rw [enclosingStat?, List.find?_eq_some_iff_append]
  simp only [Bool.not_eq_true', isStat]

/-- The statement around a node is the lowest one that the node is or is below. -/
theorem Consistent.enclosingStat?_lowest (h : t.Consistent) {c s : NodeId} :
    t.enclosingStat? c = some s ↔ t.isStat s = true ∧ t.Under c s ∧
      ∀ x, t.isStat x = true → t.Under c x → t.Under s x := by
  have hlowest {s : NodeId} (hs : t.enclosingStat? c = some s) : t.isStat s = true ∧ t.Under c s ∧
      ∀ x, t.isStat x = true → t.Under c x → t.Under s x := by
    obtain ⟨hstat, before, after, hsplit, hbefore⟩ := enclosingStat?_eq_some_iff.1 hs
    have hcs : t.Under c s := h.mem_cons_ancestors.1 (by rw [hsplit]; simp)
    refine ⟨hstat, hcs, fun x hx hcx => ?_⟩
    rcases Relation.ReflTransGen.total_of_right_unique h.childOf_unique hcs hcx with hsx | hxs
    · exact hsx
    -- A statement below `s` on the way would have been met before.
    · have hmem : x ∈ before ++ s :: after := hsplit ▸ h.mem_cons_ancestors.2 hcx
      rcases List.mem_append.1 hmem with hmem | hmem
      · rw [hbefore x hmem] at hx
        cases hx
      · have hsorted := h.pairwise_ancestors c
        rw [hsplit, List.pairwise_append] at hsorted
        rcases List.mem_cons.1 hmem with rfl | hafter
        · exact .refl
        · have hlt := (List.pairwise_cons.1 hsorted.2.1).1 x hafter
          exact absurd hlt (Nat.not_lt.2 (h.le_of_under hxs))
  refine ⟨hlowest, fun ⟨hstat, hcs, hleast⟩ => ?_⟩
  have hfound : (t.enclosingStat? c).isSome = true :=
    List.find?_isSome.2 ⟨s, h.mem_cons_ancestors.2 hcs, hstat⟩
  obtain ⟨s', hs'⟩ := Option.isSome_iff_exists.1 hfound
  obtain ⟨hstat', hcs', hleast'⟩ := hlowest hs'
  have hle := h.le_of_under (hleast s' hstat' hcs')
  have hle' := h.le_of_under (hleast' s hstat hcs)
  rw [hs', Nat.le_antisymm hle' hle]

end SyntaxTree

/-! ## Whole trees -/

namespace PlacedNode

/-- Whether a row of nodes is one tree, written from the parts upwards: each node stands behind its
parts and comments, the root is the last, every other node is used in one place, as a part of a node
or as a comment of a node, and what has comments is a statement of a block. -/
structure Whole (placed : Array PlacedNode) (root : NodeId) : Prop extends Forest placed where
  last : placed.size = root + 1
  used : ∀ c < placed.size, c ≠ root → ∃ id, c ∈ kidsIn placed id
  commented : ∀ {stat c}, c ∈ commentsIn placed stat → ∃ (id : NodeId) (p : PlacedNode)
    (stats : List NodeId), placed[id]? = some p ∧ p.node = .block stats ∧ stat ∈ stats

variable {placed : Array PlacedNode} {root : NodeId}

theorem mem_kidsIn {id c : NodeId} : c ∈ kidsIn placed id ↔
    ∃ p, placed[id]? = some p ∧ (c ∈ p.node.children ∨ c ∈ p.comments) := by
  unfold kidsIn
  cases placed[id]? <;> simp

theorem mem_commentsIn {id c : NodeId} : c ∈ commentsIn placed id ↔
    ∃ p, placed[id]? = some p ∧ c ∈ p.comments := by
  unfold commentsIn
  cases placed[id]? <;> simp

theorem comment_mem_childrenIn {id stat c : NodeId} {p : PlacedNode} {stats : List NodeId}
    (hp : placed[id]? = some p) (hblock : p.node = .block stats) (hstat : stat ∈ stats)
    (hc : c ∈ commentsIn placed stat) : c ∈ childrenIn placed id := by
  obtain ⟨node, span, comments⟩ := p
  obtain rfl : node = .block stats := hblock
  rw [childrenIn_block hp, List.mem_flatMap]
  exact ⟨stat, hstat, List.mem_append_left _ hc⟩

/-- Every node but the root is a child. -/
theorem Whole.exists_parent (h : Whole placed root) {c : NodeId} (hc : c < placed.size)
    (hne : c ≠ root) : ∃ p, c ∈ childrenIn placed p := by
  obtain ⟨id, hkid⟩ := h.used c hc hne
  obtain ⟨p, hp, hpart | hcomment⟩ := mem_kidsIn.1 hkid
  · exact ⟨id, part_mem_childrenIn hp hpart⟩
  · have hc : c ∈ commentsIn placed id := mem_commentsIn.2 ⟨p, hp, hcomment⟩
    obtain ⟨block, q, stats, hq, hblock, hstat⟩ := h.commented hc
    exact ⟨block, comment_mem_childrenIn hq hblock hstat hc⟩

end PlacedNode

theorem Node.not_isComment_of_isStat {α : Type} {n : Node α} (h : n.isStat = true) :
    n.isComment = false := by
  cases n with
  | comment tags => cases h
  | _ => rfl

/-- A sketch that is no comment is answered by the node that is written last. -/
theorem Sketch.write_last (s : Sketch) (d : Draft) (h : s.isComment = false) :
    ∃ id, (s.write d).1 = [id] ∧ (s.write d).2.placed.size = id + 1 := by
  obtain ⟨form, pin, parts⟩ := s
  obtain ⟨span, cursor, hinsert⟩ := (writeAll (d.taking form) parts).2.insert_eq
    (form.fill (writeAll (d.taking form) parts).1) pin (d.taken form)
  have hform : form.isComment = false := h
  simp only [write_mk, hinsert, hform]
  exact ⟨_, rfl, Array.size_push _⟩

namespace SyntaxTree

variable {source : SourceId} {placed : Array PlacedNode} {root : NodeId}

theorem consistent_ofPlaced (h : PlacedNode.Forest placed) :
    (ofPlaced source placed root).Consistent :=
  ⟨⟨h.lt_of_mem⟩, h.nodup_childrenIn, parent?_ofPlaced h _ _⟩

/-- Every way up ends at the root. -/
theorem getLast?_ancestors (h : PlacedNode.Whole placed root) {c : NodeId} (hc : c < placed.size) :
    (c :: (ofPlaced source placed root).ancestors c).getLast? = some root := by
  have hcons : (ofPlaced source placed root).Consistent := consistent_ofPlaced h.toForest
  revert hc
  induction c using hcons.upward_induction with
  | step c ih =>
    intro hc
    by_cases hroot : c = root
    · have hnone : (ofPlaced source placed root).parent? c = none := by
        rw [Option.eq_none_iff_forall_ne_some]
        intro p hp
        have hchild := hcons.parent?_eq.1 hp
        have hlt : root < p := hroot ▸ hcons.child_lt hchild
        have hsize : p < root + 1 := h.last ▸ lt_size_of_child hchild
        exact absurd hsize (Nat.not_lt.2 hlt)
      rw [ancestors_of_parent?_none hnone, hroot]
      rfl
    · obtain ⟨p, hp⟩ := h.exists_parent hc hroot
      rw [hcons.ancestors_child hp, List.getLast?_cons_cons]
      exact ih p hp (lt_size_of_child (t := ofPlaced source placed root) hp)

theorem mem_descendants_root (h : PlacedNode.Whole placed root) {c : NodeId} :
    c ∈ (ofPlaced source placed root).descendants root ↔ c < placed.size ∧ c ≠ root := by
  have hcons : (ofPlaced source placed root).Consistent := consistent_ofPlaced h.toForest
  rw [hcons.mem_descendants, ← hcons.mem_ancestors]
  constructor
  · intro hroot
    have hlt : c < root := (List.pairwise_cons.1 (hcons.pairwise_ancestors c)).1 root hroot
    exact ⟨h.last ▸ Nat.lt_succ_of_lt hlt, Nat.ne_of_lt hlt⟩
  · rintro ⟨hc, hne⟩
    have hlast : (c :: (ofPlaced source placed root).ancestors c).getLast? = some root :=
      getLast?_ancestors h hc
    exact (List.mem_cons.1 (List.mem_of_getLast? hlast)).resolve_left (Ne.symm hne)

/-! ## Trees from sketches -/

theorem ofPlaced_ofSketch (source : SourceId) (block : Option Sketch) :
    ofPlaced source (ofSketch source block).placed (ofSketch source block).root =
      ofSketch source block :=
  rfl

/-- What is written and neither held nor answered is used. -/
theorem used_of_wrote {d : Draft} {forms : List (Node Unit)} {root : NodeId}
    (h : Draft.Wrote {} forms [root] d) (hheld : d.held = []) {c : NodeId}
    (hc : c < d.placed.size) (hne : c ≠ root) : ∃ id, c ∈ PlacedNode.kidsIn d.placed id := by
  have hall : c ∈ d.adopted ++ d.held ++ [root] := by
    rw [h.adopted.mem_iff]
    exact List.mem_append_right _ (by simpa [List.mem_range'] using hc)
  rw [hheld, List.append_nil, List.mem_append, List.mem_singleton] at hall
  obtain ⟨p, hp, hkid⟩ := List.mem_flatMap.1 (hall.resolve_right hne)
  obtain ⟨id, hget⟩ := List.getElem?_of_mem hp
  refine ⟨id, ?_⟩
  rw [Array.getElem?_toList] at hget
  rwa [PlacedNode.kidsIn, hget]

/-- A part that is a statement stands in a block. -/
theorem Proper.block_of_part {t : SyntaxTree} (h : t.Proper) {id stat : NodeId}
    {n m : Node NodeId} (hn : t.node? id = some n) (hm : t.node? stat = some m)
    (hstat : m.isStat = true) (hpart : stat ∈ n.children) : ∃ stats, n = .block stats := by
  by_contra hblock
  obtain ⟨sort, hsort, m', hm', hadmits⟩ := h.is_of_part hn hpart
  obtain rfl : m = m' := Option.some.inj (hm.symm.trans hm')
  have hne := Node.ne_stat_of_mem_expects (fun stats heq => hblock ⟨stats, heq⟩) hsort
  rw [Node.not_isStat_of_admits hne hadmits] at hstat
  cases hstat

/-- A tree that is written from a sketch is whole, when no comment is left without a statement. -/
theorem whole_ofSketch (source : SourceId) (block : Option Sketch)
    (h : (Sketch.node (.source block)).proper = true)
    (hheld : ((Sketch.node (.source block)).write {}).2.held = []) :
    PlacedNode.Whole (ofSketch source block).placed (ofSketch source block).root := by
  have hproper := proper_ofSketch source block h
  have hw := Sketch.wrote_write _ _ sound_empty h
  obtain ⟨root, hanswer, hsize⟩ :=
    (Sketch.node (.source block)).write_last {} (by cases block <;> rfl)
  have hroot : (ofSketch source block).root = root := congrArg (·.headD 0) hanswer
  rw [hanswer] at hw
  rw [hroot]
  have hused {c : NodeId} := used_of_wrote hw hheld (c := c)
  refine ⟨forest_of_wrote hw rfl rfl, hsize, fun c hc hne => hused hc hne, fun {stat c} hc => ?_⟩
  -- What has a comment is a statement, so it is not the root and no comment itself.
  obtain ⟨p, hp, hcomment⟩ := PlacedNode.mem_commentsIn.1 hc
  obtain ⟨hstat, -⟩ := hw.sound.comments stat p hp c hcomment
  have hnode : (ofSketch source block).node? stat = some p.node := congrArg (Option.map _) hp
  have hne : stat ≠ root := by
    rintro rfl
    obtain ⟨body, hsource⟩ := hproper.root
    rw [hroot, hnode, Option.some.injEq] at hsource
    rw [hsource] at hstat
    cases hstat
  obtain ⟨id, hkid⟩ := hused (Array.getElem?_eq_some_iff.1 hp).1 hne
  obtain ⟨q, hq, hpart | hcomment⟩ := PlacedNode.mem_kidsIn.1 hkid
  · have hnode' : (ofSketch source block).node? id = some q.node := congrArg (Option.map _) hq
    obtain ⟨stats, hblock⟩ := hproper.block_of_part hnode' hnode hstat hpart
    rw [hblock] at hpart
    exact ⟨id, q, stats, hq, hblock, hpart⟩
  · obtain ⟨-, p', hp', hiscomment⟩ := hw.sound.comments id q hq stat hcomment
    obtain rfl : p = p' := Option.some.inj (hp.symm.trans hp')
    rw [Node.not_isComment_of_isStat hstat] at hiscomment
    cases hiscomment

/-- In a whole tree parents and children are each other's inverse, and so are ancestors and
descendants. Every node but the root is below the root once. The way up takes one parent after the
other, its ids grow, and it ends at the root; the statement around a node is the first that it
meets, which is the lowest that has the node in or below it. -/
theorem parents_mirror_children (source : SourceId) (h : PlacedNode.Whole placed root) :
    let t := ofPlaced source placed root
    (∀ c p, t.parent? c = some p ↔ c ∈ t.children p) ∧
    (∀ a c, a ∈ t.ancestors c ↔ c ∈ t.descendants a) ∧
    ((t.descendants t.root).Nodup ∧
      ∀ c, c ∈ t.descendants t.root ↔ t.contains c = true ∧ c ≠ t.root) ∧
    (∀ c, t.ancestors c = (t.parent? c).elim [] fun p => p :: t.ancestors p) ∧
    (∀ c, t.contains c = true → (c :: t.ancestors c).Pairwise (· < ·) ∧
      (c :: t.ancestors c).getLast? = some t.root) ∧
    (∀ c s, t.enclosingStat? c = some s ↔ t.isStat s = true ∧ ∃ before after,
      c :: t.ancestors c = before ++ s :: after ∧ ∀ x ∈ before, t.isStat x = false) ∧
    ∀ c s, t.enclosingStat? c = some s ↔ t.isStat s = true ∧ c ∈ s :: t.descendants s ∧
      ∀ x, t.isStat x = true → c ∈ x :: t.descendants x → s ∈ x :: t.descendants x := by
  intro t
  have hcons : t.Consistent := consistent_ofPlaced h.toForest
  have hcontains (c : NodeId) : t.contains c = true ↔ c < placed.size := decide_eq_true_iff
  refine ⟨fun c p => hcons.parent?_eq, fun a c => ?_, ⟨hcons.nodup_descendants t.root, fun c => ?_⟩,
    hcons.ancestors_eq, fun c hc => ⟨hcons.pairwise_ancestors c, ?_⟩,
    fun c s => enclosingStat?_eq_some_iff, fun c s => ?_⟩
  · rw [hcons.mem_ancestors, hcons.mem_descendants]
  · rw [hcontains]
    exact mem_descendants_root h
  · exact getLast?_ancestors h ((hcontains c).1 hc)
  · simp only [hcons.enclosingStat?_lowest, ← hcons.below_eq_descendants, hcons.mem_below]

/-- `do local n end local m`, where a comment says that `n` is an integer: the comment is node 2 and
the inner block, which has it as a child, node 5. -/
def documentedLocal : Sketch :=
  .block [.doBlock [.node (.comment [.typeTag [.typeName "integer"]]), .declare ["n"] []],
    .declare ["m"] []]

theorem parents_mirror_children_documentedLocal :
    let t := ofSketch 0 (some documentedLocal)
    PlacedNode.Whole t.placed t.root ∧ t.parent? 2 = some 5 ∧ 6 ∈ t.ancestors 0 ∧
      t.enclosingStat? 0 = some 6 ∧ (t.descendants t.root).Nodup := by
  have hwhole := whole_ofSketch 0 (some documentedLocal) (by decide) (by decide +kernel)
  have h := parents_mirror_children 0 hwhole
  rw [ofPlaced_ofSketch] at h
  obtain ⟨hparent, hancestor, ⟨hnodup, -⟩, hup, -, hstat, -⟩ := h
  have hcomment : 2 ∈ (ofSketch 0 (some documentedLocal)).children 5 := by decide +kernel
  have hbelow : 0 ∈ (ofSketch 0 (some documentedLocal)).descendants 6 := by decide +kernel
  have hsteps : (ofSketch 0 (some documentedLocal)).ancestors 0 =
      [1, 2, 5] ++ 6 :: (ofSketch 0 (some documentedLocal)).ancestors 6 := by
    rw [hup 0, (hparent 0 1).2 (by decide +kernel), Option.elim_some,
      hup 1, (hparent 1 2).2 (by decide +kernel), Option.elim_some,
      hup 2, (hparent 2 5).2 hcomment, Option.elim_some,
      hup 5, (hparent 5 6).2 (by decide +kernel), Option.elim_some]
    rfl
  refine ⟨hwhole, (hparent 2 5).2 hcomment, (hancestor 6 0).2 hbelow,
    (hstat 0 6).2 ⟨by decide +kernel, [0, 1, 2, 5], _, congrArg _ hsteps, by decide +kernel⟩,
    hnodup⟩

end SyntaxTree

end LuaAnalysis
