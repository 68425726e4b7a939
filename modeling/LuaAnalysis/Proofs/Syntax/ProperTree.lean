import LuaAnalysis.Proofs.Syntax.Writing

/-!
# Proper trees

A `SyntaxTree.Proper` tree is one whose nodes have their parts before them, no node has two parents,
and every part is of the sort that its place asks for.

Main statement: a tree written from a sketch is proper (`proper_ofSketch`).
-/

namespace LuaAnalysis

/-- Where every value of a list is related to all later ones, two that are not related to each other
stand in one place. -/
theorem place_eq_of_pairwise {α : Type} {R : α → α → Prop} {xs : List α} (h : xs.Pairwise R)
    {i j : Nat} {x y : α} (hx : xs[i]? = some x) (hy : xs[j]? = some y) (hxy : ¬R x y)
    (hyx : ¬R y x) : i = j := by
  obtain ⟨hi, rfl⟩ := List.getElem?_eq_some_iff.1 hx
  obtain ⟨hj, rfl⟩ := List.getElem?_eq_some_iff.1 hy
  rw [List.pairwise_iff_getElem] at h
  rcases Nat.lt_trichotomy i j with hlt | heq | hlt
  · exact absurd (h i j hi hj hlt) hxy
  · exact heq
  · exact absurd (h j i hj hi hlt) hyx

namespace PlacedNode

variable {placed : Array PlacedNode}

/-- The nodes that a node has as parts or as comments. -/
def kidsIn (placed : Array PlacedNode) (id : NodeId) : List NodeId :=
  ((placed[id]?).map fun p => p.node.children ++ p.comments).getD []

def commentsIn (placed : Array PlacedNode) (id : NodeId) : List NodeId :=
  ((placed[id]?).map (·.comments)).getD []

/-- No node is a kid twice. -/
structure Forest (placed : Array PlacedNode) : Prop where
  below : ∀ {id c}, c ∈ kidsIn placed id → c < id
  nodup : ∀ id, (kidsIn placed id).Nodup
  unique : ∀ {id id' c}, c ∈ kidsIn placed id → c ∈ kidsIn placed id' → id = id'

theorem mem_kidsIn_of_part {id c : NodeId} {p : PlacedNode} (hp : placed[id]? = some p)
    (hc : c ∈ p.node.children) : c ∈ kidsIn placed id := by
  simp [kidsIn, hp, hc]

theorem mem_kidsIn_of_comment {id c : NodeId} (hc : c ∈ commentsIn placed id) :
    c ∈ kidsIn placed id := by
  unfold commentsIn at hc
  cases hp : placed[id]? with
  | none => simp [hp] at hc
  | some p => simp_all [kidsIn]

theorem childrenIn_block {id : NodeId} {stats : List NodeId} {span : Span} {comments : List NodeId}
    (hp : placed[id]? = some ⟨.block stats, span, comments⟩) :
    childrenIn placed id = stats.flatMap fun stat => commentsIn placed stat ++ [stat] := by
  rw [childrenIn, hp]
  rfl

theorem childrenIn_eq {id : NodeId} {p : PlacedNode} (hp : placed[id]? = some p)
    (hblock : ∀ stats, p.node ≠ .block stats) : childrenIn placed id = p.node.children := by
  unfold childrenIn
  split
  · next stats span comments h =>
    rw [hp, Option.some.injEq] at h
    subst h
    exact absurd rfl (hblock stats)
  · next q _ h =>
    rw [hp, Option.some.injEq] at h
    rw [h]
  · next h => simp [hp] at h

/-- A child is a part, or in a block a comment of a part. -/
theorem mem_childrenIn {id c : NodeId} (hc : c ∈ childrenIn placed id) :
    ∃ p, placed[id]? = some p ∧ (c ∈ p.node.children ∨
      ∃ stats, p.node = .block stats ∧ ∃ stat ∈ stats, c ∈ commentsIn placed stat) := by
  cases hp : placed[id]? with
  | none => simp [childrenIn, hp] at hc
  | some p =>
    refine ⟨p, rfl, ?_⟩
    by_cases hblock : ∃ stats, p.node = .block stats
    · obtain ⟨stats, hstats⟩ := hblock
      obtain ⟨node, span, comments⟩ := p
      obtain rfl : node = .block stats := hstats
      rw [childrenIn_block hp, List.mem_flatMap] at hc
      obtain ⟨stat, hstat, hc⟩ := hc
      rw [List.mem_append, List.mem_singleton] at hc
      obtain hc | rfl := hc
      · exact .inr ⟨stats, rfl, stat, hstat, hc⟩
      · exact .inl hstat
    · rw [childrenIn_eq hp fun stats h => hblock ⟨stats, h⟩] at hc
      exact .inl hc

theorem part_mem_childrenIn {id c : NodeId} {p : PlacedNode} (hp : placed[id]? = some p)
    (hc : c ∈ p.node.children) : c ∈ childrenIn placed id := by
  by_cases hblock : ∃ stats, p.node = .block stats
  · obtain ⟨stats, hstats⟩ := hblock
    obtain ⟨node, span, comments⟩ := p
    obtain rfl : node = .block stats := hstats
    rw [childrenIn_block hp, List.mem_flatMap]
    exact ⟨c, hc, List.mem_append_right _ (List.mem_singleton_self c)⟩
  · rwa [childrenIn_eq hp fun stats h => hblock ⟨stats, h⟩]

theorem Forest.lt_of_mem (h : Forest placed) {id c : NodeId} (hc : c ∈ childrenIn placed id) :
    c < id := by
  obtain ⟨p, hp, hc | ⟨stats, hstats, stat, hstat, hc⟩⟩ := mem_childrenIn hc
  · exact h.below (mem_kidsIn_of_part hp hc)
  · have hkid : stat ∈ kidsIn placed id := mem_kidsIn_of_part hp (by rwa [hstats])
    exact Nat.lt_trans (h.below (mem_kidsIn_of_comment hc)) (h.below hkid)

/-- A part of a node is no comment of any. -/
theorem Forest.part_not_comment (h : Forest placed) {id id' c : NodeId} {p : PlacedNode}
    (hp : placed[id]? = some p) (hc : c ∈ p.node.children) : c ∉ commentsIn placed id' := by
  intro hc'
  have heq := h.unique (mem_kidsIn_of_part hp hc) (mem_kidsIn_of_comment hc')
  subst heq
  have hnodup := h.nodup id
  simp only [kidsIn, hp, Option.map_some, Option.getD_some] at hnodup
  simp only [commentsIn, hp, Option.map_some, Option.getD_some] at hc'
  exact List.disjoint_of_nodup_append hnodup hc hc'

theorem Forest.parent_unique (h : Forest placed) {id id' c : NodeId}
    (hc : c ∈ childrenIn placed id) (hc' : c ∈ childrenIn placed id') : id = id' := by
  obtain ⟨p, hp, hc | ⟨stats, hstats, stat, hstat, hc⟩⟩ := mem_childrenIn hc
  · obtain ⟨p', hp', hc' | ⟨stats', -, stat', -, hc'⟩⟩ := mem_childrenIn hc'
    · exact h.unique (mem_kidsIn_of_part hp hc) (mem_kidsIn_of_part hp' hc')
    · exact absurd hc' (h.part_not_comment hp hc)
  · obtain ⟨p', hp', hc' | ⟨stats', hstats', stat', hstat', hc'⟩⟩ := mem_childrenIn hc'
    · exact absurd hc (h.part_not_comment hp' hc')
    · have hsame := h.unique (mem_kidsIn_of_comment hc) (mem_kidsIn_of_comment hc')
      subst hsame
      have hkid : stat ∈ p.node.children := by rwa [hstats]
      have hkid' : stat ∈ p'.node.children := by rwa [hstats']
      exact h.unique (mem_kidsIn_of_part hp hkid) (mem_kidsIn_of_part hp' hkid')

theorem Forest.nodup_childrenIn (h : Forest placed) (id : NodeId) :
    (childrenIn placed id).Nodup := by
  cases hp : placed[id]? with
  | none => simp [childrenIn, hp]
  | some p =>
    have hkids := h.nodup id
    simp only [kidsIn, hp, Option.map_some, Option.getD_some] at hkids
    have hparts := hkids.of_append_left
    -- The comments of a statement are children of the block around it.
    by_cases hblock : ∃ stats, p.node = .block stats
    · obtain ⟨stats, hstats⟩ := hblock
      obtain ⟨node, span, comments⟩ := p
      obtain rfl : node = .block stats := hstats
      have hno {stat stat' : NodeId} (hstat : stat ∈ stats) : stat ∉ commentsIn placed stat' :=
        h.part_not_comment hp hstat
      rw [childrenIn_block hp, List.nodup_flatMap]
      constructor
      · intro stat hstat
        rw [List.nodup_append]
        refine ⟨?_, by simp, ?_⟩
        · have hnodup := h.nodup stat
          unfold commentsIn
          cases hs : placed[stat]? with
          | none => simp
          | some s =>
            simp only [kidsIn, hs, Option.map_some, Option.getD_some] at hnodup
            exact hnodup.of_append_right
        · rintro c hc d hd rfl
          rw [List.mem_singleton] at hd
          subst hd
          exact hno hstat hc
      · refine (List.Nodup.pairwise_of_forall_ne hparts ?_)
        intro stat hstat stat' hstat' hne c hc hc'
        rw [List.mem_append, List.mem_singleton] at hc hc'
        obtain hc | rfl := hc
        · obtain hc' | rfl := hc'
          · exact hne (h.unique (mem_kidsIn_of_comment hc) (mem_kidsIn_of_comment hc'))
          · exact hno hstat' hc
        · obtain hc' | rfl := hc'
          · exact hno hstat hc'
          · exact hne rfl
    · rw [childrenIn_eq hp fun stats hs => hblock ⟨stats, hs⟩]
      exact hparts

end PlacedNode

namespace SyntaxTree

/-- Makes `id` the parent of some nodes. -/
def adopt (parents : Array (Option NodeId)) (id : NodeId) (children : List NodeId) :
    Array (Option NodeId) :=
  children.foldl (fun parents child => parents.setIfInBounds child (some id)) parents

theorem size_adopt (parents : Array (Option NodeId)) (id : NodeId) (children : List NodeId) :
    (adopt parents id children).size = parents.size := by
  unfold adopt
  induction children generalizing parents with
  | nil => rfl
  | cons child rest ih => rw [List.foldl_cons, ih, Array.size_setIfInBounds]

theorem getElem?_adopt (parents : Array (Option NodeId)) (id : NodeId) (children : List NodeId)
    (c : NodeId) : (adopt parents id children)[c]?.join =
      if c ∈ children ∧ c < parents.size then some id else parents[c]?.join := by
  unfold adopt
  induction children generalizing parents with
  | nil => simp
  | cons child rest ih =>
    rw [List.foldl_cons, ih, Array.size_setIfInBounds, Array.getElem?_setIfInBounds]
    by_cases hc : c = child
    · subst hc
      by_cases hlt : c < parents.size <;> simp [hlt]
    · simp [hc, Ne.symm hc]

/-- The parents when the first nodes of a row have adopted their children. -/
def parentsUpTo (placed : Array PlacedNode) (k : Nat) : Array (Option NodeId) :=
  (List.range k).foldl (fun parents id => adopt parents id (PlacedNode.childrenIn placed id))
    (Array.replicate placed.size none)

theorem size_parentsUpTo (placed : Array PlacedNode) (k : Nat) :
    (parentsUpTo placed k).size = placed.size := by
  induction k with
  | zero => simp [parentsUpTo]
  | succ k ih =>
    unfold parentsUpTo at ih ⊢
    rw [List.range_succ, List.foldl_append, List.foldl_cons, List.foldl_nil, size_adopt, ih]

section
variable {placed : Array PlacedNode}
  (hlt : ∀ {id c}, c ∈ PlacedNode.childrenIn placed id → c < id)
  (hunique : ∀ {c id id'}, c ∈ PlacedNode.childrenIn placed id →
    c ∈ PlacedNode.childrenIn placed id' → id = id')
include hlt hunique

theorem getElem?_parentsUpTo (k : Nat) (hk : k ≤ placed.size) (c p : NodeId) :
    (parentsUpTo placed k)[c]?.join = some p ↔ p < k ∧ c ∈ PlacedNode.childrenIn placed p := by
  induction k with
  | zero =>
    have hnone : (parentsUpTo placed 0)[c]?.join = none := by
      simp only [parentsUpTo, List.range_zero, List.foldl_nil, Array.getElem?_replicate]
      split <;> rfl
    simp [hnone]
  | succ k ih =>
    have hstep : parentsUpTo placed (k + 1) =
        adopt (parentsUpTo placed k) k (PlacedNode.childrenIn placed k) := by
      rw [parentsUpTo, List.range_succ, List.foldl_append]
      rfl
    rw [hstep, getElem?_adopt, size_parentsUpTo]
    by_cases hc : c ∈ PlacedNode.childrenIn placed k
    · have hsize : c < placed.size := Nat.lt_trans (hlt hc) hk
      rw [if_pos ⟨hc, hsize⟩, Option.some.injEq]
      constructor
      · rintro rfl
        exact ⟨Nat.lt_succ_self k, hc⟩
      · rintro ⟨-, hcp⟩
        exact hunique hc hcp
    · rw [if_neg fun hcs => hc hcs.1, ih (Nat.le_of_succ_le hk)]
      constructor
      · rintro ⟨hp, hcp⟩
        exact ⟨Nat.lt_succ_of_lt hp, hcp⟩
      · rintro ⟨hp, hcp⟩
        have hne : p ≠ k := by
          rintro rfl
          exact hc hcp
        exact ⟨Nat.lt_of_le_of_ne (Nat.le_of_lt_succ hp) hne, hcp⟩

/-- A node's parent is the node that has it as a child, when no two have. -/
theorem parent?_ofPlaced_of_unique {source : SourceId} {root : NodeId} (c p : NodeId) :
    (ofPlaced source placed root).parent? c = some p ↔ c ∈ PlacedNode.childrenIn placed p := by
  have hparents : (ofPlaced source placed root).parent? c =
      (parentsUpTo placed placed.size)[c]?.join := rfl
  rw [hparents, getElem?_parentsUpTo hlt hunique _ (Nat.le_refl _)]
  refine ⟨And.right, fun hc => ⟨?_, hc⟩⟩
  obtain ⟨q, hq, -⟩ := PlacedNode.mem_childrenIn hc
  exact (Array.getElem?_eq_some_iff.1 hq).1

end

theorem parent?_ofPlaced {source : SourceId} {placed : Array PlacedNode} {root : NodeId}
    (h : PlacedNode.Forest placed) (c p : NodeId) :
    (ofPlaced source placed root).parent? c = some p ↔ c ∈ PlacedNode.childrenIn placed p :=
  parent?_ofPlaced_of_unique h.lt_of_mem h.parent_unique c p

/-- Whether a node is there and of a sort. -/
def Is (t : SyntaxTree) (sort : PartSort) (id : NodeId) : Prop :=
  ∃ n, t.node? id = some n ∧ sort.admits n = true

/-- Whether a tree is one from the parts upwards. -/
structure Proper (t : SyntaxTree) : Prop where
  child_lt : ∀ {id c}, c ∈ t.children id → c < id
  nodup_children : ∀ id, (t.children id).Nodup
  parent?_eq : ∀ {c id}, t.parent? c = some id ↔ c ∈ t.children id
  fits : ∀ {id n}, t.node? id = some n → n.Fits t.Is
  comments : ∀ {stat c}, c ∈ t.comments stat → ∃ tags, t.node? c = some (.comment tags)
  root : ∃ block, t.node? t.root = some (.source block)

/-- A draft whose new nodes are all adopted, held or answered is a forest. -/
theorem forest_of_wrote {d d' : Draft} {forms : List (Node Unit)} {ids : List NodeId}
    (h : d.Wrote forms ids d') (hd : d.placed = #[]) (hheld : d.held = []) :
    PlacedNode.Forest d'.placed := by
  have hnodup : d'.adopted.Nodup := by
    have hall := h.adopted.nodup_iff.2 (by
      simp only [Draft.adopted, hd, hheld]
      exact List.nodup_range')
    exact hall.of_append_left.of_append_left
  rw [Draft.adopted, List.nodup_flatMap] at hnodup
  obtain ⟨hnodup, hdisjoint⟩ := hnodup
  have hkids {i : NodeId} (hi : i < d'.placed.size) : PlacedNode.kidsIn d'.placed i =
      d'.placed[i].node.children ++ d'.placed[i].comments := by
    simp [PlacedNode.kidsIn, hi]
  have hmem {i c : NodeId} (hc : c ∈ PlacedNode.kidsIn d'.placed i) : i < d'.placed.size := by
    by_contra hi
    rw [PlacedNode.kidsIn, Array.getElem?_eq_none (Nat.le_of_not_lt hi)] at hc
    simp at hc
  refine ⟨fun {i c} hc => ?below, fun i => ?nodup, fun {i j c} hc hc' => ?unique⟩
  case below =>
    have hi := hmem hc
    rw [hkids hi] at hc
    exact h.sound.below i _ (Array.getElem?_eq_getElem hi) c hc
  case nodup =>
    by_cases hi : i < d'.placed.size
    · rw [hkids hi]
      exact hnodup _ (by simp)
    · rw [PlacedNode.kidsIn, Array.getElem?_eq_none (Nat.le_of_not_lt hi)]
      exact List.nodup_nil
  case unique =>
    have hi := hmem hc
    have hj := hmem hc'
    rw [hkids hi] at hc
    rw [hkids hj] at hc'
    -- Two places with a common kid cannot be apart, in either order.
    have hget {i : NodeId} (hi : i < d'.placed.size) :
        d'.placed.toList[i]? = some d'.placed[i] := by simp [hi]
    exact place_eq_of_pairwise hdisjoint (hget hi) (hget hj) (fun hapart => hapart hc hc')
      fun hapart => hapart hc' hc

theorem sound_empty : Draft.Sound {} := by
  constructor <;> simp

theorem proper_ofPlaced {d : Draft} {root : NodeId} (source : SourceId) (h : d.Sound)
    (hforest : PlacedNode.Forest d.placed) (hroot : d.At root fun n => ∃ block, n = .source block) :
    (ofPlaced source d.placed root).Proper := by
  have hat {c : NodeId} {good : Node NodeId → Prop} (hc : d.At c good) :
      ∃ n, (ofPlaced source d.placed root).node? c = some n ∧ good n := by
    obtain ⟨p, hp, hgood⟩ := hc
    exact ⟨p.node, congrArg (Option.map _) hp, hgood⟩
  refine ⟨hforest.lt_of_mem, hforest.nodup_childrenIn, parent?_ofPlaced hforest _ _, ?_, ?_, ?_⟩
  · intro id n hn
    obtain ⟨p, hp, rfl⟩ := Option.map_eq_some_iff.1 hn
    exact (h.fits id p hp).imp fun _ _ hc => hat hc
  · intro stat c hc
    have hc : c ∈ PlacedNode.commentsIn d.placed stat := hc
    unfold PlacedNode.commentsIn at hc
    cases hp : d.placed[stat]? with
    | none => simp [hp] at hc
    | some p =>
      simp only [hp, Option.map_some, Option.getD_some] at hc
      obtain ⟨n, hn, hcomment⟩ := hat (h.comments stat p hp c hc).2
      cases n <;> simp_all [Node.isComment]
  · obtain ⟨n, hn, block, rfl⟩ := hat hroot
    exact ⟨block, hn⟩

theorem proper_ofSketch (source : SourceId) (block : Option Sketch)
    (h : (Sketch.node (.source block)).proper = true) : (ofSketch source block).Proper := by
  have hw := Sketch.wrote_write _ _ sound_empty h
  have hforms : Sketch.forms [Sketch.node (.source block)] = [.source (block.map fun _ => ())] := by
    cases block <;> rfl
  rw [hforms] at hw
  unfold ofSketch
  rcases hwrite : (Sketch.node (.source block)).write {} with ⟨ids, d⟩
  rw [hwrite] at hw
  obtain ⟨root, rest, hroot, hrest, hids⟩ := List.forall₂_cons_right_iff.1 hw.forms
  cases hrest
  obtain rfl : ids = [root] := hids
  refine proper_ofPlaced source hw.sound (forest_of_wrote hw rfl rfl) ?_
  refine hroot.imp (fun _ _ hp => hp) fun n hn => ?_
  cases n
  case source block => exact ⟨block, rfl⟩
  case docField key _ _ => rcases key with _ | (_ | _ | _) <;> cases hn
  all_goals cases hn

/-! ## Children -/

variable {t : SyntaxTree}

theorem mem_children {id c : NodeId} (hc : c ∈ t.children id) :
    ∃ n, t.node? id = some n ∧ (c ∈ n.children ∨
      ∃ stats, n = .block stats ∧ ∃ stat ∈ stats, c ∈ t.comments stat) := by
  obtain ⟨p, hp, hc⟩ := PlacedNode.mem_childrenIn hc
  exact ⟨p.node, by rw [node?, hp]; rfl, hc⟩

theorem children_eq {id : NodeId} {n : Node NodeId} (hn : t.node? id = some n)
    (hblock : ∀ stats, n ≠ .block stats) : t.children id = n.children := by
  obtain ⟨p, hp, rfl⟩ := Option.map_eq_some_iff.1 hn
  exact PlacedNode.childrenIn_eq hp hblock

theorem children_block {id : NodeId} {stats : List NodeId} (hn : t.node? id = some (.block stats)) :
    t.children id = stats.flatMap fun stat => t.comments stat ++ [stat] := by
  obtain ⟨⟨node, span, comments⟩, hp, hnode⟩ := Option.map_eq_some_iff.1 hn
  obtain rfl : node = .block stats := hnode
  exact PlacedNode.childrenIn_block hp

theorem part_mem_children {id c : NodeId} {n : Node NodeId} (hn : t.node? id = some n)
    (hc : c ∈ n.children) : c ∈ t.children id := by
  obtain ⟨p, hp, rfl⟩ := Option.map_eq_some_iff.1 hn
  exact PlacedNode.part_mem_childrenIn hp hc

/-- The parts of a node are nodes of their own. -/
theorem Proper.nodup_parts (h : t.Proper) {id : NodeId} {n : Node NodeId}
    (hn : t.node? id = some n) : n.children.Nodup := by
  have hnodup := h.nodup_children id
  by_cases hblock : ∃ stats, n = .block stats
  · obtain ⟨stats, rfl⟩ := hblock
    rw [children_block hn, List.nodup_flatMap] at hnodup
    refine hnodup.2.imp fun {stat stat'} hdisjoint heq => ?_
    exact hdisjoint (a := stat) (List.mem_append_right _ (by simp))
      (List.mem_append_right _ (by simp [heq]))
  · rwa [children_eq hn fun stats h => hblock ⟨stats, h⟩] at hnodup

theorem Proper.is_of_part (h : t.Proper) {id c : NodeId} {n : Node NodeId}
    (hn : t.node? id = some n) (hc : c ∈ n.children) : ∃ sort ∈ n.expects, t.Is sort c := by
  have hfits := h.fits hn
  unfold Node.Fits at hfits
  revert hc hfits
  generalize n.expects = sorts
  generalize n.children = parts
  intro hc hfits
  induction hfits with
  | nil => simp at hc
  | cons his _ ih =>
    rcases List.mem_cons.1 hc with rfl | hc
    · exact ⟨_, List.mem_cons_self, his⟩
    · obtain ⟨sort, hsort, his⟩ := ih hc
      exact ⟨sort, List.mem_cons_of_mem _ hsort, his⟩

end SyntaxTree

end LuaAnalysis
