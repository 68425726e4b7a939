import LuaAnalysis.Proofs.File.Tokens
import Mathlib.Data.List.Pairwise

/-!
# Who reads a tag

The tags above a statement are read by every closure in it, and by the statement itself if it is a
loop over names. What is read of them are the names of the parameter tags and the generic
parameters that have a name. A label and the generic parameters of a class belong to one node
instead.

Main statement: `SyntaxTree.nodup_filter_iff`.
-/

namespace LuaAnalysis.SyntaxTree

open Outline (paramTags genericParams)

/-- Whether a node is a generic parameter with a name. -/
def isGeneric (t : SyntaxTree) (param : NodeId) : Bool :=
  match t.node? param with
  | some (.docGenericParam (some _) _) => true
  | _ => false

/-- What a closure, or a loop over names, declares of the tags that it reads. -/
def readAt (t : SyntaxTree) (w : NodeId) : List NodeId :=
  match t.node? w with
  | some (.forRangeStat ..) => (paramTags t (t.tags w)).map Prod.fst
  | some (.closureExpr ..) =>
    let tags := ((t.enclosingStat? w).map t.tags).getD []
    (genericParams t tags).filter t.isGeneric ++ (paramTags t tags).map Prod.fst
  | _ => []

/-- The generic parameters that a class declares. -/
def genericsOf (t : SyntaxTree) (generics : Option NodeId) : List NodeId :=
  match generics.bind t.node? with
  | some (.docGeneric params) => params.filter t.isGeneric
  | _ => []

/-- The label or the generic parameters that a node itself has. -/
def ownAt (t : SyntaxTree) (w : NodeId) : List NodeId :=
  match t.node? w with
  | some (.labelStat (some _)) => [w]
  | some (.docClass _ (some _) generics _ _) => t.genericsOf generics
  | _ => []

variable {t : SyntaxTree} {w w' x : NodeId}

theorem isGeneric_eq_false {param : NodeId}
    (h : ∀ x bound, t.node? param ≠ some (.docGenericParam (some x) bound)) :
    t.isGeneric param = false := by
  unfold isGeneric
  split
  · next hparam => exact absurd hparam (h _ _)
  · rfl

theorem isName_of_isGeneric (h : t.isGeneric x = true) : t.isName x = false := by
  unfold isGeneric at h
  split at h
  · next hx => rw [isName, hx]
  · cases h

/-! ## Tags -/

theorem comment_of_tags {stat tag : NodeId} (h : tag ∈ t.tags stat) :
    ∃ comment tags, t.node? comment = some (.comment tags) ∧ tag ∈ tags := by
  obtain ⟨comment, -, htag⟩ := List.mem_flatMap.1 h
  obtain ⟨tags, hcomment, htag⟩ := comment_of_tagsOf htag
  exact ⟨comment, tags, hcomment, htag⟩

theorem tag_of_paramTags {tags : List NodeId} (hx : x ∈ (paramTags t tags).map Prod.fst) :
    ∃ tag ∈ tags, ∃ type nullable,
      t.node? tag = some (.docParam (some x) (some type) nullable) := by
  obtain ⟨⟨x, type⟩, hmem, rfl⟩ := List.mem_map.1 hx
  obtain ⟨tag, htag, hfound⟩ := List.mem_filterMap.1 hmem
  split at hfound
  · next hparam =>
    obtain ⟨rfl, -⟩ := Prod.mk.inj (Option.some.inj hfound)
    exact ⟨tag, htag, _, _, hparam⟩
  · cases hfound

theorem tag_of_genericParams {tags : List NodeId} (hx : x ∈ genericParams t tags) :
    ∃ tag ∈ tags, ∃ params, t.node? tag = some (.docGeneric params) ∧ x ∈ params := by
  obtain ⟨tag, htag, hmem⟩ := List.mem_flatMap.1 hx
  split at hmem
  · next params hgeneric => exact ⟨tag, htag, params, hgeneric, hmem⟩
  · cases hmem

theorem isName_of_paramTags (h : t.Proper) {tags : List NodeId}
    (hx : x ∈ (paramTags t tags).map Prod.fst) : t.isName x = true := by
  obtain ⟨tag, -, type, nullable, hparam⟩ := tag_of_paramTags hx
  exact h.isName_docParam hparam

/-- What is read is a name, or a generic parameter of a tag. -/
theorem cases_readAt (h : t.Proper) (hx : x ∈ t.readAt w) :
    t.isName x = true ∨ t.isGeneric x = true ∧
      ∃ tag params comment tags, t.node? tag = some (.docGeneric params) ∧ x ∈ params ∧
        t.node? comment = some (.comment tags) ∧ tag ∈ tags := by
  unfold readAt at hx
  split at hx
  · exact .inl (isName_of_paramTags h hx)
  · obtain hx | hx := List.mem_append.1 hx
    · obtain ⟨hmem, hgeneric⟩ := List.mem_filter.1 hx
      obtain ⟨tag, htag, params, hparams, hx⟩ := tag_of_genericParams hmem
      -- Without a statement around it, a closure reads no tags.
      cases hstat : t.enclosingStat? w with
      | none =>
        rw [hstat] at htag
        cases htag
      | some stat =>
        rw [hstat] at htag
        obtain ⟨comment, tags, hcomment, htag⟩ := comment_of_tags htag
        exact .inr ⟨hgeneric, tag, params, comment, tags, hparams, hx, hcomment, htag⟩
    · exact .inl (isName_of_paramTags h hx)
  · cases hx

/-- What a node has itself is the node, if that is a label, or a generic parameter of a class. -/
theorem cases_ownAt (hx : x ∈ t.ownAt w) :
    (x = w ∧ ∃ token, t.node? w = some (.labelStat (some token))) ∨
      t.isGeneric x = true ∧ ∃ kind name generics supers body params,
        t.node? w = some (.docClass kind name (some generics) supers body) ∧
          t.node? generics = some (.docGeneric params) ∧ x ∈ params := by
  unfold ownAt at hx
  split at hx
  · next hw => exact .inl ⟨List.mem_singleton.1 hx, _, hw⟩
  · next hw =>
    unfold genericsOf at hx
    split at hx
    · next params hparams =>
      obtain ⟨generics, rfl, hgenerics⟩ := Option.bind_eq_some_iff.1 hparams
      obtain ⟨hmem, hgeneric⟩ := List.mem_filter.1 hx
      exact .inr ⟨hgeneric, _, _, generics, _, _, params, hw, hgenerics, hmem⟩
    · cases hx
  · cases hx

/-- What a node has itself no other one has or reads. -/
theorem ownAt_unique (h : t.Proper) (hx : x ∈ t.ownAt w) (hx' : x ∈ t.readAt w' ++ t.ownAt w') :
    w = w' := by
  obtain ⟨rfl, token, hw⟩ | ⟨hgeneric, _, _, generics, _, _, params, hw, hgenerics, hmem⟩ :=
    cases_ownAt hx
  · -- A label is neither a name nor a generic parameter.
    have hname : t.isName x = false := by rw [isName, hw]
    have hparam : t.isGeneric x = false := by rw [isGeneric, hw]
    obtain hread | hown := List.mem_append.1 hx'
    · obtain hname' | ⟨hparam', -⟩ := cases_readAt h hread
      · rw [hname] at hname'
        cases hname'
      · rw [hparam] at hparam'
        cases hparam'
    · obtain ⟨rfl, -⟩ | ⟨hparam', -⟩ := cases_ownAt hown
      · rfl
      · rw [hparam] at hparam'
        cases hparam'
  · have hunder := part_mem_children hgenerics hmem
    have hclass := part_mem_children hw (by simp [Node.children] : generics ∈ _)
    obtain hread | hown := List.mem_append.1 hx'
    · obtain hname | ⟨-, tag, params', comment, tags, htag, hmem', hcomment, hin⟩ :=
        cases_readAt h hread
      · rw [isName_of_isGeneric hgeneric] at hname
        cases hname
      · -- The generic parameters are part of the class, and not of a comment.
        obtain rfl := childOf_unique h hunder (part_mem_children htag hmem')
        obtain rfl := childOf_unique h hclass (part_mem_children hcomment hin)
        cases hw.symm.trans hcomment
    · obtain ⟨rfl, token, hlabel⟩ | ⟨-, _, _, generics', _, _, params', hw', hgenerics', hmem'⟩ :=
        cases_ownAt hown
      · rw [isGeneric, hlabel] at hgeneric
        cases hgeneric
      · obtain rfl := childOf_unique h hunder (part_mem_children hgenerics' hmem')
        exact childOf_unique h hclass (part_mem_children hw' (by simp [Node.children]))

/-! ## Each once -/

theorem under_of_mem_ancestors (h : t.Proper) (hx : t.Under x t.root) {a : NodeId}
    (ha : a ∈ t.ancestors x) : t.Under a t.root := by
  induction hx using Relation.ReflTransGen.head_induction_on with
  | refl =>
    rw [ancestors_root h] at ha
    cases ha
  | head hc hp ih =>
    rw [ancestors_child h hc] at ha
    obtain rfl | ha := List.mem_cons.1 ha
    · exact hp
    · exact ih ha

/-- A statement is part of a block. -/
theorem block_of_isStat (h : t.Proper) (hx : t.Under x t.root) {n : Node NodeId}
    (hn : t.node? x = some n) (hstat : n.isStat = true) :
    ∃ p stats, t.node? p = some (.block stats) ∧ x ∈ stats := by
  obtain rfl | ⟨p, hp, -⟩ := hx.cases_head
  · obtain ⟨block, hroot⟩ := h.root
    obtain rfl := Option.some.inj (hn.symm.trans hroot)
    cases hstat
  · obtain ⟨m, hm, hpart | ⟨_, _, _, _, hcomment⟩⟩ := mem_children hp
    · obtain ⟨sort, hsort, n', hn', hadmits⟩ := h.is_of_part hm hpart
      obtain rfl := Option.some.inj (hn.symm.trans hn')
      by_cases hblock : ∃ stats, m = .block stats
      · obtain ⟨stats, rfl⟩ := hblock
        exact ⟨p, stats, hm, hpart⟩
      · have hne := Node.ne_stat_of_mem_expects (fun stats heq => hblock ⟨stats, heq⟩) hsort
        rw [Node.not_isStat_of_admits hne hadmits] at hstat
        cases hstat
    · obtain ⟨tags, htags⟩ := h.comments hcomment
      obtain rfl := Option.some.inj (hn.symm.trans htags)
      cases hstat

theorem nodup_tags (h : t.Proper) (hx : t.Under x t.root) {n : Node NodeId}
    (hn : t.node? x = some n) (hstat : n.isStat = true) : (t.tags x).Nodup := by
  obtain ⟨p, stats, hp, hmem⟩ := block_of_isStat h hx hn hstat
  have hcomments : (t.comments x).Nodup := by
    have hnodup := h.nodup_children p
    rw [children_block hp, List.nodup_flatMap] at hnodup
    exact (hnodup.1 x hmem).of_append_left
  refine List.nodup_flatMap.2 ⟨fun comment _ => nodup_tagsOf h comment, hcomments.imp ?_⟩
  intro comment comment' hne tag htag htag'
  obtain ⟨tags, hcomment, htag⟩ := comment_of_tagsOf htag
  obtain ⟨tags', hcomment', htag'⟩ := comment_of_tagsOf htag'
  exact hne (childOf_unique h (part_mem_children hcomment htag) (part_mem_children hcomment' htag'))

theorem nodup_paramTags (h : t.Proper) {tags : List NodeId} (htags : tags.Nodup) :
    ((paramTags t tags).map Prod.fst).Nodup := by
  induction tags with
  | nil => exact List.nodup_nil
  | cons tag tags ih =>
    obtain ⟨hnot, htags⟩ := List.nodup_cons.1 htags
    have hcons : paramTags t (tag :: tags) = paramTags t [tag] ++ paramTags t tags :=
      List.filterMap_append (l := [tag])
    have hone : ((paramTags t [tag]).map Prod.fst).Nodup := by
      rw [paramTags, List.filterMap_cons]
      split <;> simp
    rw [hcons, List.map_append]
    refine hone.append (ih htags) fun x hx hx' => ?_
    -- A name is part of one tag only.
    obtain ⟨tag', hmem, _, _, hparam⟩ := tag_of_paramTags hx
    obtain ⟨tag'', hmem', _, _, hparam'⟩ := tag_of_paramTags hx'
    have hunder : x ∈ t.children tag' := part_mem_children hparam (by simp [Node.children])
    have hunder' : x ∈ t.children tag'' := part_mem_children hparam' (by simp [Node.children])
    obtain rfl := List.mem_singleton.1 hmem
    obtain rfl := childOf_unique h hunder hunder'
    exact hnot hmem'

theorem nodup_genericParams (h : t.Proper) {tags : List NodeId} (htags : tags.Nodup) :
    (genericParams t tags).Nodup := by
  refine List.nodup_flatMap.2 ⟨fun tag _ => ?_, htags.imp fun hne x hx hx' => hne ?_⟩
  · split
    · next htag => exact h.nodup_parts htag
    · exact List.nodup_nil
  · dsimp only at hx hx'
    split at hx
    · next htag =>
      split at hx'
      · next htag' =>
        exact childOf_unique h (part_mem_children htag hx) (part_mem_children htag' hx')
      · cases hx'
    · cases hx

theorem nodup_readAt (h : t.Proper) (hw : w ∈ t.below t.root) : (t.readAt w).Nodup := by
  have hunder : t.Under w t.root := (mem_below h).1 hw
  unfold readAt
  split
  · next hloop => exact nodup_paramTags h (nodup_tags h hunder hloop rfl)
  · have htags : (((t.enclosingStat? w).map t.tags).getD []).Nodup := by
      cases hstat : t.enclosingStat? w with
      | none => exact List.nodup_nil
      | some stat =>
        have hfound : (t.node? stat).any Node.isStat = true :=
          List.find?_some (p := fun a => (t.node? a).any Node.isStat) hstat
        obtain ⟨n, hn, hisStat⟩ := (Option.any_eq_true _ _).1 hfound
        refine nodup_tags h ?_ hn hisStat
        obtain rfl | hmem := List.mem_cons.1 (List.mem_of_find?_eq_some hstat)
        · exact hunder
        · exact under_of_mem_ancestors h hunder hmem
    refine ((nodup_genericParams h htags).filter _).append (nodup_paramTags h htags) ?_
    intro x hgeneric hparam
    have hname := isName_of_isGeneric (List.mem_filter.1 hgeneric).2
    rw [isName_of_paramTags h hparam] at hname
    cases hname
  · exact List.nodup_nil

theorem nodup_genericsOf (h : t.Proper) (generics : Option NodeId) :
    (t.genericsOf generics).Nodup := by
  unfold genericsOf
  split
  · next params hparams =>
    obtain ⟨g, -, hg⟩ := Option.bind_eq_some_iff.1 hparams
    exact (h.nodup_parts hg).filter _
  · exact List.nodup_nil

theorem nodup_ownAt (h : t.Proper) (w : NodeId) : (t.ownAt w).Nodup := by
  unfold ownAt
  split
  · exact List.nodup_singleton _
  · exact nodup_genericsOf h _
  · exact List.nodup_nil

/-- No node both reads tags and has something itself. -/
theorem readAt_disjoint_ownAt (w : NodeId) : List.Disjoint (t.readAt w) (t.ownAt w) := by
  intro x hread hown
  unfold readAt at hread
  obtain ⟨-, token, hw⟩ | ⟨-, _, _, _, _, _, _, hw, -⟩ := cases_ownAt hown
  · rw [hw] at hread
    cases hread
  · rw [hw] at hread
    cases hread

/-- A node is declared once for all that is read of tags, and for all that nodes have themselves,
just if no two nodes read it. -/
theorem nodup_filter_iff (h : t.Proper) (x : NodeId) :
    (((t.below t.root).flatMap fun w => t.readAt w ++ t.ownAt w).filter (· = x)).Nodup ↔
      ∀ w ∈ t.below t.root, ∀ w' ∈ t.below t.root, x ∈ t.readAt w → x ∈ t.readAt w' → w = w' := by
  rw [List.filter_flatMap, List.nodup_flatMap]
  constructor
  · rintro ⟨-, hdisjoint⟩ w hw w' hw' hx hx'
    by_contra hne
    have hmem {w : NodeId} (hx : x ∈ t.readAt w) :
        x ∈ (t.readAt w ++ t.ownAt w).filter (· = x) :=
      List.mem_filter.2 ⟨List.mem_append_left _ hx, by simp⟩
    have hsymm : Std.Symm (Function.onFun List.Disjoint fun w =>
        (t.readAt w ++ t.ownAt w).filter (· = x)) := ⟨fun _ _ hd _ hy hy' => hd hy' hy⟩
    exact hdisjoint.forall hw hw' hne (hmem hx) (hmem hx')
  · intro honce
    refine ⟨fun w hw => ?_, (nodup_below h t.root).imp_of_mem fun {w w'} hw hw' hne y hy hy' => ?_⟩
    · exact ((nodup_readAt h hw).append (nodup_ownAt h w) (readAt_disjoint_ownAt w)).filter _
    · obtain ⟨hmem, heq⟩ := List.mem_filter.1 (show y ∈ List.filter _ _ from hy)
      have hmem' := (List.mem_filter.1 (show y ∈ List.filter _ _ from hy')).1
      obtain rfl : y = x := of_decide_eq_true heq
      obtain hread | hown := List.mem_append.1 hmem
      · obtain hread' | hown' := List.mem_append.1 hmem'
        · exact hne (honce w hw w' hw' hread hread')
        · exact hne (ownAt_unique h hown' hmem).symm
      · exact hne (ownAt_unique h hown hmem')

end LuaAnalysis.SyntaxTree
