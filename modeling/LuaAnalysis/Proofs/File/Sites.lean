import LuaAnalysis.Proofs.File.Anchors
import Mathlib.Data.List.TakeWhile

/-!
# The places of members

A member is declared at a place of its own: the target of an assignment, an entry of a table, or a
field in the definition of a type. A place belongs to one node, and every node declares at most one
member for each of its places. So the place of a member is the anchor of that member only.

Main statements: `SyntaxTree.memberSites_unique`, `FileModel.member_unique`,
`FileModel.anchored_member`.
-/

namespace LuaAnalysis

variable {t : SyntaxTree}

/-! ## The node of a place -/

/-- The last member of a list that satisfies a predicate is found from the end. -/
theorem find?_reverse_append {α : Type} {p : α → Bool} {front mid : List α} {a : α}
    (ha : p a = true) (hmid : ∀ x ∈ mid, p x = false) :
    (front ++ a :: mid).reverse.find? p = some a := by
  have hnone : mid.reverse.find? p = none := by
    rw [List.find?_eq_none]
    intro x hx
    simp [hmid x (List.mem_reverse.1 hx)]
  rw [List.reverse_append, List.reverse_cons, List.append_assoc, List.find?_append, hnone,
    Option.none_or, List.singleton_append, List.find?_cons_of_pos ha]

/-- Only table constructors ask for fields with values. -/
theorem Node.ne_entry_of_mem_expects {α : Type} {n : Node α} (hn : ∀ fields, n ≠ .tableExpr fields)
    {sort : PartSort} (hsort : sort ∈ n.expects) : sort ≠ .entry := by
  have hall : n.expects.all (· ≠ .entry) = true := by
    cases n
    case docField key type _ => rcases key with _ | (_ | _ | _) <;> simp [expects]
    case tableExpr fields => exact absurd rfl (hn fields)
    all_goals simp [expects]
  simpa using List.all_eq_true.1 hall sort hsort

namespace SyntaxTree

/-- The tag that a tag belongs to is the last definition before it in its comment. -/
theorem find?_of_followingTags {w x comment : NodeId} {tags : List NodeId}
    (hw : t.isDefinition w = true) (hparent : t.parent? w = some comment)
    (hcomment : t.node? comment = some (.comment tags)) (hnodup : tags.Nodup)
    (hx : x ∈ t.followingTags w) :
    (tags.takeWhile (· ≠ x)).reverse.find? t.isDefinition = some w := by
  have htags : t.tagsOf comment = tags := by rw [tagsOf, hcomment]
  unfold followingTags at hx
  rw [hparent] at hx
  dsimp only at hx
  rw [htags] at hx
  cases hdrop : tags.dropWhile (· ≠ w) with
  | nil =>
    rw [hdrop] at hx
    cases hx
  | cons w' rest =>
    have hw' := List.head?_dropWhile_not (· ≠ w) tags
    rw [hdrop] at hw'
    obtain rfl : w' = w := by simpa using hw'
    rw [hdrop, List.drop_succ_cons, List.drop_zero] at hx
    obtain ⟨mid, back, hmid⟩ := List.append_of_mem hx
    -- Between the definition and the tag there is no other definition.
    have hplain : ∀ y ∈ mid, t.isDefinition y = false := by
      intro y hy
      have hmem : y ∈ rest.takeWhile fun other => !t.isDefinition other := by simp [hmid, hy]
      simpa using List.mem_takeWhile_imp hmem
    have hlist : tags = tags.takeWhile (· ≠ w') ++ w' :: mid ++
        x :: (back ++ rest.dropWhile fun other => !t.isDefinition other) := by
      calc tags
        _ = tags.takeWhile (· ≠ w') ++ tags.dropWhile (· ≠ w') :=
          List.takeWhile_append_dropWhile.symm
        _ = tags.takeWhile (· ≠ w') ++ w' :: ((rest.takeWhile fun other => !t.isDefinition other) ++
            rest.dropWhile fun other => !t.isDefinition other) := by
          rw [hdrop, List.takeWhile_append_dropWhile]
        _ = _ := by simp [hmid]
    have hfront : tags.takeWhile (· ≠ x) = tags.takeWhile (· ≠ w') ++ w' :: mid := by
      rw [hlist] at hnodup
      have hnot : ∀ y ∈ tags.takeWhile (· ≠ w') ++ w' :: mid, decide (y ≠ x) = true := by
        intro y hy
        have hne : y ≠ x := by
          rintro rfl
          exact List.disjoint_of_nodup_append hnodup hy List.mem_cons_self
        exact decide_eq_true hne
      conv_lhs => rw [hlist]
      rw [List.takeWhile_append_of_pos hnot]
      simp
    rw [hfront]
    exact find?_reverse_append hw hplain

theorem comment_of_tagsOf {comment tag : NodeId} (h : tag ∈ t.tagsOf comment) :
    ∃ tags, t.node? comment = some (.comment tags) ∧ tag ∈ tags := by
  unfold tagsOf at h
  split at h
  · next tags hcomment => exact ⟨tags, hcomment, h⟩
  · cases h

theorem comment_of_followingTags {w x : NodeId} (hx : x ∈ t.followingTags w) :
    ∃ comment tags, t.parent? w = some comment ∧ t.node? comment = some (.comment tags) ∧
      x ∈ tags := by
  unfold followingTags at hx
  split at hx
  · next comment hparent =>
    have hmem : x ∈ t.tagsOf comment :=
      (List.dropWhile_sublist _).mem (List.mem_of_mem_drop ((List.takeWhile_sublist _).mem hx))
    obtain ⟨tags, hcomment, hmem⟩ := comment_of_tagsOf hmem
    exact ⟨comment, tags, hparent, hcomment, hmem⟩
  · cases hx

theorem body_of_bodyFields {body : Option NodeId} {x : NodeId} (hx : x ∈ Outline.bodyFields t body) :
    ∃ b fields, body = some b ∧ t.node? b = some (.docBody fields) ∧ x ∈ fields := by
  unfold Outline.bodyFields at hx
  split at hx
  · next fields hbody =>
    obtain ⟨b, rfl, hb⟩ := Option.bind_eq_some_iff.1 hbody
    exact ⟨b, fields, rfl, hb, hx⟩
  · cases hx

/-- The node whose place a part of a node is. -/
def holderIn (t : SyntaxTree) (p x : NodeId) : Node NodeId → Option NodeId
  | .comment tags => (tags.takeWhile (· ≠ x)).reverse.find? t.isDefinition
  | .docBody _ => t.parent? p
  | _ => some p

/-- The node whose place a node is, if it is a place of a member. -/
def siteHolder? (t : SyntaxTree) (x : NodeId) : Option NodeId :=
  match t.node? x with
  | some (.tableField _ _) => some x
  | _ => (t.parent? x).bind fun p => (t.node? p).bind (t.holderIn p x)

/-- Only table constructors have fields with values. -/
theorem Proper.not_tableField (h : t.Proper) {p x : NodeId} {n : Node NodeId}
    (hn : t.node? p = some n) (hx : x ∈ n.children) (htable : ∀ fields, n ≠ .tableExpr fields)
    (key value : Option NodeId) : t.node? x ≠ some (.tableField key value) := by
  intro hfield
  obtain ⟨sort, hsort, m, hm, hadmits⟩ := h.is_of_part hn hx
  obtain rfl := Option.some.inj (hm.symm.trans hfield)
  cases sort <;> first | exact Node.ne_entry_of_mem_expects htable hsort rfl | cases hadmits

theorem siteHolder?_of_part (h : t.Proper) {p x : NodeId} {n : Node NodeId}
    (hn : t.node? p = some n) (hx : x ∈ n.children) (htable : ∀ fields, n ≠ .tableExpr fields) :
    t.siteHolder? x = t.holderIn p x n := by
  unfold siteHolder?
  split
  · next hfield => exact absurd hfield (h.not_tableField hn hx htable _ _)
  · rw [h.parent?_eq.2 (part_mem_children hn hx), Option.bind_some, hn, Option.bind_some]

theorem siteHolder?_of_memberSites (h : t.Proper) {w x : NodeId} (hx : x ∈ t.memberSites w) :
    t.siteHolder? x = some w := by
  unfold memberSites at hx
  split at hx
  · next hw =>
    exact siteHolder?_of_part h hw (List.mem_append_left _ hx) (by simp)
  · next hw =>
    exact siteHolder?_of_part h hw (List.mem_append_left _ hx) (by simp)
  · next hw =>
    obtain rfl := List.mem_singleton.1 hx
    rw [siteHolder?, hw]
  · next body hw =>
    rcases List.mem_append.1 hx with hx | hx
    · -- The tags that follow a definition are beside it in the comment, which no other one holds.
      obtain ⟨comment, tags, hparent, hcomment, hmem⟩ := comment_of_followingTags hx
      have hnodup : tags.Nodup := h.nodup_parts hcomment
      have hdefinition : t.isDefinition w = true := by rw [isDefinition, hw]
      rw [siteHolder?_of_part h hcomment hmem (by simp)]
      exact find?_of_followingTags hdefinition hparent hcomment hnodup hx
    · obtain ⟨b, fields, rfl, hb, hmem⟩ := body_of_bodyFields hx
      rw [siteHolder?_of_part h hb hmem (by simp)]
      exact h.parent?_eq.2 (part_mem_children hw (by simp [Node.children]))
  · next hw =>
    exact siteHolder?_of_part h hw (List.mem_append_right _ hx) (by simp)
  · next hw =>
    exact siteHolder?_of_part h hw hx (by simp)
  · cases hx

/-- A place belongs to one node. -/
theorem memberSites_unique (h : t.Proper) {w w' x : NodeId} (hx : x ∈ t.memberSites w)
    (hx' : x ∈ t.memberSites w') : w = w' :=
  Option.some.inj ((siteHolder?_of_memberSites h hx).symm.trans (siteHolder?_of_memberSites h hx'))

/-! ## Each once -/

theorem nodup_tagsOf (h : t.Proper) (comment : NodeId) : (t.tagsOf comment).Nodup := by
  unfold tagsOf
  split
  · next hcomment => exact h.nodup_parts hcomment
  · exact List.nodup_nil

theorem nodup_followingTags (h : t.Proper) (w : NodeId) : (t.followingTags w).Nodup := by
  unfold followingTags
  split
  · next comment _ =>
    refine (nodup_tagsOf h comment).sublist ((List.takeWhile_sublist _).trans ?_)
    exact (List.drop_sublist _ _).trans (List.dropWhile_sublist _)
  · exact List.nodup_nil

theorem nodup_bodyFields (h : t.Proper) (body : Option NodeId) :
    (Outline.bodyFields t body).Nodup := by
  unfold Outline.bodyFields
  split
  · next fields hbody =>
    obtain ⟨b, -, hb⟩ := Option.bind_eq_some_iff.1 hbody
    exact h.nodup_parts hb
  · exact List.nodup_nil

theorem nodup_memberSites (h : t.Proper) (w : NodeId) : (t.memberSites w).Nodup := by
  unfold memberSites
  split
  · next hw => exact (h.nodup_parts hw).sublist (List.sublist_append_left _ _)
  · exact List.nodup_singleton _
  · exact List.nodup_singleton _
  · next body hw =>
    refine (nodup_followingTags h w).append (nodup_bodyFields h body) ?_
    -- A tag is in a comment, a field of the body is in the body.
    intro x htag hfield
    obtain ⟨comment, tags, -, hcomment, htag⟩ := comment_of_followingTags htag
    obtain ⟨b, fields, -, hb, hfield⟩ := body_of_bodyFields hfield
    obtain rfl : comment = b :=
      childOf_unique h (part_mem_children hcomment htag) (part_mem_children hb hfield)
    cases hcomment.symm.trans hb
  · next hw => exact (h.nodup_parts hw).sublist (List.sublist_append_right _ _)
  · next hw => exact h.nodup_parts hw
  · exact List.nodup_nil

theorem nodup_sites (h : t.Proper) {ws : List NodeId} (hws : ws.Nodup) :
    (ws.flatMap t.memberSites).Nodup := by
  rw [List.nodup_flatMap]
  refine ⟨fun w _ => nodup_memberSites h w, hws.imp fun {w w'} hne x hx hx' => hne ?_⟩
  exact memberSites_unique h hx hx'

end SyntaxTree

/-! ## What is declared there -/

/-- Whether the parts of a node may be places of members. -/
def Node.holdsMembers {α : Type} : Node α → Bool
  | .assignStat .. | .funcStat .. | .tableExpr _ | .comment _ | .docBody _ | .docEnum ..
  | .docTableType _ => true
  | _ => false

theorem Node.no_stat_of_holdsMembers {α : Type} {n : Node α} (hn : n.holdsMembers = true)
    {sort : PartSort} (hsort : sort ∈ n.expects) : sort ≠ .stat ∧ sort ≠ .genericParam := by
  have hall : n.expects.all (fun s => s ≠ .stat ∧ s ≠ .genericParam) = true := by
    cases n
    case assignStat | funcStat | tableExpr | comment | docBody | docEnum | docTableType =>
      simp [expects]
    all_goals cases hn
  simpa using List.all_eq_true.1 hall sort hsort

/-- Whether a node is among the parts of one that holds places of members. -/
def SyntaxTree.Held (t : SyntaxTree) (x : NodeId) : Prop :=
  ∃ p n, t.node? p = some n ∧ n.holdsMembers = true ∧ x ∈ n.children

theorem SyntaxTree.held_of_memberSites {w x : NodeId} (hx : x ∈ t.memberSites w) :
    t.Held x ∨ x = w ∧ ∃ key value, t.node? w = some (.tableField key value) := by
  unfold memberSites at hx
  split at hx
  · next hw => exact .inl ⟨w, _, hw, rfl, List.mem_append_left _ hx⟩
  · next hw => exact .inl ⟨w, _, hw, rfl, List.mem_append_left _ hx⟩
  · next hw => exact .inr ⟨List.mem_singleton.1 hx, _, _, hw⟩
  · rcases List.mem_append.1 hx with hx | hx
    · obtain ⟨comment, tags, -, hcomment, hmem⟩ := comment_of_followingTags hx
      exact .inl ⟨comment, _, hcomment, rfl, hmem⟩
    · obtain ⟨b, fields, -, hb, hmem⟩ := body_of_bodyFields hx
      exact .inl ⟨b, _, hb, rfl, hmem⟩
  · next hw => exact .inl ⟨w, _, hw, rfl, List.mem_append_right _ hx⟩
  · next hw => exact .inl ⟨w, _, hw, rfl, hx⟩
  · cases hx

/-- What else is the part of a node is not held. -/
theorem SyntaxTree.not_held (h : t.Proper) {p x : NodeId} {n : Node NodeId}
    (hn : t.node? p = some n) (hx : x ∈ n.children) (hholds : n.holdsMembers = false) :
    ¬t.Held x := by
  rintro ⟨q, m, hm, hmholds, hxm⟩
  obtain rfl : p = q := childOf_unique h (part_mem_children hn hx) (part_mem_children hm hxm)
  obtain rfl := Option.some.inj (hn.symm.trans hm)
  rw [hholds] at hmholds
  cases hmholds

/-- Labels and generic parameters are not among what is held. -/
theorem SyntaxTree.Held.sort (h : t.Proper) {x : NodeId} (hx : t.Held x) :
    (∀ token, t.node? x ≠ some (.labelStat token)) ∧
      ∀ token bound, t.node? x ≠ some (.docGenericParam token bound) := by
  obtain ⟨p, n, hn, hholds, hx⟩ := hx
  obtain ⟨sort, hsort, m, hm, hadmits⟩ := h.is_of_part hn hx
  have hsorts := Node.no_stat_of_holdsMembers hholds hsort
  rw [hm]
  refine ⟨?_, ?_⟩
  · rintro token heq
    obtain rfl := Option.some.inj heq
    cases sort <;> first | exact absurd rfl hsorts.1 | cases hadmits
  · rintro token bound heq
    obtain rfl := Option.some.inj heq
    cases sort <;> first | exact absurd rfl hsorts.2 | cases hadmits

section
variable {w : NodeId} {d : Declaration} {token : Option NodeId}

/-- A member is declared at a place of the node. -/
theorem Declares.site (hd : Declares t w d token) (hmember : d.kind.isMember = true) :
    d.node ∈ t.memberSites w := by
  cases hd with
  | index hw hx => rwa [SyntaxTree.memberSites, hw]
  | fieldFunction hw =>
    rw [SyntaxTree.memberSites, hw]
    exact List.mem_cons_self
  | tableField hw =>
    rw [SyntaxTree.memberSites, hw]
    exact List.mem_cons_self
  | enumField hw hx => rwa [SyntaxTree.memberSites, hw]
  | docField hfield hsite => exact hsite
  | localVar | global | localFunction | globalFunction | counter | loopName | parameter
  | docParameter | label | genericParameter | namedType => cases hmember

theorem Declares.held (h : t.Proper) (hd : Declares t w d token)
    (hmember : d.kind.isMember = true) : t.Held d.node := by
  rcases SyntaxTree.held_of_memberSites (hd.site hmember) with hheld | ⟨heq, key, value, hw⟩
  · exact hheld
  · -- A field of a table is in a table constructor.
    cases hd with
    | tableField _ _ _ htable =>
      obtain ⟨n, hn, hc | ⟨stats, -, stat, -, hc⟩⟩ :=
        SyntaxTree.mem_children (h.parent?_eq.1 htable)
      · refine ⟨_, n, hn, ?_, hc⟩
        by_contra hholds
        refine h.not_tableField hn hc ?_ _ _ hw
        rintro fields rfl
        exact hholds rfl
      · obtain ⟨tags, htags⟩ := h.comments hc
        cases htags.symm.trans hw
    | index hw' | fieldFunction hw' | enumField hw' => cases hw'.symm.trans hw
    | docField hfield =>
      dsimp only at heq
      rw [heq] at hfield
      cases hfield.symm.trans hw
    | localVar | global | localFunction | globalFunction | counter | loopName | parameter
    | docParameter | label | genericParameter | namedType => cases hmember

/-- A name that is written in a node of its own is part of the node of the declaration. -/
theorem Declares.token_part (hd : Declares t w d token) {x : NodeId} (hx : token = some x) :
    ∃ n, t.node? d.node = some n ∧ x ∈ n.children ∧ n.holdsMembers = false := by
  cases hd with
  | index _ _ hindex =>
    obtain rfl := Option.some.inj hx
    exact ⟨_, hindex, by simp [Node.children], rfl⟩
  | fieldFunction _ hindex =>
    obtain rfl := Option.some.inj hx
    exact ⟨_, hindex, by simp [Node.children], rfl⟩
  | label hw =>
    obtain rfl := Option.some.inj hx
    exact ⟨_, hw, by simp [Node.children], rfl⟩
  | genericParameter hparam =>
    obtain rfl := Option.some.inj hx
    exact ⟨_, hparam, by simp [Node.children], rfl⟩
  | tableField hw hkey =>
    obtain rfl := Option.some.inj hx
    exact ⟨_, hw, by simp [Node.children, hkey], rfl⟩
  | @docField field key type nullable hfield =>
    refine ⟨_, hfield, ?_, rfl⟩
    cases key <;> simp_all [FieldKey.token?, Node.children]
  | localVar | global | localFunction | globalFunction | counter | loopName | parameter
  | docParameter | namedType | enumField => cases hx

/-- What is neither a member nor a name alone is not declared at a place of a member. -/
theorem Declares.not_held (h : t.Proper) (hd : Declares t w d token)
    (hnamed : d.kind.isNamed = false) (hmember : d.kind.isMember = false) : ¬t.Held d.node := by
  cases hd with
  | docParameter htag => exact SyntaxTree.not_held h htag (by simp [Node.children]) rfl
  | label hw => exact fun hheld => (SyntaxTree.Held.sort h hheld).1 _ hw
  | genericParameter hparam => exact fun hheld => (SyntaxTree.Held.sort h hheld).2 _ _ hparam
  | localVar | global | localFunction | globalFunction | counter | loopName | parameter
  | namedType => cases hnamed
  | index | fieldFunction | tableField | enumField | docField => cases hmember

end

/-! ## At most one for each place -/

/-- The places where some declarations are members. -/
def memberNodes (decls : List Declaration) : List NodeId :=
  (decls.filter fun d => d.kind.isMember).map (·.node)

theorem memberNodes_append (decls decls' : List Declaration) :
    memberNodes (decls ++ decls') = memberNodes decls ++ memberNodes decls' := by
  simp [memberNodes]

namespace Outline

variable {w : NodeId} {o o' o'' : Outline} {sites sites' : List NodeId}

/-- `o'` has more declarations than `o`, with at most one member for each of some places. -/
def Places (sites : List NodeId) (o o' : Outline) : Prop :=
  ∃ made : List Declaration, o'.decls = o.decls ++ made.toArray ∧ (memberNodes made).Sublist sites

theorem Places.none (h : o'.decls = o.decls) : Places sites o o' :=
  ⟨[], by simp [h], List.nil_sublist _⟩

theorem Places.trans (h : Places sites o o') (h' : Places sites' o' o'') :
    Places (sites ++ sites') o o'' := by
  obtain ⟨made, hdecls, hsub⟩ := h
  obtain ⟨made', hdecls', hsub'⟩ := h'
  refine ⟨made ++ made', ?_, ?_⟩
  · simp [hdecls', hdecls]
  · rw [memberNodes_append]
    exact hsub.append hsub'

theorem Places.foldl {α : Type} {step : Outline → α → Outline} {places : α → List NodeId}
    (xs : List α) (o : Outline) (h : ∀ x ∈ xs, ∀ o, Places (places x) o (step o x)) :
    Places (xs.flatMap places) o (xs.foldl step o) := by
  induction xs generalizing o with
  | nil => exact .none rfl
  | cons x xs ih =>
    exact (h x List.mem_cons_self o).trans
      (ih (step o x) fun y hy => h y (List.mem_cons_of_mem _ hy))

theorem Places.foldl_nil {α : Type} {step : Outline → α → Outline} (xs : List α) (o : Outline)
    (h : ∀ x ∈ xs, ∀ o, Places [] o (step o x)) : Places [] o (xs.foldl step o) := by
  have hsteps : Places (xs.flatMap fun _ => []) o (xs.foldl step o) := .foldl xs o h
  rwa [List.flatMap_eq_nil_iff.2 fun _ _ => rfl] at hsteps

/-- One declaration is made for the place where its node is. -/
theorem Places.one {d : Declaration} {site : NodeId} (h : o'.decls = o.decls.push d)
    (hsite : d.node = site) : Places [site] o o' := by
  refine ⟨[d], by simp [h], ?_⟩
  unfold memberNodes
  cases hmember : d.kind.isMember <;> simp [hmember, hsite]

/-- Declarations that are no members take no place. -/
theorem Makes.places {made : List (Declaration × Option NodeId)} (h : Makes t w o made o')
    (hnone : ∀ e ∈ made, e.1.kind.isMember = false) : Places [] o o' := by
  refine ⟨made.map Prod.fst, h.decls_eq, ?_⟩
  have hempty : memberNodes (made.map Prod.fst) = [] := by
    unfold memberNodes
    rw [List.map_eq_nil_iff, List.filter_eq_nil_iff]
    intro d hd
    obtain ⟨e, he, rfl⟩ := List.mem_map.1 hd
    simp [hnone e he]
  rw [hempty]

/-- A declaration that is no member takes no place. -/
theorem Places.other {d : Declaration} (h : o'.decls = o.decls.push d)
    (hkind : d.kind.isMember = false) : Places [] o o' :=
  ⟨[d], by simp [h], by simp [memberNodes, hkind]⟩

theorem places_assignStat (targets exprs : List NodeId) (o : Outline) :
    Places targets o (o.assignStat t w targets exprs) := by
  have hsteps : Places (targets.zipIdx.flatMap fun e => [e.1]) o
      (o.assignStat t w targets exprs) := by
    refine .foldl targets.zipIdx o fun (x, i) _ o => ?_
    dsimp only [assignTarget]
    split
    · split
      · exact .none rfl
      · exact .one rfl rfl
    · split
      · exact .one rfl rfl
      · exact .none rfl
    · exact .none rfl
  rwa [flatMap_fst_zipIdx] at hsteps

theorem places_funcStat (x closure : NodeId) (o : Outline) :
    Places [x] o (o.funcStat t x closure) := by
  unfold funcStat
  dsimp only
  split
  · exact .one rfl rfl
  · split
    · exact .none rfl
    · exact .one rfl rfl
  · split
    · exact .one rfl rfl
    · exact .none rfl
  · exact .none rfl

theorem places_tableField (key value : Option NodeId) (o : Outline) :
    Places [w] o (o.tableField t w key value) := by
  unfold tableField
  split
  · split
    · exact .one rfl rfl
    · exact .none rfl
  · exact .none rfl

theorem places_docField (owner : Owner) (field : NodeId) (o : Outline) :
    Places [field] o (o.docField t owner field) := by
  unfold docField
  split
  · dsimp only
    split
    · exact .one rfl rfl
    · exact .one rfl rfl
    · exact .none rfl
  · exact .none rfl

theorem places_docFields (owner : Owner) (fields : List NodeId) (o : Outline) :
    Places fields o (fields.foldl (fun o field => o.docField t owner field) o) := by
  have hsteps := Places.foldl fields o fun field _ o => places_docField (t := t) owner field o
  rwa [List.flatMap_singleton'] at hsteps

theorem places_classTags (owner : Owner) (tags : List NodeId) (o : Outline) :
    Places tags o (tags.foldl (fun o tag => o.classTag t owner tag) o) := by
  have hsteps : Places (tags.flatMap fun tag => [tag]) o
      (tags.foldl (fun o tag => o.classTag t owner tag) o) := by
    refine .foldl tags o fun tag _ o => ?_
    unfold classTag
    split
    · exact places_docField owner tag o
    · unfold operator
      split
      · split <;> exact .none rfl
      · exact .none rfl
    · exact .none rfl
  rwa [List.flatMap_singleton'] at hsteps

theorem places_genericParam (param : NodeId) (o : Outline) :
    Places [] o (o.genericParam t param) := by
  unfold genericParam
  split
  · exact .other rfl rfl
  · exact .none rfl

theorem places_classGenerics (name : String) (generics : Option NodeId) (o : Outline) :
    Places [] o (o.classGenerics t name generics) := by
  unfold classGenerics
  split
  · next params _ =>
    refine .foldl_nil params o fun param _ o => ?_
    split
    · exact (places_genericParam param o).trans (.none rfl)
    · exact .none rfl
  · exact .none rfl

theorem places_namedType (name : NodeId) (category : TypeCategory) (o : Outline) :
    Places [] o (o.namedType t name category) :=
  .other rfl rfl

theorem places_docClass (kind : ClassKind) (name : NodeId) (generics : Option NodeId)
    (supers : List NodeId) (body : Option NodeId) (o : Outline) :
    Places (t.followingTags w ++ bodyFields t body) o
      (o.docClass t w kind name generics supers body) := by
  have hall : Places ([] ++ t.followingTags w ++ bodyFields t body ++ [] ++ []) o
      (o.docClass t w kind name generics supers body) := by
    unfold docClass
    dsimp only
    refine .trans ?_ (places_classGenerics _ _ _)
    refine .trans ?_ (.foldl_nil supers _ fun super _ o => .none rfl)
    refine .trans ?_ (places_docFields _ _ _)
    exact .trans (places_namedType _ _ _) (places_classTags _ _ _)
  rwa [List.nil_append, List.append_nil, List.append_nil] at hall

theorem places_docEnum (name : NodeId) (base : Option NodeId) (fields : List NodeId)
    (o : Outline) : Places fields o (o.docEnum t name base fields) := by
  have hsteps : Places (fields.flatMap fun field => [field]) (o.namedType t name .enumType)
      (o.docEnum t name base fields) :=
    .foldl fields _ fun field _ o => .one rfl rfl
  rw [List.flatMap_singleton'] at hsteps
  exact (places_namedType name .enumType o).trans hsteps

/-- A node declares at most one member for each of its places. -/
theorem places_declareAt (config : Config) (o : Outline) :
    Places (t.memberSites w) o (o.declareAt config t w) := by
  cases hsites : t.memberSites w with
  | nil =>
    obtain ⟨made, hmade, -⟩ := makes_declareAt (t := t) (w := w) config o
    -- Without places there are no members.
    refine hmade.places fun e he => ?_
    cases hmember : e.1.kind.isMember with
    | false => rfl
    | true =>
      have hsite := (hmade.declares e he).site hmember
      rw [hsites] at hsite
      cases hsite
  | cons x sites =>
    -- There are places, so the node is one of the kinds that have some.
    rw [← hsites]
    unfold SyntaxTree.memberSites at hsites ⊢
    unfold declareAt
    split at hsites
    · next hw =>
      rw [hw]
      exact places_assignStat _ _ o
    · next hw =>
      rw [hw]
      exact places_funcStat _ _ o
    · next hw =>
      rw [hw]
      exact places_tableField _ _ o
    · next hw =>
      rw [hw]
      exact places_docClass _ _ _ _ _ o
    · next hw =>
      rw [hw]
      exact places_docEnum _ _ _ o
    · next hw =>
      rw [hw]
      exact places_docFields _ _ o
    · cases hsites

theorem placed_walk (config : Config) (h : t.Proper) :
    (memberNodes (t.outline config).decls.toList).Sublist
      ((t.below t.root).flatMap t.memberSites) := by
  refine outline_induction (P := fun seen o =>
    (memberNodes o.decls.toList).Sublist (seen.flatMap t.memberSites)) h ?_ ?_ ?_
  · intro seen o x _ _ ho
    obtain ⟨o₁, made, hdecls, -, -, -, henter, -⟩ := makes_enter config t x o
    -- The places that `x` has room for come after those of the nodes seen before it.
    obtain ⟨made, hmade, hsub⟩ := places_declareAt (t := t) (w := x) config o₁
    rw [henter, hmade, hdecls, List.flatMap_append, List.flatMap_singleton,
      Array.toList_append, memberNodes_append]
    exact ho.append hsub
  · intro seen o x _ ho
    rwa [(leave_eq o x).1]
  · exact List.nil_sublist _

end Outline

/-! ## In a model -/

namespace FileModel

variable {config : Config} {revision : Revision} {generation : Nat} (h : t.Proper) {m : FileModel}
  (hm : m = (t.analyse config revision generation).model)
include h hm

/-- Two members at one place are one. -/
theorem member_unique {i j : DeclId} {d e : Declaration} (hd : m.decl? i = some d)
    (he : m.decl? j = some e) (hdmember : d.kind.isMember = true) (hemember : e.kind.isMember = true)
    (hnode : d.node = e.node) : i = j := by
  subst hm
  have hwalk := Outline.placed_walk config h
  have hnodup := (SyntaxTree.nodup_sites h (t.nodup_below h t.root)).sublist hwalk
  unfold memberNodes at hnodup
  exact decl_unique hnodup hd he hdmember hemember hnode

/-- The place of a member leads to it. -/
theorem anchored_member {i : DeclId} {d : Declaration} (hd : m.decl? i = some d)
    (hmember : d.kind.isMember = true) : m.anchored? d.node = some i := by
  obtain ⟨w, -, token, hdeclares⟩ := declares_of_decl? h hm hd
  obtain ⟨j, hj⟩ := exists_anchored? h hm hd
  obtain ⟨w', e, token', he, hdeclares', heq⟩ := declares_of_anchored? h hm hj
  -- What the place leads to is a member as well, so it is this one.
  have hheld := hdeclares.held h hmember
  rcases heq with heq | htoken
  · cases hemember : e.kind.isMember with
    | true => rw [hj, member_unique h hm hd he hmember hemember heq]
    | false =>
      cases henamed : e.kind.isNamed with
      | true =>
        have hname := (hdeclares'.named henamed).1
        exact absurd (heq ▸ hname)
          (hdeclares.not_name h (DeclKind.not_isNamed_of_isMember hmember) w').1
      | false => exact absurd (heq ▸ hheld) (hdeclares'.not_held h henamed hemember)
  · -- A name is part of its declaration, which holds no places.
    obtain ⟨n, hn, hpart, hholds⟩ := hdeclares'.token_part htoken
    exact absurd hheld (SyntaxTree.not_held h hn hpart hholds)

end FileModel

end LuaAnalysis
