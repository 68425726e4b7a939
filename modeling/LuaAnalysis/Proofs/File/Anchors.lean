import LuaAnalysis.Proofs.File.Declares

/-!
# The declaration of a name

Every node is entered once, and a node makes its named declarations for its own names. So a name is
the anchor of one declaration only, and the way from a name to its declaration leads back.

Main statements: in the outline of a tree a named declaration is the one that is anchored at its node
(`anchored_outline`, `node_of_anchored`).
-/

namespace LuaAnalysis

variable {t : SyntaxTree}

/-! ## Names -/

/-- A named part has one parent. -/
theorem SyntaxTree.namesAt_parent (h : t.Proper) {x w p : NodeId} (hx : x ∈ t.namesAt w)
    (hp : x ∈ t.children p) : w = p := by
  obtain ⟨n, hn, hpart⟩ := part_of_namesAt hx
  exact childOf_unique h (part_mem_children hn hpart) hp

theorem SyntaxTree.not_mem_namesAt (h : t.Proper) {x p : NodeId} (hp : x ∈ t.children p)
    (hnone : t.namesAt p = []) (w : NodeId) : x ∉ t.namesAt w := by
  intro hx
  rw [namesAt_parent h hx hp, hnone] at hx
  cases hx

theorem SyntaxTree.isName_of_is {x : NodeId} (h : t.Is .name x) : t.isName x = true := by
  obtain ⟨n, hn, hadmits⟩ := h
  cases n <;> cases hadmits
  exact isName_of_name hn

/-- What stands where names do is a name. -/
theorem SyntaxTree.isName_of_namesAt (h : t.Proper) {x w : NodeId} (hx : x ∈ t.namesAt w) :
    t.isName x = true := by
  unfold namesAt at hx
  split at hx
  all_goals try next hw =>
    have hfits := h.fits hw
    simp only [Node.Fits, Node.expects, Node.children, List.append_assoc,
      Node.forall₂_each_append, Node.forall₂_each, Option.toList_some] at hfits
    first
      | exact isName_of_is (hfits.1 x hx)
      | exact (List.mem_filter.1 hx).2
  · cases hx

theorem SyntaxTree.not_mem_of_not_isName (h : t.Proper) {x : NodeId} (hx : t.isName x = false)
    (w : NodeId) : x ∉ t.namesAt w := by
  intro hmem
  rw [isName_of_namesAt h hmem] at hx
  cases hx

/-- What else is declared is not anchored at a name. -/
theorem Declares.not_name (h : t.Proper) {w : NodeId} {d : Declaration} {token : Option NodeId}
    (hd : Declares t w d token) (hnamed : d.kind.isNamed = false) (w' : NodeId) :
    d.node ∉ t.namesAt w' ∧ ∀ x ∈ token, x ∉ t.namesAt w' := by
  -- A node that is no name, and a part of a node that names nothing.
  have hnode {x : NodeId} {n : Node NodeId} (hn : t.node? x = some n)
      (hname : t.isName x = false) : x ∉ t.namesAt w' :=
    SyntaxTree.not_mem_of_not_isName h hname w'
  have hpart {p x : NodeId} {n : Node NodeId} (hn : t.node? p = some n) (hx : x ∈ n.children)
      (hnone : t.namesAt p = []) : x ∉ t.namesAt w' :=
    SyntaxTree.not_mem_namesAt h (SyntaxTree.part_mem_children hn hx) hnone w'
  cases hd with
  | localVar | global | localFunction | globalFunction | counter | loopName | parameter
  | namedType => cases hnamed
  | @index _ _ x key base colon _ hw hx hindex hname =>
    refine ⟨hnode hindex (by rw [SyntaxTree.isName, hindex]), ?_⟩
    rintro y hy
    obtain rfl := Option.some.inj hy
    exact hpart hindex (by simp [Node.children]) (by rw [SyntaxTree.namesAt, hindex])
  | @fieldFunction x closure key base colon _ hw hindex hname =>
    refine ⟨hnode hindex (by rw [SyntaxTree.isName, hindex]), ?_⟩
    rintro y hy
    obtain rfl := Option.some.inj hy
    exact hpart hindex (by simp [Node.children]) (by rw [SyntaxTree.namesAt, hindex])
  | @docParameter tag x type nullable htag =>
    refine ⟨?_, by simp⟩
    exact hpart htag (by simp [Node.children]) (by rw [SyntaxTree.namesAt, htag])
  | @label x hw =>
    refine ⟨hnode hw (by rw [SyntaxTree.isName, hw]), ?_⟩
    rintro y hy
    obtain rfl := Option.some.inj hy
    exact hpart hw (by simp [Node.children]) (by rw [SyntaxTree.namesAt, hw])
  | @genericParameter param x bound hparam =>
    refine ⟨hnode hparam (by rw [SyntaxTree.isName, hparam]), ?_⟩
    rintro y hy
    obtain rfl := Option.some.inj hy
    exact hpart hparam (by simp [Node.children]) (by rw [SyntaxTree.namesAt, hparam])
  | @tableField key value x _ _ hw hx hname _ =>
    refine ⟨hnode hw (by rw [SyntaxTree.isName, hw]), ?_⟩
    rintro y hy
    obtain rfl := Option.some.inj hy
    exact hpart hw (by simp [Node.children, hx]) (by rw [SyntaxTree.namesAt, hw])
  | @docField field key type nullable hfield =>
    refine ⟨hnode hfield (by rw [SyntaxTree.isName, hfield]), ?_⟩
    intro y hy
    have hy : y ∈ (Node.docField (some key) type nullable).children := by
      cases key <;> simp_all [FieldKey.token?, Node.children]
    exact hpart hfield hy (by rw [SyntaxTree.namesAt, hfield])
  | @enumField name base fields x hw hx =>
    refine ⟨fun hmem => ?_, by simp⟩
    have hchild : x ∈ t.children w := SyntaxTree.part_mem_children hw (by simp [Node.children, hx])
    rw [SyntaxTree.namesAt_parent h hmem hchild] at hmem
    -- The name of the enum is another part than its fields.
    have hnodup := h.nodup_parts hw
    unfold SyntaxTree.namesAt at hmem
    rw [hw] at hmem
    obtain rfl := List.mem_singleton.1 hmem
    simp only [Node.children, Option.toList_some, List.append_assoc, List.nodup_append,
      List.mem_append] at hnodup
    exact hnodup.2.2 x (by simp) x (.inr hx) rfl

/-! ## The names of a tree -/

theorem SyntaxTree.nodup_namesAt (h : t.Proper) (w : NodeId) : (t.namesAt w).Nodup := by
  unfold namesAt
  split
  · next hw => exact (h.nodup_parts hw).sublist (List.sublist_append_left _ _)
  · next hw =>
    have hnodup := (h.nodup_parts hw).sublist (List.sublist_append_left _ _)
    exact hnodup.filter _
  · exact (List.nodup_singleton _).filter _
  · exact List.nodup_singleton _
  · next hw =>
    have hnodup := h.nodup_parts hw
    rw [Node.children, List.append_assoc] at hnodup
    exact hnodup.sublist (List.sublist_append_left _ _)
  · next hw => exact (h.nodup_parts hw).sublist (List.sublist_append_left _ _)
  · exact List.nodup_singleton _
  · exact List.nodup_singleton _
  · exact List.nodup_singleton _
  · exact List.nodup_nil

theorem SyntaxTree.nodup_names (h : t.Proper) {ws : List NodeId} (hws : ws.Nodup) :
    (ws.flatMap t.namesAt).Nodup := by
  rw [List.nodup_flatMap]
  refine ⟨fun w _ => nodup_namesAt h w, hws.imp fun {w w'} hne x hx hx' => hne ?_⟩
  obtain ⟨n, hn, hpart⟩ := part_of_namesAt hx'
  exact namesAt_parent h hx (part_mem_children hn hpart)

namespace Outline

variable {config : Config} {o o' : Outline} {w : NodeId} {seen : List NodeId}

/-! ## Entering a node -/

/-- What entering a node comes to, apart from scopes. -/
theorem makes_enter (config : Config) (t : SyntaxTree) (w : NodeId) (o : Outline) :
    ∃ o₁ made, o₁.decls = o.decls ∧ o₁.anchors = o.anchors ∧ o₁.entries = o.entries ∧
      o₁.worklist = o.worklist ∧ o.enter config t w = o₁.declareAt config t w ∧
      Makes t w o₁ made (o.enter config t w) ∧ (namedNodes made).Sublist (t.namesAt w) := by
  unfold enter
  cases t.scopeKind? w with
  | none =>
    obtain ⟨made, hmakes, hnames, -⟩ := makes_declareAt (t := t) (w := w) config o
    exact ⟨o, made, rfl, rfl, rfl, rfl, rfl, hmakes, hnames⟩
  | some kind =>
    obtain ⟨made, hmakes, hnames, -⟩ :=
      makes_declareAt (t := t) (w := w) config (o.enterScope t w kind)
    exact ⟨o.enterScope t w kind, made, rfl, rfl, rfl, rfl, rfl, hmakes, hnames⟩

theorem leave_eq (o : Outline) (id : NodeId) :
    (o.leave id).decls = o.decls ∧ (o.leave id).anchors = o.anchors ∧
      (o.leave id).entries = o.entries ∧ (o.leave id).worklist = o.worklist := by
  unfold leave
  split <;> exact ⟨rfl, rfl, rfl, rfl⟩

/-! ## Anchors -/

/-- What holds of the declarations and anchors when some nodes have been entered. -/
structure Anchored (t : SyntaxTree) (seen : List NodeId) (o : Outline) : Prop where
  anchor : ∀ {i : DeclId} {d : Declaration}, o.decls[i]? = some d → (d.node, i) ∈ o.anchors
  made : ∀ {x : NodeId} {i : DeclId}, (x, i) ∈ o.anchors → ∃ w ∈ seen, ∃ d token,
    o.decls[i]? = some d ∧ Declares t w d token ∧ (x = d.node ∨ token = some x)
  names : ((o.decls.toList.filter fun d => d.kind.isNamed).map (·.node)).Sublist
    (seen.flatMap t.namesAt)

theorem Makes.anchors (h : Makes t w o made o') (hw : w ∈ seen)
    (hanchor : ∀ {i : DeclId} {d : Declaration}, o.decls[i]? = some d → (d.node, i) ∈ o.anchors)
    (hmade : ∀ {x : NodeId} {i : DeclId}, (x, i) ∈ o.anchors → ∃ w ∈ seen, ∃ d token,
      o.decls[i]? = some d ∧ Declares t w d token ∧ (x = d.node ∨ token = some x)) :
    (∀ {i : DeclId} {d : Declaration}, o'.decls[i]? = some d → (d.node, i) ∈ o'.anchors) ∧
      ∀ {x : NodeId} {i : DeclId}, (x, i) ∈ o'.anchors → ∃ w ∈ seen, ∃ d token,
        o'.decls[i]? = some d ∧ Declares t w d token ∧ (x = d.node ∨ token = some x) := by
  induction h with
  | nothing => exact ⟨hanchor, hmade⟩
  | record _ _ ih => exact ih
  | schedule _ _ ih => exact ih
  | method _ _ ih => exact ih
  | @declare made o' d token _ hd ih =>
    obtain ⟨ihanchor, ihmade⟩ := ih
    refine ⟨fun {i e} he => ?_, fun {x i} hx => ?_⟩
    · rw [Outline.declare, Array.getElem?_push] at he
      split at he
      · next hi =>
        obtain rfl := Option.some.inj he
        subst hi
        simp [Outline.declare]
      · simp only [Outline.declare, List.mem_append, List.mem_cons]
        exact .inr (.inr (ihanchor he))
    · simp only [Outline.declare, List.mem_append, List.mem_map, Option.mem_toList,
        List.mem_cons] at hx ⊢
      have hnew : (o'.decls.push d)[o'.decls.size]? = some d := Array.getElem?_push_size
      rcases hx with ⟨y, hy, heq⟩ | heq | hold
      · obtain ⟨rfl, rfl⟩ := Prod.mk.inj heq
        exact ⟨w, hw, d, token, hnew, hd, .inr hy⟩
      · obtain ⟨rfl, rfl⟩ := Prod.mk.inj heq
        exact ⟨w, hw, d, token, hnew, hd, .inl rfl⟩
      · obtain ⟨w', hw', e, token', he, hdeclares, hxe⟩ := ihmade hold
        refine ⟨w', hw', e, token', ?_, hdeclares, hxe⟩
        rw [Array.getElem?_push, if_neg (Nat.ne_of_lt (Array.getElem?_eq_some_iff.1 he).1), he]

theorem Anchored.enter (h : Anchored t seen o) (config : Config) (w : NodeId) :
    Anchored t (seen ++ [w]) (o.enter config t w) := by
  obtain ⟨o₁, made, hdecls, hanchors, -, -, -, hmakes, hnames⟩ := makes_enter config t w o
  obtain ⟨hanchor, hmade⟩ := hmakes.anchors (List.mem_append_right seen List.mem_cons_self)
    (fun hd => by
      rw [hdecls] at hd
      rw [hanchors]
      exact h.anchor hd)
    (fun hx => by
      rw [hanchors] at hx
      rw [hdecls]
      obtain ⟨w', hw', hrest⟩ := h.made hx
      exact ⟨w', List.mem_append_left _ hw', hrest⟩)
  refine ⟨hanchor, hmade, ?_⟩
  rw [hmakes.decls_eq, hdecls, List.flatMap_append, List.flatMap_singleton]
  simp only [Array.toList_append, List.filter_append, List.map_append]
  refine h.names.append ?_
  rw [List.filter_map, List.map_map]
  exact hnames

theorem anchored_walk (config : Config) (h : t.Proper) :
    Anchored t (t.below t.root) (t.outline config) := by
  refine outline_induction h (fun seen o x _ _ ho => ho.enter config x) ?_ ?_
  · intro seen o x _ ho
    obtain ⟨hdecls, hanchors, -⟩ := leave_eq o x
    refine ⟨?_, ?_, ?_⟩
    · rw [hdecls, hanchors]
      exact ho.anchor
    · rw [hdecls, hanchors]
      exact ho.made
    · rw [hdecls]
      exact ho.names
  · exact ⟨by simp, by simp, by simp⟩

end Outline

/-! ## In a model -/

namespace FileModel

variable {config : Config} {revision : Revision} {generation : Nat}

section
variable (h : t.Proper) {m : FileModel} (hm : m = (t.analyse config revision generation).model)
include h hm

theorem declares_of_decl? {i : DeclId} {d : Declaration} (hd : m.decl? i = some d) :
    ∃ w ∈ t.below t.root, ∃ token, Declares t w d token := by
  subst hm
  have hwalk := Outline.anchored_walk config h
  obtain ⟨w, hw, d', token, hd', hdeclares, -⟩ := hwalk.made (hwalk.anchor hd)
  rw [show (t.outline config).decls[i]? = some d from hd, Option.some.injEq] at hd'
  exact ⟨w, hw, token, hd' ▸ hdeclares⟩

/-- What a node is an anchor of has it as its node or as its name. -/
theorem declares_of_anchored? {x : NodeId} {i : DeclId} (hx : m.anchored? x = some i) :
    ∃ w, ∃ d token, m.decl? i = some d ∧ Declares t w d token ∧ (x = d.node ∨ token = some x) := by
  subst hm
  obtain ⟨⟨y, j⟩, hfind, rfl⟩ := Option.map_eq_some_iff.1 hx
  have hy : y = x := by simpa using List.find?_some hfind
  subst hy
  obtain ⟨w, -, hmade⟩ :=
    (Outline.anchored_walk config h).made (List.mem_of_find?_eq_some hfind)
  exact ⟨w, hmade⟩

/-- The node of a declaration is an anchor, if not of this declaration. -/
theorem exists_anchored? {i : DeclId} {d : Declaration} (hd : m.decl? i = some d) :
    ∃ j, m.anchored? d.node = some j := by
  subst hm
  have hmem : (d.node, i) ∈ (t.outline config).anchors := (Outline.anchored_walk config h).anchor hd
  have hsome : ((t.outline config).anchors.find? fun anchor => anchor.1 = d.node).isSome = true :=
    List.find?_isSome.2 ⟨_, hmem, by simp⟩
  obtain ⟨anchor, hfind⟩ := Option.isSome_iff_exists.1 hsome
  exact ⟨anchor.2, Option.map_eq_some_iff.2 ⟨anchor, hfind, rfl⟩⟩

omit h hm in
/-- Among declarations that have nodes of their own, those of one node are one. -/
theorem decl_unique {p : Declaration → Bool}
    (hnodup : ((m.decls.toList.filter p).map (·.node)).Nodup) {i j : DeclId}
    {d e : Declaration} (hd : m.decl? i = some d) (he : m.decl? j = some e)
    (hdp : p d = true) (hep : p e = true) (hnode : d.node = e.node) : i = j := by
  rw [List.Nodup, List.pairwise_map, List.pairwise_filter] at hnodup
  rw [decl?, ← Array.getElem?_toList] at hd he
  -- Of two such declarations the later one would have another node.
  exact place_eq_of_pairwise hnodup hd he (fun hother => hother hdp hep hnode)
    fun hother => hother hep hdp hnode.symm

/-- Two named declarations of one node are one. -/
theorem named_unique {i j : DeclId} {d e : Declaration} (hd : m.decl? i = some d)
    (he : m.decl? j = some e) (hdnamed : d.kind.isNamed = true) (henamed : e.kind.isNamed = true)
    (hnode : d.node = e.node) : i = j := by
  subst hm
  have hwalk := Outline.anchored_walk config h
  have hnodup := (SyntaxTree.nodup_names h (t.nodup_below h t.root)).sublist hwalk.names
  exact decl_unique hnodup hd he hdnamed henamed hnode

/-- Only its own node, and its name if that is another node, lead to a declaration. -/
theorem node_of_anchored {x : NodeId} {i : DeclId} {d : Declaration}
    (hx : m.anchored? x = some i) (hd : m.decl? i = some d) (hnamed : d.kind.isNamed = true) :
    x = d.node := by
  obtain ⟨w, e, token, he, hdeclares, heq | htoken⟩ := declares_of_anchored? h hm hx
  · obtain rfl := Option.some.inj (he.symm.trans hd)
    exact heq
  · obtain rfl := Option.some.inj (he.symm.trans hd)
    rw [(hdeclares.named hnamed).2.1] at htoken
    cases htoken

/-- The node of a named declaration leads to it. -/
theorem anchored_node {i : DeclId} {d : Declaration} (hd : m.decl? i = some d)
    (hnamed : d.kind.isNamed = true) : m.anchored? d.node = some i := by
  obtain ⟨w, -, token, hdeclares⟩ := declares_of_decl? h hm hd
  obtain ⟨j, hj⟩ := exists_anchored? h hm hd
  obtain ⟨w', e, token', he, hdeclares', heq⟩ := declares_of_anchored? h hm hj
  -- What the node leads to has a name as well, so it is this declaration.
  have hname := (hdeclares.named hnamed).1
  cases henamed : e.kind.isNamed with
  | true =>
    rcases heq with heq | htoken
    · rw [hj, named_unique h hm hd he hnamed henamed heq]
    · rw [(hdeclares'.named henamed).2.1] at htoken
      cases htoken
  | false =>
    obtain ⟨hnot, hnot'⟩ := hdeclares'.not_name h henamed w
    rcases heq with heq | htoken
    · exact absurd (heq ▸ hname) hnot
    · exact absurd hname (hnot' _ htoken)

end

end FileModel

end LuaAnalysis
