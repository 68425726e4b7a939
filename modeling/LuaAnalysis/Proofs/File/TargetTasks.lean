import LuaAnalysis.Proofs.File.ClosureTasks

/-!
# The tasks of targets

A local statement declares the names that it binds. An assignment declares the fields that it
assigns, and the names that nothing declares before it. Each of these declarations has the type that
the tags of the statement give its position, and its task the value of the position.

Main statements: `Outline.received_of_target`, `FileModel.anchored_of_localStat`.
-/

namespace LuaAnalysis

/-- The targets and the values of a local statement or an assignment. -/
def SyntaxTree.assignment? (t : SyntaxTree) (stat : NodeId) : Option (List NodeId × List NodeId) :=
  match t.node? stat with
  | some (.localStat names exprs) => some (names, exprs)
  | some (.assignStat targets exprs) => some (targets, exprs)
  | _ => none

/-- What the tags of a statement say about the target at a position: its type if they give it one,
and whether they define it. -/
def SyntaxTree.annotation (t : SyntaxTree) (stat : NodeId) (i : Nat) : Option Ty × Bool :=
  typeAt (t.taggedTypes stat) (t.definedType? stat) i

/-- Whether a declaration is that of a target of a local statement or an assignment. -/
def DeclKind.isTarget : DeclKind → Bool
  | .localVar | .global | .index => true
  | _ => false

/-- Whether a node is an index expression that selects a field by name. -/
def SyntaxTree.isNamedField (t : SyntaxTree) (x : NodeId) : Bool :=
  match t.node? x with
  | some (.indexExpr _ (some key) _) => (t.keyText? key).isSome
  | _ => false

/-- A declaration is made for the target at a position of a statement: it has the type that is
written there, and its task the value that is assigned there. -/
structure Worklist.Receives (t : SyntaxTree) (stat : NodeId) (exprs : List NodeId) (i : Nat)
    (w : Worklist) (j : DeclId) (d : Declaration) : Prop where
  written : d.written = (t.annotation stat i).1
  task : ∃ todo, todo.type = true ∧
    some (.declaration j (valueAt exprs i) todo (t.annotation stat i).2) ∈ w.places

section
variable {t : SyntaxTree} {stat x : NodeId} {targets exprs : List NodeId}

theorem SyntaxTree.assignment?_eq_some (h : t.assignment? stat = some (targets, exprs)) :
    t.node? stat = some (.localStat targets exprs) ∨
      t.node? stat = some (.assignStat targets exprs) := by
  unfold assignment? at h
  split at h
  · next hn =>
    obtain ⟨rfl, rfl⟩ := Prod.mk.inj (Option.some.inj h)
    exact .inl hn
  · next hn =>
    obtain ⟨rfl, rfl⟩ := Prod.mk.inj (Option.some.inj h)
    exact .inr hn
  · cases h

/-- Targets and values are the parts of the statement. -/
theorem SyntaxTree.parts_of_assignment? (h : t.assignment? stat = some (targets, exprs)) :
    ∃ n, t.node? stat = some n ∧ n.children = targets ++ exprs := by
  rcases assignment?_eq_some h with hn | hn
  · exact ⟨_, hn, rfl⟩
  · exact ⟨_, hn, rfl⟩

theorem SyntaxTree.Proper.is_expr_of_value (h : t.Proper)
    (hassign : t.assignment? stat = some (targets, exprs)) (hx : x ∈ exprs) : t.Is .expr x := by
  rcases SyntaxTree.assignment?_eq_some hassign with hn | hn
  all_goals
    have hfits := h.fits hn
    simp only [Node.Fits, Node.expects, Node.children, Node.forall₂_each_append,
      Node.forall₂_each] at hfits
    exact hfits.2 x hx

/-- A node is a target in one place only. -/
theorem SyntaxTree.Proper.target_unique (h : t.Proper)
    (hassign : t.assignment? stat = some (targets, exprs)) {stat' : NodeId}
    {targets' exprs' : List NodeId} (hassign' : t.assignment? stat' = some (targets', exprs'))
    {i i' : Nat} (hx : targets[i]? = some x) (hx' : targets'[i']? = some x) :
    stat = stat' ∧ exprs = exprs' ∧ i = i' := by
  obtain ⟨n, hn, hparts⟩ := parts_of_assignment? hassign
  obtain ⟨n', hn', hparts'⟩ := parts_of_assignment? hassign'
  have hchild : x ∈ t.children stat :=
    part_mem_children hn (hparts ▸ List.mem_append_left _ (List.mem_of_getElem? hx))
  have hchild' : x ∈ t.children stat' :=
    part_mem_children hn' (hparts' ▸ List.mem_append_left _ (List.mem_of_getElem? hx'))
  obtain rfl := childOf_unique h hchild hchild'
  obtain ⟨rfl, rfl⟩ := Prod.mk.inj (Option.some.inj (hassign.symm.trans hassign'))
  have hnodup : targets.Nodup :=
    (h.nodup_parts hn).sublist (hparts ▸ List.sublist_append_left _ _)
  have hlt : i < targets.length := (List.getElem?_eq_some_iff.1 hx).1
  exact ⟨rfl, rfl, (List.getElem?_inj hlt hnodup).1 (hx.trans hx'.symm)⟩

end

namespace Outline

variable {config : Config} {t : SyntaxTree} {o o' o'' : Outline} {w : NodeId}
  {targets exprs : List NodeId}

/-- A declaration is made for a target of some statement. -/
def Received (t : SyntaxTree) (o : Outline) (j : DeclId) (d : Declaration) : Prop :=
  ∃ stat targets exprs i, t.assignment? stat = some (targets, exprs) ∧
    targets[i]? = some d.node ∧ o.worklist.Receives t stat exprs i j d

/-- A node is declared as a target. -/
def Declared (o : Outline) (x : NodeId) : Prop :=
  ∃ (j : DeclId) (d : Declaration), o.decls[j]? = some d ∧ d.node = x ∧ d.kind.isTarget = true

/-- What is declared as a target on the way from `o` to `o'` is declared for one, and nothing is taken
away. -/
structure Hands (t : SyntaxTree) (o o' : Outline) : Prop where
  decls : ∀ {j : DeclId} {d : Declaration}, o.decls[j]? = some d → o'.decls[j]? = some d
  places : o.worklist.places ⊆ o'.worklist.places
  received : ∀ {j : DeclId} {d : Declaration}, o'.decls[j]? = some d → d.kind.isTarget = true →
    o.decls[j]? = some d ∨ o'.Received t j d

theorem Received.mono {j : DeclId} {d : Declaration} (h : o.Received t j d)
    (hplaces : o.worklist.places ⊆ o'.worklist.places) : o'.Received t j d := by
  obtain ⟨stat, targets, exprs, i, hassign, hx, hwritten, todo, htype, htask⟩ := h
  exact ⟨stat, targets, exprs, i, hassign, hx, hwritten, todo, htype, hplaces htask⟩

theorem Declared.mono {x : NodeId} (h : o.Declared x) (hands : Hands t o o') : o'.Declared x := by
  obtain ⟨j, d, hd, hrest⟩ := h
  exact ⟨j, d, hands.decls hd, hrest⟩

theorem Hands.refl (o : Outline) : Hands t o o :=
  ⟨fun hd => hd, List.Subset.refl _, fun hd _ => .inl hd⟩

theorem Hands.trans (h : Hands t o o') (h' : Hands t o' o'') : Hands t o o'' := by
  refine ⟨fun hd => h'.decls (h.decls hd), fun _ htask => h'.places (h.places htask),
    fun hd hkind => ?_⟩
  rcases h'.received hd hkind with hold | hnew
  · exact (h.received hold hkind).imp_right fun hreceived => hreceived.mono h'.places
  · exact .inr hnew

/-- A node that is neither a local statement nor an assignment declares no targets. -/
theorem Makes.hands {made : List (Declaration × Option NodeId)} (h : Makes t w o made o')
    (hw : t.assignment? w = none) : Hands t o o' := by
  have hdecls := h.decls_eq
  refine ⟨fun hd => ?_, h.keeps.2, fun {j d} hd hkind => ?_⟩
  · rw [hdecls, Array.getElem?_append, if_pos (Array.getElem?_eq_some_iff.1 hd).1, hd]
  · rw [hdecls, Array.getElem?_append] at hd
    split at hd
    · exact .inl hd
    · have hmem : d ∈ made.map Prod.fst := List.mem_of_getElem? (by simpa using hd)
      obtain ⟨⟨e, token⟩, he, rfl⟩ := List.mem_map.1 hmem
      have hdeclares : Declares t w e token := h.declares _ he
      unfold SyntaxTree.assignment? at hw
      cases hdeclares with
      | localVar hnode | global hnode | index hnode =>
        rw [hnode] at hw
        cases hw
      | _ => cases hkind

/-! ## Statements -/

/-- A target is declared, and its task is posted. -/
theorem hands_post (hassign : t.assignment? w = some (targets, exprs)) {i : Nat}
    {d : Declaration} (hx : targets[i]? = some d.node) (hkind : d.kind.isTarget = true)
    (hwritten : d.written = (t.annotation w i).1) (todo : Open) (htype : todo.type = true)
    (token : Option NodeId) (change : Entries → Entries) (o : Outline) :
    let o' := ((o.declare d token).record change).schedule
      (.declaration o.nextDecl (valueAt exprs i) todo (t.annotation w i).2)
    Hands t o o' ∧ o'.Declared d.node := by
  intro o'
  have hnew : o'.decls[o.nextDecl]? = some d := Array.getElem?_push_size
  refine ⟨⟨fun hd => ?_, List.subset_append_left _ _, fun {j e} he _ => ?_⟩, _, d, hnew, rfl, hkind⟩
  · show (o.decls.push d)[_]? = _
    rw [Array.getElem?_push, if_neg (Nat.ne_of_lt (Array.getElem?_eq_some_iff.1 hd).1), hd]
  · have he : (o.decls.push d)[j]? = some e := he
    rw [Array.getElem?_push] at he
    split at he
    · next hj =>
      obtain rfl := Option.some.inj he
      subst hj
      exact .inr ⟨w, targets, exprs, i, hassign, hx, hwritten, todo, htype,
        List.mem_append_right _ List.mem_cons_self⟩
    · exact .inl he

/-- Steps for the targets of a statement, of which some are declared wherever they stand. -/
theorem hands_foldl {step : Outline → NodeId × Nat → Outline} {bound : NodeId → Prop}
    (xs : List NodeId) (h : ∀ {x i}, xs[i]? = some x → ∀ o, Hands t o (step o (x, i)) ∧
      (bound x → (step o (x, i)).Declared x)) (o : Outline) :
    Hands t o (xs.zipIdx.foldl step o) ∧
      ∀ x ∈ xs, bound x → (xs.zipIdx.foldl step o).Declared x := by
  have hsteps (es : List (NodeId × Nat)) (hes : ∀ e ∈ es, xs[e.2]? = some e.1) (o : Outline) :
      Hands t o (es.foldl step o) ∧ ∀ e ∈ es, bound e.1 → (es.foldl step o).Declared e.1 := by
    induction es generalizing o with
    | nil => exact ⟨.refl o, List.forall_mem_nil _⟩
    | cons e es ih =>
      obtain ⟨he, hes⟩ := List.forall_mem_cons.1 hes
      obtain ⟨hfirst, hdeclared⟩ := h he o
      obtain ⟨hrest, hothers⟩ := ih hes (step o e)
      exact ⟨hfirst.trans hrest,
        List.forall_mem_cons.2 ⟨fun hbound => (hdeclared hbound).mono hrest, hothers⟩⟩
  obtain ⟨hands, hdeclared⟩ := hsteps xs.zipIdx
    (fun e he => List.mk_mem_zipIdx_iff_getElem?.1 he) o
  refine ⟨hands, fun x hx => ?_⟩
  obtain ⟨i, hi⟩ := List.mem_iff_getElem?.1 hx
  exact hdeclared (x, i) (List.mk_mem_zipIdx_iff_getElem?.2 hi)

theorem hands_localStat {names : List NodeId} (hw : t.node? w = some (.localStat names exprs))
    (o : Outline) : Hands t o (o.localStat t w names exprs) ∧
      ∀ x ∈ names, True → (o.localStat t w names exprs).Declared x := by
  have hassign : t.assignment? w = some (names, exprs) := by rw [SyntaxTree.assignment?, hw]
  refine hands_foldl names (fun {x i} hx o => ?_) o
  obtain ⟨hands, hdeclared⟩ := hands_post hassign
    (d := ⟨t.nameText x, .localVar, x, t.loc x, (t.annotation w i).1⟩) hx rfl rfl
    { type := true } rfl none id o
  exact ⟨hands, fun _ => hdeclared⟩

/-- A name that is declared already is left alone. -/
theorem hands_assignTarget (hassign : t.assignment? w = some (targets, exprs)) {x : NodeId}
    {i : Nat} (hx : targets[i]? = some x) (o : Outline) :
    let o' := o.assignTarget t x (valueAt exprs i) (t.annotation w i).1 (t.annotation w i).2
    Hands t o o' ∧ (t.isNamedField x = true → o'.Declared x) := by
  unfold assignTarget SyntaxTree.isNamedField
  split
  · next name hname =>
    rw [hname]
    split
    · exact ⟨.refl o, fun hfield => nomatch hfield⟩
    · obtain ⟨hands, -⟩ := hands_post hassign
        (d := ⟨name, .global, x, t.loc x, (t.annotation w i).1⟩) hx rfl rfl
        { type := true } rfl none (·.addGlobal name o.nextDecl) o
      exact ⟨hands, fun hfield => nomatch hfield⟩
  · next key _ hindex =>
    rw [hindex]
    dsimp only
    split
    · next name hname =>
      obtain ⟨hands, hdeclared⟩ := hands_post hassign
        (d := ⟨name, .index, x, t.loc key, (t.annotation w i).1⟩) hx rfl rfl
        { type := true, owner := true } rfl (some key) id o
      exact ⟨hands, fun _ => hdeclared⟩
    · next hnone => exact ⟨.refl o, fun hfield => by rw [hnone] at hfield; cases hfield⟩
  · next hname hindex =>
    refine ⟨.refl o, fun hfield => ?_⟩
    split at hfield
    · next hx => exact absurd hx (hindex _ _ _)
    · cases hfield

theorem hands_assignStat (hw : t.node? w = some (.assignStat targets exprs)) (o : Outline) :
    Hands t o (o.assignStat t w targets exprs) ∧
      ∀ x ∈ targets, t.isNamedField x = true → (o.assignStat t w targets exprs).Declared x := by
  have hassign : t.assignment? w = some (targets, exprs) := by rw [SyntaxTree.assignment?, hw]
  exact hands_foldl targets (fun hx o => hands_assignTarget hassign hx o) o

/-! ## The walk -/

/-- The declarations of targets are made for them, and the targets of the statements that have been
entered are declared, but for names that may be declared elsewhere. -/
structure Handed (t : SyntaxTree) (seen : List NodeId) (o : Outline) : Prop where
  received : ∀ {j : DeclId} {d : Declaration}, o.decls[j]? = some d → d.kind.isTarget = true →
    o.Received t j d
  names : ∀ w ∈ seen, ∀ names exprs, t.node? w = some (.localStat names exprs) →
    ∀ x ∈ names, o.Declared x
  fields : ∀ w ∈ seen, ∀ targets exprs, t.node? w = some (.assignStat targets exprs) →
    ∀ x ∈ targets, t.isNamedField x = true → o.Declared x

theorem hands_declareAt (config : Config) (w : NodeId) (o : Outline) :
    Hands t o (o.declareAt config t w) ∧
      (∀ names exprs, t.node? w = some (.localStat names exprs) →
        ∀ x ∈ names, (o.declareAt config t w).Declared x) ∧
      ∀ targets exprs, t.node? w = some (.assignStat targets exprs) →
        ∀ x ∈ targets, t.isNamedField x = true → (o.declareAt config t w).Declared x := by
  cases hassign : t.assignment? w with
  | none =>
    obtain ⟨made, hmakes, -⟩ := makes_declareAt (t := t) (w := w) config o
    unfold SyntaxTree.assignment? at hassign
    refine ⟨hmakes.hands hassign, fun names exprs hw => ?_, fun targets exprs hw => ?_⟩
    · rw [hw] at hassign
      cases hassign
    · rw [hw] at hassign
      cases hassign
  | some parts =>
    unfold declareAt
    rcases SyntaxTree.assignment?_eq_some hassign with hw | hw
    · obtain ⟨hands, hdeclared⟩ := hands_localStat hw o
      rw [hw]
      refine ⟨hands, fun names exprs heq => ?_, fun targets exprs heq => by cases heq⟩
      cases heq
      exact fun x hx => hdeclared x hx trivial
    · obtain ⟨hands, hdeclared⟩ := hands_assignStat hw o
      rw [hw]
      refine ⟨hands, fun names exprs heq => (by cases heq), fun targets exprs heq => ?_⟩
      cases heq
      exact hdeclared

theorem Handed.enter {seen : List NodeId} (h : Handed t seen o) (config : Config) (w : NodeId) :
    Handed t (seen ++ [w]) (o.enter config t w) := by
  obtain ⟨o₁, -, hdecls, -, -, hworklist, henter, -⟩ := makes_enter config t w o
  -- A scope that is opened leaves declarations and tasks as they are.
  have hopened : Hands t o o₁ := by
    refine ⟨fun hd => hdecls ▸ hd, by rw [hworklist]; exact List.Subset.refl _, fun hd _ => .inl ?_⟩
    rwa [hdecls] at hd
  obtain ⟨hands, hnames, hfields⟩ := hands_declareAt (t := t) config w o₁
  have hall : Hands t o (o.enter config t w) := henter ▸ hopened.trans hands
  refine ⟨fun hd hkind => ?_, fun w' hw' names exprs hn x hx => ?_,
    fun w' hw' targets exprs hn x hx hfield => ?_⟩
  · rcases hall.received hd hkind with hold | hnew
    · exact (h.received hold hkind).mono hall.places
    · exact hnew
  · rcases List.mem_append.1 hw' with hw' | hw'
    · exact (h.names w' hw' names exprs hn x hx).mono hall
    · obtain rfl := List.mem_singleton.1 hw'
      rw [henter]
      exact hnames names exprs hn x hx
  · rcases List.mem_append.1 hw' with hw' | hw'
    · exact (h.fields w' hw' targets exprs hn x hx hfield).mono hall
    · obtain rfl := List.mem_singleton.1 hw'
      rw [henter]
      exact hfields targets exprs hn x hx hfield

theorem handed (config : Config) (h : t.Proper) :
    Handed t (t.below t.root) (t.outline config) := by
  refine outline_induction h (fun seen o x _ _ ho => ho.enter config x) (fun seen o x _ ho => ?_) ?_
  · unfold leave
    split
    · exact ⟨ho.received, ho.names, ho.fields⟩
    · exact ho
  · exact ⟨by simp, by simp, by simp⟩

section
variable (h : t.Proper) {x : NodeId}
include h

/-- The declaration of a target receives the value of its own position. -/
theorem received_of_target (hassign : t.assignment? w = some (targets, exprs)) {i : Nat}
    (hx : targets[i]? = some x) (hdeclared : (t.outline config).Declared x) :
    ∃ j d, (t.outline config).decls[j]? = some d ∧ d.node = x ∧ d.kind.isTarget = true ∧
      (t.outline config).worklist.Receives t w exprs i j d := by
  obtain ⟨j, d, hd, rfl, hkind⟩ := hdeclared
  obtain ⟨w', targets', exprs', i', hassign', hx', hreceives⟩ :=
    (handed config h).received hd hkind
  obtain ⟨rfl, rfl, rfl⟩ := h.target_unique hassign hassign' hx hx'
  exact ⟨j, d, hd, rfl, hkind, hreceives⟩

/-- A name that an assignment is the first to declare leads to the declaration of the global. -/
theorem declared_of_anchored (hw : t.node? w = some (.assignStat targets exprs))
    (hx : x ∈ targets) {name : String} (hname : t.node? x = some (.nameExpr name))
    {revision : Revision} {generation : Nat}
    (hanchored : ((t.analyse config revision generation).model.anchored? x).isSome) :
    (t.outline config).Declared x := by
  obtain ⟨j, hj⟩ := Option.isSome_iff_exists.1 hanchored
  obtain ⟨w', d, token, hd, hdeclares, hnode⟩ := FileModel.declares_of_anchored? h rfl hj
  have hmem : x ∈ t.namesAt w := by
    rw [SyntaxTree.namesAt, hw]
    exact List.mem_filter.2 ⟨hx, SyntaxTree.isName_of_nameExpr hname⟩
  have hchild : x ∈ t.children w := SyntaxTree.part_mem_children hw (List.mem_append_left _ hx)
  -- Nothing but a declaration by name is made for a name.
  have hnamed : d.kind.isNamed = true := by
    by_contra hother
    obtain ⟨hnot, hnone⟩ := hdeclares.not_name h (by simpa using hother) w
    rcases hnode with rfl | htoken
    · exact hnot hmem
    · exact hnone x htoken hmem
  obtain ⟨hd', htoken, -⟩ := hdeclares.named hnamed
  obtain rfl : x = d.node := hnode.resolve_right (by rw [htoken]; simp)
  obtain rfl := SyntaxTree.namesAt_parent h hd' hchild
  refine ⟨j, d, hd, rfl, ?_⟩
  cases hdeclares with
  | global => rfl
  | namedType hdefinition =>
    rw [SyntaxTree.isDefinition, hw] at hdefinition
    cases hdefinition
  | localVar hw' | localFunction hw' | globalFunction hw' | counter hw' | loopName hw'
  | parameter hw' =>
    rw [hw] at hw'
    cases hw'
  | _ => cases hnamed

end

end Outline

/-- A name that a local statement binds leads to the declaration that is made for it. -/
theorem FileModel.anchored_of_localStat {config : Config} {t : SyntaxTree} {revision : Revision}
    {generation : Nat} {m : FileModel} (h : t.Proper)
    (hm : m = (t.analyse config revision generation).model) {stat : NodeId}
    {names exprs : List NodeId} (hn : t.node? stat = some (.localStat names exprs)) {j : DeclId}
    {d : Declaration} (hd : m.decl? j = some d) (hname : d.node ∈ names) :
    m.anchored? d.node = some j := by
  obtain ⟨w, -, token, hdeclares⟩ := declares_of_decl? h hm hd
  have hnamed : d.kind.isNamed = true := by
    by_contra hother
    apply (hdeclares.not_name h (by simpa using hother) stat).1
    rwa [SyntaxTree.namesAt, hn]
  exact anchored_node h hm hd hnamed

end LuaAnalysis
