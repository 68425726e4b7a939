import LuaAnalysis.Proofs.File.LexicalScope

/-!
# Entering a node, and leaving it

A node with a scope opens it in the current one, declares in it what it declares, and what is below
the node happens there (`Outline.Entered`). Any other node declares in the current scope.

Main statements: what the new scope shows at first (`Entered.sees_through`, `Entered.sees_own`), and
what the scope around it is left with (`Entered.analysed`, `analysed_plain`).
-/

namespace LuaAnalysis.Outline

variable {config : Config} {t : SyntaxTree} {o o' o'' : Outline} {sid : ScopeId}
  {extra : List ScopeItem} {nodes : List NodeId} {id : NodeId} {env : Env} {kind : ScopeKind}
  {made : List (Declaration × Option NodeId)} {position : Nat}

/-! ## Leaving -/

@[simp] theorem scopes_leave (o : Outline) (id : NodeId) : (o.leave id).scopes = o.scopes := by
  unfold leave
  split <;> rfl

theorem Nested.leave (h : Nested t o) (id : NodeId) : Nested t (o.leave id) := by
  unfold Outline.leave
  split
  · exact ⟨h.parent_lt, h.decl_lt, h.inner, h.owner⟩
  · exact h

theorem Right.leave {u : NodeId} (h : Right t o u env) (id : NodeId) :
    Right t (o.leave id) u env := by
  unfold Outline.leave
  split
  · exact h
  · exact h

theorem Adds.leave {new : Env} (h : Adds t o position env new extra) (id : NodeId) :
    Adds t (o.leave id) position env new extra := by
  unfold Outline.leave
  split
  · exact h
  · exact h

/-! ## Nodes without a scope -/

theorem enter_eq_declareAt (hkind : t.scopeKind? id = none) :
    o.enter config t id = o.declareAt config t id := by
  rw [enter, hkind]

/-- No node without a scope owns one. -/
theorem not_mem_owners (wf : Nested t o) (hkind : t.scopeKind? id = none) : id ∉ o.owners := by
  intro hid
  obtain ⟨s, hs, rfl⟩ := List.mem_map.1 hid
  obtain ⟨i, hi⟩ := List.getElem?_of_mem hs
  rw [Array.getElem?_toList] at hi
  rw [(wf.owner hi).1] at hkind
  cases hkind

theorem Ready.ancestors (h : t.Proper) {parent : NodeId} (hready : Ready t o sid parent [(id, env)]) :
    t.ancestors id = parent :: t.ancestors parent :=
  SyntaxTree.ancestors_child h (hready.children _ List.mem_cons_self)

theorem Ready.around_of_plain (h : t.Proper) {parent : NodeId}
    (hready : Ready t o sid parent [(id, env)]) (hkind : t.scopeKind? id = none) :
    Around t o sid (id :: t.ancestors id) := by
  obtain ⟨a, ha, howned⟩ := hready.around
  refine ⟨a, ?_, howned⟩
  rw [hready.ancestors h, List.find?_cons_of_neg (by simp [hkind]), ha]

/-- The children of a node without a scope are walked in the scope around it. -/
theorem Ready.down (h : t.Proper) {parent : NodeId} (hready : Ready t o sid parent [(id, env)])
    (hkind : t.scopeKind? id = none) (hgrown : Grown t [] sid extra o o') :
    Ready t o' sid id (t.childEnvs env id) := by
  obtain ⟨s, hs⟩ := hready.scope
  obtain ⟨new, hnew, hnone⟩ := hgrown.owners
  obtain rfl : new = [] := List.eq_nil_iff_forall_not_mem.2 fun x hx => by simpa using hnone x hx
  refine ⟨hgrown.nested, ?_, ⟨_, hgrown.grows.here hs⟩,
    (hready.around_of_plain h hkind).grown hgrown, fun e he => SyntaxTree.fst_mem_children he, ?_,
    ?_⟩
  · rw [hgrown.around]
    exact hready.here
  · rw [SyntaxTree.map_fst_childEnvs]
    exact h.nodup_children id
  · intro e he x hx
    rw [hnew, List.append_nil]
    refine hready.fresh _ List.mem_cons_self x ?_
    rw [SyntaxTree.below_eq h]
    exact List.mem_cons_of_mem _ (List.mem_flatMap.2 ⟨_, SyntaxTree.fst_mem_children he, hx⟩)

theorem below_eq_childEnvs (h : t.Proper) (env : Env) (id : NodeId) :
    t.below id = id :: (t.childEnvs env id).flatMap fun e => t.below e.1 := by
  rw [SyntaxTree.below_eq h, ← SyntaxTree.map_fst_childEnvs env id, List.flatMap_map]

theorem walk_eq_childEnvs (h : t.Proper) (env : Env) (id : NodeId) (o : Outline) :
    o.walk config t id = ((o.enter config t id).walkAll config t
      ((t.childEnvs env id).map Prod.fst)).leave id := by
  rw [walk_eq h, SyntaxTree.map_fst_childEnvs]

/-- A node without a scope comes to what it declares itself, when its children bind nothing. -/
theorem analysed_plain (h : t.Proper) {parent : NodeId}
    (hready : Ready t o sid parent [(id, env)]) (hkind : t.scopeKind? id = none)
    (hmakes : Makes t id o made (o.enter config t id))
    (hsuits : ∀ c ∈ t.children id, Suits t (o.enter config t id) sid c)
    (hwalks : ∀ c ∈ t.children id, Walks config t c)
    (hquiet : ∀ c ∈ t.children id, t.isBinding c = false)
    (hsees : ∀ e ∈ t.childEnvs env id, SeesAt t (o.enter config t id) sid e.1 e.2)
    (hbehind : ∀ e ∈ made, e.1.kind.isValue = true →
      t.isBinding id = true ∧ (t.span id).start ≤ e.1.position)
    (hadds : ∀ o', Holds o o' made → ∀ position, (t.span id).stop ≤ position →
      Adds t o' position env (t.bound id) (o.declItems made))
    (hright : Right t (o.enter config t id) id env) :
    ∃ extra, Analysed t id sid env extra o (o.walk config t id) := by
  obtain ⟨s, hs⟩ := hready.scope
  have hown := grown_makes hmakes hready.nested hready.here
  have hs' := hown.grows.here hs
  -- The children are walked in the same scope, after what the node declares itself.
  obtain ⟨rest, hrest, hhidden, hrights⟩ := walkAll_quiet h
    (hready.down h hkind hown) (fun e he => hsuits _ (SyntaxTree.fst_mem_children he))
    (fun e he => hwalks _ (SyntaxTree.fst_mem_children he))
    (fun e he => hquiet _ (SyntaxTree.fst_mem_children he)) hsees
  have hboth := hown.trans hrest
  have hleave : o.walk config t id = (o.enter config t id).walkAll config t
      ((t.childEnvs env id).map Prod.fst) := by
    rw [walk_eq_childEnvs h env, leave_eq_self (not_mem_owners hrest.nested hkind)]
  rw [hleave]
  refine ⟨o.declItems made ++ rest, hboth.mono ?_, ?_, ?_, ?_⟩
  · rw [below_eq_childEnvs h env]
    exact fun x hx => List.mem_cons_of_mem _ hx
  · intro s₀ hs₀ position hstart x hx
    obtain rfl : s₀ = s := Option.some.inj (hs₀.symm.trans hs)
    rcases List.mem_append.1 hx with hx | hx
    · -- What the node declares itself stands behind its start.
      refine (hidden_declItems hmakes _ (fun e he hvalue => ?_) x hx).later hown.grows hown.nested hs
        hx hrest.grows
      obtain ⟨hbinding, hle⟩ := hbehind e he hvalue
      exact Nat.le_trans (hstart hbinding) hle
    · exact hhidden _ hs' position x hx
  · intro position hstop
    have hnew := hadds _ (hmakes.holds.extends hrest.grows) position hstop
    exact hnew.append (adds_of_hidden (hhidden _ hs' position) _)
  · rw [SyntaxTree.envsBelow_eq h, List.forall_mem_cons]
    refine ⟨hright.grown hown.nested hrest hs' (hhidden _ hs' _), ?_⟩
    intro e he
    obtain ⟨e', he', he⟩ := List.mem_flatMap.1 he
    exact hrights e' he' e he

/-! ## Nodes with a scope -/

/-- What entering a node with a scope comes to. -/
structure Entered (t : SyntaxTree) (id : NodeId) (kind : ScopeKind) (sid : ScopeId)
    (made : List (Declaration × Option NodeId)) (o o' : Outline) : Prop where
  grows : Extends o o' sid [.scope o.scopes.size]
  nested : Nested t o'
  around : o'.around = o.scopes.size :: o.around
  owners : o'.owners = o.owners ++ [id]
  new : o'.scopes.get? o.scopes.size =
    some { kind, owner := id, span := t.span id, parent := some sid, items := o.declItems made }
  declares : ∀ e ∈ made, Declares t id e.1 e.2
  holds : Holds o o' made

theorem get?_size (o : Outline) : o.scopes.get? o.scopes.size = none :=
  Array.getElem?_eq_none (Nat.le_refl _)

theorem entered_enter (config : Config) {parent : NodeId} (h : t.Proper)
    (hready : Ready t o sid parent [(id, env)]) (hkind : t.scopeKind? id = some kind) :
    ∃ made, Entered t id kind sid made o (o.enter config t id) ∧
      (t.assigns id = false → namedNodes made = t.namesAt id) := by
  have hid : id ∈ t.below id := by
    rw [SyntaxTree.below_eq h]
    exact List.mem_cons_self
  have hfresh := hready.fresh _ List.mem_cons_self id hid
  have hopened := opened_enterScope hready.nested hready.here hready.scope hkind hfresh
  have henter : o.enter config t id = (o.enterScope t id kind).declareAt config t id := by
    rw [enter, hkind]
  have hdecls : (o.enterScope t id kind).decls = o.decls := by
    rw [enterScope_eq hready.here hfresh]
  obtain ⟨made, hmakes, -, hnamed⟩ := makes_declareAt config (o.enterScope t id kind)
  have hown := grown_makes hmakes hopened.nested (by rw [hopened.around]; rfl)
  obtain ⟨new, hnew, hnone⟩ := hown.owners
  obtain rfl : new = [] := List.eq_nil_iff_forall_not_mem.2 fun x hx => by simpa using hnone x hx
  have hitems : (o.enterScope t id kind).declItems made = o.declItems made := by
    rw [declItems, declItems, hdecls]
  rw [henter]
  refine ⟨made, ⟨hopened.grows.inside hown.grows (get?_size o), hown.nested, ?_, ?_, ?_,
    hmakes.declares, ?_⟩, hnamed⟩
  · rw [hown.around, hopened.around]
  · rw [hnew, List.append_nil, hopened.owners]
  · rw [hown.grows.here hopened.new, hitems]
    rfl
  · intro j e he
    have hdecl := hmakes.holds j e he
    rwa [hdecls] at hdecl

section
variable (hentered : Entered t id kind sid made o o')
include hentered

theorem Entered.owned (hfresh : id ∉ o.owners) : o'.scopes.ownedBy? id = some o.scopes.size := by
  have hlength : o.owners.length = o.scopes.size := by simp [Outline.owners, ScopeTree.size]
  rw [ownedBy?_eq, hentered.owners, List.findIdx?_append, ← ownedBy?_eq, ownedBy?_eq_none.2 hfresh,
    hlength]
  simp

/-- A scope that is opened is not seen from anywhere else, unless it is the body of a repeat loop or
a local statement that has ended. -/
theorem Entered.hidden {s : Scope} (hbody : kind = .block → s.kind ≠ .repeatLoop)
    (hended : kind = .localStat → position < (t.span id).stop) :
    ∀ x ∈ [ScopeItem.scope o.scopes.size], o'.Hidden s.kind position x := by
  intro x hx
  obtain rfl := List.mem_singleton.1 hx
  intro r hr
  rw [hentered.new, Option.some.injEq] at hr
  subst hr
  exact ⟨hended, hbody⟩

/-- The children of a node with a scope are walked in it. -/
theorem Entered.ready (h : t.Proper) {parent : NodeId} (hready : Ready t o sid parent [(id, env)])
    (hkind : t.scopeKind? id = some kind) :
    Ready t o' o.scopes.size id (t.childEnvs env id) := by
  have hfresh {x : NodeId} (hx : x ∈ t.below id) := hready.fresh _ List.mem_cons_self x hx
  have hbelow := SyntaxTree.below_eq h id
  refine ⟨hentered.nested, ?_, ⟨_, hentered.new⟩, ⟨id, ?_, ?_⟩,
    fun e he => SyntaxTree.fst_mem_children he, ?_, ?_⟩
  · rw [hentered.around]
    rfl
  · exact List.find?_cons_of_pos (by simp [hkind])
  · exact hentered.owned (hfresh (by rw [hbelow]; exact List.mem_cons_self))
  · rw [SyntaxTree.map_fst_childEnvs]
    exact h.nodup_children id
  · intro e he x hx hmem
    have hchild := SyntaxTree.fst_mem_children he
    rw [hentered.owners, List.mem_append, List.mem_singleton] at hmem
    rcases hmem with hmem | rfl
    · refine hfresh ?_ hmem
      rw [hbelow]
      exact List.mem_cons_of_mem _ (List.mem_flatMap.2 ⟨_, hchild, hx⟩)
    · -- The node itself is not below its children.
      have hle := SyntaxTree.Under.le h ((SyntaxTree.mem_below h).1 hx)
      exact absurd (h.child_lt hchild) (Nat.not_lt.2 hle)

section
variable {s : Scope} (hready : Nested t o) (hs : o.scopes.get? sid = some s)
  (hbody : kind = .block → s.kind ≠ .repeatLoop)
  (hended : kind = .localStat → position < (t.span id).stop) (hsees : Sees t o sid position env)
include hready hs hbody hended hsees

/-- Where a new scope gives nothing, it shows what the scope around it shows. -/
theorem Entered.sees_through
    (hfind : ∀ name, o'.scopes.findAround? o'.decls name position
      ⟨kind, id, t.span id, some sid, o.declItems made⟩ = none) :
    Sees t o' o.scopes.size position env := by
  have houter : Sees t o' sid position env := hsees.hidden hready hentered.nested hentered.grows hs
    (hentered.hidden hbody hended) hs
  intro name
  rw [look_eq hentered.nested hentered.new, hfind, Option.none_or]
  exact houter name

/-- Where a new scope gives what its node declares, these names are in scope in front of the
others. -/
theorem Entered.sees_own (hdefinition : t.isDefinition id = false)
    (hnamed : namedNodes made = t.namesAt id) (hassigns : t.assigns id = false)
    (hbefore : ∀ x ∈ t.namesAt id, (t.span x).start < position)
    (hfind : ∀ name, ∃ shown?, o'.scopes.findAround? o'.decls name position
      ⟨kind, id, t.span id, some sid, o.declItems made⟩ =
        o'.lastItem? shown? position name (o.declItems made)) :
    Sees t o' o.scopes.size position ((t.namesAt id).reverse ++ env) := by
  have houter : Sees t o' sid position env := hsees.hidden hready hentered.nested hentered.grows hs
    (hentered.hidden hbody hended) hs
  have hvalues : valueNodes made = t.namesAt id := by
    rw [valueNodes_eq hentered.declares hdefinition, hnamed]
  have hvalue := names_of_declares hentered.declares hassigns hbefore
  intro name
  obtain ⟨shown?, hshown⟩ := hfind name
  obtain ⟨hmatch, hnone⟩ := matches_declItems hentered.holds hvalue shown? name
  rw [hvalues] at hmatch hnone
  rw [look_eq hentered.nested hentered.new, hshown, binding?_append]
  refine hmatch.or (houter name) fun hsome hnew => ?_
  have hbound := hnone hsome
  rw [hnew] at hbound
  cases hbound

end

/-- After the node is left, its scope is all that the scope around it has got. -/
theorem Entered.leave (hgrown : Grown t nodes o.scopes.size extra o' o'') :
    Grown t (id :: nodes) sid [.scope o.scopes.size] o (o''.leave id) := by
  obtain ⟨new, hnew, hnodes⟩ := hgrown.owners
  have howners : o''.owners = o.owners ++ (id :: new) := by
    rw [hnew, hentered.owners, List.append_assoc, List.singleton_append]
  have hall : Grown t (id :: nodes) sid [.scope o.scopes.size] o
      { o'' with around := o.around } := by
    have hinside := hentered.grows.inside hgrown.grows (get?_size o)
    refine ⟨⟨hinside.decls, hinside.other, hinside.here⟩, ?_, rfl, id :: new, howners, ?_⟩
    · exact ⟨hgrown.nested.parent_lt, hgrown.nested.decl_lt, hgrown.nested.inner,
        hgrown.nested.owner⟩
    · intro x hx
      rcases List.mem_cons.1 hx with rfl | hx
      · exact List.mem_cons_self
      · exact List.mem_cons_of_mem _ (hnodes x hx)
  have hleave : o''.leave id = { o'' with around := o.around } := by
    have hmem : id ∈ o''.owners := by
      rw [howners]
      exact List.mem_append_right _ List.mem_cons_self
    rw [leave_eq_tail hmem, hgrown.around, hentered.around]
    rfl
  rwa [hleave]

/-- A node with a scope adds nothing but that scope to the scope around it. -/
theorem Entered.analysed (h : t.Proper) {nodes : List NodeId}
    (hgrown : Grown t nodes o.scopes.size extra o' o'') (hnodes : ∀ x ∈ nodes, x ∈ t.below id)
    (hbody : ∀ s, o.scopes.get? sid = some s → kind = .block → s.kind ≠ .repeatLoop)
    (hbinding : kind = .localStat → t.isBinding id = true ∧ (t.span id).start < (t.span id).stop)
    (hadds : ∀ position, (t.span id).stop ≤ position →
      Adds t o'' position env (t.bound id) [.scope o.scopes.size])
    (hname : ∀ name, t.node? id ≠ some (.nameExpr name))
    (hright : ∀ e ∈ t.childEnvs env id, ∀ u ∈ t.envsBelow e.2 e.1, Right t o'' u.1 u.2) :
    Analysed t id sid env [.scope o.scopes.size] o (o''.leave id) := by
  refine ⟨(hentered.leave hgrown).mono ?_, ?_, fun position hstop => (hadds position hstop).leave id,
    ?_⟩
  · intro x hx
    rcases List.mem_cons.1 hx with rfl | hx
    · rw [SyntaxTree.below_eq h]
      exact List.mem_cons_self
    · exact hnodes x hx
  · intro s hs position hstart x hx
    obtain rfl := List.mem_singleton.1 hx
    have hnew := hgrown.grows.here hentered.new
    intro r hr
    rw [scopes_leave, hnew, Option.some.injEq] at hr
    subst hr
    refine ⟨fun hlocal => ?_, hbody s hs⟩
    obtain ⟨hid, hlt⟩ := hbinding hlocal
    exact Nat.lt_of_le_of_lt (hstart hid) hlt
  · rw [SyntaxTree.envsBelow_eq h, List.forall_mem_cons]
    refine ⟨fun name hn => absurd hn (hname name), fun e he => ?_⟩
    obtain ⟨e', he', he⟩ := List.mem_flatMap.1 he
    exact (hright e' he' e he).leave id

end

end LuaAnalysis.Outline
