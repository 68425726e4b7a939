import LuaAnalysis.Proofs.File.PlainWalk

/-!
# Lexical scoping of closures, loops and local statements

These have a scope for the names that they bind: closures and loops show the names in their bodies, a
local statement behind itself.

Main statements: `Binder.walks`, `walks_localStat`.
-/

namespace LuaAnalysis.Outline

variable {config : Config} {t : SyntaxTree} {o o' o'' : Outline} {sid : ScopeId}
  {extra : List ScopeItem} {id : NodeId} {env : Env} {kind : ScopeKind}
  {made : List (Declaration × Option NodeId)} {position : Nat}

/-! ## Names, expressions and a body -/

/-- A node with a scope of its own that has names, expressions and a body: the names are in scope in
the body. -/
structure Binder (t : SyntaxTree) (id : NodeId) (kind : ScopeKind) (names exprs : List NodeId)
    (body : Option NodeId) : Prop where
  node : ∃ n, t.node? id = some n ∧ n.isCode = true ∧ n.children = names ++ exprs ++ body.toList ∧
    (∀ stats, n ≠ .block stats) ∧ ∀ name, n ≠ .nameExpr name
  isName : ∀ x ∈ names, t.Is .name x
  isExpr : ∀ x ∈ exprs, t.Is .expr x
  isBlock : ∀ x ∈ body, t.Is .block x
  namesAt : t.namesAt id = names
  assigns : t.assigns id = false
  definition : t.isDefinition id = false
  scope : t.scopeKind? id = some kind
  special : kind ≠ .repeatLoop ∧ kind ≠ .block
  envs : ∀ env, t.childEnvs env id =
    (names ++ exprs).map (·, env) ++ body.toList.map (·, names.reverse ++ env)
  shut : ∀ x ∈ exprs, ∀ position < (t.span x).stop, ∀ (o : Outline) (name : String) (s : Scope),
    s.kind = kind → o.scopes.findAround? o.decls name position s = none
  shown : ∀ x ∈ body, ∀ position ≥ (t.span x).start, ∀ (o : Outline) (name : String) (s : Scope),
    s.kind = kind → ∃ shown?, o.scopes.findAround? o.decls name position s =
      o.lastItem? shown? position name s.items

section
variable {names exprs : List NodeId} {body : Option NodeId}

theorem Binder.children_eq (hb : Binder t id kind names exprs body) :
    t.children id = names ++ exprs ++ body.toList := by
  obtain ⟨n, hn, -, hparts, hblock, -⟩ := hb.node
  rw [SyntaxTree.children_eq hn hblock, hparts]

theorem Binder.suits (hb : Binder t id kind names exprs body) {inner : ScopeId} {s : Scope}
    (hs : o.scopes.get? inner = some s) (hkind : s.kind = kind) :
    ∀ c ∈ t.children id, Suits t o inner c := by
  intro c hc
  rw [hb.children_eq, List.mem_append, List.mem_append] at hc
  rcases hc with (hc | hc) | hc
  · obtain ⟨m, hm, hadmits⟩ := hb.isName c hc
    exact .inner hm (Node.isInner_of_admits rfl hadmits)
  · obtain ⟨m, hm, hadmits⟩ := hb.isExpr c hc
    exact .inner hm (Node.isInner_of_admits rfl hadmits)
  · obtain ⟨m, hm, hadmits⟩ := hb.isBlock c (Option.mem_toList.1 hc)
    cases m <;> cases hadmits
    exact .block hm hs (by rw [hkind]; exact hb.special.1)

/-- The scope shows to each part what is in scope there. -/
theorem Binder.seesAt (hb : Binder t id kind names exprs body) (h : t.Proper) (ho : t.InOrder)
    (hentered : Entered t id kind sid made o o') (hnamed : namedNodes made = names)
    (wf : Nested t o) {s : Scope} (hs : o.scopes.get? sid = some s)
    (hsees : SeesAt t o sid id env) :
    ∀ e ∈ t.childEnvs env id, SeesAt t o' o.scopes.size e.1 e.2 := by
  obtain ⟨n, hn, -, hparts, -⟩ := hb.node
  have hbody : kind = .block → s.kind ≠ .repeatLoop := fun hkind => absurd hkind hb.special.2
  have hnames : namedNodes made = t.namesAt id := by rw [hnamed, hb.namesAt]
  rw [hb.envs]
  intro e he
  rcases List.mem_append.1 he with he | he
  · obtain ⟨c, hc, rfl⟩ := List.mem_map.1 he
    intro hcode position hstart hstop
    have hpart : c ∈ n.children := by
      rw [hparts]
      exact List.mem_append_left _ hc
    have houter := hsees.part h ho (SyntaxTree.part_mem_children hn hpart) hcode position hstart
      hstop
    rcases List.mem_append.1 hc with hc | hc
    · obtain ⟨m, hm, hadmits⟩ := hb.isName c hc
      rw [SyntaxTree.isCode_eq hm, Node.not_isCode_of_isDoc rfl hadmits] at hcode
      cases hcode
    · have hends := (Span.contains_iff.1 (ho.within hn hpart)).2
      exact hentered.sees_through wf hs hbody (fun _ => Nat.lt_of_lt_of_le hstop hends) houter
        fun name => hb.shut c hc position hstop o' name _ rfl
  · obtain ⟨c, hc, rfl⟩ := List.mem_map.1 he
    intro hcode position hstart hstop
    have hpart : c ∈ n.children := by
      rw [hparts]
      exact List.mem_append_right _ hc
    have houter := hsees.part h ho (SyntaxTree.part_mem_children hn hpart) hcode position hstart
      hstop
    have hends := (Span.contains_iff.1 (ho.within hn hpart)).2
    -- The names stand before the body.
    have hbefore : ∀ x ∈ t.namesAt id, (t.span x).start < position := by
      intro x hx
      rw [hb.namesAt] at hx
      have hordered := ho.ordered hn
      rw [hparts, List.pairwise_append] at hordered
      have hlt := hordered.2.2 x (List.mem_append_left _ hx) c hc
      obtain ⟨m, hm, -⟩ := hb.isName x hx
      have hnonempty := ho.nonempty hm
      exact Nat.lt_of_lt_of_le (Nat.lt_trans hnonempty hlt) hstart
    have hown := hentered.sees_own wf hs hbody (fun _ => Nat.lt_of_lt_of_le hstop hends) houter
      hb.definition hnames hb.assigns hbefore fun name =>
        hb.shown c (Option.mem_toList.1 hc) position hstart o' name _ rfl
    rwa [hb.namesAt] at hown

/-- What the parts come to in the new scope. -/
theorem Binder.walk_parts (hb : Binder t id kind names exprs body) (h : t.Proper) (ho : t.InOrder)
    {parent : NodeId} (hready : Ready t o sid parent [(id, env)]) (hsees : SeesAt t o sid id env)
    (hwalks : ∀ c ∈ t.children id, Walks config t c) :
    ∃ made extra o', Entered t id kind sid made o (o.enter config t id) ∧ namedNodes made = names ∧
      o.walk config t id = o'.leave id ∧
      Grown t ((t.childEnvs env id).flatMap fun e => t.below e.1) o.scopes.size extra
        (o.enter config t id) o' ∧
      (∀ position, ∀ x ∈ extra, o'.Hidden kind position x) ∧
      ∀ e ∈ t.childEnvs env id, ∀ u ∈ t.envsBelow e.2 e.1, Right t o' u.1 u.2 := by
  obtain ⟨n, hn, -, -, hblock, -⟩ := hb.node
  obtain ⟨s, hs⟩ := hready.scope
  obtain ⟨made, hentered, hnamed⟩ := entered_enter config h hready hb.scope
  have hnamed : namedNodes made = names := by rw [hnamed hb.assigns, hb.namesAt]
  obtain ⟨extra, hgrown, hhidden, hright⟩ := walkAll_quiet h (hentered.ready h hready hb.scope)
    (fun e he => hb.suits hentered.new rfl _ (SyntaxTree.fst_mem_children he))
    (fun e he => hwalks _ (SyntaxTree.fst_mem_children he))
    (fun e he => quiet_child h hn hblock (SyntaxTree.fst_mem_children he))
    (hb.seesAt h ho hentered hnamed hready.nested hs hsees)
  exact ⟨made, extra, _, hentered, hnamed, walk_eq_childEnvs h env id o, hgrown,
    hhidden _ hentered.new, hright⟩

theorem childEnvs_below (h : t.Proper) (env : Env) (id : NodeId) :
    ∀ x ∈ (t.childEnvs env id).flatMap fun e => t.below e.1, x ∈ t.below id := by
  intro x hx
  rw [below_eq_childEnvs h env]
  exact List.mem_cons_of_mem _ hx

/-- A scope shows nothing to the one around it, except that of a local statement. -/
theorem adds_scope {inner : ScopeId} {r : Scope} (hr : o.scopes.get? inner = some r)
    (hlocal : r.kind ≠ .localStat) (position : Nat) (env : Env) :
    Adds t o position env [] [.scope inner] := by
  have hhidden : ∀ x ∈ [ScopeItem.scope inner], o.Hidden .source position x := by
    intro x hx
    obtain rfl := List.mem_singleton.1 hx
    intro r' hr'
    rw [hr, Option.some.injEq] at hr'
    subst hr'
    exact ⟨fun hkind => absurd hkind hlocal, fun _ => by simp⟩
  exact adds_of_hidden hhidden env

/-- Closures and loops bind nothing for what is around them. -/
theorem Binder.walks (hb : Binder t id kind names exprs body) (h : t.Proper) (ho : t.InOrder)
    (hlocal : kind ≠ .localStat) (hquiet : t.isBinding id = false)
    (hwalks : ∀ c ∈ t.children id, Walks config t c) : Walks config t id := by
  intro o sid parent env hready _ hsees
  obtain ⟨made, extra, o', hentered, -, hwalk, hgrown, -, hright⟩ :=
    hb.walk_parts h ho hready hsees hwalks
  obtain ⟨n, hn, -, -, -, hname⟩ := hb.node
  rw [hwalk]
  refine ⟨_, hentered.analysed h hgrown (childEnvs_below h env id)
    (fun s hs hkind => absurd hkind hb.special.2) (fun hkind => absurd hkind hlocal) ?_ ?_ hright⟩
  · intro position _
    rw [bound_eq_nil hquiet]
    exact adds_scope (hgrown.grows.here hentered.new) hlocal position env
  · intro name hn'
    rw [hn, Option.some.injEq] at hn'
    exact hname name hn'

end

/-! ## Closures and loops -/

theorem binder_closure (h : t.Proper) {params : List NodeId} {body : Option NodeId}
    (hn : t.node? id = some (.closureExpr params body)) :
    Binder t id .closure params [] body := by
  have hfits := h.fits hn
  simp only [Node.Fits, Node.expects, Node.children, Node.forall₂_each_append,
    Node.forall₂_each] at hfits
  refine ⟨⟨_, hn, rfl, by simp [Node.children], by simp, by simp⟩, hfits.1, by simp,
    fun x hx => hfits.2 x (Option.mem_toList.2 hx), ?_, ?_, ?_, ?_, by simp, ?_, by simp, ?_⟩
  · rw [SyntaxTree.namesAt, hn]
  · rw [SyntaxTree.assigns, hn]
  · rw [SyntaxTree.isDefinition, hn]
  · rw [SyntaxTree.scopeKind?, hn]
  · intro env
    rw [SyntaxTree.childEnvs, hn, List.append_nil]
  · intro x _ position _ o name s hkind
    rw [ScopeTree.findAround?, hkind]
    exact ⟨_, rfl⟩

/-- The offset from which on a loop shows its variables. -/
def bodyStart (t : SyntaxTree) (id : NodeId) (body : Option NodeId) : Nat :=
  match body with
  | some body => (t.span body).start
  | none => (t.span id).stop

theorem lt_bodyStart (ho : t.InOrder) {n : Node NodeId} {names exprs : List NodeId}
    {body : Option NodeId} (hn : t.node? id = some n)
    (hparts : n.children = names ++ exprs ++ body.toList) {x : NodeId} (hx : x ∈ exprs) :
    (t.span x).stop ≤ bodyStart t id body := by
  have hordered := ho.ordered hn
  have hwithin := ho.within hn (c := x) (by rw [hparts]; simp [hx])
  rw [hparts, List.pairwise_append] at hordered
  cases body with
  | none => exact (Span.contains_iff.1 hwithin).2
  | some b =>
    have hlt := hordered.2.2 x (List.mem_append_right _ hx) b (by simp)
    exact Nat.le_of_lt hlt

theorem findAround?_loop {s : Scope} {start : Nat}
    (hkind : s.kind = .numericFor start ∨ s.kind = .genericFor start) (o : Outline) (name : String) :
    o.scopes.findAround? o.decls name position s = if position < start then none else
      o.lastItem? (o.scopes.shownByEnded? o.decls name position) position name s.items := by
  rcases hkind with hkind | hkind <;>
  · rw [ScopeTree.findAround?, hkind]
    rfl

/-- A loop, given its scope and what its names are. -/
theorem binder_loop (h : t.Proper) (ho : t.InOrder) {n : Node NodeId} {names exprs : List NodeId}
    {body : Option NodeId} (hn : t.node? id = some n)
    (hparts : n.children = names ++ exprs ++ body.toList)
    (hexpects : n.expects = Node.each .name names ++ Node.each .expr exprs ++
      Node.each .block body.toList)
    (hstat : n.isStat = true) (hnames : t.namesAt id = names) (hassigns : t.assigns id = false)
    (hdefinition : t.isDefinition id = false)
    (hscope : t.scopeKind? id = some kind)
    (hkind : kind = .numericFor (bodyStart t id body) ∨ kind = .genericFor (bodyStart t id body))
    (henvs : ∀ env, t.childEnvs env id =
      (names ++ exprs).map (·, env) ++ body.toList.map (·, names.reverse ++ env)) :
    Binder t id kind names exprs body := by
  have hfits := h.fits hn
  rw [Node.Fits, hexpects, hparts, List.append_assoc, List.append_assoc] at hfits
  simp only [Node.forall₂_each_append, Node.forall₂_each] at hfits
  have hcode : n.isCode = true := by cases n <;> first | rfl | cases hstat
  refine ⟨⟨n, hn, hcode, hparts, ?_, ?_⟩, hfits.1, hfits.2.1,
    fun x hx => hfits.2.2 x (Option.mem_toList.2 hx), hnames, hassigns, hdefinition, hscope, ?_,
    henvs, ?_, ?_⟩
  · rintro stats rfl
    cases hstat
  · rintro name rfl
    cases hstat
  · rcases hkind with rfl | rfl <;> simp
  · intro x hx position hlt o name s hs
    rw [findAround?_loop (by rwa [hs]), if_pos]
    exact Nat.lt_of_lt_of_le hlt (lt_bodyStart ho hn hparts hx)
  · intro x hx position hle o name s hs
    rw [findAround?_loop (by rwa [hs]), if_neg]
    · exact ⟨_, rfl⟩
    · rw [Option.mem_def] at hx
      subst hx
      exact Nat.not_lt.2 hle

theorem binder_forStat (h : t.Proper) (ho : t.InOrder) {var : Option NodeId} {exprs : List NodeId}
    {body : Option NodeId} (hn : t.node? id = some (.forStat var exprs body)) :
    Binder t id (.numericFor (bodyStart t id body)) var.toList exprs body := by
  refine binder_loop h ho hn rfl rfl rfl ?_ ?_ ?_ ?_ (.inl rfl) ?_
  · cases var <;> rw [SyntaxTree.namesAt, hn] <;> rfl
  · rw [SyntaxTree.assigns, hn]
  · rw [SyntaxTree.isDefinition, hn]
  · rw [SyntaxTree.scopeKind?, hn]
    cases body <;> rfl
  · intro env
    rw [SyntaxTree.childEnvs, hn]
    cases var <;> rfl

theorem binder_forRangeStat (h : t.Proper) (ho : t.InOrder) {names exprs : List NodeId}
    {body : Option NodeId} (hn : t.node? id = some (.forRangeStat names exprs body)) :
    Binder t id (.genericFor (bodyStart t id body)) names exprs body := by
  refine binder_loop h ho hn rfl rfl rfl ?_ ?_ ?_ ?_ (.inr rfl) ?_
  · rw [SyntaxTree.namesAt, hn]
  · rw [SyntaxTree.assigns, hn]
  · rw [SyntaxTree.isDefinition, hn]
  · rw [SyntaxTree.scopeKind?, hn]
    cases body <;> rfl
  · intro env
    rw [SyntaxTree.childEnvs, hn]

/-! ## Local statements -/

theorem binder_localStat (h : t.Proper) {names exprs : List NodeId}
    (hn : t.node? id = some (.localStat names exprs)) :
    Binder t id .localStat names exprs none := by
  have hfits := h.fits hn
  simp only [Node.Fits, Node.expects, Node.children, Node.forall₂_each_append,
    Node.forall₂_each] at hfits
  refine ⟨⟨_, hn, rfl, by simp [Node.children], by simp, by simp⟩, hfits.1, hfits.2, by simp, ?_,
    ?_, ?_, ?_, by simp, ?_, ?_, by simp⟩
  · rw [SyntaxTree.namesAt, hn]
  · rw [SyntaxTree.assigns, hn]
  · rw [SyntaxTree.isDefinition, hn]
  · rw [SyntaxTree.scopeKind?, hn]
  · intro env
    rw [SyntaxTree.childEnvs, hn, SyntaxTree.children_eq hn (by simp)]
    simp [Node.children]
  · intro x _ position _ o name s hkind
    rw [ScopeTree.findAround?, hkind]

theorem declarations_eq {s : Scope} {ids : List DeclId}
    (hitems : s.items = ids.map .decl ++ extra) :
    s.declarations = ids ++ ({ s with items := extra } : Scope).declarations := by
  simp [Scope.declarations, hitems, List.filterMap_map]

/-- A local statement that has ended shows its names. -/
theorem adds_localStat {names exprs : List NodeId} (hb : Binder t id .localStat names exprs none)
    (ho : t.InOrder) (hentered : Entered t id .localStat sid made o o')
    (hnamed : namedNodes made = names) (hgrows : Extends o' o'' o.scopes.size extra)
    (hhidden : ∀ x ∈ extra, o''.Hidden .localStat position x) (hstop : (t.span id).stop ≤ position)
    (env : Env) : Adds t o'' position env names.reverse [.scope o.scopes.size] := by
  obtain ⟨n, hn, -, hparts, -⟩ := hb.node
  have hbefore : ∀ x ∈ t.namesAt id, (t.span x).start < position := by
    intro x hx
    rw [hb.namesAt] at hx
    obtain ⟨m, hm, -⟩ := hb.isName x hx
    have hnonempty := ho.nonempty hm
    have hwithin := ho.within hn (c := x) (by rw [hparts]; simp [hx])
    have hends := (Span.contains_iff.1 hwithin).2
    omega
  have hvalue := names_of_declares hentered.declares hb.assigns hbefore
  have hvalues : valueNodes made = names := by
    rw [valueNodes_eq hentered.declares hb.definition, hnamed]
  intro name
  -- The scope shows the last of its declarations, and behind those of the names there is no value.
  have hlast : o''.gives position name [.scope o.scopes.size] =
      o''.lastItem? (fun _ => none) position name (o.declItems made) := by
    have hnew := hgrows.here hentered.new
    have hnone (s : Scope) : ScopeTree.lastSeen? o''.decls name position
        ({ s with items := extra } : Scope).declarations = none := by
      refine lastSeen?_eq_none fun i hi d hd hvalue => ?_
      obtain ⟨x, hx, hxi⟩ := List.mem_filterMap.1 hi
      cases x with
      | decl j =>
        obtain rfl := Option.some.inj hxi
        exact hhidden _ hx _ hd hvalue
      | scope j => cases hxi
    rw [gives, lastItem?_scope, ScopeTree.shownByEnded?, hnew]
    dsimp only
    rw [if_pos ⟨rfl, hstop⟩, declItems, lastItem?_decls, declarations_eq rfl, lastSeen?_append,
      hnone, Option.none_or]
    rfl
  obtain ⟨hmatch, hnone⟩ :=
    matches_declItems (hentered.holds.extends hgrows) hvalue (fun _ => none) name
  rw [hvalues] at hmatch hnone
  rw [hlast]
  refine ⟨hmatch, fun hsome hnew => ?_⟩
  have hbound := hnone hsome
  rw [hnew] at hbound
  cases hbound

theorem walks_localStat (h : t.Proper) (ho : t.InOrder) {names exprs : List NodeId}
    (hn : t.node? id = some (.localStat names exprs))
    (hwalks : ∀ c ∈ t.children id, Walks config t c) : Walks config t id := by
  intro o sid parent env hready _ hsees
  have hb := binder_localStat h hn
  obtain ⟨made, extra, o', hentered, hnamed, hwalk, hgrown, hhidden, hright⟩ :=
    hb.walk_parts h ho hready hsees hwalks
  have hbinding : t.isBinding id = true := by rw [SyntaxTree.isBinding, hn]
  have hbound : t.bound id = names.reverse := by rw [SyntaxTree.bound, hn]
  rw [hwalk]
  refine ⟨_, hentered.analysed h hgrown (childEnvs_below h env id) (fun s hs hkind => by cases hkind)
    (fun _ => ⟨hbinding, ho.nonempty hn⟩) ?_ (by simp [hn]) hright⟩
  intro position hstop
  rw [hbound]
  exact adds_localStat hb ho hentered hnamed hgrown.grows (hhidden position) hstop env

end LuaAnalysis.Outline
