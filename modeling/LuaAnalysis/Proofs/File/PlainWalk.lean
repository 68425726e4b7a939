import LuaAnalysis.Proofs.File.InnerScope

/-!
# Lexical scoping of nodes without a scope

A node without a scope of its own declares in the scope around it, and its children are walked there:
statements that introduce globals or a local function, and everything that binds nothing.

Main statements: `walks_plain`, `walks_assignStat`, `walks_funcStat`.
-/

namespace LuaAnalysis.Outline

variable {config : Config} {t : SyntaxTree} {o o' : Outline} {sid : ScopeId}
  {extra : List ScopeItem} {id : NodeId} {env : Env} {kind : ScopeKind}
  {made : List (Declaration × Option NodeId)} {position : Nat}

/-! ## Parts -/

theorem scopeKind?_block {stats : List NodeId} (hn : t.node? id = some (.block stats)) :
    t.scopeKind? id = some .block := by
  rw [SyntaxTree.scopeKind?, hn]

theorem ne_block (hkind : t.scopeKind? id = none) {n : Node NodeId} (hn : t.node? id = some n)
    (stats : List NodeId) : n ≠ .block stats := by
  rintro rfl
  rw [scopeKind?_block hn] at hkind
  cases hkind

/-- What a scope shows all over a node it shows all over its parts. -/
theorem SeesAt.part (h : t.Proper) (ho : t.InOrder) (hsees : SeesAt t o sid id env) {c : NodeId}
    (hc : c ∈ t.children id) : SeesAt t o sid c env := by
  intro hcode position hstart hstop
  obtain ⟨n, hn, hnode, hpart⟩ := h.part_of_code hc hcode
  obtain ⟨hbegins, hends⟩ := Span.contains_iff.1 (ho.within hn hpart)
  have hid : t.isCode id = true := by rw [SyntaxTree.isCode_eq hn, hnode]
  exact hsees hid position (Nat.le_trans hbegins hstart) (Nat.lt_of_lt_of_le hstop hends)

/-- Without a scope of its own a node leaves its children where it stands itself. -/
theorem Suits.child (h : t.Proper) (hsuits : Suits t o sid id) (hkind : t.scopeKind? id = none)
    {c : NodeId} (hc : c ∈ t.children id) : Suits t o sid c := by
  cases hsuits with
  | inBlock hblock => exact .inBlock hblock
  | block hn hs hnot =>
    rw [scopeKind?_block hn] at hkind
    cases hkind
  | inner hn hinner =>
    rw [SyntaxTree.children_eq hn (ne_block hkind hn)] at hc
    obtain ⟨sort, hsort, m, hm, hadmits⟩ := h.is_of_part hn hc
    refine .inner hm (Node.isInner_of_part hinner ?_ hsort hadmits)
    rename_i n
    cases n <;> first | rfl | skip
    rw [SyntaxTree.scopeKind?, hn] at hkind
    cases hkind

theorem cases_of_isBinding (h : t.isBinding id = true) :
    (∃ names exprs, t.node? id = some (.localStat names exprs)) ∨
      (∃ targets exprs, t.node? id = some (.assignStat targets exprs)) ∨
      ∃ target closure, t.node? id = some (.funcStat target closure) := by
  unfold SyntaxTree.isBinding at h
  split at h
  · next names exprs hn => exact .inl ⟨names, exprs, hn⟩
  · next targets exprs hn => exact .inr (.inl ⟨targets, exprs, hn⟩)
  · next target closure hn => exact .inr (.inr ⟨target, closure, hn⟩)
  · cases h

/-- Only a block has binding statements as its children. -/
theorem quiet_child (h : t.Proper) {n : Node NodeId} (hn : t.node? id = some n)
    (hblock : ∀ stats, n ≠ .block stats) {c : NodeId} (hc : c ∈ t.children id) :
    t.isBinding c = false := by
  rw [SyntaxTree.children_eq hn hblock] at hc
  obtain ⟨sort, hsort, m, hm, hadmits⟩ := h.is_of_part hn hc
  have hstat := Node.not_isStat_of_admits (Node.ne_stat_of_mem_expects hblock hsort) hadmits
  cases hbinding : t.isBinding c with
  | false => rfl
  | true =>
    rcases cases_of_isBinding hbinding with ⟨_, _, hc⟩ | ⟨_, _, hc⟩ | ⟨_, _, hc⟩ <;>
    · rw [hm, Option.some.injEq] at hc
      subst hc
      cases hstat

theorem isBlock_of_binding (hsuits : Suits t o sid id) (hbinding : t.isBinding id = true) :
    IsBlock o sid := by
  cases hsuits with
  | inBlock hblock => exact hblock
  | block hn hs hnot =>
    rw [SyntaxTree.isBinding, hn] at hbinding
    cases hbinding
  | inner hn hinner =>
    rcases cases_of_isBinding hbinding with ⟨_, _, hc⟩ | ⟨_, _, hc⟩ | ⟨_, _, hc⟩ <;>
    · rw [hn, Option.some.injEq] at hc
      subst hc
      cases hinner

/-! ## Nodes that bind nothing -/

theorem isBinding_of_declares {d : Declaration} {token : Option NodeId} (h : Declares t id d token)
    (hvalue : d.kind.isValue = true) (hkind : t.scopeKind? id = none) : t.isBinding id = true := by
  cases h with
  | localVar hw | global hw | localFunction hw | globalFunction hw =>
    rw [SyntaxTree.isBinding, hw]
  | counter hw | loopName hw | parameter hw =>
    rw [SyntaxTree.scopeKind?, hw] at hkind
    cases hkind
  | index | fieldFunction | docParameter | label | genericParameter | tableField | enumField
  | docField | namedType => cases hvalue

theorem bound_eq_nil (hquiet : t.isBinding id = false) : t.bound id = [] := by
  unfold SyntaxTree.bound
  split
  · next hn =>
    rw [SyntaxTree.isBinding, hn] at hquiet
    cases hquiet
  · next hn =>
    rw [SyntaxTree.isBinding, hn] at hquiet
    cases hquiet
  · rfl

theorem childEnvs_plain (hkind : t.scopeKind? id = none)
    (hbound : ∀ target closure, t.node? id ≠ some (.funcStat (some target) (some closure)))
    (env : Env) : t.childEnvs env id = (t.children id).map (·, env) := by
  unfold SyntaxTree.childEnvs
  unfold SyntaxTree.scopeKind? at hkind
  split
  · next hn =>
    rw [hn] at hkind
    cases hkind
  · next hn => exact absurd hn (hbound _ _)
  · next hn =>
    rw [hn] at hkind
    cases hkind
  · next hn =>
    rw [hn] at hkind
    cases hkind
  · next hn =>
    rw [hn] at hkind
    cases hkind
  · next hn =>
    rw [hn] at hkind
    cases hkind
  · rfl

theorem node?_of_ready (h : t.Proper) {parent : NodeId}
    (hready : Ready t o sid parent [(id, env)]) : ∃ n, t.node? id = some n := by
  obtain ⟨n, hn, hc | ⟨stats, -, stat, -, hc⟩⟩ :=
    SyntaxTree.mem_children (hready.children _ List.mem_cons_self)
  · obtain ⟨sort, -, m, hm, -⟩ := h.is_of_part hn hc
    exact ⟨m, hm⟩
  · obtain ⟨tags, htags⟩ := h.comments hc
    exact ⟨_, htags⟩

theorem walks_plain (h : t.Proper) (ho : t.InOrder) (hkind : t.scopeKind? id = none)
    (hquiet : t.isBinding id = false) (hwalks : ∀ c ∈ t.children id, Walks config t c) :
    Walks config t id := by
  intro o sid parent env hready hsuits hsees
  obtain ⟨n, hn⟩ := node?_of_ready h hready
  obtain ⟨s, hs⟩ := hready.scope
  obtain ⟨made, hmakes, -⟩ := makes_declareAt (t := t) (w := id) config o
  rw [← enter_eq_declareAt hkind] at hmakes
  have hown := grown_makes hmakes hready.nested hready.here
  -- Nothing that the node declares is a value.
  have hnone : ∀ e ∈ made, e.1.kind.isValue = false := by
    intro e he
    cases hvalue : e.1.kind.isValue with
    | false => rfl
    | true =>
      rw [isBinding_of_declares (hmakes.declares e he) hvalue hkind] at hquiet
      cases hquiet
  have hhidden (position : Nat) : ∀ x ∈ o.declItems made,
      (o.enter config t id).Hidden s.kind position x :=
    hidden_declItems hmakes _ fun e he hvalue => by
      rw [hnone e he] at hvalue
      cases hvalue
  have hfunc : ∀ target closure, t.node? id ≠ some (.funcStat (some target) (some closure)) := by
    intro target closure hfunc
    rw [SyntaxTree.isBinding, hfunc] at hquiet
    cases hquiet
  refine analysed_plain h hready hkind hmakes ?_ hwalks ?_ ?_ ?_ ?_ ?_
  · intro c hc
    exact (hsuits.extends hready.nested hown.grows).child h hkind hc
  · exact fun c hc => quiet_child h hn (ne_block hkind hn) hc
  · rw [childEnvs_plain hkind hfunc]
    intro e he
    obtain ⟨c, hc, rfl⟩ := List.mem_map.1 he
    exact (hsees.part h ho hc).grown hready.nested hown hs hhidden
  · intro e he hvalue
    rw [hnone e he] at hvalue
    cases hvalue
  · intro o' hholds position _
    rw [bound_eq_nil hquiet]
    refine adds_globals hholds (fun e he hvalue => ?_) position
    rw [hnone e he] at hvalue
    cases hvalue
  · intro name hname
    have hcode : t.isCode id = true := by
      rw [SyntaxTree.isCode_eq hname]
      rfl
    have hstart := hsees hcode _ (Nat.le_refl _) (ho.nonempty hname)
    exact ⟨sid, _, (hready.around_of_plain h hkind).grown hown, hown.grows.here hs,
      hstart.hidden hready.nested hown.nested hown.grows hs (hhidden _) hs⟩

/-! ## Assignments -/

/-- A look-up among the declarations made so far looks from the scope around the name. -/
theorem find?_eq_look (wf : Nested t o) {u : NodeId} (haround : Around t o sid (u :: t.ancestors u))
    (name : String) : o.find? t u name = o.look sid (t.span u).start name := by
  obtain ⟨a, ha, howned⟩ := haround
  have hscope : o.scopes.scopeOf? t u = some sid := by
    rw [ScopeTree.scopeOf?]
    obtain ⟨-, before, after, hsplit, hbefore⟩ := List.find?_eq_some_iff_append.1 ha
    rw [hsplit, List.findSome?_append, List.findSome?_cons, howned]
    -- The nodes before it have no scope.
    have hnone : before.findSome? o.scopes.ownedBy? = none := by
      rw [List.findSome?_eq_none_iff]
      intro b hb
      have hkind := hbefore b hb
      exact ownedBy?_eq_none.2 (not_mem_owners wf (by simpa using hkind))
    rw [hnone, Option.none_or]
  rw [find?, hscope, Option.bind_some]
  rfl

/-- A name that a scope shows nothing for is not in scope. -/
theorem Sees.binding_eq_none (hsees : Sees t o sid position env) {name : String}
    (hnone : o.look sid position name = none) : t.binding? env name = none := by
  have hmatch := hsees name
  rw [hnone] at hmatch
  cases hbound : t.binding? env name with
  | none => rfl
  | some b =>
    rw [hbound] at hmatch
    exact hmatch.elim

/-- Whether the values among some declarations are globals of names that are not in scope. -/
def FreeGlobals (t : SyntaxTree) (env : Env) (made : List (Declaration × Option NodeId)) : Prop :=
  ∀ e ∈ made, e.1.kind.isValue = true →
    e.1.kind.isGlobal = true ∧ t.binding? env e.1.name = none

theorem freeGlobals_of_introduces (wf : Nested t o) {x : NodeId}
    (h : t.Proper) (ho : t.InOrder) (haround : Around t o sid (id :: t.ancestors id))
    (hx : x ∈ t.children id) (hsees : SeesAt t o sid x env)
    (hmade : ∀ e ∈ made, e.1.kind.isValue = true → o.Introduces t x e.1) :
    FreeGlobals t env made := by
  intro e he hvalue
  obtain ⟨hglobal, hname, hfree⟩ := hmade e he hvalue
  refine ⟨hglobal, ?_⟩
  have hcode : t.isCode x = true := by
    rw [SyntaxTree.isCode_eq hname]
    rfl
  have haround' : Around t o sid (x :: t.ancestors x) := by
    obtain ⟨a, ha, howned⟩ := haround
    refine ⟨a, ?_, howned⟩
    rw [SyntaxTree.ancestors_child h hx, List.find?_cons_of_neg, ha]
    simp [SyntaxTree.scopeKind?, hname]
  rw [find?_eq_look wf haround'] at hfree
  exact (hsees hcode _ (Nat.le_refl _) (ho.nonempty hname)).binding_eq_none hfree

/-- New globals leave what a block shows as it was, as far as names are in scope. -/
theorem SeesAt.globals {c : NodeId} (hsees : SeesAt t o sid c env) (wf : Nested t o)
    (hblock : IsBlock o sid) (hgrown : Grown t [] sid (o.declItems made) o o')
    (hholds : Holds o o' made) (hfree : FreeGlobals t env made) : SeesAt t o' sid c env := by
  intro hcode position hstart hstop
  exact (hsees hcode position hstart hstop).block wf hgrown.nested hgrown.grows hblock
    (adds_globals hholds hfree position)

/-- The targets of an assignment become globals where their names are not in scope. -/
theorem freeGlobals_assignStat (h : t.Proper) (ho : t.InOrder) {targets exprs : List NodeId}
    (hn : t.node? id = some (.assignStat targets exprs)) (wf : Nested t o)
    (hhere : o.around.head? = some sid) (hblock : IsBlock o sid)
    (haround : Around t o sid (id :: t.ancestors id))
    (hsees : ∀ x ∈ targets, SeesAt t o sid x env) :
    ∃ made, Makes t id o made (o.assignStat t id targets exprs) ∧ FreeGlobals t env made := by
  unfold assignStat
  dsimp only
  have hall : ∀ e ∈ targets.zipIdx, e.1 ∈ targets := fun e he => List.fst_mem_of_mem_zipIdx he
  -- Every target is looked up behind the globals of the targets before it.
  generalize targets.zipIdx = es at hall ⊢
  induction es generalizing o with
  | nil => exact ⟨[], .nothing, by simp [FreeGlobals]⟩
  | cons e es ih =>
    obtain ⟨x, i⟩ := e
    have hx : x ∈ targets := hall _ List.mem_cons_self
    have hchild : x ∈ t.children id :=
      SyntaxTree.part_mem_children hn (List.mem_append_left _ hx)
    obtain ⟨made, hmakes, -, hmade⟩ := makes_assignTarget hn hx o
      (defines_typeAt (i := i) hn fun e he => List.mem_append_right _ he)
    have hfree := freeGlobals_of_introduces wf h ho haround hchild (hsees x hx) hmade
    have hgrown := grown_makes hmakes wf hhere
    obtain ⟨rest, hrest, hfree'⟩ := ih hgrown.nested (by rw [hgrown.around, hhere])
      (hblock.extends wf hgrown.grows) (haround.grown hgrown)
      (fun y hy => (hsees y hy).globals wf hblock hgrown hmakes.holds hfree)
      (fun e he => hall e (List.mem_cons_of_mem _ he))
    refine ⟨made ++ rest, hmakes.trans hrest, ?_⟩
    intro e he hvalue
    rcases List.mem_append.1 he with he | he
    · exact hfree e he hvalue
    · exact hfree' e he hvalue

/-- Values are declared by nodes of the code, behind their starts. -/
theorem start_le_position (ho : t.InOrder) {d : Declaration} {token : Option NodeId}
    (hd : Declares t id d token) (hvalue : d.kind.isValue = true) :
    (t.span id).start ≤ d.position := by
  obtain ⟨hnode, -, hloc⟩ := hd.named (DeclKind.isNamed_of_isValue hvalue)
  obtain ⟨n, hn, hpart⟩ := SyntaxTree.part_of_namesAt hnode
  rw [Declaration.position, hloc]
  exact (Span.contains_iff.1 (ho.within hn hpart)).1

/-- A statement that introduces globals only adds nothing that is in scope. -/
theorem walks_globals (h : t.Proper) (ho : t.InOrder) (hkind : t.scopeKind? id = none)
    (hbinding : t.isBinding id = true) (hbound : t.bound id = [])
    (henvs : ∀ env, t.childEnvs env id = (t.children id).map (·, env))
    (hwalks : ∀ c ∈ t.children id, Walks config t c)
    (hglobals : ∀ (o : Outline) (sid : ScopeId) (env : Env), Nested t o → o.around.head? = some sid →
      IsBlock o sid → Around t o sid (id :: t.ancestors id) →
      (∀ x ∈ t.children id, SeesAt t o sid x env) →
      ∃ made, Makes t id o made (o.declareAt config t id) ∧ FreeGlobals t env made) :
    Walks config t id := by
  intro o sid parent env hready hsuits hsees
  obtain ⟨n, hn⟩ := node?_of_ready h hready
  have hblock := isBlock_of_binding hsuits hbinding
  have hparts : ∀ x ∈ t.children id, SeesAt t o sid x env := fun x hx => hsees.part h ho hx
  obtain ⟨made, hmakes, hfree⟩ := hglobals o sid env hready.nested hready.here hblock
    (hready.around_of_plain h hkind) hparts
  rw [← enter_eq_declareAt hkind] at hmakes
  have hown := grown_makes hmakes hready.nested hready.here
  refine analysed_plain h hready hkind hmakes ?_ hwalks ?_ ?_ ?_ ?_ ?_
  · intro c hc
    exact (hsuits.extends hready.nested hown.grows).child h hkind hc
  · exact fun c hc => quiet_child h hn (ne_block hkind hn) hc
  · rw [henvs]
    intro e he
    obtain ⟨c, hc, rfl⟩ := List.mem_map.1 he
    exact (hparts c hc).globals hready.nested hblock hown hmakes.holds hfree
  · exact fun e he hvalue => ⟨hbinding, start_le_position ho (hmakes.declares e he) hvalue⟩
  · intro o' hholds position _
    rw [hbound]
    exact adds_globals hholds hfree position
  · intro name hname
    rw [SyntaxTree.isBinding, hname] at hbinding
    cases hbinding

theorem walks_assignStat (h : t.Proper) (ho : t.InOrder) {targets exprs : List NodeId}
    (hn : t.node? id = some (.assignStat targets exprs))
    (hwalks : ∀ c ∈ t.children id, Walks config t c) : Walks config t id := by
  have hkind : t.scopeKind? id = none := by rw [SyntaxTree.scopeKind?, hn]
  have hfunc : ∀ target closure, t.node? id ≠ some (.funcStat (some target) (some closure)) := by
    simp [hn]
  refine walks_globals h ho hkind (by rw [SyntaxTree.isBinding, hn]) (by rw [SyntaxTree.bound, hn])
    (childEnvs_plain hkind hfunc) hwalks ?_
  intro o sid env wf hhere hblock haround hsees
  rw [show o.declareAt config t id = o.assignStat t id targets exprs by rw [declareAt, hn]]
  refine freeGlobals_assignStat h ho hn wf hhere hblock haround fun x hx => hsees x ?_
  exact SyntaxTree.part_mem_children hn (List.mem_append_left _ hx)

/-! ## Function statements -/

/-- The names that a node declares by itself are in scope behind them. -/
theorem adds_own (hholds : Holds o o' made) (hdeclares : ∀ e ∈ made, Declares t id e.1 e.2)
    (hdefinition : t.isDefinition id = false) (hnamed : namedNodes made = t.namesAt id)
    (hassigns : t.assigns id = false)
    (hbefore : ∀ x ∈ t.namesAt id, (t.span x).start < position) (env : Env) :
    Adds t o' position env (t.namesAt id).reverse (o.declItems made) := by
  have hvalue := names_of_declares hdeclares hassigns hbefore
  rw [← hnamed, ← valueNodes_eq hdeclares hdefinition]
  intro name
  obtain ⟨hmatch, hnone⟩ := matches_declItems hholds hvalue
    (o'.scopes.shownByEnded? o'.decls name position) name
  refine ⟨hmatch, fun hsome hnew => ?_⟩
  have hbound := hnone hsome
  rw [hnew] at hbound
  cases hbound

/-- The name of a local function is in scope in the function and behind it. -/
theorem walks_localFunction (h : t.Proper) (ho : t.InOrder) {target closure : NodeId} {name : String}
    (hn : t.node? id = some (.funcStat (some target) (some closure)))
    (hname : t.node? target = some (.name name))
    (hwalks : ∀ c ∈ t.children id, Walks config t c) : Walks config t id := by
  intro o sid parent env hready hsuits hsees
  have hkind : t.scopeKind? id = none := by rw [SyntaxTree.scopeKind?, hn]
  have hbinding : t.isBinding id = true := by rw [SyntaxTree.isBinding, hn]
  have hblock := isBlock_of_binding hsuits hbinding
  have htext : t.nameText? target = some name := by rw [SyntaxTree.nameText?, hname]
  have hbound : t.bound id = [target] := by simp [SyntaxTree.bound, hn, htext]
  have hnames : t.namesAt id = [target] := by
    simp [SyntaxTree.namesAt, hn, SyntaxTree.isName_of_name hname]
  have hassigns : t.assigns id = false := by simp [SyntaxTree.assigns, hn, htext]
  have hdefinition : t.isDefinition id = false := by rw [SyntaxTree.isDefinition, hn]
  have htarget : target ∈ (Node.funcStat (some target) (some closure)).children := by
    simp [Node.children]
  have hclosure : closure ∈ t.children id :=
    SyntaxTree.part_mem_children hn (by simp [Node.children])
  obtain ⟨made, hmakes, -, hnamed⟩ := makes_declareAt (t := t) (w := id) config o
  rw [← enter_eq_declareAt hkind] at hmakes
  have hown := grown_makes hmakes hready.nested hready.here
  -- Behind the name, its declaration shows it.
  have hadds {o' : Outline} (hholds : Holds o o' made) {position : Nat}
      (hbefore : (t.span target).start < position) :
      Adds t o' position env (t.bound id) (o.declItems made) := by
    have hadds := adds_own hholds hmakes.declares hdefinition (hnamed hassigns) hassigns
      (fun x hx => by
        rw [hnames, List.mem_singleton] at hx
        rwa [hx]) env
    rwa [hnames, List.reverse_singleton, ← hbound] at hadds
  refine analysed_plain h hready hkind hmakes ?_ hwalks ?_ ?_ ?_ ?_ ?_
  · intro c hc
    exact (hsuits.extends hready.nested hown.grows).child h hkind hc
  · exact fun c hc => quiet_child h hn (ne_block hkind hn) hc
  · rw [SyntaxTree.childEnvs, hn]
    intro e he
    simp only [List.mem_cons, List.not_mem_nil, or_false] at he
    rcases he with rfl | rfl
    · intro hcode
      rw [SyntaxTree.isCode_eq hname] at hcode
      cases hcode
    · intro hcode position hstart hstop
      have hsees' := hsees.part h ho hclosure hcode position hstart hstop
      have hordered := ho.ordered hn
      simp only [Node.children, Option.toList_some, List.singleton_append, List.pairwise_cons,
        List.mem_singleton, forall_eq] at hordered
      have hnonempty := ho.nonempty hname
      have hstart : (t.span closure).start ≤ position := hstart
      exact hsees'.block hready.nested hown.nested hown.grows hblock
        (hadds hmakes.holds (by omega))
  · exact fun e he hvalue => ⟨hbinding, start_le_position ho (hmakes.declares e he) hvalue⟩
  · intro o' hholds position hstop
    have hwithin := (Span.contains_iff.1 (ho.within hn htarget)).2
    have hnonempty := ho.nonempty hname
    exact hadds hholds (by omega)
  · intro name hname
    rw [hn] at hname
    cases hname

theorem nameText?_eq_none {x : NodeId} (hname : ∀ name, t.node? x ≠ some (.name name)) :
    t.nameText? x = none := by
  unfold SyntaxTree.nameText?
  split
  · next hn => exact absurd hn (hname _)
  · rfl

theorem walks_funcStat (h : t.Proper) (ho : t.InOrder) {target closure : Option NodeId}
    (hn : t.node? id = some (.funcStat target closure))
    (hwalks : ∀ c ∈ t.children id, Walks config t c) : Walks config t id := by
  have hkind : t.scopeKind? id = none := by rw [SyntaxTree.scopeKind?, hn]
  have hbinding : t.isBinding id = true := by rw [SyntaxTree.isBinding, hn]
  -- A bare name is that of a local function; any other target is assigned to and binds nothing.
  by_cases hlocal : ∃ x c name, target = some x ∧ closure = some c ∧ t.node? x = some (.name name)
  · obtain ⟨x, c, name, rfl, rfl, hname⟩ := hlocal
    exact walks_localFunction h ho hn hname hwalks
  · have hbound : t.bound id = [] := by
      unfold SyntaxTree.bound
      rw [hn]
      cases target with
      | none => rfl
      | some x =>
        cases closure with
        | none => rfl
        | some c =>
          have hnone := nameText?_eq_none fun name hname => hlocal ⟨x, c, name, rfl, rfl, hname⟩
          simp [hnone]
    refine walks_globals h ho hkind hbinding hbound ?_ hwalks ?_
    · intro env
      by_cases hboth : ∃ x c, target = some x ∧ closure = some c
      · obtain ⟨x, c, rfl, rfl⟩ := hboth
        rw [SyntaxTree.children_eq hn (by simp), SyntaxTree.childEnvs, hn]
        simp [hbound, Node.children]
      · refine childEnvs_plain hkind (fun x c hfunc => hboth ?_) env
        rw [hn, Option.some.injEq, Node.funcStat.injEq] at hfunc
        exact ⟨x, c, hfunc⟩
    · intro o sid env wf hhere hblock haround hsees
      by_cases hboth : ∃ x c, target = some x ∧ closure = some c
      · obtain ⟨x, c, rfl, rfl⟩ := hboth
        have hx : x ∈ t.children id :=
          SyntaxTree.part_mem_children hn (by simp [Node.children])
        have hnone := nameText?_eq_none fun name hname => hlocal ⟨x, c, name, rfl, rfl, hname⟩
        obtain ⟨made, hmakes, -, -, hmade⟩ := makes_funcStat hn o
        rw [show o.declareAt config t id = o.funcStat t x c by rw [declareAt, hn]]
        exact ⟨made, hmakes,
          freeGlobals_of_introduces wf h ho haround hx (hsees x hx) (hmade hnone)⟩
      · -- Without a target and a function nothing is named.
        obtain ⟨made, hmakes, -⟩ := makes_declareAt (t := t) (w := id) config o
        refine ⟨made, hmakes, fun e he hvalue => ?_⟩
        obtain ⟨hnode, -⟩ := (hmakes.declares e he).named (DeclKind.isNamed_of_isValue hvalue)
        have hnames : t.namesAt id = [] := by
          rw [SyntaxTree.namesAt, hn]
          cases target with
          | none => rfl
          | some x =>
            cases closure with
            | none => rfl
            | some c => exact absurd ⟨x, c, rfl, rfl⟩ hboth
        rw [hnames] at hnode
        cases hnode

end LuaAnalysis.Outline
