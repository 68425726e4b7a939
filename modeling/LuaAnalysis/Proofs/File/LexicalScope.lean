import LuaAnalysis.Proofs.File.Binding
import LuaAnalysis.Proofs.Syntax.SourceOrder

/-!
# Lexical scoping

In a tree whose nodes stand in source order, a look-up by positions and scopes finds what the
environment at the name binds. The walk that makes the outline keeps this: `Ready` is what holds of a
scope when a node in it is about to be walked, `Analysed` what a walk comes to.

Main statement: `right_outline`.
-/

namespace LuaAnalysis

/-- Whether a statement may declare values in the scope around it. -/
def SyntaxTree.isBinding (t : SyntaxTree) (id : NodeId) : Bool :=
  match t.node? id with
  | some (.localStat _ _) | some (.assignStat _ _) | some (.funcStat _ _) => true
  | _ => false

namespace Outline

variable {config : Config} {t : SyntaxTree} {o o' o'' : Outline} {sid : ScopeId}
  {extra : List ScopeItem} {nodes : List NodeId} {id : NodeId} {env : Env}

/-- Whether the first of some nodes that has a scope has the scope `sid`. -/
def Around (t : SyntaxTree) (o : Outline) (sid : ScopeId) (ids : List NodeId) : Prop :=
  ∃ a, (ids.find? fun a => (t.scopeKind? a).isSome) = some a ∧ o.scopes.ownedBy? a = some sid

/-- Whether a node may stand in a scope: a statement stands in a block, and the body of a repeat loop
is looked at apart. -/
inductive Suits (t : SyntaxTree) (o : Outline) (sid : ScopeId) (id : NodeId) : Prop where
  | inner {n : Node NodeId} (hn : t.node? id = some n) (hinner : n.isInner = true)
  | inBlock (hblock : IsBlock o sid)
  | block {stats : List NodeId} {s : Scope} (hn : t.node? id = some (.block stats))
    (hs : o.scopes.get? sid = some s) (hkind : s.kind ≠ .repeatLoop)

/-- Whether a scope shows an environment all over a node of the code. -/
def SeesAt (t : SyntaxTree) (o : Outline) (sid : ScopeId) (id : NodeId) (env : Env) : Prop :=
  t.isCode id = true → ∀ position, (t.span id).start ≤ position →
    position < (t.span id).stop → Sees t o sid position env

/-- What holds when children of a node are about to be walked in a scope, each with its
environment. -/
structure Ready (t : SyntaxTree) (o : Outline) (sid : ScopeId) (id : NodeId)
    (es : List (NodeId × Env)) : Prop where
  nested : Nested t o
  here : o.around.head? = some sid
  scope : ∃ s, o.scopes.get? sid = some s
  around : Around t o sid (id :: t.ancestors id)
  children : ∀ e ∈ es, e.1 ∈ t.children id
  nodup : (es.map Prod.fst).Nodup
  fresh : ∀ e ∈ es, ∀ x ∈ t.below e.1, x ∉ o.owners

/-- Whether a use of a name is resolved as its environment says. -/
def Right (t : SyntaxTree) (o : Outline) (u : NodeId) (env : Env) : Prop :=
  ∀ name, t.node? u = some (.nameExpr name) →
    ∃ sid s, Around t o sid (u :: t.ancestors u) ∧ o.scopes.get? sid = some s ∧
      Sees t o sid (t.span u).start env

/-- What the walk of a node comes to. Only a binding statement shows anything new to the scope, and
nothing of it before it ends. -/
structure Analysed (t : SyntaxTree) (id : NodeId) (sid : ScopeId) (env : Env)
    (extra : List ScopeItem) (o o' : Outline) : Prop where
  grown : Grown t (t.below id) sid extra o o'
  hidden : ∀ s, o.scopes.get? sid = some s → ∀ position,
    (t.isBinding id = true → position ≤ (t.span id).start) →
      ∀ x ∈ extra, o'.Hidden s.kind position x
  adds : ∀ position, (t.span id).stop ≤ position → Adds t o' position env (t.bound id) extra
  right : ∀ e ∈ t.envsBelow env id, Right t o' e.1 e.2

/-- That a node can be walked wherever it may stand. -/
def Walks (config : Config) (t : SyntaxTree) (id : NodeId) : Prop :=
  ∀ (o : Outline) (sid : ScopeId) (parent : NodeId) (env : Env), Ready t o sid parent [(id, env)] →
    Suits t o sid id → SeesAt t o sid id env →
      ∃ extra, Analysed t id sid env extra o (o.walk config t id)

/-! ## Growth -/

theorem Around.grown {ids : List NodeId} {sid' : ScopeId} (h : Around t o sid' ids)
    (hgrown : Grown t nodes sid extra o o') : Around t o' sid' ids := by
  obtain ⟨a, ha, howned⟩ := h
  obtain ⟨new, hnew, -⟩ := hgrown.owners
  exact ⟨a, ha, ownedBy?_append hnew howned⟩

theorem Right.grown {u : NodeId} (h : Right t o u env) (wf : Nested t o)
    (hgrown : Grown t nodes sid extra o o') {s : Scope} (hs : o.scopes.get? sid = some s)
    (hhidden : ∀ x ∈ extra, o'.Hidden s.kind (t.span u).start x) : Right t o' u env := by
  intro name hname
  obtain ⟨i, r, haround, hr, hsees⟩ := h name hname
  obtain ⟨r', hr', -⟩ := hgrown.grows.scope hr
  exact ⟨i, r', haround.grown hgrown, hr',
    hsees.hidden wf hgrown.nested hgrown.grows hs hhidden hr⟩

theorem IsBlock.extends (h : IsBlock o sid) (wf : Nested t o) (hgrows : Extends o o' sid extra) :
    IsBlock o' sid := by
  obtain ⟨s, hs, hblock⟩ := h.block
  refine ⟨⟨_, hgrows.here hs, hblock⟩, fun {s' r p} hs' hp hr hkind => ?_⟩
  rw [hgrows.here hs, Option.some.injEq] at hs'
  subst hs'
  have hp : s.parent = some p := hp
  obtain ⟨q, hq⟩ := wf.exists_parent hs hp
  have hne : p ≠ sid := Nat.ne_of_lt (wf.parent_lt hs hp)
  rw [hgrows.other hne hq, Option.some.injEq] at hr
  subst hr
  exact h.alone hs hp hq hkind

theorem Suits.extends {c : NodeId} (h : Suits t o sid c) (wf : Nested t o)
    (hgrows : Extends o o' sid extra) : Suits t o' sid c := by
  cases h with
  | inner hn hinner => exact .inner hn hinner
  | inBlock hblock => exact .inBlock (hblock.extends wf hgrows)
  | block hn hs hkind => exact .block hn (hgrows.here hs) hkind

theorem SeesAt.grown {s : Scope} {c : NodeId} (h : SeesAt t o sid c env) (wf : Nested t o)
    (hgrown : Grown t nodes sid extra o o') (hs : o.scopes.get? sid = some s)
    (hhidden : ∀ position, ∀ x ∈ extra, o'.Hidden s.kind position x) :
    SeesAt t o' sid c env := by
  intro hcode position hstart hstop
  exact (h hcode position hstart hstop).hidden wf hgrown.nested hgrown.grows hs
    (hhidden position) hs

/-- An item that a scope has got stays hidden. -/
theorem Hidden.later {sid' : ScopeId} {extra' : List ScopeItem} {kind : ScopeKind} {position : Nat}
    {x : ScopeItem} {s : Scope} (hx : o'.Hidden kind position x) (hgrows : Extends o o' sid extra)
    (wf' : Nested t o') (hs : o.scopes.get? sid = some s) (hmem : x ∈ extra)
    (hgrows' : Extends o' o'' sid' extra') : o''.Hidden kind position x := by
  have hhere := hgrows.here hs
  have hitem : x ∈ s.items ++ extra := List.mem_append_right _ hmem
  refine hx.extends hgrows' ?_ ?_
  · rintro i rfl
    exact wf'.decl_lt hhere hitem
  · rintro j rfl
    obtain ⟨r, hr, -⟩ := wf'.inner hhere hitem
    exact ⟨r, hr⟩

/-- After one child has been walked, the others are ready. -/
theorem Ready.step (h : t.Proper) {c : NodeId} {es : List (NodeId × Env)}
    (hready : Ready t o sid id ((c, env) :: es)) (hgrown : Grown t (t.below c) sid extra o o') :
    Ready t o' sid id es := by
  obtain ⟨s, hs⟩ := hready.scope
  obtain ⟨hc, hnodup⟩ := List.nodup_cons.1 hready.nodup
  obtain ⟨new, hnew, hbelow⟩ := hgrown.owners
  refine ⟨hgrown.nested, ?_, ⟨_, hgrown.grows.here hs⟩, hready.around.grown hgrown, ?_, hnodup, ?_⟩
  · rw [hgrown.around]
    exact hready.here
  · exact fun e he => hready.children e (List.mem_cons_of_mem _ he)
  · intro e he x hx hmem
    rw [hnew, List.mem_append] at hmem
    rcases hmem with hmem | hmem
    · exact hready.fresh e (List.mem_cons_of_mem _ he) x hx hmem
    · -- The new owners are below `c`, which is not below another child.
      have hsame := SyntaxTree.Under.sibling_unique h ((SyntaxTree.mem_below h).1 (hbelow x hmem))
        ((SyntaxTree.mem_below h).1 hx) (hready.children _ List.mem_cons_self)
        (hready.children e (List.mem_cons_of_mem _ he))
      exact hc (List.mem_map.2 ⟨e, he, hsame.symm⟩)

theorem Ready.head {c : NodeId} {es : List (NodeId × Env)}
    (hready : Ready t o sid id ((c, env) :: es)) : Ready t o sid id [(c, env)] := by
  refine ⟨hready.nested, hready.here, hready.scope, hready.around, ?_, by simp, ?_⟩
  · exact fun e he => hready.children e (by simp at he; simp [he])
  · exact fun e he => hready.fresh e (by simp at he; simp [he])

/-- Children that bind nothing leave the scope as it was for what follows. -/
theorem walkAll_quiet (h : t.Proper) {es : List (NodeId × Env)} (hready : Ready t o sid id es)
    (hsuits : ∀ e ∈ es, Suits t o sid e.1) (hwalks : ∀ e ∈ es, Walks config t e.1)
    (hquiet : ∀ e ∈ es, t.isBinding e.1 = false) (hsees : ∀ e ∈ es, SeesAt t o sid e.1 e.2) :
    ∃ extra, Grown t (es.flatMap fun e => t.below e.1) sid extra o
        (o.walkAll config t (es.map Prod.fst)) ∧
      (∀ s, o.scopes.get? sid = some s → ∀ position, ∀ x ∈ extra,
        (o.walkAll config t (es.map Prod.fst)).Hidden s.kind position x) ∧
      ∀ e ∈ es, ∀ u ∈ t.envsBelow e.2 e.1, Right t (o.walkAll config t (es.map Prod.fst)) u.1 u.2 := by
  induction es generalizing o with
  | nil => exact ⟨[], .refl hready.nested _ sid, by simp, by simp⟩
  | cons e es ih =>
    obtain ⟨c, env⟩ := e
    obtain ⟨s, hs⟩ := hready.scope
    obtain ⟨extra, hdone⟩ := hwalks _ List.mem_cons_self o sid id env hready.head
      (hsuits _ List.mem_cons_self) (hsees _ List.mem_cons_self)
    -- What the first child leaves in the scope is hidden there, so the others see what they saw.
    have hquiet' : ∀ position, ∀ x ∈ extra, (o.walk config t c).Hidden s.kind position x :=
      fun position => hdone.hidden s hs position fun hbinding => by
        rw [hquiet _ List.mem_cons_self] at hbinding
        cases hbinding
    obtain ⟨rest, hrest, hhidden, hright⟩ := ih (hready.step h hdone.grown)
      (fun e he => (hsuits e (List.mem_cons_of_mem _ he)).extends hready.nested hdone.grown.grows)
      (fun e he => hwalks e (List.mem_cons_of_mem _ he))
      (fun e he => hquiet e (List.mem_cons_of_mem _ he))
      (fun e he => (hsees e (List.mem_cons_of_mem _ he)).grown hready.nested hdone.grown hs hquiet')
    have hs' := hdone.grown.grows.here hs
    refine ⟨extra ++ rest, ?_, ?_, ?_⟩
    · rw [List.flatMap_cons, List.map_cons, walkAll_cons]
      exact hdone.grown.trans hrest
    · intro s₀ hs₀ position x hx
      obtain rfl : s₀ = s := Option.some.inj (hs₀.symm.trans hs)
      rw [List.map_cons, walkAll_cons]
      rcases List.mem_append.1 hx with hx | hx
      · exact (hquiet' position x hx).later hdone.grown.grows hdone.grown.nested hs hx hrest.grows
      · exact hhidden _ hs' position x hx
    · intro e he u hu
      rw [List.map_cons, walkAll_cons]
      rcases List.mem_cons.1 he with rfl | he
      · exact (hdone.right u hu).grown hdone.grown.nested hrest hs' (hhidden _ hs' _)
      · exact hright e he u hu

end Outline

end LuaAnalysis
