import LuaAnalysis.Proofs.File.ScopeWalk

/-!
# Lexical scoping of blocks

In a block every statement sees what the statements before it bind, and the condition of a repeat
loop sees what its body binds.

Main statements: whatever stands in a scope can be walked there (`walks`), and in the outline of a
tree every use of a name is resolved as the environment at it says (`right_outline`).
-/

namespace LuaAnalysis.Outline

variable {config : Config} {t : SyntaxTree} {o o' : Outline} {sid : ScopeId}
  {extra : List ScopeItem} {id : NodeId} {env : Env} {kind : ScopeKind}
  {made : List (Declaration × Option NodeId)} {position : Nat}

/-! ## Statements one behind the other -/

theorem isCode_of_binding (h : t.isBinding id = true) : t.isCode id = true := by
  rcases cases_of_isBinding h with ⟨_, _, hn⟩ | ⟨_, _, hn⟩ | ⟨_, _, hn⟩ <;>
  · rw [SyntaxTree.isCode_eq hn]
    rfl

/-- A name expression stands in the code that it is below. -/
theorem start_lt_stop (h : t.Proper) (ho : t.InOrder) {u : NodeId} {name : String}
    (hu : u ∈ t.below id) (hn : t.node? u = some (.nameExpr name)) :
    t.isCode id = true ∧ (t.span u).start < (t.span id).stop := by
  have hunder := (SyntaxTree.mem_below h).1 hu
  have hcode : t.isCode u = true := by
    rw [SyntaxTree.isCode_eq hn]
    rfl
  have hends := (Span.contains_iff.1 (SyntaxTree.Under.within h ho hunder hcode)).2
  exact ⟨SyntaxTree.Under.isCode h hunder hcode, Nat.lt_of_lt_of_le (ho.nonempty hn) hends⟩

/-- What the children of a block come to: each is walked with what those before it bind. The block
shows its names from an offset `lo` on, up to an offset `hi`. -/
theorem walkAll_sequence (h : t.Proper) (ho : t.InOrder) {cs : List NodeId} {lo hi : Nat}
    (hready : Ready t o sid id (t.inSequence env cs)) (hblock : IsBlock o sid)
    (hwalks : ∀ c ∈ cs, Walks config t c)
    (hsees : ∀ position, lo ≤ position → position < hi → Sees t o sid position env)
    (hlo : ∀ c ∈ cs, t.isCode c = true → lo ≤ (t.span c).start)
    (hhi : ∀ c ∈ cs, t.isCode c = true → (t.span c).stop ≤ hi)
    (hordered : cs.Pairwise fun a b => t.isCode a = true → t.isCode b = true →
      (t.span a).stop ≤ (t.span b).start) :
    ∃ extra, Grown t (cs.flatMap t.below) sid extra o (o.walkAll config t cs) ∧
      (∀ s, o.scopes.get? sid = some s → ∀ position,
        (∀ c ∈ cs, t.isCode c = true → position ≤ (t.span c).start) →
          ∀ x ∈ extra, (o.walkAll config t cs).Hidden s.kind position x) ∧
      (∀ position, lo ≤ position → position < hi →
        (∀ c ∈ cs, t.isCode c = true → (t.span c).stop ≤ position) →
          Sees t (o.walkAll config t cs) sid position (t.envAfter env cs)) ∧
      ∀ e ∈ t.inSequence env cs, ∀ u ∈ t.envsBelow e.2 e.1,
        Right t (o.walkAll config t cs) u.1 u.2 := by
  induction cs generalizing o env lo with
  | nil =>
    exact ⟨[], .refl hready.nested _ sid, by simp, fun position hle hlt _ => hsees position hle hlt,
      by simp [SyntaxTree.inSequence]⟩
  | cons c cs ih =>
    obtain ⟨s, hs⟩ := hready.scope
    have hmem {d : NodeId} (hd : d ∈ cs) : d ∈ c :: cs := List.mem_cons_of_mem _ hd
    rw [List.pairwise_cons] at hordered
    have hseesAt : SeesAt t o sid c env := by
      intro hcode position hstart hstop
      exact hsees position (Nat.le_trans (hlo c List.mem_cons_self hcode) hstart)
        (Nat.lt_of_lt_of_le hstop (hhi c List.mem_cons_self hcode))
    obtain ⟨extra, hdone⟩ := hwalks c List.mem_cons_self o sid id env hready.head
      (.inBlock hblock) hseesAt
    have hs' := hdone.grown.grows.here hs
    -- Behind the child its names are in scope; if it is no code it binds none.
    let next := if t.isCode c = true then (t.span c).stop else lo
    have hnext : lo ≤ next := by
      unfold next
      split
      · next hcode =>
        obtain ⟨n, hn⟩ := node?_of_ready h hready.head
        exact Nat.le_trans (hlo c List.mem_cons_self hcode) (Nat.le_of_lt (ho.nonempty hn))
      · exact Nat.le_refl lo
    have hadds : ∀ position, next ≤ position →
        Adds t (o.walk config t c) position env (t.bound c) extra := by
      intro position hle
      unfold next at hle
      split at hle
      · exact hdone.adds position hle
      · next hcode =>
        have hquiet : t.isBinding c = false := by
          cases hbinding : t.isBinding c with
          | false => rfl
          | true => exact absurd (isCode_of_binding hbinding) hcode
        rw [bound_eq_nil hquiet]
        refine adds_of_hidden (hdone.hidden s hs position fun hbinding => ?_) env
        rw [hquiet] at hbinding
        cases hbinding
    have hsees' : ∀ position, next ≤ position → position < hi →
        Sees t (o.walk config t c) sid position (t.bound c ++ env) := fun position hle hlt =>
      (hsees position (Nat.le_trans hnext hle) hlt).block hready.nested hdone.grown.nested
        hdone.grown.grows hblock (hadds position hle)
    obtain ⟨rest, hrest, hhidden, hafter, hright⟩ := ih (hready.step h hdone.grown)
      (hblock.extends hready.nested hdone.grown.grows) (fun d hd => hwalks d (hmem hd)) hsees'
      (fun d hd hcode => by
        unfold next
        split
        · next hc => exact hordered.1 d hd hc hcode
        · exact hlo d (hmem hd) hcode)
      (fun d hd => hhi d (hmem hd)) hordered.2
    rw [walkAll_cons]
    refine ⟨extra ++ rest, ?_, ?_, ?_, ?_⟩
    · rw [List.flatMap_cons]
      exact hdone.grown.trans hrest
    · intro s₀ hs₀ position hbefore x hx
      obtain rfl : s₀ = s := Option.some.inj (hs₀.symm.trans hs)
      rcases List.mem_append.1 hx with hx | hx
      · have hold := hdone.hidden _ hs position
          (fun hbinding => hbefore c List.mem_cons_self (isCode_of_binding hbinding)) x hx
        exact hold.later hdone.grown.grows hdone.grown.nested hs hx hrest.grows
      · exact hhidden _ hs' position (fun d hd => hbefore d (hmem hd)) x hx
    · intro position hle hlt hbehind
      refine hafter position ?_ hlt fun d hd => hbehind d (hmem hd)
      unfold next
      split
      · next hcode => exact hbehind c List.mem_cons_self hcode
      · exact hle
    · rw [SyntaxTree.inSequence, List.forall_mem_cons]
      refine ⟨fun u hu name hn => ?_, hright⟩
      -- What follows stands behind the uses below this child, so they do not see it.
      have hbelow : u.1 ∈ t.below c := by
        rw [← SyntaxTree.map_fst_envsBelow h env c]
        exact List.mem_map_of_mem hu
      obtain ⟨hcode, hlt⟩ := start_lt_stop h ho hbelow hn
      refine (hdone.right u hu).grown hdone.grown.nested hrest hs' (hhidden _ hs' _ ?_) name hn
      intro d hd hd'
      exact Nat.le_of_lt (Nat.lt_of_lt_of_le hlt (hordered.1 d hd hcode hd'))

/-! ## Blocks -/

/-- The children of a block that are code are its statements. -/
theorem pairwise_block (h : t.Proper) (ho : t.InOrder) {stats : List NodeId}
    (hn : t.node? id = some (.block stats)) :
    (t.children id).Pairwise fun a b => t.isCode a = true → t.isCode b = true →
      (t.span a).stop ≤ (t.span b).start := by
  have hordered := ho.ordered hn
  have hcomment {stat c : NodeId} (hc : c ∈ t.comments stat) : ¬ t.isCode c = true := by
    obtain ⟨tags, htags⟩ := h.comments hc
    rw [SyntaxTree.isCode_eq htags]
    exact Bool.false_ne_true
  rw [SyntaxTree.children_block hn, List.pairwise_flatMap]
  constructor
  · intro stat _
    rw [List.pairwise_append]
    refine ⟨List.pairwise_of_forall_mem_list fun a ha b _ hcode => absurd hcode (hcomment ha),
      List.pairwise_singleton _ _, fun a ha b _ hcode => absurd hcode (hcomment ha)⟩
  · refine hordered.imp fun {stat stat'} hlt a ha b hb hcode hcode' => ?_
    rcases List.mem_append.1 ha with ha | ha
    · exact absurd hcode (hcomment ha)
    · rcases List.mem_append.1 hb with hb | hb
      · exact absurd hcode' (hcomment hb)
      · obtain rfl := List.mem_singleton.1 ha
        obtain rfl := List.mem_singleton.1 hb
        exact Nat.le_of_lt hlt

/-- A node that makes no declaration has an empty scope at first. -/
theorem Entered.made_eq_nil (hentered : Entered t id kind sid made o o')
    (hdecls : o'.decls = o.decls) : made = [] := by
  cases made with
  | nil => rfl
  | cons e made =>
    have hdecl := hentered.holds 0 e rfl
    rw [hdecls, Nat.add_zero, Array.getElem?_size] at hdecl
    cases hdecl

theorem entered_block (config : Config) (h : t.Proper) {parent : NodeId} {stats : List NodeId}
    (hn : t.node? id = some (.block stats)) (hready : Ready t o sid parent [(id, env)]) :
    Entered t id .block sid [] o (o.enter config t id) := by
  have hfresh := hready.fresh _ List.mem_cons_self id (by
    rw [SyntaxTree.below_eq h]
    exact List.mem_cons_self)
  obtain ⟨made, hentered, -⟩ := entered_enter config h hready (scopeKind?_block hn)
  have hdecls : (o.enter config t id).decls = o.decls := by
    rw [enter, scopeKind?_block hn]
    dsimp only
    rw [declareAt, hn, enterScope_eq hready.here hfresh]
  rwa [hentered.made_eq_nil hdecls] at hentered

/-- What the children of a block come to in its scope. -/
theorem walk_block (h : t.Proper) (ho : t.InOrder) {parent : NodeId} {stats : List NodeId}
    (hn : t.node? id = some (.block stats)) (hready : Ready t o sid parent [(id, env)])
    (hblock : IsBlock (o.enter config t id) o.scopes.size) {hi : Nat}
    (hhi : (t.span id).stop ≤ hi)
    (hsees : ∀ position, (t.span id).start ≤ position → position < hi →
      Sees t (o.enter config t id) o.scopes.size position env)
    (hwalks : ∀ c ∈ t.children id, Walks config t c) :
    ∃ extra o', o.walk config t id = o'.leave id ∧
      Grown t ((t.children id).flatMap t.below) o.scopes.size extra (o.enter config t id) o' ∧
      (∀ position, (t.span id).stop ≤ position → position < hi →
        Sees t o' o.scopes.size position (t.envAfter env (t.children id))) ∧
      ∀ e ∈ t.childEnvs env id, ∀ u ∈ t.envsBelow e.2 e.1, Right t o' u.1 u.2 := by
  have henvs : t.childEnvs env id = t.inSequence env (t.children id) := by
    rw [SyntaxTree.childEnvs, hn]
  have hinner := (entered_block config h hn hready).ready h hready (scopeKind?_block hn)
  rw [henvs] at hinner ⊢
  have hwithin {c : NodeId} (hc : c ∈ t.children id) (hcode : t.isCode c = true) :
      (t.span id).start ≤ (t.span c).start ∧ (t.span c).stop ≤ (t.span id).stop := by
    obtain ⟨m, hm, -, hpart⟩ := h.part_of_code hc hcode
    exact Span.contains_iff.1 (ho.within hm hpart)
  obtain ⟨extra, hgrown, -, hafter, hright⟩ := walkAll_sequence h ho hinner hblock hwalks hsees
    (fun c hc hcode => (hwithin hc hcode).1)
    (fun c hc hcode => Nat.le_trans (hwithin hc hcode).2 hhi) (pairwise_block h ho hn)
  refine ⟨extra, _, walk_eq h id o, hgrown, fun position hle hlt => ?_, hright⟩
  have hstart := Nat.le_of_lt (ho.nonempty hn)
  exact hafter position (Nat.le_trans hstart hle) hlt fun c hc hcode =>
    Nat.le_trans (hwithin hc hcode).2 hle

theorem walks_block (h : t.Proper) (ho : t.InOrder) {stats : List NodeId}
    (hn : t.node? id = some (.block stats)) (hwalks : ∀ c ∈ t.children id, Walks config t c) :
    Walks config t id := by
  intro o sid parent env hready hsuits hsees
  obtain ⟨s, hs⟩ := hready.scope
  have hentered := entered_block config h hn hready
  -- The block is not the body of a repeat loop.
  have hloop : s.kind ≠ .repeatLoop := by
    cases hsuits with
    | inner hn' hinner =>
      rw [hn, Option.some.injEq] at hn'
      subst hn'
      cases hinner
    | inBlock hblock =>
      obtain ⟨s', hs', hkind⟩ := hblock.block
      rw [hs, Option.some.injEq] at hs'
      rw [hs', hkind]
      simp
    | block hn' hs' hkind =>
      rw [hs, Option.some.injEq] at hs'
      rwa [hs']
  have hblock : IsBlock (o.enter config t id) o.scopes.size := by
    refine ⟨⟨_, hentered.new, rfl⟩, fun {s' r p} hs' hp hr hkind => ?_⟩
    rw [hentered.new, Option.some.injEq] at hs'
    subst hs'
    obtain rfl := Option.some.inj hp
    rw [hentered.grows.here hs, Option.some.injEq] at hr
    subst hr
    exact absurd hkind hloop
  have hcode : t.isCode id = true := by
    rw [SyntaxTree.isCode_eq hn]
    rfl
  have hshown : ∀ position, (t.span id).start ≤ position → position < (t.span id).stop →
      Sees t (o.enter config t id) o.scopes.size position env := fun position hle hlt =>
    hentered.sees_through hready.nested hs (fun _ => hloop) (fun _ => hlt)
      (hsees hcode position hle hlt) fun name => rfl
  obtain ⟨extra, o', hwalk, hgrown, -, hright⟩ :=
    walk_block h ho hn hready hblock (Nat.le_refl _) hshown hwalks
  rw [hwalk]
  refine ⟨_, hentered.analysed h hgrown ?_ (fun s' hs' _ => ?_) (fun hkind => by cases hkind) ?_
    (by simp [hn]) hright⟩
  · intro x hx
    rw [SyntaxTree.below_eq h]
    exact List.mem_cons_of_mem _ hx
  · rw [hs, Option.some.injEq] at hs'
    rwa [← hs']
  · intro position _
    rw [bound_eq_nil (by rw [SyntaxTree.isBinding, hn])]
    exact adds_scope (hgrown.grows.here hentered.new) (by simp) position env

/-! ## Repeat loops -/

theorem entered_repeatStat (config : Config) (h : t.Proper) {parent : NodeId}
    {body cond : Option NodeId} (hn : t.node? id = some (.repeatStat body cond))
    (hready : Ready t o sid parent [(id, env)]) :
    Entered t id .repeatLoop sid [] o (o.enter config t id) := by
  have hkind : t.scopeKind? id = some .repeatLoop := by rw [SyntaxTree.scopeKind?, hn]
  have hfresh := hready.fresh _ List.mem_cons_self id (by
    rw [SyntaxTree.below_eq h]
    exact List.mem_cons_self)
  obtain ⟨made, hentered, -⟩ := entered_enter config h hready hkind
  have hdecls : (o.enter config t id).decls = o.decls := by
    rw [enter, hkind]
    dsimp only
    rw [declareAt, hn, enterScope_eq hready.here hfresh]
  rwa [hentered.made_eq_nil hdecls] at hentered

/-- Whether a block is all that a repeat loop holds. -/
structure IsBody (o : Outline) (b r : ScopeId) (outer : ScopeId) (items : List ScopeItem) :
    Prop where
  block : ∃ s, o.scopes.get? b = some s ∧ s.kind = .block ∧ s.parent = some r ∧ s.items = items
  loop : ∃ s, o.scopes.get? r = some s ∧ s.kind = .repeatLoop ∧ s.parent = some outer ∧
    s.items = [.scope b]

/-- A repeat loop shows what its body shows. -/
theorem look_body {b r outer : ScopeId} {items : List ScopeItem} (hb : IsBody o b r outer items)
    (wf : Nested t o) (name : String) :
    o.look r position name = (o.gives position name items).or (o.look outer position name) ∧
      o.look b position name = (o.gives position name items).or (o.look outer position name) := by
  obtain ⟨s, hs, hkind, hparent, rfl⟩ := hb.block
  obtain ⟨q, hq, hloop, houter, hitems⟩ := hb.loop
  have hr : o.look r position name =
      (o.gives position name s.items).or (o.look outer position name) := by
    rw [look_eq wf hq, houter]
    simp only [ScopeTree.findAround?, hloop, findItem?_eq, hitems, lastItem?_scope,
      ScopeTree.shownToCondition?, hs, hkind, if_true]
    rfl
  refine ⟨hr, ?_⟩
  rw [look_eq wf hs, hparent, Option.bind_some, hr]
  simp only [ScopeTree.findAround?, hkind, findItem?_eq]
  rw [gives]
  cases o.lastItem? (o.scopes.shownByEnded? o.decls name position) position name s.items <;> rfl

theorem IsBody.isBlock {b r outer : ScopeId} {items : List ScopeItem}
    (hb : IsBody o b r outer items) : IsBlock o b := by
  obtain ⟨s, hs, hkind, hparent, -⟩ := hb.block
  obtain ⟨q, hq, -, -, hitems⟩ := hb.loop
  refine ⟨⟨s, hs, hkind⟩, fun {s' r' p} hs' hp hr _ => ?_⟩
  rw [hs, Option.some.injEq] at hs'
  subst hs'
  rw [hparent, Option.some.injEq] at hp
  subst hp
  rw [hq, Option.some.injEq] at hr
  rw [← hr, hitems]

/-- What the body of a repeat loop comes to: the loop then shows what the body binds. -/
theorem walk_body (h : t.Proper) (ho : t.InOrder) {parent b : NodeId} {cond : Option NodeId}
    (hn : t.node? id = some (.repeatStat (some b) cond))
    (hready : Ready t o sid parent [(id, env)]) (hsees : SeesAt t o sid id env)
    (hwalks : ∀ c < id, Walks config t c) :
    ∃ o', (o.enter config t id).walk config t b = o' ∧
      Grown t (t.below b) o.scopes.size [.scope (o.enter config t id).scopes.size]
        (o.enter config t id) o' ∧
      (∀ position, (t.span b).stop ≤ position → position < (t.span id).stop →
        Sees t o' o.scopes.size position (t.envAfter env (t.children b))) ∧
      ∀ u ∈ t.envsBelow env b, Right t o' u.1 u.2 := by
  obtain ⟨s, hs⟩ := hready.scope
  have hentered := entered_repeatStat config h hn hready
  have hkind : t.scopeKind? id = some .repeatLoop := by rw [SyntaxTree.scopeKind?, hn]
  have hbody : b ∈ (Node.repeatStat (some b) cond).children := by simp [Node.children]
  have hchild : b ∈ t.children id := SyntaxTree.part_mem_children hn hbody
  obtain ⟨stats, hnode⟩ : ∃ stats, t.node? b = some (.block stats) := by
    have hfits := h.fits hn
    simp only [Node.Fits, Node.expects, Node.children, Node.forall₂_each_append] at hfits
    obtain ⟨m, hm, hadmits⟩ := hfits.1 b (by simp)
    cases m <;> cases hadmits
    exact ⟨_, hm⟩
  have hinner : Ready t (o.enter config t id) o.scopes.size id [(b, env)] := by
    have hall := hentered.ready h hready hkind
    have hfirst : t.childEnvs env id = (b, env) :: cond.toList.map
        (·, t.envAfter env (t.children b)) := by
      rw [SyntaxTree.childEnvs, hn]
      simp
    rw [hfirst] at hall
    exact hall.head
  have hentered' := entered_block config h hnode hinner
  have hgrows := hentered.grows.inside hentered'.grows (get?_size o)
  have hloop := hentered'.grows.here hentered.new
  have hisBody : IsBody ((o.enter config t id).enter config t b)
      (o.enter config t id).scopes.size o.scopes.size sid [] :=
    ⟨⟨_, hentered'.new, rfl, rfl, rfl⟩, ⟨_, hloop, rfl, rfl, rfl⟩⟩
  obtain ⟨hstart, hstop⟩ := Span.contains_iff.1 (ho.within hn hbody)
  have hcode : t.isCode id = true := by
    rw [SyntaxTree.isCode_eq hn]
    rfl
  -- What is around the loop is shown by both of its scopes at first.
  have hshown : ∀ position, (t.span b).start ≤ position → position < (t.span id).stop →
      Sees t ((o.enter config t id).enter config t b) (o.enter config t id).scopes.size position
        env := by
    intro position hle hlt name
    have hhidden : ∀ x ∈ [ScopeItem.scope o.scopes.size],
        ((o.enter config t id).enter config t b).Hidden s.kind position x := by
      intro x hx
      obtain rfl := List.mem_singleton.1 hx
      intro q hq
      rw [hloop, Option.some.injEq] at hq
      subst hq
      exact ⟨by simp, by simp⟩
    have houter := (hsees hcode position (Nat.le_trans hstart hle) hlt).hidden hready.nested
      hentered'.nested hgrows hs hhidden hs
    rw [(look_body hisBody hentered'.nested name).2]
    exact houter name
  obtain ⟨extra, o', hwalk, hgrown, hafter, hright⟩ := walk_block h ho hnode hinner hisBody.isBlock
    hstop hshown fun c hc => hwalks c (Nat.lt_trans (h.child_lt hc) (h.child_lt hchild))
  rw [hwalk]
  refine ⟨_, rfl, (hentered'.leave hgrown).mono ?_, fun position hle hlt => ?_, fun u hu => ?_⟩
  · intro x hx
    rwa [SyntaxTree.below_eq h]
  · have hisBody' : IsBody o' (o.enter config t id).scopes.size o.scopes.size sid ([] ++ extra) := by
      have hne : o.scopes.size ≠ (o.enter config t id).scopes.size := by
        intro heq
        have hnew := hentered.new
        rw [heq, get?_size] at hnew
        cases hnew
      exact ⟨⟨_, hgrown.grows.here hentered'.new, rfl, rfl, rfl⟩,
        ⟨_, hgrown.grows.other hne hloop, rfl, rfl, rfl⟩⟩
    have hsame (name : String) : o'.look o.scopes.size position name =
        o'.look (o.enter config t id).scopes.size position name := by
      rw [(look_body hisBody' hgrown.nested name).1, (look_body hisBody' hgrown.nested name).2]
    have hloops : Sees t o' o.scopes.size position (t.envAfter env (t.children b)) := by
      intro name
      rw [hsame]
      exact hafter position hle hlt name
    unfold Outline.leave
    split
    · exact hloops
    · exact hloops
  · rw [SyntaxTree.envsBelow_eq h] at hu
    rcases List.mem_cons.1 hu with rfl | hu
    · intro name hname
      rw [hnode] at hname
      cases hname
    · obtain ⟨e, he, hu⟩ := List.mem_flatMap.1 hu
      exact (hright e he u hu).leave b

/-- The condition of a repeat loop sees what is shown when its body has been walked. -/
theorem walk_cond (h : t.Proper) {body : Option NodeId} {cond : Option NodeId}
    (hn : t.node? id = some (.repeatStat body cond)) {s : Scope}
    (hs : o.scopes.get? sid = some s) (hloop : s.kind = .repeatLoop)
    (hready : Ready t o sid id (cond.toList.map (·, env)))
    (hsees : ∀ c ∈ cond, SeesAt t o sid c env) (hwalks : ∀ c < id, Walks config t c) :
    ∃ extra, Grown t (cond.toList.flatMap t.below) sid extra o (o.walkAll config t cond.toList) ∧
      (∀ position, ∀ x ∈ extra,
        (o.walkAll config t cond.toList).Hidden .repeatLoop position x) ∧
      ∀ e ∈ cond.toList.map (·, env), ∀ u ∈ t.envsBelow e.2 e.1,
        Right t (o.walkAll config t cond.toList) u.1 u.2 := by
  have hchild : ∀ e ∈ cond.toList.map (·, env), e.1 ∈ cond ∧ e.2 = env ∧ e.1 ∈ t.children id := by
    intro e he
    obtain ⟨c, hc, rfl⟩ := List.mem_map.1 he
    refine ⟨Option.mem_toList.1 hc, rfl, SyntaxTree.part_mem_children hn ?_⟩
    exact List.mem_append_right _ hc
  have hfst : (cond.toList.map (·, env)).map Prod.fst = cond.toList := by
    rw [List.map_map]
    exact List.map_id _
  have hfits := h.fits hn
  simp only [Node.Fits, Node.expects, Node.children, Node.forall₂_each_append,
    Node.forall₂_each] at hfits
  obtain ⟨extra, hgrown, hhidden, hright⟩ := walkAll_quiet h hready
    (fun e he => by
      obtain ⟨m, hm, hadmits⟩ := hfits.2 e.1 (Option.mem_toList.2 (hchild e he).1)
      exact .inner hm (Node.isInner_of_admits rfl hadmits))
    (fun e he => hwalks e.1 (h.child_lt (hchild e he).2.2))
    (fun e he => quiet_child h hn (by simp) (hchild e he).2.2)
    (fun e he => by
      rw [(hchild e he).2.1]
      exact hsees e.1 (hchild e he).1)
  rw [hfst] at hgrown hhidden hright
  rw [List.flatMap_map] at hgrown
  rw [← hloop]
  exact ⟨extra, hgrown, hhidden s hs, hright⟩

theorem walks_repeatStat (h : t.Proper) (ho : t.InOrder) {body cond : Option NodeId}
    (hn : t.node? id = some (.repeatStat body cond)) (hwalks : ∀ c < id, Walks config t c) :
    Walks config t id := by
  intro o sid parent env hready _ hsees
  have hentered := entered_repeatStat config h hn hready
  have hkind : t.scopeKind? id = some .repeatLoop := by rw [SyntaxTree.scopeKind?, hn]
  have hinner := hentered.ready h hready hkind
  have hcode : t.isCode id = true := by
    rw [SyntaxTree.isCode_eq hn]
    rfl
  have hchildren : t.children id = body.toList ++ cond.toList := by
    rw [SyntaxTree.children_eq hn (by simp)]
    rfl
  -- The body and the condition together, in the scope of the loop.
  obtain ⟨extra, o', hwalk, hgrown, hright⟩ : ∃ extra o',
      (o.enter config t id).walkAll config t (t.children id) = o' ∧
      Grown t ((t.children id).flatMap t.below) o.scopes.size extra (o.enter config t id) o' ∧
      ∀ e ∈ t.childEnvs env id, ∀ u ∈ t.envsBelow e.2 e.1, Right t o' u.1 u.2 := by
    obtain ⟨s, hs⟩ := hready.scope
    rw [hchildren]
    cases body with
    | none =>
      have henvs : t.childEnvs env id = cond.toList.map (·, env) := by
        rw [SyntaxTree.childEnvs, hn]
        rfl
      rw [henvs] at hinner ⊢
      have hseesAt : ∀ c ∈ cond, SeesAt t (o.enter config t id) o.scopes.size c env := by
        intro c hc hcode' position hstart hstop
        have hpart : c ∈ (Node.repeatStat none cond).children := Option.mem_toList.2 hc
        obtain ⟨hbegins, hends⟩ := Span.contains_iff.1 (ho.within hn hpart)
        have houter := hsees hcode position (Nat.le_trans hbegins hstart)
          (Nat.lt_of_lt_of_le hstop hends)
        exact hentered.sees_through hready.nested hs (by simp) (by simp) houter fun name => rfl
      obtain ⟨extra, hgrown, -, hright⟩ := walk_cond h hn hentered.new rfl hinner hseesAt hwalks
      exact ⟨extra, _, rfl, hgrown, hright⟩
    | some b =>
      have henvs : t.childEnvs env id =
          (b, env) :: cond.toList.map (·, t.envAfter env (t.children b)) := by
        rw [SyntaxTree.childEnvs, hn]
        simp
      rw [henvs] at hinner ⊢
      obtain ⟨o₁, hbody, hgrown₁, hafter, hright₁⟩ := walk_body h ho hn hready hsees hwalks
      have hloop := hgrown₁.grows.here hentered.new
      have hseesAt : ∀ c ∈ cond, SeesAt t o₁ o.scopes.size c (t.envAfter env (t.children b)) := by
        intro c hc hcode' position hstart hstop
        have hpart : c ∈ (Node.repeatStat (some b) cond).children :=
          List.mem_append_right _ (Option.mem_toList.2 hc)
        have hordered := ho.ordered hn
        simp only [Node.children, List.pairwise_append] at hordered
        have hlt := hordered.2.2 b (by simp) c (Option.mem_toList.2 hc)
        refine hafter position (Nat.le_of_lt (Nat.lt_of_lt_of_le hlt hstart)) ?_
        exact Nat.lt_of_lt_of_le hstop (Span.contains_iff.1 (ho.within hn hpart)).2
      obtain ⟨rest, hgrown₂, hhidden, hright₂⟩ := walk_cond h hn hloop rfl
        (hinner.step h hgrown₁) hseesAt hwalks
      refine ⟨_, o₁.walkAll config t cond.toList, ?_, hgrown₁.trans hgrown₂, ?_⟩
      · rw [Option.toList_some, List.singleton_append, walkAll_cons, hbody]
      · rw [List.forall_mem_cons]
        refine ⟨fun u hu => ?_, hright₂⟩
        exact (hright₁ u hu).grown hgrown₁.nested hgrown₂ hloop (hhidden _)
  rw [walk_eq h, hwalk]
  refine ⟨_, hentered.analysed h hgrown ?_ (fun s hs hblock => by cases hblock)
    (fun hlocal => by cases hlocal) ?_ (by simp [hn]) hright⟩
  · intro x hx
    rw [SyntaxTree.below_eq h]
    exact List.mem_cons_of_mem _ hx
  · intro position _
    rw [bound_eq_nil (by rw [SyntaxTree.isBinding, hn])]
    exact adds_scope (hgrown.grows.here hentered.new) (by simp) position env

/-! ## Whole trees -/

/-- A whole text stands in no scope. -/
theorem not_source_of_ready (h : t.Proper) {parent : NodeId}
    (hready : Ready t o sid parent [(id, env)]) (block : Option NodeId) :
    t.node? id ≠ some (.source block) := by
  intro hn
  obtain ⟨n, hn', hc | ⟨stats, -, stat, -, hc⟩⟩ :=
    SyntaxTree.mem_children (hready.children _ List.mem_cons_self)
  · obtain ⟨sort, -, m, hm, hadmits⟩ := h.is_of_part hn' hc
    rw [hn, Option.some.injEq] at hm
    subst hm
    cases sort <;> cases hadmits
  · obtain ⟨tags, htags⟩ := h.comments hc
    rw [hn] at htags
    cases htags

theorem walks (config : Config) (h : t.Proper) (ho : t.InOrder) (id : NodeId) :
    Walks config t id := by
  induction id using Nat.strongRecOn with
  | _ id ih =>
    have hchildren : ∀ c ∈ t.children id, Walks config t c := fun c hc => ih c (h.child_lt hc)
    cases hn : t.node? id with
    | none =>
      intro o sid parent env hready
      obtain ⟨n, hn'⟩ := node?_of_ready h hready
      rw [hn] at hn'
      cases hn'
    | some n =>
      cases n with
      | source block =>
        intro o sid parent env hready
        exact absurd hn (not_source_of_ready h hready block)
      | block => exact walks_block h ho hn hchildren
      | localStat => exact walks_localStat h ho hn hchildren
      | assignStat => exact walks_assignStat h ho hn hchildren
      | funcStat => exact walks_funcStat h ho hn hchildren
      | repeatStat => exact walks_repeatStat h ho hn ih
      | closureExpr =>
        refine (binder_closure h hn).walks h ho (by simp) ?_ hchildren
        rw [SyntaxTree.isBinding, hn]
      | forStat =>
        refine (binder_forStat h ho hn).walks h ho (by simp) ?_ hchildren
        rw [SyntaxTree.isBinding, hn]
      | forRangeStat =>
        refine (binder_forRangeStat h ho hn).walks h ho (by simp) ?_ hchildren
        rw [SyntaxTree.isBinding, hn]
      | _ =>
        refine walks_plain h ho ?_ ?_ hchildren
        · rw [SyntaxTree.scopeKind?, hn]
        · rw [SyntaxTree.isBinding, hn]

/-- Entering the root opens the first scope, and nothing is declared. -/
theorem enter_root (config : Config) {block : Option NodeId}
    (hn : t.node? t.root = some (.source block)) :
    let o := ({} : Outline).enter config t t.root
    o.scopes = ⟨#[{ kind := .source, owner := t.root, span := t.span t.root, parent := none }]⟩ ∧
      o.around = [0] ∧ o.decls = #[] := by
  have hscope : ({} : Outline).enterScope t t.root .source =
      { scopes := ⟨#[{ kind := .source, owner := t.root, span := t.span t.root, parent := none }]⟩
        around := [0] } := rfl
  have henter : ({} : Outline).enter config t t.root =
      (({} : Outline).enterScope t t.root .source).declareAt config t t.root := by
    rw [enter, SyntaxTree.scopeKind?, hn]
  rw [henter, hscope, declareAt, hn]
  cases block with
  | none => exact ⟨rfl, rfl, rfl⟩
  | some body =>
    dsimp only
    split <;> exact ⟨rfl, rfl, rfl⟩

/-- At first there is one scope, and it is empty. -/
theorem get?_root {o : Outline} (hscopes : o.scopes =
      ⟨#[{ kind := .source, owner := t.root, span := t.span t.root, parent := none }]⟩)
    {i : ScopeId} {s : Scope} (hs : o.scopes.get? i = some s) : i = 0 ∧
      s = { kind := .source, owner := t.root, span := t.span t.root, parent := none } := by
  rw [hscopes, ScopeTree.get?] at hs
  obtain ⟨hlt, hs⟩ := Array.getElem?_eq_some_iff.1 hs
  have hi : i = 0 := Nat.lt_one_iff.1 hlt
  subst hi
  exact ⟨rfl, hs.symm⟩

theorem nested_root {block : Option NodeId} (hn : t.node? t.root = some (.source block)) {o : Outline}
    (hscopes : o.scopes =
      ⟨#[{ kind := .source, owner := t.root, span := t.span t.root, parent := none }]⟩) :
    Nested t o := by
  refine ⟨fun hs hp => ?_, fun hs hd => ?_, fun hs hj => ?_, fun hs => ?_⟩
  · rw [(get?_root hscopes hs).2] at hp
    cases hp
  · rw [(get?_root hscopes hs).2] at hd
    cases hd
  · rw [(get?_root hscopes hs).2] at hj
    cases hj
  · rw [(get?_root hscopes hs).2]
    exact ⟨by rw [SyntaxTree.scopeKind?, hn], rfl⟩

/-- After the root has been entered its children are ready to be walked in the first scope. -/
theorem ready_root (config : Config) (h : t.Proper) {block : Option NodeId}
    (hn : t.node? t.root = some (.source block)) :
    Ready t (({} : Outline).enter config t t.root) 0 t.root (t.childEnvs [] t.root) := by
  obtain ⟨hscopes, haround, -⟩ := enter_root config hn
  have hkind : t.scopeKind? t.root = some .source := by rw [SyntaxTree.scopeKind?, hn]
  have howners : (({} : Outline).enter config t t.root).owners = [t.root] := by
    rw [Outline.owners, hscopes]
    rfl
  refine ⟨nested_root hn hscopes, by rw [haround]; rfl, ⟨_, by rw [hscopes]; rfl⟩,
    ⟨t.root, ?_, ?_⟩, fun e he => SyntaxTree.fst_mem_children he, ?_, ?_⟩
  · exact List.find?_cons_of_pos (by simp [hkind])
  · rw [ownedBy?_eq, howners]
    simp
  · rw [SyntaxTree.map_fst_childEnvs]
    exact h.nodup_children t.root
  · -- The root is the only owner by now, and it is not below a child of its own.
    intro e he x hx hmem
    rw [howners, List.mem_singleton] at hmem
    have hle := SyntaxTree.Under.le h ((SyntaxTree.mem_below h).1 hx)
    rw [hmem] at hle
    exact absurd (h.child_lt (SyntaxTree.fst_mem_children he)) (Nat.not_lt.2 hle)

/-- In the outline of a tree every use of a name is resolved as the environment at it says. -/
theorem right_outline (config : Config) (h : t.Proper) (ho : t.InOrder) :
    Nested t (t.outline config) ∧
      ∀ e ∈ t.envsBelow [] t.root, Right t (t.outline config) e.1 e.2 := by
  obtain ⟨block, hn⟩ := h.root
  have hready := ready_root config h hn
  have hfirst : (({} : Outline).enter config t t.root).scopes.get? 0 =
      some { kind := .source, owner := t.root, span := t.span t.root, parent := none } := by
    rw [(enter_root config hn).1]
    rfl
  have hempty : ∀ e ∈ t.childEnvs [] t.root, e.2 = [] ∧ e.1 ∈ t.children t.root := by
    intro e he
    refine ⟨?_, SyntaxTree.fst_mem_children he⟩
    rw [SyntaxTree.childEnvs, hn] at he
    obtain ⟨c, -, rfl⟩ := List.mem_map.1 he
    rfl
  -- The children are blocks, in which nothing is declared yet and nothing is seen.
  obtain ⟨extra, hgrown, -, hright⟩ := walkAll_quiet h hready
    (fun e he => by
      have hfits := h.fits hn
      have hpart := (hempty e he).2
      rw [SyntaxTree.children_eq hn (by simp)] at hpart
      simp only [Node.Fits, Node.expects, Node.children, Node.forall₂_each] at hfits
      obtain ⟨m, hm, hadmits⟩ := hfits e.1 hpart
      cases m <;> cases hadmits
      exact .block hm hfirst (by simp))
    (fun e _ => walks config h ho e.1)
    (fun e he => quiet_child h hn (by simp) (hempty e he).2)
    (fun e he => by
      rw [(hempty e he).1]
      intro _ position _ _ name
      rw [look_eq hready.nested hfirst]
      trivial)
  rw [SyntaxTree.envsBelow_eq h, List.forall_mem_cons, outline_eq_walk, walk_eq_childEnvs h []]
  refine ⟨hgrown.nested.leave t.root, fun name hname => ?_, fun e he => ?_⟩
  · rw [hn] at hname
    cases hname
  · obtain ⟨e', he', he⟩ := List.mem_flatMap.1 he
    exact (hright e' he' e he).leave t.root

end LuaAnalysis.Outline
