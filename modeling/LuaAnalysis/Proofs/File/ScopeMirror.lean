import LuaAnalysis.Proofs.File.BlockWalk
import LuaAnalysis.Syntax.Shorthand

/-!
# The scopes of a file and its syntax

`Recorded` follows the walk that makes an outline and keeps, beside the outline, which nodes are
entered and not left and what has been created so far. `Mirror` is the invariant of the walk: scopes
are those of the nodes entered, the current ones those of the open nodes, and every scope lists what
was created while its node was the innermost open one that owns a scope.

Main statement: `scopes_mirror_syntax`.
-/

namespace LuaAnalysis

/-- Whether a node has a scope of its own. -/
def SyntaxTree.ownsScope (t : SyntaxTree) (id : NodeId) : Bool :=
  match t.node? id with
  | some (.source _) | some (.block _) | some (.closureExpr ..) | some (.repeatStat ..)
  | some (.forStat ..) | some (.forRangeStat ..) | some (.localStat ..) => true
  | _ => false

theorem SyntaxTree.isSome_scopeKind? (t : SyntaxTree) (id : NodeId) :
    (t.scopeKind? id).isSome = t.ownsScope id := by
  unfold scopeKind? ownsScope
  cases t.node? id with
  | none => rfl
  | some n => cases n <;> rfl

/-- The root is above every other node that a walk from it enters. -/
theorem SyntaxTree.root_mem_ancestors {t : SyntaxTree} (h : t.Proper) {x : NodeId}
    (hx : t.Under x t.root) (hne : x ≠ t.root) : t.root ∈ t.ancestors x := by
  induction hx using Relation.ReflTransGen.head_induction_on with
  | refl => exact absurd rfl hne
  | @head c p hc _ ih =>
    rw [ancestors_child h hc, List.mem_cons]
    by_cases hp : p = t.root
    · exact .inl hp.symm
    · exact .inr (ih hp)

namespace Outline

variable {config : Config} {t : SyntaxTree} {o o' : Outline} {x : NodeId}

/-! ## Creation -/

/-- An outline on the way, the nodes that have been entered and not left, the latest first, and what
has been created in order, each item with the nodes that were open at that time. -/
structure Recorded where
  outline : Outline := {}
  openNodes : List NodeId := []
  created : List (ScopeItem × List NodeId) := []

def newScopes (o o' : Outline) : List ScopeItem :=
  (List.range' o.scopes.size (o'.scopes.size - o.scopes.size)).map .scope

def newDecls (o o' : Outline) : List ScopeItem :=
  (List.range' o.decls.size (o'.decls.size - o.decls.size)).map .decl

/-- The scope of a node is opened before the node counts as entered, and what the node declares is
made after that. -/
def Recorded.step (config : Config) (t : SyntaxTree) (r : Recorded) : WalkEvent → Recorded
  | .enter x =>
    let o := r.outline.enter config t x
    { outline := o
      openNodes := x :: r.openNodes
      created := r.created ++ (newScopes r.outline o).map (·, r.openNodes) ++
        (newDecls r.outline o).map (·, x :: r.openNodes) }
  | .exit x =>
    { r with outline := r.outline.leave x, openNodes := r.openNodes.erase x }

/-- What the walk through a whole tree makes and creates. -/
def recorded (config : Config) (t : SyntaxTree) : Recorded :=
  (t.walkEvents t.root).foldl (Recorded.step config t) {}

theorem outline_foldl_step (events : List WalkEvent) (r : Recorded) :
    (events.foldl (Recorded.step config t) r).outline =
      events.foldl (step config t) r.outline := by
  induction events generalizing r with
  | nil => rfl
  | cons e events ih =>
    rw [List.foldl_cons, List.foldl_cons, ih]
    cases e <;> rfl

theorem outline_recorded : (recorded config t).outline = t.outline config := by
  rw [recorded, outline_foldl_step, outline_eq_walk, walk_eq_foldl]

/-- Whether an outline has what an item names. -/
def Has (o : Outline) : ScopeItem → Prop
  | .decl i => i < o.decls.size
  | .scope i => i < o.scopes.size

/-- What was created while a node was the innermost open one that owns a scope. -/
def createdIn (t : SyntaxTree) (x : NodeId) (created : List (ScopeItem × List NodeId)) :
    List ScopeItem :=
  (created.filter fun e => e.2.find? t.ownsScope = some x).map Prod.fst

/-- Every scope lists what was created in it, and stands in the scope of the nearest node above its
own that owns one. -/
structure Filled (t : SyntaxTree) (created : List (ScopeItem × List NodeId)) (o : Outline) :
    Prop where
  unique : o.owners.Nodup
  parent : ∀ {i : ScopeId} {s : Scope}, o.scopes.get? i = some s →
    s.parent = ((t.ancestors s.owner).find? t.ownsScope).bind o.scopes.ownedBy?
  items : ∀ {i : ScopeId} {s : Scope}, o.scopes.get? i = some s →
    s.items = createdIn t s.owner created
  once : (created.map Prod.fst).Nodup
  mem : ∀ item, item ∈ created.map Prod.fst ↔ o.Has item
  above : ∀ {i : ScopeId} {above : List NodeId}, (.scope i, above) ∈ created →
    ∃ s, o.scopes.get? i = some s ∧ t.ancestors s.owner = above
  home : ∀ {item : ScopeItem} {opened : List NodeId}, (item, opened) ∈ created →
    ∀ a ∈ opened.find? t.ownsScope, a ∈ o.owners
  inside : ∀ {i : DeclId} {opened : List NodeId}, (.decl i, opened) ∈ created →
    (opened.find? t.ownsScope).isSome = true

/-- How an outline mirrors the nodes that have been entered and those of them that are open. -/
structure Mirror (t : SyntaxTree) (entered openNodes : List NodeId)
    (created : List (ScopeItem × List NodeId)) (o : Outline) : Prop where
  nodup : entered.Nodup
  nested : Nested t o
  owners : o.owners = entered.filter t.ownsScope
  around : o.around.map some = (openNodes.filter t.ownsScope).map o.scopes.ownedBy?
  filled : Filled t created o

/-! ## Owners -/

theorem length_owners (o : Outline) : o.owners.length = o.scopes.size := by
  simp [owners, ScopeTree.size]

theorem getElem?_owners (o : Outline) (i : ScopeId) :
    o.owners[i]? = (o.scopes.get? i).map (·.owner) := by
  rw [owners, List.getElem?_map, Array.getElem?_toList, ScopeTree.get?]

theorem get?_of_ownedBy? {i : ScopeId} (h : o.scopes.ownedBy? x = some i) :
    ∃ s, o.scopes.get? i = some s ∧ s.owner = x := by
  rw [ownedBy?_eq, List.findIdx?_eq_some_iff_getElem] at h
  obtain ⟨hlt, hx, -⟩ := h
  have hget := getElem?_owners o i
  rw [List.getElem?_eq_getElem hlt] at hget
  obtain ⟨s, hs, howner⟩ := Option.map_eq_some_iff.1 hget.symm
  exact ⟨s, hs, by rw [howner]; simpa using hx⟩

/-- When every node owns one scope at most, a scope is the one of its owner. -/
theorem ownedBy?_owner (hnodup : o.owners.Nodup) {i : ScopeId} {s : Scope}
    (hs : o.scopes.get? i = some s) : o.scopes.ownedBy? s.owner = some i := by
  have hget : o.owners[i]? = some s.owner := by rw [getElem?_owners, hs, Option.map_some]
  cases hj : o.scopes.ownedBy? s.owner with
  | none => exact absurd (List.mem_of_getElem? hget) (ownedBy?_eq_none.1 hj)
  | some j =>
    obtain ⟨r, hr, howner⟩ := get?_of_ownedBy? hj
    have hget' : o.owners[j]? = some s.owner := by
      rw [getElem?_owners, hr, Option.map_some, howner]
    obtain ⟨hi, -⟩ := List.getElem?_eq_some_iff.1 hget
    rw [(List.getElem?_inj hi hnodup).1 (hget.trans hget'.symm)]

theorem exists_ownedBy? (hx : x ∈ o.owners) : ∃ i, o.scopes.ownedBy? x = some i := by
  rw [← Option.ne_none_iff_exists']
  exact fun hnone => ownedBy?_eq_none.1 hnone hx

theorem mem_owners {i : ScopeId} {s : Scope} (hs : o.scopes.get? i = some s) :
    s.owner ∈ o.owners := by
  have hget := getElem?_owners o i
  rw [hs, Option.map_some] at hget
  exact List.mem_of_getElem? hget

/-! ## Growth -/

namespace Filled

variable {created : List (ScopeItem × List NodeId)} {opened : List NodeId} {new : List NodeId}
  {extra : List ScopeItem} {a : NodeId} {sid : ScopeId}

theorem createdIn_append (created : List (ScopeItem × List NodeId)) (extra : List ScopeItem)
    (opened : List NodeId) : createdIn t x (created ++ extra.map (·, opened)) =
      createdIn t x created ++ if opened.find? t.ownsScope = some x then extra else [] := by
  unfold createdIn
  rw [List.filter_append, List.map_append]
  congr 1
  split
  · next h => simp [List.filter_map, Function.comp_def, h]
  · next h => simp [List.filter_map, Function.comp_def, h]

/-- What is put into a scope is created in it. -/
theorem get?_extends (h : Filled t created o) (ha : opened.find? t.ownsScope = some a)
    (hsid : o.scopes.ownedBy? a = some sid) (hgrows : Extends o o' sid extra) {i : ScopeId}
    {s : Scope} (hs : o.scopes.get? i = some s) :
    o'.scopes.get? i =
      some { s with items := createdIn t s.owner (created ++ extra.map (·, opened)) } := by
  rw [createdIn_append, ← h.items hs, ha]
  by_cases hi : i = sid
  · subst hi
    obtain ⟨r, hr, rfl⟩ := get?_of_ownedBy? hsid
    obtain rfl : s = r := Option.some.inj (hs.symm.trans hr)
    rw [if_pos rfl]
    exact hgrows.here hs
  · have hne : ¬some a = some s.owner := by
      intro hsome
      obtain rfl := Option.some.inj hsome
      rw [ownedBy?_owner h.unique hs, Option.some.injEq] at hsid
      exact hi hsid
    rw [if_neg hne, List.append_nil]
    exact hgrows.other hi hs

/-- Nothing has been created in the scope of a node that owns none yet. -/
theorem createdIn_eq_nil (h : Filled t created o) (hx : x ∉ o.owners) :
    createdIn t x created = [] := by
  unfold createdIn
  rw [List.map_eq_nil_iff, List.filter_eq_nil_iff]
  intro e he
  simp only [decide_eq_true_eq]
  intro hfind
  exact hx (h.home he x hfind)

/-- A scope was created under the nodes above its own. -/
theorem mem_created (h : Filled t created o) {i : ScopeId} {s : Scope}
    (hs : o.scopes.get? i = some s) : (.scope i, t.ancestors s.owner) ∈ created := by
  have hlt : i < o.scopes.size := (Array.getElem?_eq_some_iff.1 hs).1
  obtain ⟨⟨item, above⟩, he, hitem⟩ := List.mem_map.1 ((h.mem (.scope i)).2 hlt)
  obtain rfl : item = .scope i := hitem
  obtain ⟨r, hr, rfl⟩ := h.above he
  obtain rfl : s = r := Option.some.inj (hs.symm.trans hr)
  exact he

/-- The parent of a scope stays when further scopes are opened. -/
theorem parent_append (h : Filled t created o) (howners : o'.owners = o.owners ++ new)
    {i : ScopeId} {s : Scope} (hs : o.scopes.get? i = some s) :
    s.parent = ((t.ancestors s.owner).find? t.ownsScope).bind o'.scopes.ownedBy? := by
  rw [h.parent hs]
  cases ha : (t.ancestors s.owner).find? t.ownsScope with
  | none => rfl
  | some a =>
    obtain ⟨j, hj⟩ := exists_ownedBy? (h.home (h.mem_created hs) a ha)
    show o.scopes.ownedBy? a = o'.scopes.ownedBy? a
    rw [hj, ownedBy?_append howners hj]

/-- What is created under some open nodes goes into the scope of the first of them that owns one. A
scope that is new is empty and belongs to a node right below the open ones. -/
theorem grow (h : Filled t created o) (ha : opened.find? t.ownsScope = some a)
    (hsid : o.scopes.ownedBy? a = some sid) (hgrows : Extends o o' sid extra)
    (howners : o'.owners = o.owners ++ new) (hunique : o'.owners.Nodup)
    (hnew : ∀ {i : ScopeId} {s : Scope}, o.scopes.size ≤ i → o'.scopes.get? i = some s →
      s.parent = some sid ∧ s.items = [] ∧ s.owner ∉ o.owners ∧ t.ancestors s.owner = opened)
    (hextra : extra.Nodup) (hhas : ∀ item, o'.Has item ↔ o.Has item ∨ item ∈ extra)
    (hfresh : ∀ item ∈ extra, ¬o.Has item) :
    Filled t (created ++ extra.map (·, opened)) o' := by
  have hmem : a ∈ o.owners := by
    obtain ⟨r, hr, rfl⟩ := get?_of_ownedBy? hsid
    exact mem_owners hr
  -- A scope is new, or what it was with what has been put into it.
  have hold {i : ScopeId} {s : Scope} (hs : o'.scopes.get? i = some s) : o.scopes.size ≤ i ∨
      ∃ r, o.scopes.get? i = some r ∧
        { r with items := createdIn t r.owner (created ++ extra.map (·, opened)) } = s := by
    rcases Nat.lt_or_ge i o.scopes.size with hlt | hle
    · have hr : o.scopes.get? i = some o.scopes.scopes[i] := Array.getElem?_eq_getElem hlt
      have hs' := h.get?_extends ha hsid hgrows hr
      exact .inr ⟨_, hr, Option.some.inj (hs'.symm.trans hs)⟩
    · exact .inl hle
  have hfst : (created ++ extra.map (·, opened)).map Prod.fst = created.map Prod.fst ++ extra := by
    rw [List.map_append, List.map_map]
    exact congrArg (_ ++ ·) (List.map_id extra)
  refine ⟨hunique, fun hs => ?_, fun hs => ?_, ?_, fun item => ?_, fun he => ?_, fun he b hb => ?_,
    fun he => ?_⟩
  · rcases hold hs with hle | ⟨r, hr, rfl⟩
    · obtain ⟨hparent, -, -, hancestors⟩ := hnew hle hs
      rw [hparent, hancestors, ha]
      exact (ownedBy?_append howners hsid).symm
    · have hparent := h.parent_append howners hr
      exact hparent
  · rcases hold hs with hle | ⟨r, hr, rfl⟩
    · obtain ⟨-, hitems, hown, -⟩ := hnew hle hs
      have hne : ¬some a = some (Scope.owner _) := fun heq => hown (Option.some.inj heq ▸ hmem)
      rw [hitems, createdIn_append, h.createdIn_eq_nil hown, ha, if_neg hne]
      rfl
    · rfl
  · rw [hfst]
    exact h.once.append hextra fun item hitem hnew => hfresh item hnew ((h.mem item).1 hitem)
  · rw [hfst, List.mem_append, h.mem, hhas]
  · rcases List.mem_append.1 he with he | he
    · obtain ⟨s, hs, habove⟩ := h.above he
      exact ⟨_, h.get?_extends ha hsid hgrows hs, habove⟩
    · obtain ⟨item, hitem, heq⟩ := List.mem_map.1 he
      obtain ⟨rfl, rfl⟩ := Prod.mk.inj heq
      have hlt := (hhas _).2 (.inr hitem)
      have hs := Array.getElem?_eq_getElem hlt
      exact ⟨_, hs, (hnew (Nat.le_of_not_lt (hfresh _ hitem)) hs).2.2.2⟩
  · rw [howners]
    rcases List.mem_append.1 he with he | he
    · exact List.mem_append_left _ (h.home he b hb)
    · obtain ⟨_, _, heq⟩ := List.mem_map.1 he
      obtain ⟨-, rfl⟩ := Prod.mk.inj heq
      rw [Option.mem_def, ha, Option.some.injEq] at hb
      exact List.mem_append_left _ (hb ▸ hmem)
  · rcases List.mem_append.1 he with he | he
    · exact h.inside he
    · obtain ⟨_, _, heq⟩ := List.mem_map.1 he
      obtain ⟨-, rfl⟩ := Prod.mk.inj heq
      rw [ha]
      rfl

theorem mem_items (h : Filled t created o) {i : ScopeId} {s : Scope}
    (hs : o.scopes.get? i = some s) {item : ScopeItem} : item ∈ s.items ↔
      ∃ opened, (item, opened) ∈ created ∧ opened.find? t.ownsScope = some s.owner := by
  rw [h.items hs, createdIn, List.mem_map]
  constructor
  · rintro ⟨⟨item, opened⟩, he, rfl⟩
    obtain ⟨he, hfind⟩ := List.mem_filter.1 he
    exact ⟨opened, he, by simpa using hfind⟩
  · rintro ⟨opened, he, hfind⟩
    exact ⟨(item, opened), List.mem_filter.2 ⟨he, by simpa using hfind⟩, rfl⟩

theorem items_sublist (h : Filled t created o) {i : ScopeId} {s : Scope}
    (hs : o.scopes.get? i = some s) : s.items.Sublist (created.map Prod.fst) := by
  rw [h.items hs]
  exact List.filter_sublist.map Prod.fst

/-- An item stands in a scope once, or not at all. -/
theorem count_items (h : Filled t created o) {i : ScopeId} {s : Scope}
    (hs : o.scopes.get? i = some s) {item : ScopeItem} {p : Prop} [Decidable p]
    (hp : item ∈ s.items ↔ p) : s.items.count item = if p then 1 else 0 := by
  rw [((h.items_sublist hs).nodup h.once).count]
  exact if_congr hp rfl rfl

theorem count_scope (h : Filled t created o) {i j : ScopeId} {s r : Scope}
    (hs : o.scopes.get? i = some s) (hr : o.scopes.get? j = some r) :
    r.items.count (.scope i) = if s.parent = some j then 1 else 0 := by
  apply h.count_items hr
  rw [h.mem_items hr, h.parent hs]
  constructor
  · rintro ⟨above, he, hfind⟩
    obtain ⟨s', hs', rfl⟩ := h.above he
    obtain rfl : s = s' := Option.some.inj (hs.symm.trans hs')
    rw [hfind]
    exact ownedBy?_owner h.unique hr
  · intro hparent
    obtain ⟨a, ha, hj⟩ := Option.bind_eq_some_iff.1 hparent
    obtain ⟨r', hr', rfl⟩ := get?_of_ownedBy? hj
    obtain rfl : r = r' := Option.some.inj (hr.symm.trans hr')
    exact ⟨_, h.mem_created hs, ha⟩

theorem count_decl (h : Filled t created o) {i : DeclId} {home j : ScopeId} {s r : Scope}
    (he : (.decl i, opened) ∈ created) (hs : o.scopes.get? home = some s)
    (hfind : opened.find? t.ownsScope = some s.owner) (hr : o.scopes.get? j = some r) :
    r.items.count (.decl i) = if j = home then 1 else 0 := by
  apply h.count_items hr
  rw [h.mem_items hr]
  constructor
  · rintro ⟨opened', he', hfind'⟩
    -- The declaration has been created once, so under the same open nodes.
    obtain ⟨-, rfl⟩ := Prod.mk.inj (List.inj_on_of_nodup_map h.once he he' rfl)
    have howner : s.owner = r.owner := Option.some.inj (hfind.symm.trans hfind')
    have hj := ownedBy?_owner h.unique hr
    rw [← howner, ownedBy?_owner h.unique hs] at hj
    exact (Option.some.inj hj).symm
  · rintro rfl
    obtain rfl : s = r := Option.some.inj (hs.symm.trans hr)
    exact ⟨opened, he, hfind⟩

end Filled

/-! ## Steps of the walk -/

namespace Mirror

variable {entered openNodes : List NodeId} {created : List (ScopeItem × List NodeId)} {a : NodeId}

theorem mem_owners_iff (h : Mirror t entered openNodes created o) :
    x ∈ o.owners ↔ x ∈ entered ∧ t.ownsScope x = true := by
  rw [h.owners, List.mem_filter]

/-- The current scope is that of the innermost open node that owns one. -/
theorem head?_around (h : Mirror t entered openNodes created o)
    (ha : openNodes.find? t.ownsScope = some a) :
    ∃ sid, o.around.head? = some sid ∧ o.scopes.ownedBy? a = some sid := by
  have hhead := congrArg List.head? h.around
  rw [List.head?_map, List.head?_map, List.head?_filter, ha, Option.map_some] at hhead
  cases hsid : o.around.head? with
  | none => simp [hsid] at hhead
  | some sid =>
    rw [hsid, Option.map_some, Option.some.injEq] at hhead
    exact ⟨sid, rfl, hhead.symm⟩

/-- A node declares in the scope of the innermost open node that owns one. -/
theorem declare (h : Mirror t entered openNodes created o)
    (ha : openNodes.find? t.ownsScope = some a) {made : List (Declaration × Option NodeId)}
    (hmakes : Makes t x o made o') :
    Mirror t entered openNodes (created ++ (o.declItems made).map (·, openNodes)) o' := by
  obtain ⟨sid, hhere, hsid⟩ := h.head?_around ha
  have hgrown := grown_makes hmakes h.nested hhere
  have howners : o'.owners = o.owners := by
    obtain ⟨new, hnew, hnone⟩ := hgrown.owners
    obtain rfl : new = [] := List.eq_nil_iff_forall_not_mem.2 fun x hx => by simpa using hnone x hx
    rw [hnew, List.append_nil]
  have hsize : o'.scopes.size = o.scopes.size := by
    rw [← length_owners, howners, length_owners]
  have hdecls : o'.decls.size = o.decls.size + made.length := by simp [hmakes.decls_eq]
  have howned : o'.scopes.ownedBy? = o.scopes.ownedBy? := by
    funext y
    rw [ownedBy?_eq, ownedBy?_eq, howners]
  refine ⟨h.nodup, hgrown.nested, by rw [howners, h.owners], ?_, ?_⟩
  · rw [hgrown.around, h.around, howned]
  · have hnone : o'.owners = o.owners ++ [] := by rw [howners, List.append_nil]
    refine h.filled.grow ha hsid hgrown.grows hnone (howners ▸ h.filled.unique) ?_ ?_ ?_ ?_
    · intro i s hle hs
      have hlt := (Array.getElem?_eq_some_iff.1 hs).1
      exact absurd (hsize ▸ hlt) (Nat.not_lt.2 hle)
    · exact List.Nodup.map (fun i j heq => ScopeItem.decl.inj heq) List.nodup_range'
    · have hsplit (i : Nat) : i < o.decls.size + made.length ↔
          i < o.decls.size ∨ o.decls.size ≤ i ∧ i < o.decls.size + made.length := by omega
      intro item
      cases item with
      | decl i =>
        simp only [Has, declItems, hdecls, List.mem_map, List.mem_range'_1, ScopeItem.decl.injEq,
          exists_eq_right]
        exact hsplit i
      | scope i => simp [Has, declItems, hsize]
    · intro item hitem
      obtain ⟨i, hi, rfl⟩ := List.mem_map.1 hitem
      exact Nat.not_lt.2 (List.mem_range'_1.1 hi).1

/-- A node that owns a scope opens it in that of the innermost open node that owns one. -/
theorem openScope (h : Mirror t entered (t.ancestors x) created o) (hx : x ∉ entered)
    {kind : ScopeKind} (hkind : t.scopeKind? x = some kind)
    (ha : (t.ancestors x).find? t.ownsScope = some a) :
    Mirror t (entered ++ [x]) (x :: t.ancestors x)
      (created ++ [ScopeItem.scope o.scopes.size].map (·, t.ancestors x))
      (o.enterScope t x kind) := by
  obtain ⟨sid, hhere, hsid⟩ := h.head?_around ha
  have howns : t.ownsScope x = true := by rw [← t.isSome_scopeKind?, hkind, Option.isSome_some]
  have hfresh : x ∉ o.owners := fun hmem => hx (h.mem_owners_iff.1 hmem).1
  obtain ⟨r, hr, -⟩ := get?_of_ownedBy? hsid
  have hopened := opened_enterScope h.nested hhere ⟨r, hr⟩ hkind hfresh
  generalize ho' : o.enterScope t x kind = o' at hopened
  have hdecls : o'.decls = o.decls := by rw [← ho', enterScope_eq hhere hfresh]
  have hsize : o'.scopes.size = o.scopes.size + 1 := by
    rw [← length_owners, hopened.owners, List.length_append, length_owners]
    rfl
  have howned {y : NodeId} (hy : y ∈ o.owners) : o'.scopes.ownedBy? y = o.scopes.ownedBy? y := by
    cases hj : o.scopes.ownedBy? y with
    | none => exact absurd hy (ownedBy?_eq_none.1 hj)
    | some j => exact ownedBy?_append hopened.owners hj
  have hself : o'.scopes.ownedBy? x = some o.scopes.size := by
    rw [ownedBy?_eq, hopened.owners, List.findIdx?_append, ← ownedBy?_eq, ownedBy?_eq_none.2 hfresh]
    simp [length_owners]
  have hdisjoint : entered.Disjoint [x] := fun y hy hyx => hx (List.mem_singleton.1 hyx ▸ hy)
  have howners : o'.owners = (entered ++ [x]).filter t.ownsScope := by
    rw [hopened.owners, h.owners, List.filter_append, List.filter_singleton, howns]
    rfl
  have hnodup := h.nodup.append (List.nodup_singleton x) hdisjoint
  refine ⟨hnodup, hopened.nested, howners, ?_, ?_⟩
  · rw [hopened.around, List.map_cons, h.around, List.filter_cons_of_pos howns, List.map_cons, hself]
    congr 1
    -- The open nodes that own scopes are among the owners, so they own them still.
    refine List.map_congr_left fun y hy => (howned ?_).symm
    by_contra hnot
    have hnone := ownedBy?_eq_none.2 hnot
    have hmem := List.mem_map_of_mem (f := o.scopes.ownedBy?) hy
    rw [← h.around, hnone] at hmem
    simp at hmem
  · refine h.filled.grow ha hsid hopened.grows hopened.owners (howners ▸ hnodup.filter _) ?_
      (List.nodup_singleton _) ?_ ?_
    · intro i s hle hs
      have hlt : i < o'.scopes.size := (Array.getElem?_eq_some_iff.1 hs).1
      rw [hsize] at hlt
      obtain rfl : i = o.scopes.size := Nat.le_antisymm (Nat.le_of_lt_succ hlt) hle
      obtain rfl := Option.some.inj (hs.symm.trans hopened.new)
      exact ⟨rfl, rfl, hfresh, rfl⟩
    · intro item
      cases item with
      | decl i => simp [Has, hdecls]
      | scope i =>
        simp only [Has, hsize, List.mem_singleton, ScopeItem.scope.injEq]
        exact Nat.lt_succ_iff_lt_or_eq
    · intro item hitem
      obtain rfl := List.mem_singleton.1 hitem
      exact Nat.lt_irrefl _

/-- Leaving the last open node ends its scope, if it owns one. -/
theorem leave (h : Mirror t entered (x :: t.ancestors x) created o) (hx : x ∈ entered) :
    Mirror t entered (t.ancestors x) created (o.leave x) := by
  have haround := h.around
  cases howns : t.ownsScope x with
  | true =>
    rw [leave_eq_tail (h.mem_owners_iff.2 ⟨hx, howns⟩)]
    refine ⟨h.nodup, ⟨h.nested.parent_lt, h.nested.decl_lt, h.nested.inner, h.nested.owner⟩,
      h.owners, ?_, ⟨h.filled.unique, h.filled.parent, h.filled.items, h.filled.once, h.filled.mem,
        h.filled.above, h.filled.home, h.filled.inside⟩⟩
    rw [List.filter_cons_of_pos howns, List.map_cons] at haround
    show o.around.tail.map some = _
    rw [List.map_tail, haround, List.tail_cons]
  | false =>
    have hnot : x ∉ o.owners := fun hmem => by
      have hown := (h.mem_owners_iff.1 hmem).2
      rw [howns] at hown
      cases hown
    rw [leave_eq_self hnot]
    rw [List.filter_cons_of_neg (by simp [howns])] at haround
    exact ⟨h.nodup, h.nested, h.owners, haround, h.filled⟩

/-- Entering the root opens the first scope. -/
theorem root (h : t.Proper) :
    Mirror t [t.root] [t.root] [(.scope 0, [])] (({} : Outline).enter config t t.root) := by
  obtain ⟨block, hn⟩ := h.root
  obtain ⟨hscopes, haround, hdecls⟩ := enter_root config hn
  generalize ({} : Outline).enter config t t.root = o at *
  have howns : t.ownsScope t.root = true := by rw [SyntaxTree.ownsScope, hn]
  have howners : o.owners = [t.root] := by
    rw [Outline.owners, hscopes]
    rfl
  have hself : o.scopes.ownedBy? t.root = some 0 := by
    rw [ownedBy?_eq, howners]
    simp
  have hfilter : [t.root].filter t.ownsScope = [t.root] := by
    rw [List.filter_singleton, howns]
    rfl
  refine ⟨List.nodup_singleton _, nested_root hn hscopes, ?_, ?_, ?_⟩
  · rw [howners, hfilter]
  · rw [haround, hfilter, List.map_singleton, List.map_singleton, hself]
  · refine ⟨howners ▸ List.nodup_singleton _, fun hs => ?_, fun hs => ?_, List.nodup_singleton _,
      fun item => ?_, fun he => ?_, fun he a ha => ?_, fun he => ?_⟩
    · obtain ⟨-, rfl⟩ := get?_root hscopes hs
      rw [SyntaxTree.ancestors_root h]
      rfl
    · obtain ⟨-, rfl⟩ := get?_root hscopes hs
      rfl
    · cases item with
      | decl i => simp [Has, hdecls]
      | scope i => simp [Has, hscopes, ScopeTree.size]
    · obtain ⟨hitem, rfl⟩ := Prod.mk.inj (List.mem_singleton.1 he)
      obtain rfl := ScopeItem.scope.inj hitem
      refine ⟨_, by rw [hscopes]; rfl, SyntaxTree.ancestors_root h⟩
    · obtain ⟨-, rfl⟩ := Prod.mk.inj (List.mem_singleton.1 he)
      cases ha
    · exact absurd (Prod.mk.inj (List.mem_singleton.1 he)).1 (by simp)

/-- A node that owns no scope is entered without one. -/
theorem pass (h : Mirror t entered openNodes created o) (hx : x ∉ entered)
    (howns : t.ownsScope x = false) : Mirror t (entered ++ [x]) (x :: openNodes) created o := by
  have hdisjoint : entered.Disjoint [x] := fun y hy hyx => hx (List.mem_singleton.1 hyx ▸ hy)
  refine ⟨h.nodup.append (List.nodup_singleton x) hdisjoint, h.nested, ?_, ?_, h.filled⟩
  · rw [h.owners, List.filter_append, List.filter_singleton, howns]
    exact (List.append_nil _).symm
  · rw [h.around, List.filter_cons_of_neg (by simp [howns])]

/-- Entering a node below the root. -/
theorem enter (hm : Mirror t entered (t.ancestors x) created o) (hx : x ∉ entered)
    (ha : (t.ancestors x).find? t.ownsScope = some a) :
    Mirror t (entered ++ [x]) (x :: t.ancestors x)
      (created ++ (newScopes o (o.enter config t x)).map (·, t.ancestors x) ++
        (newDecls o (o.enter config t x)).map (·, x :: t.ancestors x)) (o.enter config t x) := by
  have hdecls {o₁ o₂ : Outline} {made : List (Declaration × Option NodeId)}
      (hmakes : Makes t x o₁ made o₂) : newDecls o₁ o₂ = o₁.declItems made := by
    have hsize : o₂.decls.size = o₁.decls.size + made.length := by simp [hmakes.decls_eq]
    rw [newDecls, declItems, hsize, Nat.add_sub_cancel_left]
  cases hkind : t.scopeKind? x with
  | none =>
    have howns : t.ownsScope x = false := by rw [← t.isSome_scopeKind?, hkind, Option.isSome_none]
    -- The declarations go to the scope around the node.
    obtain ⟨made, hmakes, -⟩ := makes_declareAt (t := t) (w := x) config o
    have hpassed := hm.pass hx howns
    have hdone := hpassed.declare (by rwa [List.find?_cons_of_neg (by simp [howns])]) hmakes
    have hscopes : newScopes o (o.declareAt config t x) = [] := by
      have hsize := congrArg List.length (hdone.owners.trans hpassed.owners.symm)
      rw [length_owners, length_owners] at hsize
      rw [newScopes, hsize, Nat.sub_self]
      rfl
    rw [enter_eq_declareAt hkind, hscopes, hdecls hmakes, List.map_nil, List.append_nil]
    exact hdone
  | some kind =>
    have howns : t.ownsScope x = true := by rw [← t.isSome_scopeKind?, hkind, Option.isSome_some]
    -- The scope goes to the one around the node, and the declarations go to the scope.
    have hopened := hm.openScope hx hkind ha
    have henter : o.enter config t x = (o.enterScope t x kind).declareAt config t x := by
      rw [Outline.enter, hkind]
    have hkept : (o.enterScope t x kind).decls = o.decls := rfl
    generalize o.enterScope t x kind = o' at hopened henter hkept
    obtain ⟨made, hmakes, -⟩ := makes_declareAt (t := t) (w := x) config o'
    have hdone := hopened.declare (List.find?_cons_of_pos howns) hmakes
    have hscopes : newScopes o (o'.declareAt config t x) = [.scope o.scopes.size] := by
      have hsize := congrArg List.length hdone.owners
      rw [List.filter_append, ← hm.owners, List.filter_singleton, howns, List.length_append,
        length_owners, length_owners] at hsize
      rw [newScopes, hsize, Nat.add_sub_cancel_left]
      rfl
    have hnew : newDecls o (o'.declareAt config t x) = o'.declItems made := by
      rw [← hdecls hmakes, newDecls, newDecls, hkept]
    rw [henter, hscopes, hnew]
    exact hdone

end Mirror

/-! ## Whole walks -/

/-- The root owns a scope, so every node below it has a nearest node above that owns one. -/
theorem exists_find?_ancestors (h : t.Proper) (hx : x ∈ t.below t.root) (hne : x ≠ t.root) :
    ∃ a, (t.ancestors x).find? t.ownsScope = some a := by
  obtain ⟨block, hn⟩ := h.root
  have howns : t.ownsScope t.root = true := by rw [SyntaxTree.ownsScope, hn]
  have hroot := SyntaxTree.root_mem_ancestors h ((SyntaxTree.mem_below h).1 hx) hne
  rw [← Option.isSome_iff_exists, List.find?_isSome]
  exact ⟨t.root, hroot, howns⟩

theorem mirror_recorded (h : t.Proper) (config : Config) :
    Mirror t (t.below t.root) [] (recorded config t).created (t.outline config) := by
  -- Before the root is entered there is nothing, afterwards the outline mirrors the walk.
  let P (entered openNodes : List NodeId) (r : Recorded) : Prop :=
    entered = [] ∧ openNodes = [] ∧ r = {} ∨
      t.root ∈ entered ∧ r.openNodes = openNodes ∧
        Mirror t entered openNodes r.created r.outline
  have henter : ∀ entered r x, x ∈ t.below t.root → x ∉ entered → P entered (t.ancestors x) r →
      P (entered ++ [x]) (x :: t.ancestors x) (r.step config t (.enter x)) := by
    intro entered r x hx hfresh hr
    by_cases hroot : x = t.root
    · subst hroot
      rcases hr with ⟨rfl, -, rfl⟩ | ⟨hmem, -⟩
      · obtain ⟨block, hn⟩ := h.root
        obtain ⟨hscopes, -, hdecls⟩ := enter_root config hn
        have hcreated : (({} : Recorded).step config t (.enter t.root)).created =
            [(.scope 0, [])] := by
          have hscopes : newScopes {} (({} : Outline).enter config t t.root) = [.scope 0] := by
            rw [newScopes, hscopes]
            rfl
          have hdecls : newDecls {} (({} : Outline).enter config t t.root) = [] := by
            rw [newDecls, hdecls]
            rfl
          simp only [Recorded.step, hscopes, hdecls]
          rfl
        have habove := SyntaxTree.ancestors_root h
        refine .inr ⟨List.mem_singleton_self _, by rw [habove]; rfl, ?_⟩
        rw [hcreated, habove]
        exact Mirror.root h
      · exact absurd hmem hfresh
    · obtain ⟨a, ha⟩ := exists_find?_ancestors h hx hroot
      rcases hr with ⟨-, habove, -⟩ | ⟨hmem, hopen, hmirror⟩
      · rw [habove] at ha
        cases ha
      · refine .inr ⟨List.mem_append_left _ hmem, by rw [← hopen]; rfl, ?_⟩
        show Mirror t _ _ (r.created ++ (newScopes r.outline (r.outline.enter config t x)).map
          (·, r.openNodes) ++ (newDecls r.outline (r.outline.enter config t x)).map
          (·, x :: r.openNodes)) (r.outline.enter config t x)
        rw [hopen]
        exact hmirror.enter hfresh ha
  have hexit : ∀ entered r x, x ∈ t.below t.root → x ∈ entered →
      P entered (x :: t.ancestors x) r → P entered (t.ancestors x) (r.step config t (.exit x)) := by
    intro entered r x _ hentered hr
    rcases hr with ⟨-, hopen, -⟩ | ⟨hmem, hopen, hmirror⟩
    · cases hopen
    · refine .inr ⟨hmem, ?_, hmirror.leave hentered⟩
      show r.openNodes.erase x = t.ancestors x
      rw [hopen, List.erase_cons_head]
  have hwalk := SyntaxTree.events_induction h henter hexit [] {} (by simp)
    (.inl ⟨rfl, SyntaxTree.ancestors_root h, rfl⟩)
  rw [List.nil_append, SyntaxTree.ancestors_root h] at hwalk
  rcases hwalk with ⟨hnil, -⟩ | ⟨-, -, hmirror⟩
  · rw [SyntaxTree.below_eq h] at hnil
    cases hnil
  · rw [← outline_recorded]
    exact hmirror

/-- The scope of the root is the first one. -/
theorem owner_eq_root_iff (h : t.Proper) {created : List (ScopeItem × List NodeId)}
    (hm : Mirror t (t.below t.root) [] created o) {i : ScopeId} {s : Scope}
    (hs : o.scopes.get? i = some s) : s.owner = t.root ↔ i = 0 := by
  obtain ⟨block, hn⟩ := h.root
  have howns : t.ownsScope t.root = true := by rw [SyntaxTree.ownsScope, hn]
  have hfirst : o.scopes.ownedBy? t.root = some 0 := by
    rw [ownedBy?_eq, hm.owners, SyntaxTree.below_eq h, List.filter_cons_of_pos howns,
      List.findIdx?_cons]
    simp
  constructor
  · intro howner
    have hi := ownedBy?_owner hm.filled.unique hs
    rw [howner, hfirst] at hi
    exact (Option.some.inj hi).symm
  · rintro rfl
    obtain ⟨r, hr, howner⟩ := get?_of_ownedBy? hfirst
    obtain rfl : s = r := Option.some.inj (hs.symm.trans hr)
    exact howner

/-- The scopes of a file are those of its nodes, one for each that owns a scope, and stand in each
other as the nodes do. Every scope but that of the root is an item of its parent once and of no
other scope, every declaration one of the scope of the innermost node that owned a scope and was
entered and not left when it was created, and items are in the order of their creation. -/
theorem scopes_mirror_syntax (config : Config) (h : t.Proper) :
    (recorded config t).outline = t.outline config ∧
    (∀ x ∈ t.below t.root, t.ownsScope x = true →
      ∃! i, ∃ s, (t.outline config).scopes.get? i = some s ∧ s.owner = x) ∧
    (∀ i s, (t.outline config).scopes.get? i = some s →
      s.owner ∈ t.below t.root ∧ t.ownsScope s.owner = true ∧
      s.parent = ((t.ancestors s.owner).find? t.ownsScope).bind (t.outline config).scopes.ownedBy? ∧
      (s.parent = none ↔ i = 0) ∧
      (∀ j r, (t.outline config).scopes.get? j = some r →
        r.items.count (.scope i) = if s.parent = some j then 1 else 0) ∧
      s.items.Sublist ((recorded config t).created.map Prod.fst)) ∧
    (∀ i < (t.outline config).decls.size, ∃ opened home s,
      (.decl i, opened) ∈ (recorded config t).created ∧
      (t.outline config).scopes.get? home = some s ∧
      opened.find? t.ownsScope = some s.owner ∧
      ∀ j r, (t.outline config).scopes.get? j = some r →
        r.items.count (.decl i) = if j = home then 1 else 0) ∧
    ((recorded config t).created.map Prod.fst).Nodup ∧
    ∀ item, item ∈ (recorded config t).created.map Prod.fst ↔ (t.outline config).Has item := by
  have hm := mirror_recorded h config
  have hfilled := hm.filled
  refine ⟨outline_recorded, fun x hx howns => ?_, fun i s hs => ?_, fun i hi => ?_, hfilled.once,
    hfilled.mem⟩
  · have hmem : x ∈ (t.outline config).owners := hm.mem_owners_iff.2 ⟨hx, howns⟩
    obtain ⟨i, hi⟩ := exists_ownedBy? hmem
    refine ⟨i, get?_of_ownedBy? hi, ?_⟩
    rintro j ⟨s, hs, rfl⟩
    exact Option.some.inj ((ownedBy?_owner hfilled.unique hs).symm.trans hi)
  · obtain ⟨hbelow, howns⟩ := hm.mem_owners_iff.1 (mem_owners hs)
    refine ⟨hbelow, howns, hfilled.parent hs, ?_, fun j r hr => hfilled.count_scope hs hr,
      hfilled.items_sublist hs⟩
    -- Only the root has nothing around it that owns a scope.
    rw [← owner_eq_root_iff h hm hs]
    constructor
    · intro hnone
      by_contra hne
      obtain ⟨a, ha⟩ := exists_find?_ancestors h hbelow hne
      obtain ⟨j, hj⟩ := exists_ownedBy? (hfilled.home (hfilled.mem_created hs) a ha)
      rw [hfilled.parent hs, ha, Option.bind_some, hj] at hnone
      cases hnone
    · intro howner
      rw [hfilled.parent hs, howner, SyntaxTree.ancestors_root h]
      rfl
  · obtain ⟨⟨item, opened⟩, he, hitem⟩ := List.mem_map.1 ((hfilled.mem (.decl i)).2 hi)
    obtain rfl : item = .decl i := hitem
    obtain ⟨a, ha⟩ := Option.isSome_iff_exists.1 (hfilled.inside he)
    obtain ⟨home, hhome⟩ := exists_ownedBy? (hfilled.home he a ha)
    obtain ⟨s, hs, rfl⟩ := get?_of_ownedBy? hhome
    exact ⟨opened, home, s, he, hs, ha, fun j r hr => hfilled.count_decl he hs ha hr⟩

/-- `for i = 1 do local x end` -/
def localInLoop : SyntaxTree :=
  .ofSketch 0 (some (.block [.numericFor "i" [.literal (.integer 1)] [.declare ["x"] []]]))

/-- The scope of the local statement stands in that of the body of the loop. -/
theorem scopes_localInLoop : localInLoop.Proper ∧
    (∃ s, (localInLoop.outline {}).scopes.get? 4 = some s ∧ s.parent = some 3 ∧
      ∀ j r, (localInLoop.outline {}).scopes.get? j = some r →
        r.items.count (.scope 4) = if some 3 = some j then 1 else 0) ∧
    ∃ opened home s, (.decl 1, opened) ∈ (recorded {} localInLoop).created ∧
      (localInLoop.outline {}).scopes.get? home = some s ∧
      opened.find? localInLoop.ownsScope = some s.owner := by
  have h : localInLoop.Proper := SyntaxTree.proper_ofSketch 0 _ (by decide)
  obtain ⟨-, -, hscopes, hdecls, -⟩ := scopes_mirror_syntax {} h
  have hfound : ((localInLoop.outline {}).scopes.get? 4).map (·.parent) = some (some 3) := by
    decide +kernel
  obtain ⟨s, hs, hparent⟩ := Option.map_eq_some_iff.1 hfound
  obtain ⟨-, -, -, -, hcount, -⟩ := hscopes 4 s hs
  obtain ⟨opened, home, r, hcreated, hr, hhome, -⟩ := hdecls 1 (by decide +kernel)
  exact ⟨h, ⟨s, hs, hparent, fun j r hr => hparent ▸ hcount j r hr⟩, opened, home, r, hcreated, hr,
    hhome⟩

end Outline

end LuaAnalysis
