import LuaAnalysis.Proofs.File.Declares
import LuaAnalysis.Proofs.File.ScopeLookup

/-!
# How the steps of an analysis make scopes grow

Declaring puts one item into the current scope, entering a node with a scope puts that scope into
it, and leaving changes neither scopes nor declarations. `Outline.Grown` says what some steps come to
that begin and end in one scope.
-/

namespace LuaAnalysis.Outline

variable {t : SyntaxTree} {o o' o'' : Outline} {sid : ScopeId} {extra extra' : List ScopeItem}
  {nodes nodes' : List NodeId}

/-- The nodes that have scopes, in the order of the scopes. -/
def owners (o : Outline) : List NodeId :=
  o.scopes.scopes.toList.map (·.owner)

theorem ownedBy?_eq (o : Outline) (id : NodeId) :
    o.scopes.ownedBy? id = o.owners.findIdx? (· == id) := by
  rw [ScopeTree.ownedBy?, owners, List.findIdx?_map]
  rfl

theorem ownedBy?_eq_none {id : NodeId} : o.scopes.ownedBy? id = none ↔ id ∉ o.owners := by
  rw [ownedBy?_eq, List.findIdx?_eq_none_iff]
  constructor
  · intro h hid
    simpa using h id hid
  · intro h x hx
    have hne : x ≠ id := by
      rintro rfl
      exact h hx
    simpa using hne

theorem ownedBy?_append {new : List NodeId} (h : o'.owners = o.owners ++ new) {id : NodeId}
    {i : ScopeId} (hi : o.scopes.ownedBy? id = some i) : o'.scopes.ownedBy? id = some i := by
  rw [ownedBy?_eq] at hi ⊢
  rw [h, List.findIdx?_append, hi]
  rfl

/-! ## Declaring -/

theorem get?_addItem (scopes : ScopeTree) (id i : ScopeId) (x : ScopeItem) :
    (scopes.addItem id x).get? i =
      (scopes.get? i).map fun s => if i = id then { s with items := s.items ++ [x] } else s := by
  rw [ScopeTree.addItem, ScopeTree.get?, ScopeTree.get?, Array.getElem?_modify]
  by_cases hi : i = id
  · subst hi
    simp
  · cases hs : scopes.scopes[i]? <;> simp [hi, Ne.symm hi]

theorem owners_addItem (o : Outline) (id : ScopeId) (x : ScopeItem) :
    { o with scopes := o.scopes.addItem id x }.owners = o.owners := by
  apply List.ext_getElem?
  intro i
  have h := get?_addItem o.scopes id i x
  simp only [ScopeTree.get?] at h
  simp only [owners, List.getElem?_map, Array.getElem?_toList, h, Option.map_map]
  congr 1
  funext s
  simp only [Function.comp]
  split <;> rfl

theorem currentScope?_eq (hhere : o.around.head? = some sid) : o.currentScope? = some sid := by
  unfold currentScope?
  split
  · next id _ h =>
    rw [h] at hhere
    exact hhere
  · next h =>
    rw [h] at hhere
    cases hhere

theorem scopes_declare (hhere : o.around.head? = some sid) (d : Declaration)
    (token : Option NodeId) :
    (o.declare d token).scopes = o.scopes.addItem sid (.decl o.decls.size) := by
  simp [declare, currentScope?_eq hhere]

theorem extends_declare (hhere : o.around.head? = some sid) (d : Declaration)
    (token : Option NodeId) : Extends o (o.declare d token) sid [.decl o.decls.size] := by
  have hscopes := scopes_declare hhere d token
  refine ⟨fun {i d'} hd => ?_, fun {i s} hi hs => ?_, fun {s} hs => ?_⟩
  · have hlt := (Array.getElem?_eq_some_iff.1 hd).1
    rw [declare, Array.getElem?_push, if_neg (Nat.ne_of_lt hlt), hd]
  · rw [hscopes, get?_addItem, hs, Option.map_some, if_neg hi]
  · rw [hscopes, get?_addItem, hs, Option.map_some, if_pos rfl]

theorem nested_declare (wf : Nested t o) (hhere : o.around.head? = some sid) (d : Declaration)
    (token : Option NodeId) : Nested t (o.declare d token) := by
  have hscopes := scopes_declare hhere d token
  have hsize : (o.declare d token).decls.size = o.decls.size + 1 := by simp [declare]
  -- A scope is what it was, with one more item if it is the current one.
  have hold {i : ScopeId} {s : Scope} (hs : (o.declare d token).scopes.get? i = some s) :
      ∃ r, o.scopes.get? i = some r ∧ s.kind = r.kind ∧ s.owner = r.owner ∧ s.span = r.span ∧
        s.parent = r.parent ∧ ∀ x ∈ s.items, x ∈ r.items ∨ x = .decl o.decls.size := by
    rw [hscopes, get?_addItem] at hs
    obtain ⟨r, hr, rfl⟩ := Option.map_eq_some_iff.1 hs
    refine ⟨r, hr, ?_⟩
    split
    · simp
    · exact ⟨rfl, rfl, rfl, rfl, fun x hx => .inl hx⟩
  refine ⟨fun hs hp => ?_, fun {i s d'} hs hd => ?_, fun {i j s} hs hj => ?_, fun hs => ?_⟩
  · obtain ⟨r, hr, -, -, -, hparent, -⟩ := hold hs
    exact wf.parent_lt hr (by rw [← hparent, hp])
  · obtain ⟨r, hr, -, -, -, -, hitems⟩ := hold hs
    rw [hsize]
    rcases hitems _ hd with hd | hd
    · exact Nat.lt_succ_of_lt (wf.decl_lt hr hd)
    · obtain rfl : d' = o.decls.size := by simpa using hd
      exact Nat.lt_succ_self _
  · obtain ⟨r, hr, -, -, -, -, hitems⟩ := hold hs
    rcases hitems _ hj with hj | hj
    · obtain ⟨q, hq, hparent⟩ := wf.inner hr hj
      have hq' : (o.declare d token).scopes.get? j =
          some (if j = sid then { q with items := q.items ++ [.decl o.decls.size] } else q) := by
        rw [hscopes, get?_addItem, hq, Option.map_some]
      refine ⟨_, hq', ?_⟩
      split <;> exact hparent
    · cases hj
  · obtain ⟨r, hr, hkind, howner, hspan, -, -⟩ := hold hs
    rw [hkind, howner, hspan]
    exact wf.owner hr

/-! ## Growing -/

/-- `o'` comes from `o` by steps that begin and end in the scope `sid`; the scopes they make belong to
some nodes. -/
structure Grown (t : SyntaxTree) (nodes : List NodeId) (sid : ScopeId) (extra : List ScopeItem)
    (o o' : Outline) : Prop where
  grows : Extends o o' sid extra
  nested : Nested t o'
  around : o'.around = o.around
  owners : ∃ new, o'.owners = o.owners ++ new ∧ ∀ x ∈ new, x ∈ nodes

theorem Grown.refl (wf : Nested t o) (nodes : List NodeId) (sid : ScopeId) :
    Grown t nodes sid [] o o :=
  ⟨.refl o sid, wf, rfl, [], by simp, by simp⟩

theorem Grown.trans (h : Grown t nodes sid extra o o') (h' : Grown t nodes' sid extra' o' o'') :
    Grown t (nodes ++ nodes') sid (extra ++ extra') o o'' := by
  obtain ⟨new, hnew, hmem⟩ := h.owners
  obtain ⟨new', hnew', hmem'⟩ := h'.owners
  refine ⟨h.grows.trans h'.grows, h'.nested, h'.around.trans h.around, new ++ new', ?_, ?_⟩
  · rw [hnew', hnew, List.append_assoc]
  · intro x hx
    rcases List.mem_append.1 hx with hx | hx
    · exact List.mem_append_left _ (hmem x hx)
    · exact List.mem_append_right _ (hmem' x hx)

/-- Growth is a matter of the declarations and the scopes. -/
theorem Grown.of_eq (h : Grown t nodes sid extra o o') (hdecls : o''.decls = o'.decls)
    (hscopes : o''.scopes = o'.scopes) (haround : o''.around = o'.around) :
    Grown t nodes sid extra o o'' := by
  obtain ⟨new, hnew, hmem⟩ := h.owners
  refine ⟨⟨?_, ?_, ?_⟩, ⟨?_, ?_, ?_, ?_⟩, ?_, new, ?_, hmem⟩
  · rw [hdecls]
    exact h.grows.decls
  · rw [hscopes]
    exact h.grows.other
  · rw [hscopes]
    exact h.grows.here
  · rw [hscopes]
    exact h.nested.parent_lt
  · rw [hscopes, hdecls]
    exact h.nested.decl_lt
  · rw [hscopes]
    exact h.nested.inner
  · rw [hscopes]
    exact h.nested.owner
  · rw [haround, h.around]
  · rw [← hnew, Outline.owners, Outline.owners, hscopes]

theorem Grown.mono (h : Grown t nodes sid extra o o') (hsub : ∀ x ∈ nodes, x ∈ nodes') :
    Grown t nodes' sid extra o o' := by
  obtain ⟨new, hnew, hmem⟩ := h.owners
  exact ⟨h.grows, h.nested, h.around, new, hnew, fun x hx => hsub x (hmem x hx)⟩

/-- The items of the declarations that a node makes. -/
def declItems (o : Outline) (made : List (Declaration × Option NodeId)) : List ScopeItem :=
  (List.range' o.decls.size made.length).map .decl

theorem declItems_append (o : Outline) (made made' : List (Declaration × Option NodeId)) :
    o.declItems (made ++ made') = o.declItems made ++
      (List.range' (o.decls.size + made.length) made'.length).map .decl := by
  rw [declItems, declItems, List.length_append, ← List.range'_append_1, List.map_append]

theorem grown_makes {w : NodeId} {made : List (Declaration × Option NodeId)}
    (h : Makes t w o made o') (wf : Nested t o) (hhere : o.around.head? = some sid) :
    Grown t [] sid (o.declItems made) o o' := by
  induction h with
  | nothing => exact .refl wf [] sid
  | @declare made o' d token h hd ih =>
    have hhere' : o'.around.head? = some sid := by rw [ih.around, hhere]
    have howners : (o'.declare d token).owners = o'.owners := by
      have h := owners_addItem o' sid (.decl o'.decls.size)
      rw [owners, scopes_declare hhere']
      exact h
    have hstep : Grown t [] sid [.decl o'.decls.size] o' (o'.declare d token) :=
      ⟨extends_declare hhere' d token, nested_declare ih.nested hhere' d token, rfl, [],
        by rw [howners, List.append_nil], by simp⟩
    have hsize : o'.decls.size = o.decls.size + made.length := by simp [h.decls_eq]
    rw [declItems_append, ← hsize]
    exact ih.trans hstep
  | record _ _ ih => exact ih.of_eq rfl rfl rfl
  | schedule _ _ ih => exact ih.of_eq rfl rfl rfl
  | method _ _ ih => exact ih.of_eq rfl rfl rfl

/-! ## Entering and leaving -/

theorem enterScope_eq {id : NodeId} {kind : ScopeKind} (hhere : o.around.head? = some sid)
    (hfresh : id ∉ o.owners) : o.enterScope t id kind =
      { o with
        scopes := ScopeTree.addItem
          ⟨o.scopes.scopes.push { kind, owner := id, span := t.span id, parent := some sid }⟩ sid
          (.scope o.scopes.size)
        around := o.scopes.size :: o.around } := by
  simp only [enterScope, ScopeTree.opened, ownedBy?_eq_none.2 hfresh, currentScope?_eq hhere]

/-- A scope that is opened stands in the current one and has no items yet. -/
structure Opened (t : SyntaxTree) (id : NodeId) (kind : ScopeKind) (sid : ScopeId)
    (o o' : Outline) : Prop where
  grows : Extends o o' sid [.scope o.scopes.size]
  nested : Nested t o'
  around : o'.around = o.scopes.size :: o.around
  owners : o'.owners = o.owners ++ [id]
  new : o'.scopes.get? o.scopes.size =
    some { kind, owner := id, span := t.span id, parent := some sid }

theorem opened_enterScope {id : NodeId} {kind : ScopeKind} (wf : Nested t o)
    (hhere : o.around.head? = some sid) (hsid : ∃ s, o.scopes.get? sid = some s)
    (hkind : t.scopeKind? id = some kind) (hfresh : id ∉ o.owners) :
    Opened t id kind sid o (o.enterScope t id kind) := by
  let pushed : ScopeTree :=
    ⟨o.scopes.scopes.push { kind, owner := id, span := t.span id, parent := some sid }⟩
  obtain ⟨s₀, hs₀⟩ := hsid
  have hlt {i : ScopeId} {s : Scope} (hs : o.scopes.get? i = some s) : i < o.scopes.size :=
    (Array.getElem?_eq_some_iff.1 hs).1
  have hpushed (i : ScopeId) : pushed.get? i = if i = o.scopes.size then
      some { kind, owner := id, span := t.span id, parent := some sid } else o.scopes.get? i := by
    show (o.scopes.scopes.push _)[i]? = _
    rw [Array.getElem?_push]
    rfl
  have hget (i : ScopeId) : (o.enterScope t id kind).scopes.get? i =
      (pushed.get? i).map fun s =>
        if i = sid then { s with items := s.items ++ [.scope o.scopes.size] } else s := by
    rw [enterScope_eq hhere hfresh]
    exact get?_addItem pushed sid i _
  have hdecls : (o.enterScope t id kind).decls = o.decls := by rw [enterScope_eq hhere hfresh]
  have hne : sid ≠ o.scopes.size := Nat.ne_of_lt (hlt hs₀)
  have hnew : (o.enterScope t id kind).scopes.get? o.scopes.size =
      some { kind, owner := id, span := t.span id, parent := some sid } := by
    rw [hget, hpushed, if_pos rfl, Option.map_some, if_neg (Ne.symm hne)]
  have hother {i : ScopeId} {s : Scope} (hs : o.scopes.get? i = some s) :
      (o.enterScope t id kind).scopes.get? i =
        some (if i = sid then { s with items := s.items ++ [.scope o.scopes.size] } else s) := by
    rw [hget, hpushed, if_neg (Nat.ne_of_lt (hlt hs)), hs, Option.map_some]
  -- A scope is the new one or what it was, with one more item if it is the current one.
  have hold {i : ScopeId} {s : Scope} (hs : (o.enterScope t id kind).scopes.get? i = some s) :
      (i = o.scopes.size ∧ s = { kind, owner := id, span := t.span id, parent := some sid }) ∨
        ∃ r, o.scopes.get? i = some r ∧
          s = if i = sid then { r with items := r.items ++ [.scope o.scopes.size] } else r := by
    by_cases hi : i = o.scopes.size
    · subst hi
      rw [hnew, Option.some.injEq] at hs
      exact .inl ⟨rfl, hs.symm⟩
    · rw [hget, hpushed, if_neg hi] at hs
      obtain ⟨r, hr, hs⟩ := Option.map_eq_some_iff.1 hs
      exact .inr ⟨r, hr, hs.symm⟩
  refine ⟨⟨fun hd => by rwa [hdecls], fun hi hs => ?_, fun hs => ?_⟩,
    ⟨fun hs hp => ?_, fun hs hd => ?_, fun {i j s} hs hj => ?_, fun hs => ?_⟩, ?_, ?_, hnew⟩
  · rw [hother hs, if_neg hi]
  · rw [hother hs, if_pos rfl]
  · obtain ⟨rfl, rfl⟩ | ⟨r, hr, rfl⟩ := hold hs
    · obtain rfl := Option.some.inj hp
      exact hlt hs₀
    · refine wf.parent_lt hr ?_
      split at hp <;> exact hp
  · rw [hdecls]
    obtain ⟨rfl, rfl⟩ | ⟨r, hr, rfl⟩ := hold hs
    · simp at hd
    · refine wf.decl_lt hr ?_
      split at hd
      · simpa using hd
      · exact hd
  · obtain ⟨rfl, rfl⟩ | ⟨r, hr, rfl⟩ := hold hs
    · simp at hj
    · have hcases : .scope j ∈ r.items ∨ i = sid ∧ j = o.scopes.size := by
        split at hj
        · next hi =>
          rcases List.mem_append.1 hj with hj | hj
          · exact .inl hj
          · exact .inr ⟨hi, by simpa using hj⟩
        · exact .inl hj
      rcases hcases with hj | ⟨rfl, rfl⟩
      · obtain ⟨q, hq, hparent⟩ := wf.inner hr hj
        refine ⟨_, hother hq, ?_⟩
        split <;> exact hparent
      · exact ⟨_, hnew, rfl⟩
  · obtain ⟨rfl, rfl⟩ | ⟨r, hr, rfl⟩ := hold hs
    · exact ⟨hkind, rfl⟩
    · obtain ⟨hk, hspan⟩ := wf.owner hr
      split
      · exact ⟨hk, hspan⟩
      · exact ⟨hk, hspan⟩
  · rw [enterScope_eq hhere hfresh]
  · rw [enterScope_eq hhere hfresh]
    have howners := owners_addItem { o with scopes := pushed } sid (.scope o.scopes.size)
    refine Eq.trans howners ?_
    simp [owners, pushed]

theorem leave_eq_self {id : NodeId} (h : id ∉ o.owners) : o.leave id = o := by
  rw [leave, ownedBy?_eq_none.2 h]
  rfl

theorem leave_eq_tail {id : NodeId} (h : id ∈ o.owners) :
    o.leave id = { o with around := o.around.tail } := by
  have hsome : (o.scopes.ownedBy? id).isSome = true := by
    rw [Option.isSome_iff_ne_none]
    exact fun hnone => ownedBy?_eq_none.1 hnone h
  rw [leave, if_pos hsome]

end LuaAnalysis.Outline
