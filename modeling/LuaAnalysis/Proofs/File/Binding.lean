import LuaAnalysis.Proofs.File.Environment
import LuaAnalysis.Proofs.File.ScopeGrowth

/-!
# What a scope shows against what is in scope

`Outline.Sees` says that a scope shows, from a position on outwards, what an environment binds: for a
bound name the declaration of the node that binds it, for any other name nothing but a global.
`Outline.Adds` says the same of items put into a scope.
-/

namespace LuaAnalysis.Outline

variable {t : SyntaxTree} {o o' : Outline} {sid : ScopeId} {extra : List ScopeItem}
  {position : Nat} {env : Env}

/-- Whether a declaration is found for the node that binds a name, and else none but a global. -/
def Matches (o : Outline) : Option NodeId → Option DeclId → Prop
  | some b, some d => ∃ decl, o.decls[d]? = some decl ∧ decl.node = b
  | some _, none => False
  | none, some d => ∃ decl, o.decls[d]? = some decl ∧ decl.kind.isGlobal = true
  | none, none => True

def Sees (t : SyntaxTree) (o : Outline) (sid : ScopeId) (position : Nat) (env : Env) : Prop :=
  ∀ name, o.Matches (t.binding? env name) (o.look sid position name)

/-- What some items of a scope give by themselves. -/
def gives (o : Outline) (position : Nat) (name : String) (items : List ScopeItem) : Option DeclId :=
  o.lastItem? (o.scopes.shownByEnded? o.decls name position) position name items

/-- Whether some items show the names in `new`, and globals only for names that are not in scope. -/
def Adds (t : SyntaxTree) (o : Outline) (position : Nat) (env new : Env)
    (items : List ScopeItem) : Prop :=
  ∀ name, o.Matches (t.binding? new name) (o.gives position name items) ∧
    ((o.gives position name items).isSome = true → t.binding? new name = none →
      t.binding? env name = none)

theorem Matches.extends {bound : Option NodeId} {found : Option DeclId}
    (h : o.Matches bound found) (hgrows : Extends o o' sid extra) : o'.Matches bound found := by
  cases bound with
  | none =>
    cases found with
    | none => trivial
    | some d =>
      obtain ⟨decl, hd, hkind⟩ := h
      exact ⟨decl, hgrows.decls hd, hkind⟩
  | some b =>
    cases found with
    | none => exact h
    | some d =>
      obtain ⟨decl, hd, hnode⟩ := h
      exact ⟨decl, hgrows.decls hd, hnode⟩

theorem binding?_append (env new : Env) (name : String) :
    t.binding? (new ++ env) name = (t.binding? new name).or (t.binding? env name) :=
  List.find?_append

theorem Matches.or {bound new : Option NodeId} {found own : Option DeclId}
    (hown : o.Matches new own) (h : o.Matches bound found)
    (hglobal : own.isSome = true → new = none → bound = none) :
    o.Matches (new.or bound) (own.or found) := by
  cases own with
  | none =>
    cases new with
    | none => exact h
    | some b => exact hown.elim
  | some d =>
    cases new with
    | none =>
      rw [hglobal rfl rfl]
      exact hown
    | some b => exact hown

theorem adds_of_hidden {kind : ScopeKind} (h : ∀ x ∈ extra, o.Hidden kind position x) (env : Env) :
    Adds t o position env [] extra := by
  intro name
  have hnone : o.gives position name extra = none := by
    refine lastItem?_eq_none (fun i hi => h _ hi) fun j hj => ?_
    exact shownByEnded?_eq_none (h _ hj)
  rw [hnone]
  exact ⟨trivial, fun h => by cases h⟩

theorem Adds.append {new new' : Env} {extra' : List ScopeItem}
    (h : Adds t o position env new extra) (h' : Adds t o position (new ++ env) new' extra') :
    Adds t o position env (new' ++ new) (extra ++ extra') := by
  intro name
  have hgives : o.gives position name (extra ++ extra') =
      (o.gives position name extra').or (o.gives position name extra) :=
    lastItem?_append _ _ _
  obtain ⟨hmatch, hglobal⟩ := h name
  obtain ⟨hmatch', hglobal'⟩ := h' name
  rw [binding?_append] at hglobal'
  rw [hgives, binding?_append]
  refine ⟨hmatch'.or hmatch fun hsome hnew => ?_, fun hsome hnew => ?_⟩
  · exact (Option.or_eq_none_iff.1 (hglobal' hsome hnew)).1
  · obtain ⟨hnew', hnew⟩ := Option.or_eq_none_iff.1 hnew
    cases hown : o.gives position name extra' with
    | some d => exact (Option.or_eq_none_iff.1 (hglobal' (by simp [hown]) hnew')).2
    | none =>
      rw [hown, Option.none_or] at hsome
      exact hglobal hsome hnew

/-- A block that grows shows what is added in front of what it showed before. -/
theorem Sees.block {new : Env} (h : Sees t o sid position env) (wf : Nested t o)
    (wf' : Nested t o') (hgrows : Extends o o' sid extra) (hblock : IsBlock o sid)
    (hadds : Adds t o' position env new extra) : Sees t o' sid position (new ++ env) := by
  intro name
  obtain ⟨hmatch, hglobal⟩ := hadds name
  rw [look_block wf wf' hgrows hblock, binding?_append]
  exact hmatch.or ((h name).extends hgrows) hglobal

/-- Hidden items leave what a scope shows as it was. -/
theorem Sees.hidden {s : Scope} {i : ScopeId} {r : Scope} (h : Sees t o i position env)
    (wf : Nested t o) (wf' : Nested t o') (hgrows : Extends o o' sid extra)
    (hs : o.scopes.get? sid = some s) (hhidden : ∀ x ∈ extra, o'.Hidden s.kind position x)
    (hr : o.scopes.get? i = some r) : Sees t o' i position env := by
  intro name
  rw [look_of_hidden wf wf' hgrows hs hhidden hr]
  exact (h name).extends hgrows

/-! ## The declarations of a node -/

/-- Declarations that are no values, or stand behind a position, are hidden from it. -/
theorem hidden_declItems {w : NodeId} {made : List (Declaration × Option NodeId)}
    (h : Makes t w o made o') (kind : ScopeKind)
    (hmade : ∀ e ∈ made, e.1.kind.isValue = true → position ≤ e.1.position) :
    ∀ x ∈ o.declItems made, o'.Hidden kind position x := by
  intro x hx
  obtain ⟨i, hi, rfl⟩ := List.mem_map.1 hx
  obtain ⟨j, hj, rfl⟩ := List.mem_range'.1 hi
  intro d hd hvalue
  rw [h.decls_eq, Nat.one_mul, Array.getElem?_append_right (Nat.le_add_right _ _),
    Nat.add_sub_cancel_left, List.getElem?_toArray, List.getElem?_map] at hd
  obtain ⟨e, he, rfl⟩ := Option.map_eq_some_iff.1 hd
  exact hmade e (List.mem_of_getElem? he) hvalue

/-- Whether a use of a name at a position sees a declaration. -/
def isSeen (o : Outline) (position : Nat) (name : String) (id : DeclId) : Bool :=
  o.decls[id]?.any (ScopeTree.sees name position)

/-- The nodes of the value declarations among some. -/
def valueNodes (made : List (Declaration × Option NodeId)) : List NodeId :=
  (made.filter fun e => e.1.kind.isValue).map (·.1.node)

/-- The value declarations among some show their nodes from behind them, and nothing else. -/
theorem matches_find (name : String) {ids : List DeclId}
    {made : List (Declaration × Option NodeId)}
    (h : List.Forall₂ (fun i e => o.decls[i]? = some e.1) ids made)
    (hvalue : ∀ e ∈ made, e.1.kind.isValue = true →
      e.1.name = t.nameText e.1.node ∧ e.1.position < position) :
    o.Matches (t.binding? (valueNodes made) name) (ids.find? (o.isSeen position name)) ∧
      ((ids.find? (o.isSeen position name)).isSome = true →
        (t.binding? (valueNodes made) name).isSome = true) := by
  induction h with
  | nil => exact ⟨trivial, fun h => h⟩
  | @cons i e ids made hd _ ih =>
    have hrest := ih fun e he => hvalue e (List.mem_cons_of_mem _ he)
    cases hkind : e.1.kind.isValue with
    | false =>
      have hnot : ¬ o.isSeen position name i = true := by
        simp [isSeen, hd, ScopeTree.sees, hkind]
      rw [valueNodes, List.filter_cons_of_neg (by simp [hkind]), List.find?_cons_of_neg hnot]
      exact hrest
    | true =>
      obtain ⟨hname, hposition⟩ := hvalue e List.mem_cons_self hkind
      rw [valueNodes, List.filter_cons_of_pos (by simp [hkind]), List.map_cons, SyntaxTree.binding?]
      by_cases heq : e.1.name = name
      · have hseen : o.isSeen position name i = true := by
          simp [isSeen, hd, ScopeTree.sees, hkind, heq, hposition]
        rw [List.find?_cons_of_pos (by simp [← hname, heq]), List.find?_cons_of_pos hseen]
        exact ⟨⟨e.1, hd, rfl⟩, fun _ => rfl⟩
      · have hnot : ¬ o.isSeen position name i = true := by
          simp [isSeen, hd, ScopeTree.sees, heq]
        rw [List.find?_cons_of_neg (by simp [← hname, heq]), List.find?_cons_of_neg hnot]
        exact hrest

theorem forall₂_range' {decls : Array Declaration} {made : List (Declaration × Option NodeId)}
    {n : Nat} (h : ∀ j e, made[j]? = some e → decls[n + j]? = some e.1) :
    List.Forall₂ (fun i e => decls[i]? = some e.1) (List.range' n made.length) made := by
  induction made generalizing n with
  | nil => exact .nil
  | cons e made ih =>
    rw [List.length_cons, List.range'_succ]
    refine .cons (h 0 e rfl) (ih fun j e' he' => ?_)
    have hshift := h (j + 1) e' he'
    rwa [Nat.add_right_comm]

/-- Whether declarations that were made after `o` are there. -/
def Holds (o o' : Outline) (made : List (Declaration × Option NodeId)) : Prop :=
  ∀ j e, made[j]? = some e → o'.decls[o.decls.size + j]? = some e.1

theorem Makes.holds {w : NodeId} {made : List (Declaration × Option NodeId)}
    (h : Makes t w o made o') : Holds o o' made := by
  intro j e he
  rw [h.decls_eq, Array.getElem?_append_right (Nat.le_add_right _ _), Nat.add_sub_cancel_left,
    List.getElem?_toArray, List.getElem?_map, he]
  rfl

theorem Holds.extends {o'' : Outline} {made : List (Declaration × Option NodeId)}
    (h : Holds o o' made) (hgrows : Extends o' o'' sid extra) : Holds o o'' made :=
  fun j e he => hgrows.decls (h j e he)

theorem lastItem?_decls (shown? : ScopeId → Option DeclId) (name : String) (ids : List DeclId) :
    o.lastItem? shown? position name (ids.map .decl) =
      ids.reverse.find? (o.isSeen position name) := by
  rw [lastItem?, ← List.map_reverse, List.findSome?_map]
  induction ids.reverse with
  | nil => rfl
  | cons id ids ih =>
    have hone : ScopeTree.lastSeen? o.decls name position [id] =
        if o.isSeen position name id then some id else none := by
      by_cases h : o.isSeen position name id = true
      · rw [if_pos h]
        exact List.find?_cons_of_pos h
      · rw [if_neg h]
        exact List.find?_cons_of_neg h
    rw [List.findSome?_cons, List.find?_cons, Function.comp, ih]
    dsimp only
    rw [hone]
    cases o.isSeen position name id <;> rfl

/-- The declarations that a node makes of its own names show them from behind. -/
theorem matches_declItems {made : List (Declaration × Option NodeId)} (h : Holds o o' made)
    (hvalue : ∀ e ∈ made, e.1.kind.isValue = true →
      e.1.name = t.nameText e.1.node ∧ e.1.position < position)
    (shown? : ScopeId → Option DeclId) (name : String) :
    o'.Matches (t.binding? (valueNodes made).reverse name)
        (o'.lastItem? shown? position name (o.declItems made)) ∧
      ((o'.lastItem? shown? position name (o.declItems made)).isSome = true →
        (t.binding? (valueNodes made).reverse name).isSome = true) := by
  have hall := forall₂_range' h
  have hfind := matches_find name (List.forall₂_reverse_iff.2 hall) fun e he =>
    hvalue e (List.mem_reverse.1 he)
  have hnodes : valueNodes made.reverse = (valueNodes made).reverse := by
    rw [valueNodes, valueNodes, List.filter_reverse, List.map_reverse]
  rw [declItems, lastItem?_decls, ← hnodes]
  exact hfind

/-- New globals, whose names are not in scope, show nothing that is bound. -/
theorem adds_globals {made : List (Declaration × Option NodeId)} (h : Holds o o' made)
    (hglobal : ∀ e ∈ made, e.1.kind.isValue = true →
      e.1.kind.isGlobal = true ∧ t.binding? env e.1.name = none) (position : Nat) :
    Adds t o' position env [] (o.declItems made) := by
  intro name
  unfold gives
  rw [declItems, lastItem?_decls]
  cases hfound : (List.range' o.decls.size made.length).reverse.find? (o'.isSeen position name) with
  | none => exact ⟨trivial, fun h => by cases h⟩
  | some i =>
    -- What is found is one of the values that were made, so it is a global of this name.
    have hseen := List.find?_some hfound
    have hmem := List.mem_reverse.1 (List.mem_of_find?_eq_some hfound)
    obtain ⟨j, hj, rfl⟩ := List.mem_range'.1 hmem
    rw [Nat.one_mul] at hseen ⊢
    have hmade : made[j]? = some made[j] := List.getElem?_eq_getElem hj
    have hdecl := h j _ hmade
    simp only [isSeen, hdecl, Option.any_some, ScopeTree.sees, Bool.and_eq_true, beq_iff_eq,
      decide_eq_true_eq] at hseen
    obtain ⟨⟨hvalue, hname⟩, -⟩ := hseen
    obtain ⟨hkind, hfree⟩ := hglobal _ (List.mem_of_getElem? hmade) hvalue
    exact ⟨⟨_, hdecl, hkind⟩, fun _ _ => hname ▸ hfree⟩

/-- A node that defines no type makes its named declarations for values. -/
theorem valueNodes_eq {w : NodeId} {made : List (Declaration × Option NodeId)}
    (h : ∀ e ∈ made, Declares t w e.1 e.2) (hw : t.isDefinition w = false) :
    valueNodes made = namedNodes made := by
  unfold valueNodes namedNodes
  congr 1
  apply List.filter_congr
  intro e he
  cases hvalue : e.1.kind.isValue with
  | true => rw [DeclKind.isNamed_of_isValue hvalue]
  | false =>
    cases hnamed : e.1.kind.isNamed with
    | false => rfl
    | true =>
      rw [(h e he).definition hnamed hvalue] at hw
      cases hw

/-- The values that a node declares have the names of its own parts. -/
theorem names_of_declares {w : NodeId} {made : List (Declaration × Option NodeId)}
    (h : ∀ e ∈ made, Declares t w e.1 e.2) (hassigns : t.assigns w = false)
    (hbefore : ∀ x ∈ t.namesAt w, (t.span x).start < position) :
    ∀ e ∈ made, e.1.kind.isValue = true →
      e.1.name = t.nameText e.1.node ∧ e.1.position < position := by
  intro e he hvalue
  obtain ⟨hnode, -, hloc⟩ := (h e he).named (DeclKind.isNamed_of_isValue hvalue)
  refine ⟨(h e he).name_eq hvalue hassigns, ?_⟩
  rw [Declaration.position, hloc]
  exact hbefore _ hnode

end LuaAnalysis.Outline
