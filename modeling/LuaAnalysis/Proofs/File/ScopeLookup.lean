import LuaAnalysis.File.Build
import Mathlib.Data.List.Find

/-!
# Looking names up while scopes grow

Analysing a part of a file puts items behind those of one scope and makes new scopes
(`Outline.Extends`). An item is hidden from a position if no look-up from there sees it, and hidden
items leave every look-up from there as it was (`look_of_hidden`). In a block the new items are
looked at before all others (`look_block`).
-/

namespace LuaAnalysis.Outline

variable {t : SyntaxTree} {o o' o'' : Outline} {sid : ScopeId} {extra : List ScopeItem}
  {position : Nat} {name : String}

/-- Whether scopes stand after the scope around them and list what there is. -/
structure Nested (t : SyntaxTree) (o : Outline) : Prop where
  parent_lt : ∀ {i p : ScopeId} {s : Scope}, o.scopes.get? i = some s → s.parent = some p → p < i
  decl_lt : ∀ {i : ScopeId} {s : Scope} {d : DeclId}, o.scopes.get? i = some s →
    .decl d ∈ s.items → d < o.decls.size
  inner : ∀ {i j : ScopeId} {s : Scope}, o.scopes.get? i = some s → .scope j ∈ s.items →
    ∃ s', o.scopes.get? j = some s' ∧ s'.parent = some i
  owner : ∀ {i : ScopeId} {s : Scope}, o.scopes.get? i = some s →
    t.scopeKind? s.owner = some s.kind ∧ s.span = t.span s.owner

/-- `o'` comes from `o` by putting items into one scope, and by making declarations and scopes. -/
structure Extends (o o' : Outline) (sid : ScopeId) (extra : List ScopeItem) : Prop where
  decls : ∀ {i : DeclId} {d : Declaration}, o.decls[i]? = some d → o'.decls[i]? = some d
  other : ∀ {i : ScopeId} {s : Scope}, i ≠ sid → o.scopes.get? i = some s →
    o'.scopes.get? i = some s
  here : ∀ {s : Scope}, o.scopes.get? sid = some s →
    o'.scopes.get? sid = some { s with items := s.items ++ extra }

/-- Whether an item of a scope of a kind is unseen from a position on inwards, whatever the name. A
block shows its items to the scope of a repeat loop alone, a local statement when it has ended. -/
def Hidden (o : Outline) (kind : ScopeKind) (position : Nat) : ScopeItem → Prop
  | .decl i => ∀ d, o.decls[i]? = some d → d.kind.isValue = true → position ≤ d.position
  | .scope j => ∀ s, o.scopes.get? j = some s →
    (s.kind = .localStat → position < s.span.stop) ∧ (s.kind = .block → kind ≠ .repeatLoop)

/-! ## Extensions -/

theorem Extends.refl (o : Outline) (sid : ScopeId) : Extends o o sid [] :=
  ⟨fun h => h, fun _ h => h, fun h => by rw [List.append_nil, h]⟩

theorem Extends.trans {extra' : List ScopeItem} (h : Extends o o' sid extra)
    (h' : Extends o' o'' sid extra') : Extends o o'' sid (extra ++ extra') where
  decls hd := h'.decls (h.decls hd)
  other hi hs := h'.other hi (h.other hi hs)
  here hs := by
    have hhere := h'.here (h.here hs)
    rwa [List.append_assoc] at hhere

/-- What happens in a scope made later does not show in the earlier ones. -/
theorem Extends.inside {inner : ScopeId} {extra' : List ScopeItem} (h : Extends o o' sid extra)
    (h' : Extends o' o'' inner extra') (hinner : o.scopes.get? inner = none) :
    Extends o o'' sid extra where
  decls hd := h'.decls (h.decls hd)
  other hi hs := by
    refine h'.other ?_ (h.other hi hs)
    rintro rfl
    rw [hinner] at hs
    cases hs
  here hs := by
    refine h'.other ?_ (h.here hs)
    rintro rfl
    rw [hinner] at hs
    cases hs

theorem Extends.scope {i : ScopeId} {s : Scope} (h : Extends o o' sid extra)
    (hs : o.scopes.get? i = some s) :
    ∃ s', o'.scopes.get? i = some s' ∧ s'.kind = s.kind ∧ s'.owner = s.owner ∧
      s'.span = s.span ∧ s'.parent = s.parent := by
  by_cases hi : i = sid
  · subst hi
    exact ⟨_, h.here hs, rfl, rfl, rfl, rfl⟩
  · exact ⟨s, h.other hi hs, rfl, rfl, rfl, rfl⟩

theorem Hidden.extends {kind : ScopeKind} {x : ScopeItem} (hx : o.Hidden kind position x)
    (h : Extends o o' sid extra) (hdecl : ∀ i, x = .decl i → i < o.decls.size)
    (hscope : ∀ j, x = .scope j → ∃ s, o.scopes.get? j = some s) :
    o'.Hidden kind position x := by
  cases x with
  | decl i =>
    intro d hd
    have hold := Array.getElem?_eq_getElem (hdecl i rfl)
    rw [h.decls hold, Option.some.injEq] at hd
    exact hx d (by rw [hold, hd])
  | scope j =>
    intro s' hs'
    obtain ⟨s, hs⟩ := hscope j rfl
    obtain ⟨s'', hs'', hkind, -, hspan, -⟩ := h.scope hs
    rw [hs'', Option.some.injEq] at hs'
    subst hs'
    rw [hkind, hspan]
    exact hx s hs

/-! ## One scope -/

/-- The last of some items that gives a declaration, when `shown?` says what inner scopes show. -/
def lastItem? (o : Outline) (shown? : ScopeId → Option DeclId) (position : Nat) (name : String)
    (items : List ScopeItem) : Option DeclId :=
  items.reverse.findSome? fun
    | .decl id => ScopeTree.lastSeen? o.decls name position [id]
    | .scope inner => shown? inner

theorem lastItem?_append (shown? : ScopeId → Option DeclId) (items more : List ScopeItem) :
    o.lastItem? shown? position name (items ++ more) =
      (o.lastItem? shown? position name more).or (o.lastItem? shown? position name items) := by
  rw [lastItem?, List.reverse_append, List.findSome?_append]
  rfl

theorem lastItem?_scope (shown? : ScopeId → Option DeclId) (j : ScopeId) :
    o.lastItem? shown? position name [.scope j] = shown? j := by
  simp [lastItem?]

theorem lastSeen?_append (decls : Array Declaration) (ids more : List DeclId) :
    ScopeTree.lastSeen? decls name position (ids ++ more) =
      (ScopeTree.lastSeen? decls name position more).or
        (ScopeTree.lastSeen? decls name position ids) := by
  rw [ScopeTree.lastSeen?, List.reverse_append, List.find?_append]
  rfl

theorem lastSeen?_eq_none {decls : Array Declaration} {ids : List DeclId}
    (h : ∀ i ∈ ids, ∀ d, decls[i]? = some d → d.kind.isValue = true → position ≤ d.position) :
    ScopeTree.lastSeen? decls name position ids = none := by
  rw [ScopeTree.lastSeen?, List.find?_eq_none]
  intro i hi
  rw [List.mem_reverse] at hi
  cases hd : decls[i]? with
  | none => simp
  | some d =>
    simp only [Option.any_some, ScopeTree.sees, Bool.and_eq_true, decide_eq_true_eq]
    rintro ⟨⟨hvalue, -⟩, hlt⟩
    have hle := h i hi d hd hvalue
    omega

theorem lastSeen?_congr {decls decls' : Array Declaration} {ids : List DeclId}
    (h : ∀ i ∈ ids, decls'[i]? = decls[i]?) :
    ScopeTree.lastSeen? decls' name position ids = ScopeTree.lastSeen? decls name position ids := by
  unfold ScopeTree.lastSeen?
  apply List.find?_congr
  intro i hi
  rw [h i (List.mem_reverse.1 hi)]

theorem Extends.getElem?_decls (h : Extends o o' sid extra) {i : DeclId} (hi : i < o.decls.size) :
    o'.decls[i]? = o.decls[i]? := by
  have hold := Array.getElem?_eq_getElem hi
  rw [h.decls hold, hold]

/-- What a scope shows of its declarations after it has ended does not change by hidden items. -/
theorem shownByEnded?_of_hidden (wf : Nested t o) (h : Extends o o' sid extra) {s : Scope}
    (hs : o.scopes.get? sid = some s) (hhidden : ∀ x ∈ extra, o'.Hidden s.kind position x)
    {inner : ScopeId} {r : Scope} (hr : o.scopes.get? inner = some r) :
    o'.scopes.shownByEnded? o'.decls name position inner =
      o.scopes.shownByEnded? o.decls name position inner := by
  have hold : ∀ i ∈ r.declarations, o'.decls[i]? = o.decls[i]? := by
    intro i hi
    obtain ⟨x, hx, hxi⟩ := List.mem_filterMap.1 hi
    cases x with
    | decl d =>
      obtain rfl := Option.some.inj hxi
      exact h.getElem?_decls (wf.decl_lt hr hx)
    | scope j => cases hxi
  by_cases hinner : inner = sid
  · subst hinner
    obtain rfl : r = s := Option.some.inj (hr.symm.trans hs)
    have hdecls : ({ r with items := r.items ++ extra } : Scope).declarations =
        r.declarations ++ ({ r with items := extra } : Scope).declarations := by
      simp [Scope.declarations]
    have hnone : ScopeTree.lastSeen? o'.decls name position
        ({ r with items := extra } : Scope).declarations = none := by
      refine lastSeen?_eq_none fun i hi d hd hvalue => ?_
      obtain ⟨x, hx, hxi⟩ := List.mem_filterMap.1 hi
      cases x with
      | decl d =>
        obtain rfl := Option.some.inj hxi
        exact hhidden _ hx _ hd hvalue
      | scope j => cases hxi
    simp only [ScopeTree.shownByEnded?, h.here hs, hs]
    rw [hdecls, lastSeen?_append, hnone, Option.none_or, lastSeen?_congr hold]
  · simp only [ScopeTree.shownByEnded?, h.other hinner hr, hr]
    rw [lastSeen?_congr hold]

theorem lastItem?_eq_none {shown? : ScopeId → Option DeclId} {items : List ScopeItem}
    (hdecl : ∀ i, .decl i ∈ items → ∀ d, o.decls[i]? = some d → d.kind.isValue = true →
      position ≤ d.position) (hscope : ∀ j, .scope j ∈ items → shown? j = none) :
    o.lastItem? shown? position name items = none := by
  rw [lastItem?, List.findSome?_eq_none_iff]
  intro x hx
  rw [List.mem_reverse] at hx
  cases x with
  | decl i => exact lastSeen?_eq_none (by simpa using hdecl i hx)
  | scope j => exact hscope j hx

theorem findSome?_congr {α β : Type} {f g : α → Option β} {xs : List α}
    (h : ∀ x ∈ xs, f x = g x) : xs.findSome? f = xs.findSome? g := by
  induction xs with
  | nil => rfl
  | cons x xs ih =>
    rw [List.findSome?_cons, List.findSome?_cons, h x List.mem_cons_self,
      ih fun y hy => h y (List.mem_cons_of_mem _ hy)]

theorem lastItem?_congr {shown? shown?' : ScopeId → Option DeclId} {items : List ScopeItem}
    (hdecl : ∀ i, .decl i ∈ items → o'.decls[i]? = o.decls[i]?)
    (hscope : ∀ j, .scope j ∈ items → shown?' j = shown? j) :
    o'.lastItem? shown?' position name items = o.lastItem? shown? position name items := by
  unfold lastItem?
  apply findSome?_congr
  intro x hx
  rw [List.mem_reverse] at hx
  cases x with
  | decl i => exact lastSeen?_congr (by simpa using hdecl i hx)
  | scope j => exact hscope j hx

theorem findItem?_eq (shown? : ScopeId → Option DeclId) (s : Scope) :
    ScopeTree.findItem? o.decls name position shown? s =
      o.lastItem? shown? position name s.items :=
  rfl

/-- A scope gives the same when hidden items are put into one of the scopes. -/
theorem findItem?_of_hidden (wf : Nested t o) (h : Extends o o' sid extra) {s : Scope}
    (hs : o.scopes.get? sid = some s) (hhidden : ∀ x ∈ extra, o'.Hidden s.kind position x)
    {shown? shown?' : ScopeId → Option DeclId} {i : ScopeId} {r r' : Scope}
    (hr : o.scopes.get? i = some r) (hr' : o'.scopes.get? i = some r')
    (hold : ∀ j, .scope j ∈ r.items → shown?' j = shown? j)
    (hnew : i = sid → ∀ j, .scope j ∈ extra → shown?' j = none) :
    ScopeTree.findItem? o'.decls name position shown?' r' =
      ScopeTree.findItem? o.decls name position shown? r := by
  have hcongr : o'.lastItem? shown?' position name r.items =
      o.lastItem? shown? position name r.items :=
    lastItem?_congr (fun i hi => h.getElem?_decls (wf.decl_lt hr hi)) hold
  by_cases hi : i = sid
  · subst hi
    obtain rfl : r = s := Option.some.inj (hr.symm.trans hs)
    obtain rfl := Option.some.inj (hr'.symm.trans (h.here hs))
    have hnone : o'.lastItem? shown?' position name extra = none :=
      lastItem?_eq_none (fun i hi d hd hvalue => hhidden _ hi d hd hvalue) (hnew rfl)
    rw [findItem?_eq, findItem?_eq, lastItem?_append, hnone, Option.none_or, hcongr]
  · obtain rfl := Option.some.inj (hr'.symm.trans (h.other hi hr))
    rw [findItem?_eq, findItem?_eq, hcongr]

theorem shownByEnded?_eq_none {kind : ScopeKind} {j : ScopeId}
    (h : o.Hidden kind position (.scope j)) :
    o.scopes.shownByEnded? o.decls name position j = none := by
  unfold ScopeTree.shownByEnded?
  split
  · next s hs =>
    rw [if_neg]
    rintro ⟨hkind, hstop⟩
    have hlt := (h s hs).1 hkind
    omega
  · rfl

theorem shownToCondition?_eq_none {j : ScopeId}
    (h : o.Hidden .repeatLoop position (.scope j)) :
    o.scopes.shownToCondition? o.decls name position j = none := by
  have hended : o.scopes.shownByEnded? o.decls name position j = none := shownByEnded?_eq_none h
  unfold ScopeTree.shownToCondition?
  split
  · next s hs =>
    rw [if_neg fun hkind => (h s hs).2 hkind rfl, hended]
  · rfl

theorem shownToCondition?_of_hidden (wf : Nested t o) (h : Extends o o' sid extra) {s : Scope}
    (hs : o.scopes.get? sid = some s) (hhidden : ∀ x ∈ extra, o'.Hidden s.kind position x)
    {j : ScopeId} {r : Scope} (hr : o.scopes.get? j = some r) :
    o'.scopes.shownToCondition? o'.decls name position j =
      o.scopes.shownToCondition? o.decls name position j := by
  have hended {j : ScopeId} {r : Scope} (hr : o.scopes.get? j = some r) :
      o'.scopes.shownByEnded? o'.decls name position j =
        o.scopes.shownByEnded? o.decls name position j :=
    shownByEnded?_of_hidden wf h hs hhidden hr
  obtain ⟨r', hr', hkind, -⟩ := h.scope hr
  simp only [ScopeTree.shownToCondition?, hr, hr', hkind]
  split
  · refine findItem?_of_hidden wf h hs hhidden hr hr' (fun k hk => ?_) fun _ k hk => ?_
    · obtain ⟨r'', hr'', -⟩ := wf.inner hr hk
      exact hended hr''
    · exact shownByEnded?_eq_none (hhidden _ hk)
  · exact hended hr

theorem findAround?_of_hidden (wf : Nested t o) (h : Extends o o' sid extra) {s : Scope}
    (hs : o.scopes.get? sid = some s) (hhidden : ∀ x ∈ extra, o'.Hidden s.kind position x)
    {i : ScopeId} {r r' : Scope} (hr : o.scopes.get? i = some r)
    (hr' : o'.scopes.get? i = some r') :
    o'.scopes.findAround? o'.decls name position r' =
      o.scopes.findAround? o.decls name position r := by
  have hkind : r'.kind = r.kind := by
    obtain ⟨r'', hr'', hkind, -⟩ := h.scope hr
    rw [hr', Option.some.injEq] at hr''
    rw [hr'', hkind]
  have hended : ScopeTree.findItem? o'.decls name position
      (o'.scopes.shownByEnded? o'.decls name position) r' =
      ScopeTree.findItem? o.decls name position (o.scopes.shownByEnded? o.decls name position) r := by
    refine findItem?_of_hidden wf h hs hhidden hr hr' (fun j hj => ?_) fun _ j hj => ?_
    · obtain ⟨r'', hr'', -⟩ := wf.inner hr hj
      exact shownByEnded?_of_hidden wf h hs hhidden hr''
    · exact shownByEnded?_eq_none (hhidden _ hj)
  simp only [ScopeTree.findAround?, hkind, hended]
  split
  · rfl
  · rfl
  · rfl
  · next hrepeat =>
    refine findItem?_of_hidden wf h hs hhidden hr hr' (fun j hj => ?_) fun hi j hj => ?_
    · obtain ⟨r'', hr'', -⟩ := wf.inner hr hj
      exact shownToCondition?_of_hidden wf h hs hhidden hr''
    · subst hi
      obtain rfl : r = s := Option.some.inj (hr.symm.trans hs)
      have hx := hhidden _ hj
      rw [hrepeat] at hx
      exact shownToCondition?_eq_none hx
  · rfl

/-! ## From a scope outwards -/

/-- The declaration that a name at a position in a scope stands for. -/
def look (o : Outline) (id : ScopeId) (position : Nat) (name : String) : Option DeclId :=
  o.scopes.find? o.decls name position id

theorem Nested.exists_parent (wf : Nested t o) {i p : ScopeId} {s : Scope}
    (hs : o.scopes.get? i = some s) (hp : s.parent = some p) : ∃ r, o.scopes.get? p = some r := by
  have hi : i < o.scopes.scopes.size := (Array.getElem?_eq_some_iff.1 hs).1
  have hlt : p < o.scopes.scopes.size := Nat.lt_trans (wf.parent_lt hs hp) hi
  exact ⟨_, Array.getElem?_eq_getElem hlt⟩

theorem findWithin?_stable (wf : Nested t o) (k l : Nat) (i : ScopeId) (hk : i < k) (hl : i < l) :
    o.scopes.findWithin? o.decls name position k i =
      o.scopes.findWithin? o.decls name position l i := by
  induction k generalizing l i with
  | zero => exact absurd hk (Nat.not_lt_zero i)
  | succ k ih =>
    cases l with
    | zero => exact absurd hl (Nat.not_lt_zero i)
    | succ l =>
      simp only [ScopeTree.findWithin?]
      cases hs : o.scopes.get? i with
      | none => rfl
      | some s =>
        dsimp only
        cases hp : s.parent with
        | none => rfl
        | some p =>
          have hlt := wf.parent_lt hs hp
          rw [Option.bind_some, Option.bind_some, ih l p
            (Nat.lt_of_lt_of_le hlt (Nat.le_of_lt_succ hk))
            (Nat.lt_of_lt_of_le hlt (Nat.le_of_lt_succ hl))]

theorem look_eq (wf : Nested t o) {i : ScopeId} {s : Scope} (hs : o.scopes.get? i = some s) :
    o.look i position name = (o.scopes.findAround? o.decls name position s).or
      (s.parent.bind fun p => o.look p position name) := by
  rw [look, ScopeTree.find?, ScopeTree.findWithin?, hs]
  dsimp only
  cases hfound : o.scopes.findAround? o.decls name position s with
  | some d => rfl
  | none =>
    dsimp only
    rw [Option.none_or]
    cases hp : s.parent with
    | none => rfl
    | some p =>
      rw [Option.bind_some, Option.bind_some]
      exact findWithin?_stable wf i (p + 1) p (wf.parent_lt hs hp) (Nat.lt_succ_self p)

/-- Hidden items do not change what is found. -/
theorem look_of_hidden (wf : Nested t o) (wf' : Nested t o') (h : Extends o o' sid extra) {s : Scope}
    (hs : o.scopes.get? sid = some s) (hhidden : ∀ x ∈ extra, o'.Hidden s.kind position x)
    {i : ScopeId} {r : Scope} (hr : o.scopes.get? i = some r) :
    o'.look i position name = o.look i position name := by
  induction i using Nat.strongRecOn generalizing r with
  | _ i ih =>
    obtain ⟨r', hr', -, -, -, hparent⟩ := h.scope hr
    rw [look_eq wf hr, look_eq wf' hr', findAround?_of_hidden wf h hs hhidden hr hr', hparent]
    cases hp : r.parent with
    | none => rfl
    | some p =>
      obtain ⟨q, hq⟩ := wf.exists_parent hr hp
      rw [Option.bind_some, Option.bind_some, ih p (wf.parent_lt hr hp) hq]

/-! ## Growing blocks -/

section
variable {b : ScopeId} {s : Scope}

/-- Whether a scope is a block, and the only thing in the repeat loop around it if there is one. -/
structure IsBlock (o : Outline) (b : ScopeId) : Prop where
  block : ∃ s, o.scopes.get? b = some s ∧ s.kind = .block
  alone : ∀ {s r : Scope} {p : ScopeId}, o.scopes.get? b = some s → s.parent = some p →
    o.scopes.get? p = some r → r.kind = .repeatLoop → r.items = [.scope b]

theorem shownByEnded?_of_block (wf : Nested t o) (h : Extends o o' b extra)
    (hs : o.scopes.get? b = some s) (hblock : s.kind = .block) {j : ScopeId} {r : Scope}
    (hr : o.scopes.get? j = some r) :
    o'.scopes.shownByEnded? o'.decls name position j =
      o.scopes.shownByEnded? o.decls name position j := by
  by_cases hj : j = b
  · subst hj
    obtain rfl : r = s := Option.some.inj (hr.symm.trans hs)
    simp [ScopeTree.shownByEnded?, h.here hs, hs, hblock]
  · have hold : ∀ i ∈ r.declarations, o'.decls[i]? = o.decls[i]? := by
      intro i hi
      obtain ⟨x, hx, hxi⟩ := List.mem_filterMap.1 hi
      cases x with
      | decl d =>
        obtain rfl := Option.some.inj hxi
        exact h.getElem?_decls (wf.decl_lt hr hx)
      | scope j => cases hxi
    simp only [ScopeTree.shownByEnded?, h.other hj hr, hr]
    rw [lastSeen?_congr hold]

theorem lastItem?_of_block (wf : Nested t o) (h : Extends o o' b extra)
    (hs : o.scopes.get? b = some s) (hblock : s.kind = .block) {i : ScopeId} {r : Scope}
    (hr : o.scopes.get? i = some r) :
    o'.lastItem? (o'.scopes.shownByEnded? o'.decls name position) position name r.items =
      o.lastItem? (o.scopes.shownByEnded? o.decls name position) position name r.items := by
  refine lastItem?_congr (fun d hd => h.getElem?_decls (wf.decl_lt hr hd)) fun j hj => ?_
  obtain ⟨r', hr', -⟩ := wf.inner hr hj
  exact shownByEnded?_of_block wf h hs hblock hr'

/-- A growing block does not show in the scopes around it, except in its repeat loop. -/
theorem findAround?_of_block (wf : Nested t o) (h : Extends o o' b extra)
    (hs : o.scopes.get? b = some s) (hblock : s.kind = .block) {i : ScopeId} {r : Scope}
    (hr : o.scopes.get? i = some r) (hi : i ≠ b)
    (hrepeat : r.kind = .repeatLoop → s.parent ≠ some i) :
    o'.scopes.findAround? o'.decls name position r =
      o.scopes.findAround? o.decls name position r := by
  have hitems : o'.lastItem? (o'.scopes.shownByEnded? o'.decls name position) position name r.items =
      o.lastItem? (o.scopes.shownByEnded? o.decls name position) position name r.items :=
    lastItem?_of_block wf h hs hblock hr
  simp only [ScopeTree.findAround?, findItem?_eq, hitems]
  split
  · rfl
  · rfl
  · rfl
  · next hkind =>
    refine lastItem?_congr (fun d hd => h.getElem?_decls (wf.decl_lt hr hd)) fun j hj => ?_
    obtain ⟨q, hq, hparent⟩ := wf.inner hr hj
    have hj' : j ≠ b := by
      rintro rfl
      rw [hs, Option.some.injEq] at hq
      subst hq
      exact hrepeat hkind hparent
    have hq' := h.other hj' hq
    simp only [ScopeTree.shownToCondition?, hq, hq', findItem?_eq]
    rw [lastItem?_of_block wf h hs hblock hq, shownByEnded?_of_block wf h hs hblock hq]
  · rfl

theorem look_of_block (wf : Nested t o) (wf' : Nested t o') (h : Extends o o' b extra)
    (hs : o.scopes.get? b = some s) (hblock : s.kind = .block) {i : ScopeId} {r : Scope}
    (hr : o.scopes.get? i = some r) (hi : i < b)
    (hrepeat : ∀ q ≤ i, ∀ r, o.scopes.get? q = some r → r.kind = .repeatLoop →
      s.parent ≠ some q) : o'.look i position name = o.look i position name := by
  induction i using Nat.strongRecOn generalizing r with
  | _ i ih =>
    have hne : i ≠ b := Nat.ne_of_lt hi
    have hr' := h.other hne hr
    rw [look_eq wf hr, look_eq wf' hr',
      findAround?_of_block wf h hs hblock hr hne (hrepeat i (Nat.le_refl i) r hr)]
    cases hp : r.parent with
    | none => rfl
    | some p =>
      have hlt := wf.parent_lt hr hp
      obtain ⟨q, hq⟩ := wf.exists_parent hr hp
      rw [Option.bind_some, Option.bind_some, ih p hlt hq (Nat.lt_trans hlt hi)
        fun k hk => hrepeat k (Nat.le_trans hk (Nat.le_of_lt hlt))]

/-- Looking at the same things twice finds what looking once finds. -/
theorem or_twice {α : Type} (a b c : Option α) :
    (a.or b).or ((a.or b).or c) = a.or (b.or (b.or c)) := by
  cases a <;> cases b <;> rfl

/-- In a block the new items are looked at first. -/
theorem look_block (wf : Nested t o) (wf' : Nested t o') (h : Extends o o' b extra)
    (hb : IsBlock o b) : o'.look b position name =
      (o'.lastItem? (o'.scopes.shownByEnded? o'.decls name position) position name extra).or
        (o.look b position name) := by
  obtain ⟨s, hs, hblock⟩ := hb.block
  have hitems : o'.lastItem? (o'.scopes.shownByEnded? o'.decls name position) position name s.items =
      o.lastItem? (o.scopes.shownByEnded? o.decls name position) position name s.items :=
    lastItem?_of_block wf h hs hblock hs
  rw [look_eq wf hs, look_eq wf' (h.here hs)]
  simp only [ScopeTree.findAround?, hblock, findItem?_eq]
  rw [lastItem?_append, hitems]
  cases hp : s.parent with
  | none => simp
  | some p =>
    obtain ⟨r, hr⟩ := wf.exists_parent hs hp
    have hlt := wf.parent_lt hs hp
    rw [Option.bind_some, Option.bind_some]
    by_cases hkind : r.kind = .repeatLoop
    · -- The loop shows the items of its body once more, behind those of the body itself.
      have hr' := h.other (Nat.ne_of_lt hlt) hr
      have hloop := hb.alone hs hp hr hkind
      have habove : (r.parent.bind fun q => o'.look q position name) =
          r.parent.bind fun q => o.look q position name := by
        cases hq : r.parent with
        | none => rfl
        | some q =>
          have hqp := wf.parent_lt hr hq
          obtain ⟨u, hu⟩ := wf.exists_parent hr hq
          refine look_of_block wf wf' h hs hblock hu (Nat.lt_trans hqp hlt) fun k hk _ _ _ hparent => ?_
          obtain rfl := Option.some.inj (hp.symm.trans hparent)
          exact absurd hqp (Nat.not_lt.2 hk)
      rw [look_eq wf hr, look_eq wf' hr', habove]
      simp only [ScopeTree.findAround?, hkind, hloop, findItem?_eq, lastItem?_scope,
        ScopeTree.shownToCondition?, hs, h.here hs, hblock, if_true, lastItem?_append, hitems]
      exact or_twice _ _ _
    · rw [look_of_block wf wf' h hs hblock hr hlt, Option.or_assoc]
      rintro q hq r' hr' hkind' hparent
      obtain rfl := Option.some.inj (hp.symm.trans hparent)
      rw [hr, Option.some.injEq] at hr'
      exact hkind (by rw [hr', hkind'])

end

end LuaAnalysis.Outline
