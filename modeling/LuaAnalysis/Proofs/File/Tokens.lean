import LuaAnalysis.Proofs.File.Sites

/-!
# Names that are nodes of their own

Some declarations have their name in another node than their own: in the key of an index expression
or of a field, or in the name of a label or of a generic parameter. Both nodes are anchors, and at
all times they lead to the same declaration. So whatever leads to a declaration through an anchor,
the node of the declaration leads there too.

Main statement: `FileModel.anchored_own`.
-/

namespace LuaAnalysis

variable {t : SyntaxTree}

/-- The part of a node that is the name of what the node declares. -/
def Node.token? {α : Type} : Node α → Option α
  | .indexExpr _ key _ | .tableField key _ => key
  | .docField (some key) _ _ => key.token?
  | .labelStat token | .docGenericParam token _ => token
  | _ => none

theorem Node.no_stat_of_token? {α : Type} {n : Node α} {x : α} (hn : n.token? = some x)
    {sort : PartSort} (hsort : sort ∈ n.expects) : sort ≠ .stat ∧ sort ≠ .genericParam := by
  have hall : n.expects.all (fun s => s ≠ .stat ∧ s ≠ .genericParam) = true := by
    cases n
    case docField key type nullable => rcases key with _ | (_ | _ | _) <;> simp [expects]
    case indexExpr | tableField | labelStat | docGenericParam => simp [expects]
    all_goals cases hn
  simpa using List.all_eq_true.1 hall sort hsort

section
variable {w w' : NodeId} {d d' : Declaration} {token token' : Option NodeId}

theorem SyntaxTree.not_token_of_isName {x : NodeId} (h : t.isName x = true) :
    (t.node? x).bind Node.token? = none := by
  unfold isName at h
  split at h
  · next hx => rw [hx]; rfl
  · next hx => rw [hx]; rfl
  · cases h

theorem SyntaxTree.Proper.isName_docParam (h : t.Proper) {tag x : NodeId} {type : Option NodeId}
    {nullable : Bool} (htag : t.node? tag = some (.docParam (some x) type nullable)) :
    t.isName x = true := by
  have hfits := h.fits htag
  simp only [Node.Fits, Node.expects, Node.children, Node.forall₂_each_append,
    Option.mem_toList] at hfits
  exact isName_of_is (hfits.1 x rfl)

theorem SyntaxTree.Proper.isName_docEnum (h : t.Proper) {x : NodeId} {name base : Option NodeId}
    {fields : List NodeId} (hw : t.node? w = some (.docEnum name base fields)) (hx : x ∈ fields) :
    t.isName x = true := by
  have hfits := h.fits hw
  simp only [Node.Fits, Node.expects, Node.children, List.append_assoc,
    Node.forall₂_each_append, Node.forall₂_each] at hfits
  exact isName_of_is (hfits.2.2 x hx)

/-- The node of a declaration says where its name is. -/
theorem Declares.token_eq (h : t.Proper) (hd : Declares t w d token) :
    token = (t.node? d.node).bind Node.token? := by
  cases hnamed : d.kind.isNamed with
  | true =>
    obtain ⟨hnode, rfl, -⟩ := hd.named hnamed
    exact (SyntaxTree.not_token_of_isName (SyntaxTree.isName_of_namesAt h hnode)).symm
  | false =>
    cases hd with
    | index _ _ hindex | fieldFunction _ hindex => rw [hindex]; rfl
    | label hw => rw [hw]; rfl
    | genericParameter hparam => rw [hparam]; rfl
    | tableField hw hkey => rw [hw, ← hkey]; rfl
    | docField hfield => rw [hfield]; rfl
    | docParameter htag => exact (SyntaxTree.not_token_of_isName (h.isName_docParam htag)).symm
    | enumField hw hx => exact (SyntaxTree.not_token_of_isName (h.isName_docEnum hw hx)).symm
    | localVar | global | localFunction | globalFunction | counter | loopName | parameter
    | namedType => cases hnamed

/-- The name of a declaration is no node of a declaration. -/
theorem Declares.node_ne_token (h : t.Proper) {x : NodeId} (hd : Declares t w d (some x))
    (hd' : Declares t w' d' token') : d'.node ≠ x := by
  rintro rfl
  obtain ⟨n, hn, hpart, hholds⟩ := hd.token_part rfl
  have htoken : n.token? = some d'.node := by
    have heq := hd.token_eq h
    rw [hn] at heq
    exact heq.symm
  obtain ⟨sort, hsort, m, hm, hadmits⟩ := h.is_of_part hn hpart
  obtain ⟨hstat, hgeneric⟩ := Node.no_stat_of_token? htoken hsort
  -- Were the name a node of a declaration, a place of a member or a bound name would stand where
  -- the name does.
  cases hmember : d'.kind.isMember with
  | true => exact SyntaxTree.not_held h hn hpart hholds (hd'.held h hmember)
  | false =>
    cases hnamed : d'.kind.isNamed with
    | true =>
      have hother : d.kind.isNamed = false := by
        cases hother : d.kind.isNamed with
        | false => rfl
        | true => cases (hd.named hother).2.1
      exact (hd.not_name h hother w').2 _ rfl (hd'.named hnamed).1
    | false =>
      cases hd' with
      | @docParameter tag _ _ _ htag =>
        -- The tag of a parameter has no such name.
        obtain rfl : tag = d.node := SyntaxTree.childOf_unique h
          (SyntaxTree.part_mem_children htag (by simp [Node.children]))
          (SyntaxTree.part_mem_children hn hpart)
        obtain rfl := Option.some.inj (hn.symm.trans htag)
        cases htoken
      | label hw =>
        obtain rfl := Option.some.inj (hm.symm.trans hw)
        cases sort <;> first | exact hstat rfl | cases hadmits
      | genericParameter hparam =>
        obtain rfl := Option.some.inj (hm.symm.trans hparam)
        cases sort <;> first | exact hgeneric rfl | cases hadmits
      | localVar | global | localFunction | globalFunction | counter | loopName | parameter
      | namedType => cases hnamed
      | index | fieldFunction | tableField | enumField | docField => cases hmember

end

/-! ## Both lead to the same declaration -/

/-- The declaration that a node leads to, in a list of anchors. -/
def leadsTo? (anchors : List (NodeId × DeclId)) (x : NodeId) : Option DeclId :=
  (anchors.find? fun anchor => anchor.1 = x).map Prod.snd

theorem leadsTo?_cons (anchor : NodeId × DeclId) (anchors : List (NodeId × DeclId)) (x : NodeId) :
    leadsTo? (anchor :: anchors) x = if anchor.1 = x then some anchor.2 else leadsTo? anchors x := by
  unfold leadsTo?
  by_cases hx : anchor.1 = x <;> simp [hx]

namespace Outline

variable {w : NodeId} {o o' : Outline} {made : List (Declaration × Option NodeId)}

/-- The node and the name of a declaration lead to the same declaration. -/
def Paired (t : SyntaxTree) (o : Outline) : Prop :=
  ∀ {w x : NodeId} {d : Declaration}, Declares t w d (some x) →
    leadsTo? o.anchors d.node = leadsTo? o.anchors x

theorem Paired.declare (h : t.Proper) (ho : o.Paired t) {d : Declaration} {token : Option NodeId}
    (hd : Declares t w d token) : (o.declare d token).Paired t := by
  intro w' x d' hd'
  have hne := hd'.node_ne_token h hd
  by_cases hnode : d.node = d'.node
  · -- The declaration has the node and the name.
    obtain rfl : token = some x := by rw [hd.token_eq h, hnode, ← hd'.token_eq h]
    have hne' := hd'.node_ne_token h hd'
    simp [Outline.declare, leadsTo?_cons, hnode, Ne.symm hne']
  · -- Neither the node nor the name is an anchor of the new declaration.
    have hother : token ≠ some x := by
      rintro rfl
      obtain ⟨n, hn, hpart, -⟩ := hd.token_part rfl
      obtain ⟨n', hn', hpart', -⟩ := hd'.token_part rfl
      exact hnode (SyntaxTree.childOf_unique h (SyntaxTree.part_mem_children hn hpart)
        (SyntaxTree.part_mem_children hn' hpart'))
    have hother' : token ≠ some d'.node := by
      rintro rfl
      exact hd.node_ne_token h hd' rfl
    cases token with
    | none => simpa [Outline.declare, leadsTo?_cons, hnode, hne] using ho hd'
    | some y =>
      have hy : y ≠ x := fun heq => hother (congrArg some heq)
      have hy' : y ≠ d'.node := fun heq => hother' (congrArg some heq)
      simpa [Outline.declare, leadsTo?_cons, hnode, hne, hy, hy'] using ho hd'

theorem Makes.paired (h : t.Proper) (hmakes : Makes t w o made o') (ho : o.Paired t) :
    o'.Paired t := by
  induction hmakes with
  | nothing => exact ho
  | declare _ hd ih => exact ih.declare h hd
  | record _ _ ih => exact ih
  | schedule _ _ ih => exact ih
  | method _ _ ih => exact ih

theorem paired_walk (config : Config) (h : t.Proper) : (t.outline config).Paired t := by
  refine outline_induction (P := fun _ o => o.Paired t) h ?_ ?_ ?_
  · intro seen o x _ _ ho
    obtain ⟨o₁, made, -, hanchors, -, -, -, hmakes, -⟩ := makes_enter config t x o
    refine hmakes.paired h fun hd => ?_
    rw [hanchors]
    exact ho hd
  · intro seen o x _ ho w y d hd
    rw [(leave_eq o x).2.1]
    exact ho hd
  · intro w x d _
    rfl

end Outline

/-- Whatever is an anchor of a declaration, the node of the declaration is one. -/
theorem FileModel.anchored_own {config : Config} {revision : Revision} {generation : Nat}
    (h : t.Proper) {m : FileModel} (hm : m = (t.analyse config revision generation).model)
    {x : NodeId} {i : DeclId} (hx : m.anchored? x = some i) :
    ∃ d, m.decl? i = some d ∧ m.anchored? d.node = some i := by
  obtain ⟨w, d, token, hd, hdeclares, heq⟩ := declares_of_anchored? h hm hx
  refine ⟨d, hd, ?_⟩
  rcases heq with rfl | rfl
  · exact hx
  · -- The name is paired with the node.
    subst hm
    exact (Outline.paired_walk config h hdeclares).trans hx

end LuaAnalysis
