import LuaAnalysis.Proofs.File.Tokens
import LuaAnalysis.Proofs.Project.Refers
import LuaAnalysis.Resolve.Schedule

/-!
# The place of a declaration

Look-up at the place of a declaration leads to the declaration, or, where the place is an index
expression, to the member that the type of its base has.

Main statements: `Project.anchored_of_declaration?`, `Project.declaration?_place`.
-/

namespace LuaAnalysis

namespace SyntaxTree

variable {t : SyntaxTree}

/-- A node that is no member access and no key of one accesses no member. -/
theorem memberAccess?_eq_none {x : NodeId}
    (hx : ∀ base key colon, t.node? x ≠ some (.indexExpr base key colon))
    (hkey : ∀ p base colon, t.node? p ≠ some (.indexExpr base (some x) colon)) :
    t.memberAccess? x = none := by
  unfold memberAccess?
  split
  · next hindex => exact absurd hindex (hx _ _ _)
  · split
    · next p _ =>
      split
      · next base key colon hindex =>
        rw [if_neg]
        rintro rfl
        exact hkey p base colon hindex
      · rfl
    · rfl

/-- The key of an index expression is a name or an expression. -/
theorem Proper.is_key (h : t.Proper) {p x : NodeId} {base : Option NodeId} {colon : Bool}
    (hp : t.node? p = some (.indexExpr base (some x) colon)) : t.Is .key x := by
  have hfits := h.fits hp
  simp only [Node.Fits, Node.expects, Node.children, Node.forall₂_each_append,
    Node.forall₂_each] at hfits
  exact hfits.2 x (by simp)

/-- A part of another node is no key of an index expression. -/
theorem Proper.not_key (h : t.Proper) {p x : NodeId} {n : Node NodeId} (hn : t.node? p = some n)
    (hx : x ∈ n.children) (hindex : ∀ base key colon, n ≠ .indexExpr base key colon) (q : NodeId)
    (base : Option NodeId) (colon : Bool) : t.node? q ≠ some (.indexExpr base (some x) colon) := by
  intro hq
  obtain rfl := childOf_unique h (part_mem_children hn hx)
    (part_mem_children hq (by simp [Node.children]))
  exact hindex base (some x) colon (Option.some.inj (hn.symm.trans hq))

end SyntaxTree

/-- Look-up at the node of a declaration accesses no member, unless the node is an index expression
that is assigned to. -/
theorem Declares.access {t : SyntaxTree} (h : t.Proper) {w : NodeId} {d : Declaration}
    {token : Option NodeId} (hd : Declares t w d token) :
    (∃ base key colon, t.node? d.node = some (.indexExpr base (some key) colon) ∧
        t.keyText? key = some d.name) ∨
      t.memberAccess? d.node = none ∧
        ∀ base key colon, t.node? d.node ≠ some (.indexExpr base key colon) := by
  have hnone {x : NodeId} (hx : ∀ base key colon, t.node? x ≠ some (.indexExpr base key colon))
      (hkey : ∀ p base colon, t.node? p ≠ some (.indexExpr base (some x) colon)) :
      t.memberAccess? x = none ∧ ∀ base key colon, t.node? x ≠ some (.indexExpr base key colon) :=
    ⟨SyntaxTree.memberAccess?_eq_none hx hkey, hx⟩
  -- What is neither a name nor an expression is no key.
  have hnotKey {x : NodeId} {n : Node NodeId} (hn : t.node? x = some n)
      (hsort : PartSort.key.admits n = false) (p : NodeId) (base : Option NodeId) (colon : Bool) :
      t.node? p ≠ some (.indexExpr base (some x) colon) := by
    intro hp
    obtain ⟨m, hm, hadmits⟩ := h.is_key hp
    obtain rfl := Option.some.inj (hn.symm.trans hm)
    rw [hsort] at hadmits
    cases hadmits
  have hnotIndex {x : NodeId} (hname : t.isName x = true) (base key : Option NodeId)
      (colon : Bool) : t.node? x ≠ some (.indexExpr base key colon) := by
    intro hindex
    rw [SyntaxTree.isName, hindex] at hname
    cases hname
  cases hnamed : d.kind.isNamed with
  | true =>
    have hname := (hd.named hnamed).1
    exact .inr ⟨SyntaxTree.memberAccess?_namesAt h hname,
      hnotIndex (SyntaxTree.isName_of_namesAt h hname)⟩
  | false =>
    cases hd with
    | index _ _ hindex hname => exact .inl ⟨_, _, _, hindex, hname⟩
    | fieldFunction _ hindex hname => exact .inl ⟨_, _, _, hindex, hname⟩
    | docParameter htag =>
      exact .inr (hnone (hnotIndex (h.isName_docParam htag))
        (h.not_key htag (by simp [Node.children]) (by simp)))
    | enumField hw hx =>
      exact .inr (hnone (hnotIndex (h.isName_docEnum hw hx))
        (h.not_key hw (by simp [Node.children, hx]) (by simp)))
    | label hw => exact .inr (hnone (by simp [hw]) (hnotKey hw rfl))
    | genericParameter hparam => exact .inr (hnone (by simp [hparam]) (hnotKey hparam rfl))
    | tableField hw => exact .inr (hnone (by simp [hw]) (hnotKey hw rfl))
    | docField hfield => exact .inr (hnone (by simp [hfield]) (hnotKey hfield rfl))
    | localVar | global | localFunction | globalFunction | counter | loopName | parameter
    | namedType => cases hnamed

namespace Project

variable {config : Config} {p : Project} {f : PublishedFile} {ref : DeclRef}

/-- Whatever leads to a declaration, its own node is an anchor of it. -/
theorem anchored_of_declaration? (h : p.index.Faithful config) (hf : f ∈ p.index.files) {x : NodeId}
    (hx : p.declaration? f.model x = some ref) :
    ∃ g ∈ p.index.files, ∃ i d, ref = g.model.ref i ∧ g.model.decl? i = some d ∧
      g.model.anchored? d.node = some i := by
  -- A member, or what is referred to by its name, is the declaration of its node.
  have hfound {m : FileModel} {d : Declaration} (hd : p.index.decl? ref = some (m, d))
      (hkind : d.kind.isMember = true ∨ d.kind.isNamed = true) :
      ∃ g ∈ p.index.files, ∃ i d, ref = g.model.ref i ∧ g.model.decl? i = some d ∧
        g.model.anchored? d.node = some i := by
    obtain ⟨g, hg, rfl, href, hdecl⟩ := (ProjectIndex.decl?_eq_some h.sorted).1 hd
    obtain ⟨revision, generation, hanalysed⟩ := (h.files g hg).analysed
    refine ⟨g, hg, ref.decl, d, href, hdecl, ?_⟩
    rcases hkind with hmember | hnamed
    · exact FileModel.anchored_member (h.files g hg).proper hanalysed hdecl hmember
    · exact FileModel.anchored_node (h.files g hg).proper hanalysed hdecl hnamed
  obtain ⟨revision, generation, hanalysed⟩ := (h.files f hf).analysed
  have hproper := (h.files f hf).proper
  have hlocal {i : DeclId} {d : Declaration} (hdecl : f.model.decl? i = some d)
      (href : f.model.ref i = ref) : p.index.decl? ref = some (f.model, d) := by
    rw [← href, ProjectIndex.decl?_ref h.sorted hf, hdecl, Option.map_some]
  unfold declaration? declarationStep? at hx
  split at hx
  · next found hfound' =>
    obtain rfl := Option.some.inj hx
    obtain ⟨access, -, hstep⟩ := Option.bind_eq_some_iff.1 hfound'
    obtain ⟨m, d, hd, hmember⟩ := isMember_of_indexMemberStep? h hstep
    exact hfound hd (.inl hmember)
  · split at hx
    · next i hanchor =>
      obtain ⟨d, hdecl, hown⟩ := FileModel.anchored_own hproper hanalysed hanchor
      exact ⟨f, hf, i, d, (Option.some.inj hx).symm, hdecl, hown⟩
    · split at hx
      · rcases Option.or_eq_some_iff.1 hx with hfind | ⟨-, hglobal⟩
        · obtain ⟨i, hfind, href⟩ := Option.map_eq_some_iff.1 hfind
          obtain ⟨d, hdecl, hvalue, -⟩ := FileModel.find?_sound hfind
          exact hfound (hlocal hdecl href) (.inr (DeclKind.isNamed_of_isValue hvalue))
        · obtain ⟨m, d, hd, -, hkind⟩ := h.global (Lookup.mem_of_prefer? hglobal)
          exact hfound hd
            (.inr (DeclKind.isNamed_of_isValue (DeclKind.isValue_of_isGlobal hkind)))
      · obtain ⟨m, d, hd, -, category, hkind⟩ := h.type (Lookup.mem_of_prefer? hx)
        exact hfound hd (.inr (by rw [hkind]; rfl))
      · cases hx

/-- The member that the base of an assigned field has under the name of the field. -/
def assignedMember? (p : Project) (m : FileModel) (i : DeclId) (name : String) : Option DeclRef :=
  (m.assignedBase? i).bind fun base => p.memberOfType? (p.exprType m base 0) name

/-- Look-up at the node of a declaration. -/
theorem declaration?_place (h : p.index.Faithful config) (hf : f ∈ p.index.files) {i : DeclId}
    {d : Declaration} (hdecl : f.model.decl? i = some d)
    (hanchor : f.model.anchored? d.node = some i) :
    p.declaration? f.model d.node =
      some ((p.assignedMember? f.model i d.name).getD (f.model.ref i)) := by
  obtain ⟨revision, generation, hanalysed⟩ := (h.files f hf).analysed
  have hproper := (h.files f hf).proper
  obtain ⟨w, -, token, hdeclares⟩ := FileModel.declares_of_decl? hproper hanalysed hdecl
  -- Look-up selects a member at the place of an assigned field only.
  have hstep : (f.model.tree.memberAccess? d.node).bind
      (p.indexMemberStep? f.model (p.exprType f.model)) = p.assignedMember? f.model i d.name := by
    unfold assignedMember? FileModel.assignedBase?
    rw [hdecl, Option.bind_some]
    rcases hdeclares.access hproper with ⟨base, key, colon, hindex, hname⟩ | ⟨hnone, hindex⟩
    · rw [SyntaxTree.memberAccess?, hindex]
      dsimp only
      rw [Option.bind_some, indexMemberStep?, hindex]
      dsimp only
      rw [Option.bind_some, hname]
      cases base <;> rfl
    · rw [hnone, Option.bind_none]
      split
      · next hindex' => exact absurd hindex' (hindex _ _ _)
      · rfl
  unfold declaration? declarationStep?
  rw [hstep, hanchor]
  cases p.assignedMember? f.model i d.name <;> rfl

theorem canonical_of_leads_back {m : FileModel} {d : Declaration}
    (hd : p.index.decl? ref = some (m, d)) (hback : p.declaration? m d.node = some ref) :
    p.canonical ref = ref := by
  unfold canonical
  rw [hd, Option.bind_some]
  dsimp only
  rw [hback, Option.getD_some]

end Project

end LuaAnalysis
