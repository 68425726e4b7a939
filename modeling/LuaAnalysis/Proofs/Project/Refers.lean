import LuaAnalysis.Proofs.File.SeenNames
import LuaAnalysis.Proofs.Project.FirstLeast
import LuaAnalysis.Proofs.Project.Published
import LuaAnalysis.Project.References

/-!
# What a node refers to

A node of a published file refers to a declaration with a name in one of three ways: it makes it, it
is a name expression that means it, or it is the name of a type that means it. Members are found in
another way, and none of them has a name of this sort.

Main statements: `Project.refers_of_declaration?`, `Project.declaration?_node`.
-/

namespace LuaAnalysis

theorem DeclKind.isValue_of_isGlobal {kind : DeclKind} (h : kind.isGlobal = true) :
    kind.isValue = true := by
  cases kind with
  | method feature => cases feature <;> first | rfl | cases h
  | _ => first | rfl | cases h

/-! ## What a search finds is a candidate -/

namespace Lookup

variable {l : Lookup} {ref : DeclRef}

theorem mem_of_prefer? {candidates : List DeclRef} {source : SourceId}
    (h : l.prefer? candidates source = some ref) : ref ∈ candidates := by
  obtain ⟨⟨ref', key⟩, hleast, rfl⟩ := Option.map_eq_some_iff.1 h
  obtain ⟨ref, href, hplaced⟩ := List.mem_filterMap.1 (mem_of_firstLeast? hleast)
  obtain ⟨found, -, heq⟩ := Option.map_eq_some_iff.1 hplaced
  obtain ⟨rfl, -⟩ := Prod.mk.inj heq
  exact href

theorem mem_of_directMember? {owner : Owner} {name : String}
    (h : l.directMember? owner name = some ref) : ref ∈ l.index.members owner := by
  obtain ⟨⟨ref', key⟩, hleast, rfl⟩ := Option.map_eq_some_iff.1 h
  obtain ⟨ref, href, hplaced⟩ := List.mem_filterMap.1 (mem_of_firstLeast? hleast)
  split at hplaced
  · split at hplaced
    · obtain ⟨rfl, -⟩ := Prod.mk.inj (Option.some.inj hplaced)
      exact href
    · cases hplaced
  · cases hplaced

theorem directMember?_of_memberAbove? {name : String} {levels : Nat} {seen level : List Owner}
    (h : l.memberAbove? name levels seen level = some ref) :
    ∃ owner, l.directMember? owner name = some ref := by
  -- A member of this level is a member of one of its owners.
  have hhere {found : DeclRef} {owners : List Owner}
      (hfound : (owners.findSome? fun owner => l.directMember? owner name) = some found) :
      ∃ owner, l.directMember? owner name = some found := by
    obtain ⟨owner, -, hdirect⟩ := List.exists_of_findSome?_eq_some hfound
    exact ⟨owner, hdirect⟩
  induction levels generalizing seen level with
  | zero =>
    rw [memberAbove?] at h
    split at h
    · next found hfound => exact Option.some.inj h ▸ hhere hfound
    · cases h
  | succ levels ih =>
    rw [memberAbove?] at h
    split at h
    · next found hfound => exact Option.some.inj h ▸ hhere hfound
    · split at h
      · cases h
      · exact ih h

end Lookup

namespace ProjectIndex

variable {config : Config} {idx : ProjectIndex} {ref : DeclRef}

/-- What stands in a table of a faithful index is a declaration, of the kind that the table is
for. -/
theorem Faithful.decl?_of_mem_refs (h : idx.Faithful config) {κ : Type} [DecidableEq κ]
    {table : Entries → Grouped κ DeclId} {k : κ} {good : Declaration → Prop}
    (htable : ∀ f ∈ idx.files, ∀ i ∈ (table f.entries).values k,
      ∃ d, f.model.decl? i = some d ∧ good d)
    (href : ref ∈ idx.refs table k) : ∃ m d, idx.decl? ref = some (m, d) ∧ good d := by
  obtain ⟨f, hf, i, hi, rfl⟩ := mem_refs.1 href
  obtain ⟨d, hd, hgood⟩ := htable f hf i hi
  refine ⟨f.model, d, ?_, hgood⟩
  rw [decl?_ref h.sorted hf, hd, Option.map_some]

theorem Faithful.member (h : idx.Faithful config) {owner : Owner}
    (href : ref ∈ idx.members owner) :
    ∃ m d, idx.decl? ref = some (m, d) ∧ d.kind.isMember = true :=
  h.decl?_of_mem_refs (fun f hf _ hi => (h.files f hf).sound.members hi) href

theorem Faithful.global (h : idx.Faithful config) {name : String}
    (href : ref ∈ idx.globals name) :
    ∃ m d, idx.decl? ref = some (m, d) ∧ d.name = name ∧ d.kind.isGlobal = true :=
  h.decl?_of_mem_refs (fun f hf _ hi => (h.files f hf).sound.globals hi) href

theorem Faithful.type (h : idx.Faithful config) {name : String}
    (href : ref ∈ (idx.types name).map Prod.fst) :
    ∃ m d, idx.decl? ref = some (m, d) ∧ d.name = name ∧
      ∃ category, d.kind = .namedType category := by
  obtain ⟨⟨ref', category⟩, hmem, rfl⟩ := List.mem_map.1 href
  obtain ⟨f, hf, hentry⟩ := List.mem_flatMap.1 hmem
  obtain ⟨⟨i, category'⟩, hi, heq⟩ := List.mem_map.1 hentry
  obtain ⟨rfl, rfl⟩ := Prod.mk.inj heq
  obtain ⟨d, category, hd, hname, hkind⟩ := (h.files f hf).sound.types hi
  have hdecl : f.model.decl? i = some d := hd
  refine ⟨f.model, d, ?_, hname, category, hkind⟩
  rw [decl?_ref h.sorted hf, hdecl, Option.map_some]

end ProjectIndex

/-! ## The ways to a declaration -/

/-- How a node of one file refers to a declaration with a name that another file makes. -/
inductive Refers (m : FileModel) (x : NodeId) (owner : FileModel) (d : Declaration) : Prop where
  | own (hm : owner = m) (hx : x = d.node)
  | value (hname : m.tree.node? x = some (.nameExpr d.name)) (hvalue : d.kind.isValue = true)
      (hseen : d.kind.isGlobal = true ∨ owner = m ∧ d.position < (m.tree.span x).start)
  | type (hname : m.tree.node? x = some (.docNameType d.name)) (category : TypeCategory)
      (hkind : d.kind = .namedType category)

/-- A name that a node binds is the key of no member access. -/
theorem SyntaxTree.memberAccess?_namesAt {t : SyntaxTree} (h : t.Proper) {x w : NodeId}
    (hx : x ∈ t.namesAt w) : t.memberAccess? x = none := by
  have hname := isName_of_namesAt h hx
  unfold memberAccess?
  split
  · next hindex =>
    rw [isName, hindex] at hname
    cases hname
  · split
    · next p hp =>
      split
      · next hindex =>
        split
        · -- The access would be where the name is bound, and it binds nothing.
          rw [namesAt_parent h hx (h.parent?_eq.1 hp), namesAt, hindex] at hx
          cases hx
        · rfl
      · rfl
    · rfl

namespace Project

variable {config : Config} {p : Project} {f : PublishedFile} {ref : DeclRef} {m : FileModel}
  {d : Declaration}

theorem directMember?_of_memberOfType? {type : Ty} {name : String}
    (h : p.memberOfType? type name = some ref) :
    ∃ owner, p.directMember? owner name = some ref := by
  obtain ⟨owner, -, hmember⟩ := List.exists_of_findSome?_eq_some h
  exact Lookup.directMember?_of_memberAbove? hmember

/-- A member access leads to a member. -/
theorem isMember_of_indexMemberStep? (h : p.index.Faithful config) {typeOf : NodeId → Nat → Ty}
    {index : NodeId} (hfound : p.indexMemberStep? m typeOf index = some ref) :
    ∃ m' d, p.index.decl? ref = some (m', d) ∧ d.kind.isMember = true := by
  unfold indexMemberStep? at hfound
  split at hfound
  · split at hfound
    · obtain ⟨owner, hdirect⟩ := directMember?_of_memberOfType? hfound
      exact h.member (Lookup.mem_of_directMember? hdirect)
    · cases hfound
  · cases hfound

/-- A node refers to a declaration with a name in one of the three ways. -/
theorem refers_of_declaration? (h : p.index.Faithful config) (hf : f ∈ p.index.files) {x : NodeId}
    (hx : p.declaration? f.model x = some ref) (hd : p.index.decl? ref = some (m, d))
    (hnamed : d.kind.isNamed = true) : Refers f.model x m d := by
  obtain ⟨revision, generation, hanalysed⟩ := (h.files f hf).analysed
  have hproper := (h.files f hf).proper
  -- A reference into the file itself.
  have hlocal {i : DeclId} (href : f.model.ref i = ref) :
      m = f.model ∧ f.model.decl? i = some d := by
    rw [← href, ProjectIndex.decl?_ref h.sorted hf] at hd
    obtain ⟨e, he, heq⟩ := Option.map_eq_some_iff.1 hd
    obtain ⟨rfl, rfl⟩ := Prod.mk.inj heq
    exact ⟨rfl, he⟩
  unfold declaration? declarationStep? at hx
  split at hx
  · next found hfound =>
    obtain rfl := Option.some.inj hx
    obtain ⟨access, -, hfound⟩ := Option.bind_eq_some_iff.1 hfound
    obtain ⟨m', d', hd', hmember⟩ := isMember_of_indexMemberStep? h hfound
    obtain ⟨rfl, rfl⟩ := Prod.mk.inj (Option.some.inj (hd'.symm.trans hd))
    rw [DeclKind.not_isNamed_of_isMember hmember] at hnamed
    cases hnamed
  · split at hx
    · next i hanchor =>
      obtain ⟨rfl, hdecl⟩ := hlocal (Option.some.inj hx)
      exact .own rfl (FileModel.node_of_anchored hproper hanalysed hanchor hdecl hnamed)
    · split at hx
      · next name hname =>
        rcases Option.or_eq_some_iff.1 hx with hfind | ⟨-, hglobal⟩
        · obtain ⟨i, hfind, href⟩ := Option.map_eq_some_iff.1 hfind
          obtain ⟨rfl, hdecl⟩ := hlocal href
          obtain ⟨d', hd', hvalue, rfl, hposition⟩ := FileModel.find?_sound hfind
          obtain rfl := Option.some.inj (hd'.symm.trans hdecl)
          exact .value hname hvalue (.inr ⟨rfl, hposition⟩)
        · obtain ⟨m', d', hd', rfl, hkind⟩ := h.global (Lookup.mem_of_prefer? hglobal)
          obtain ⟨rfl, rfl⟩ := Prod.mk.inj (Option.some.inj (hd'.symm.trans hd))
          exact .value hname (DeclKind.isValue_of_isGlobal hkind) (.inl hkind)
      · next name hname =>
        obtain ⟨m', d', hd', rfl, category, hkind⟩ := h.type (Lookup.mem_of_prefer? hx)
        obtain ⟨rfl, rfl⟩ := Prod.mk.inj (Option.some.inj (hd'.symm.trans hd))
        exact .type hname category hkind
      · cases hx

/-- The node that makes a declaration with a name refers to it. -/
theorem declaration?_node (h : p.index.Faithful config) (hd : p.index.decl? ref = some (m, d))
    (hnamed : d.kind.isNamed = true) : p.declaration? m d.node = some ref := by
  obtain ⟨f, hf, rfl, href, hdecl⟩ := (ProjectIndex.decl?_eq_some h.sorted).1 hd
  obtain ⟨revision, generation, hanalysed⟩ := (h.files f hf).analysed
  have hproper := (h.files f hf).proper
  obtain ⟨w, -, token, hdeclares⟩ := FileModel.declares_of_decl? hproper hanalysed hdecl
  have hnone := SyntaxTree.memberAccess?_namesAt hproper (hdeclares.named hnamed).1
  have hanchor := FileModel.anchored_node hproper hanalysed hdecl hnamed
  unfold declaration? declarationStep?
  rw [hnone, Option.bind_none]
  dsimp only
  rw [hanchor]
  exact congrArg some href.symm

/-- The node that makes a declaration with a name is in the tree, where its name is. -/
theorem node_mem_below (h : p.index.Faithful config) (hd : p.index.decl? ref = some (m, d))
    (hnamed : d.kind.isNamed = true) :
    d.node ∈ m.tree.below m.tree.root ∧ d.loc = m.tree.loc d.node := by
  obtain ⟨f, hf, rfl, -, hdecl⟩ := (ProjectIndex.decl?_eq_some h.sorted).1 hd
  obtain ⟨revision, generation, hanalysed⟩ := (h.files f hf).analysed
  have hproper := (h.files f hf).proper
  obtain ⟨w, hw, token, hdeclares⟩ := FileModel.declares_of_decl? hproper hanalysed hdecl
  obtain ⟨hname, -, hloc⟩ := hdeclares.named hnamed
  obtain ⟨n, hn, hpart⟩ := SyntaxTree.part_of_namesAt hname
  refine ⟨(SyntaxTree.mem_below hproper).2 ?_, hloc⟩
  exact .head (SyntaxTree.part_mem_children hn hpart) ((SyntaxTree.mem_below hproper).1 hw)

end Project

end LuaAnalysis
