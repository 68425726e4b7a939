import LuaAnalysis.Proofs.Project.Reached
import LuaAnalysis.Proofs.Project.Refers
import LuaAnalysis.Syntax.Shorthand

/-!
# The references of a name

The references of a declaration are searched in four ways: in its file behind it, among the name
expressions of its name, or among the names of types. For a declaration with a name they all come to
the same: they list the nodes that look-up leads to the declaration, each once.

Main statement: `references_eq_nodes`.
-/

namespace LuaAnalysis

/-! ## Each once -/

/-- The members of a list that are met for the first time behind some others. -/
theorem foldl_distinct (rs seen : List Reference) (h : seen.Nodup) :
    (∃ new, rs.foldl (fun seen r => if r ∈ seen then seen else seen ++ [r]) seen = seen ++ new) ∧
      (rs.foldl (fun seen r => if r ∈ seen then seen else seen ++ [r]) seen).Nodup ∧
      ∀ r, r ∈ rs.foldl (fun seen r => if r ∈ seen then seen else seen ++ [r]) seen ↔
        r ∈ seen ∨ r ∈ rs := by
  induction rs generalizing seen with
  | nil => exact ⟨⟨[], by simp⟩, h, by simp⟩
  | cons r rs ih =>
    rw [List.foldl_cons]
    split
    · next hr =>
      obtain ⟨hnew, hnodup, hmem⟩ := ih seen h
      refine ⟨hnew, hnodup, fun r' => ?_⟩
      rw [hmem, List.mem_cons]
      constructor
      · rintro (hr' | hr')
        · exact .inl hr'
        · exact .inr (.inr hr')
      · rintro (hr' | rfl | hr')
        · exact .inl hr'
        · exact .inl hr
        · exact .inr hr'
    · next hr =>
      have hseen : (seen ++ [r]).Nodup := h.append (List.nodup_singleton r) (by simpa using hr)
      obtain ⟨⟨new, hnew⟩, hnodup, hmem⟩ := ih (seen ++ [r]) hseen
      refine ⟨⟨r :: new, by rw [hnew, List.append_assoc, List.singleton_append]⟩, hnodup, ?_⟩
      intro r'
      rw [hmem, List.mem_append, List.mem_singleton, List.mem_cons, or_assoc]

theorem nodup_distinctReferences (rs : List Reference) : (distinctReferences rs).Nodup :=
  (foldl_distinct rs [] List.nodup_nil).2.1

theorem mem_distinctReferences {rs : List Reference} {r : Reference} :
    r ∈ distinctReferences rs ↔ r ∈ rs := by
  rw [distinctReferences, (foldl_distinct rs [] List.nodup_nil).2.2, List.mem_nil_iff, false_or]

theorem head?_distinctReferences (r : Reference) (rs : List Reference) :
    (distinctReferences (r :: rs)).head? = some r := by
  obtain ⟨new, hnew⟩ := (foldl_distinct rs [r] (List.nodup_singleton r)).1
  have hfirst : distinctReferences (r :: rs) = [r] ++ new := hnew
  rw [hfirst, List.singleton_append, List.head?_cons]

/-! ## Where a name is looked for -/

namespace Project

variable {config : Config} {p : Project} {f : PublishedFile} {ref : DeclRef} {m : FileModel}
  {d : Declaration} {x : NodeId}

/-- The nodes among which the references of a declaration with a name are. -/
def nameCandidates (p : Project) (m : FileModel) (d : Declaration) : List (FileModel × NodeId) :=
  match d.kind with
  | .namedType _ => p.index.typeRefs d.name
  | .global | .method .global _ => p.index.nameExprs d.name
  | _ => laterNames m d

theorem references_eq (h : p.index.Faithful config) (hd : p.index.decl? ref = some (m, d))
    (hnamed : d.kind.isNamed = true) :
    p.references ref =
      distinctReferences (d.reference :: p.referring ref (p.nameCandidates m d)) := by
  have hcanonical : p.canonical ref = ref := by
    rw [canonical, hd, Option.bind_some]
    exact (congrArg (·.getD ref) (declaration?_node h hd hnamed)).trans rfl
  unfold references nameCandidates
  dsimp only
  rw [hcanonical, hd]
  dsimp only
  cases hkind : d.kind with
  | method feature closure =>
    rw [hkind] at hnamed
    cases feature with
    | lexical | global => rfl
    | field => cases hnamed
  | localVar | parameter | global | namedType => rfl
  | _ =>
    rw [hkind] at hnamed
    cases hnamed

theorem mem_referring {candidates : List (FileModel × NodeId)} {r : Reference} :
    r ∈ p.referring ref candidates ↔ ∃ m x, (m, x) ∈ candidates ∧
      p.declaration? m x = some ref ∧ r = ⟨m.tree.loc x, x⟩ := by
  simp only [referring, List.mem_map, List.mem_filter, decide_eq_true_eq, Prod.exists, and_assoc,
    eq_comm (a := r)]

/-- Every candidate is a node of a published file. -/
theorem below_of_mem_nameCandidates (h : p.index.Faithful config) (hf : f ∈ p.index.files)
    {m : FileModel} (hx : (m, x) ∈ p.nameCandidates f.model d) :
    ∃ g ∈ p.index.files, g.model = m ∧ x ∈ g.model.tree.below g.model.tree.root := by
  have hlater (hx : (m, x) ∈ laterNames f.model d) :
      ∃ g ∈ p.index.files, g.model = m ∧ x ∈ g.model.tree.below g.model.tree.root := by
    obtain ⟨y, hy, heq⟩ := List.mem_map.1 hx
    obtain ⟨rfl, rfl⟩ := Prod.mk.inj heq
    refine ⟨f, hf, rfl, ?_⟩
    rw [SyntaxTree.below_eq_descendants (h.files f hf).proper]
    exact List.mem_cons_of_mem _ (List.mem_filter.1 hy).1
  have hnames (hx : (m, x) ∈ p.index.nameExprs d.name) :
      ∃ g ∈ p.index.files, g.model = m ∧ x ∈ g.model.tree.below g.model.tree.root := by
    obtain ⟨g, hg, hmem, hm⟩ := ProjectIndex.mem_occurrences.1 hx
    exact ⟨g, hg, hm, ((h.files g hg).sound.nameExprs hmem).1⟩
  unfold nameCandidates at hx
  split at hx
  · obtain ⟨g, hg, hmem, hm⟩ := ProjectIndex.mem_occurrences.1 hx
    exact ⟨g, hg, hm, ((h.files g hg).sound.typeRefs hmem).1⟩
  · exact hnames hx
  · exact hnames hx
  · exact hlater hx

/-- Every node that refers to a declaration makes it or is a candidate. -/
theorem mem_nameCandidates (h : p.index.Faithful config) (hindex : config.indexNameExprs = true)
    (hf : f ∈ p.index.files) (hx : x ∈ f.model.tree.below f.model.tree.root)
    (hrefers : Refers f.model x m d) :
    m = f.model ∧ x = d.node ∨ (f.model, x) ∈ p.nameCandidates m d := by
  cases hrefers with
  | own hm hx => exact .inl ⟨hm, hx⟩
  | type hname category hkind =>
    refine .inr ?_
    rw [nameCandidates, hkind]
    exact ProjectIndex.mem_occurrences.2 ⟨f, hf, (h.files f hf).types hindex x hx _ hname, rfl⟩
  | value hname hvalue hseen =>
    refine .inr ?_
    have hnames : (f.model, x) ∈ p.index.nameExprs d.name :=
      ProjectIndex.mem_occurrences.2 ⟨f, hf, (h.files f hf).names hindex x hx _ hname, rfl⟩
    have hlater (hlocal : d.kind.isGlobal = false) : (f.model, x) ∈ laterNames m d := by
      rw [hlocal] at hseen
      obtain ⟨rfl, hposition⟩ := hseen.resolve_left Bool.false_ne_true
      have hproper := (h.files f hf).proper
      rw [SyntaxTree.below_eq_descendants hproper] at hx
      rcases List.mem_cons.1 hx with rfl | hx
      · -- The root of a tree is no name.
        obtain ⟨block, hroot⟩ := hproper.root
        rw [hroot] at hname
        cases hname
      · refine List.mem_map.2 ⟨x, List.mem_filter.2 ⟨hx, ?_⟩, rfl⟩
        simp [hname, hposition]
    -- The names of a global are asked of the index, those of a local are looked for in its file.
    unfold nameCandidates
    cases hkind : d.kind with
    | method feature closure =>
      rw [hkind] at hvalue hlater
      cases feature with
      | lexical => exact hlater rfl
      | global => exact hnames
      | field => cases hvalue
    | global => exact hnames
    | localVar | parameter =>
      rw [hkind] at hlater
      exact hlater rfl
    | _ =>
      rw [hkind] at hvalue
      cases hvalue

/-- The references of a declaration with a name are the nodes that lead to it. -/
theorem mem_references (h : p.index.Faithful config) (hindex : config.indexNameExprs = true)
    (hd : p.index.decl? ref = some (m, d)) (hnamed : d.kind.isNamed = true) {r : Reference} :
    r ∈ p.references ref ↔ ∃ f ∈ p.index.files,
      r.node ∈ f.model.tree.below f.model.tree.root ∧
        p.declaration? f.model r.node = some ref ∧ r.loc = f.model.tree.loc r.node := by
  obtain ⟨f, hf, rfl, -, -⟩ := (ProjectIndex.decl?_eq_some h.sorted).1 hd
  obtain ⟨hbelow, hloc⟩ := node_mem_below h hd hnamed
  rw [references_eq h hd hnamed, mem_distinctReferences, List.mem_cons, mem_referring]
  constructor
  · rintro (rfl | ⟨m, x, hcandidate, hx, rfl⟩)
    · exact ⟨f, hf, hbelow, declaration?_node h hd hnamed, hloc⟩
    · obtain ⟨g, hg, rfl, hxbelow⟩ := below_of_mem_nameCandidates h hf hcandidate
      exact ⟨g, hg, hxbelow, hx, rfl⟩
  · rintro ⟨g, hg, hrbelow, hr, hrloc⟩
    have hrefers := refers_of_declaration? h hg hr hd hnamed
    have heq : r = ⟨g.model.tree.loc r.node, r.node⟩ := by rw [← hrloc]
    rcases mem_nameCandidates h hindex hg hrbelow hrefers with ⟨hm, hnode⟩ | hcandidate
    · left
      rw [heq, Declaration.reference, hnode, hloc, hm]
    · exact .inr ⟨g.model, r.node, hcandidate, hr, heq⟩

end Project

/-- The references of a declaration with a name, in any compilation that comes about: the place that
declares it comes first, every occurrence is listed once, and the occurrences are the nodes of the
published trees that lead to it. -/
theorem references_eq_nodes {config : Config} (hindex : config.indexNameExprs = true)
    {c : Compilation} (h : Compilation.Reached config c) {ref : DeclRef} {m : FileModel}
    {d : Declaration} (hd : c.index.decl? ref = some (m, d)) (hnamed : d.kind.isNamed = true) :
    (c.project.references ref).head? = some d.reference ∧
      ((c.project.references ref).map fun r => (r.loc.source, r.node)).Nodup ∧
      ∀ r, r ∈ c.project.references ref ↔ ∃ f ∈ c.index.files,
        r.node ∈ f.model.tree.root :: f.model.tree.descendants f.model.tree.root ∧
          c.project.declaration? f.model r.node = some ref ∧ r.loc = f.model.tree.loc r.node := by
  obtain ⟨-, hfaithful⟩ := h.faithful
  have hmem {r : Reference} := Project.mem_references (p := c.project) hfaithful hindex hd hnamed
    (r := r)
  have heq := Project.references_eq (p := c.project) hfaithful hd hnamed
  refine ⟨?_, ?_, fun r => ?_⟩
  · rw [heq]
    exact head?_distinctReferences _ _
  · -- Two references of one node in one file are equal, and none is listed twice.
    have hnodup : (c.project.references ref).Nodup := heq ▸ nodup_distinctReferences _
    refine hnodup.map_on fun r hr s hs hrs => ?_
    obtain ⟨f, hf, -, -, hloc⟩ := hmem.1 hr
    obtain ⟨g, hg, -, -, hloc'⟩ := hmem.1 hs
    obtain ⟨hsource, hnode⟩ := Prod.mk.inj hrs
    obtain rfl : f = g := by
      rw [hloc, hloc'] at hsource
      exact hfaithful.sorted.unique hf hg hsource
    cases r
    cases s
    dsimp only at hloc hloc' hnode
    rw [hloc, hloc', hnode]
  · rw [hmem]
    refine exists_congr fun f => and_congr_right fun hf => ?_
    rw [SyntaxTree.below_eq_descendants (hfaithful.files f hf).proper]

/-- `g = 1` -/
def definesGlobal : Sketch :=
  .block [.node (.assignStat [.var "g"] [.literal (.integer 1)])]

/-- `local y = g` -/
def usesGlobal : Sketch :=
  .block [.declare ["y"] [.var "g"]]

/-- A global that is made in one file and used in another. -/
def sharing : Compilation :=
  match ((({} : Compilation).register "/a.lua").2.register "/b.lua").2.update
      [SyntaxTree.ofSketch 0 (some definesGlobal), SyntaxTree.ofSketch 1 (some usesGlobal)] with
  | .ok (_, c) => c
  | .error _ => {}

theorem reached_sharing : Compilation.Reached {} sharing := by
  unfold sharing
  split
  · next hupdate =>
    refine ((Compilation.Reached.start.register "/a.lua").register "/b.lua").update ?_ hupdate
    intro t ht
    rcases List.mem_cons.1 ht with rfl | ht
    · exact SyntaxTree.proper_ofSketch 0 _ (by decide)
    · obtain rfl := List.mem_singleton.1 ht
      exact SyntaxTree.proper_ofSketch 1 _ (by decide)
  · exact .start

/-- The use of the global is node 1 of the second file. -/
theorem references_across_files :
    ∃ m d, sharing.index.decl? ⟨0, 1, 0⟩ = some (m, d) ∧ d.kind = .global ∧
      (sharing.project.references ⟨0, 1, 0⟩).head? = some d.reference ∧
      ((sharing.project.references ⟨0, 1, 0⟩).map fun r => (r.loc.source, r.node)).Nodup ∧
      ⟨⟨1, 2, 3⟩, 1⟩ ∈ sharing.project.references ⟨0, 1, 0⟩ := by
  have hkind : (sharing.index.decl? ⟨0, 1, 0⟩).map (·.2.kind) = some .global := by decide +kernel
  obtain ⟨⟨m, d⟩, hd, hglobal⟩ := Option.map_eq_some_iff.1 hkind
  have hnamed : d.kind.isNamed = true := by rw [show d.kind = .global from hglobal]; rfl
  obtain ⟨hhead, hnodup, hmem⟩ := references_eq_nodes (by decide) reached_sharing hd hnamed
  refine ⟨m, d, hd, hglobal, hhead, hnodup, (hmem _).2 ?_⟩
  have huse : ((sharing.index.file? 1).any fun f =>
      decide (1 ∈ f.model.tree.root :: f.model.tree.descendants f.model.tree.root ∧
        sharing.project.declaration? f.model 1 = some ⟨0, 1, 0⟩ ∧
          (⟨1, 2, 3⟩ : Loc) = f.model.tree.loc 1)) = true := by decide +kernel
  obtain ⟨f, hf, hleads⟩ := (Option.any_eq_true _ _).1 huse
  exact ⟨f, List.mem_of_find?_eq_some hf, of_decide_eq_true hleads⟩

end LuaAnalysis
