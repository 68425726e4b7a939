import LuaAnalysis.Proofs.File.NameResolution
import LuaAnalysis.Proofs.File.OpenTasks
import LuaAnalysis.Proofs.Project.Evaluation
import LuaAnalysis.Proofs.Project.Update
import LuaAnalysis.Syntax.Shorthand

/-!
# What a free name means

A name expression is free where nothing local binds its name. Within one file the free names of one
spelling mean globals of that spelling which the file itself declares, if it declares any; otherwise
all of them mean what the project has under the name. So they all mean the same unless the file
declares the global more than once.

A file does so where the later assignment does not see the earlier one: the names in a block are not
looked at from outside the block, so in `do x = 1 end x = 2` both assignments declare `x`
(`assignments_declare_twice`).

Main statement: `free_names_agree`.
-/

namespace LuaAnalysis

variable {config : Config} {t : SyntaxTree}

/-! ## Names that declare -/

/-- A name expression is no name. -/
theorem SyntaxTree.ne_of_is_name {u x : NodeId} {name : String}
    (hu : t.node? u = some (.nameExpr name)) (hx : t.Is .name x) : u ≠ x := by
  rintro rfl
  obtain ⟨n, hn, hadmits⟩ := hx
  rw [hu, Option.some.injEq] at hn
  subst hn
  cases hadmits

/-- Only assignments and function statements name what they declare by an expression. -/
theorem SyntaxTree.assigns_of_nameExpr (h : t.Proper) {w u : NodeId} {name : String}
    (hu : t.node? u = some (.nameExpr name)) (hnames : u ∈ t.namesAt w) : t.assigns w = true := by
  unfold namesAt at hnames
  split at hnames
  case h_2 hw => rw [assigns, hw]
  case h_3 target closure hw =>
    obtain rfl := List.mem_singleton.1 (List.mem_filter.1 hnames).1
    rw [assigns, hw]
    dsimp only
    rw [nameText?, hu]
    rfl
  case h_10 => cases hnames
  -- Everywhere else the parts are names.
  all_goals
    next hw =>
    have hfits := h.fits hw
    simp only [Node.Fits, Node.expects, Node.children, List.append_assoc,
      Node.forall₂_each_append, Node.forall₂_each, Option.toList_some] at hfits
    exact absurd rfl (ne_of_is_name hu (hfits.1 u hnames))

/-- A name expression declares nothing but a global of its name. -/
theorem Declares.global_of_nameExpr (h : t.Proper) {w u : NodeId} {d : Declaration}
    {token : Option NodeId} {name : String} (hd : Declares t w d token)
    (hu : t.node? u = some (.nameExpr name)) (hplace : u = d.node ∨ token = some u) :
    d.kind.isGlobal = true ∧ d.name = name := by
  have hnode {x : NodeId} {n : Node NodeId} (hx : t.node? x = some n)
      (hne : ∀ text, n ≠ .nameExpr text) : u ≠ x := by
    rintro rfl
    rw [hu, Option.some.injEq] at hx
    exact hne name hx.symm
  have hkey {x : NodeId} {text : String} (hx : t.keyText? x = some text) : u ≠ x := by
    rintro rfl
    rw [SyntaxTree.keyText?, hu] at hx
    cases hx
  cases hnamed : d.kind.isNamed with
  | true =>
    obtain ⟨hnames, htoken, -⟩ := hd.named hnamed
    obtain rfl := hplace.resolve_right (by rw [htoken]; simp)
    have hassigns := SyntaxTree.assigns_of_nameExpr h hu hnames
    cases hd with
    | global _ _ hname | globalFunction _ hname =>
      rw [hu, Option.some.injEq, Node.nameExpr.injEq] at hname
      exact ⟨rfl, hname.symm⟩
    | localFunction _ hname => exact absurd rfl (hnode hname (by simp))
    | localVar hw | counter hw | loopName hw | parameter hw =>
      rw [SyntaxTree.assigns, hw] at hassigns
      cases hassigns
    | namedType hw =>
      unfold SyntaxTree.isDefinition at hw
      unfold SyntaxTree.assigns at hassigns
      split at hw <;> simp_all
    | index | fieldFunction | docParameter | label | genericParameter | tableField | enumField
    | docField => cases hnamed
  | false =>
    -- The nodes of all others are no expressions, or index expressions; their names are keys.
    cases hd with
    | index _ _ hindex hname | fieldFunction _ hindex hname =>
      rcases hplace with heq | heq
      · exact absurd heq (hnode hindex (by simp))
      · exact absurd (Option.some.inj heq).symm (hkey hname)
    | tableField hw _ hname =>
      rcases hplace with heq | heq
      · exact absurd heq (hnode hw (by simp))
      · exact absurd (Option.some.inj heq).symm (hkey hname)
    | label hw =>
      rcases hplace with heq | heq
      · exact absurd heq (hnode hw (by simp))
      · have hfits := h.fits hw
        simp only [Node.Fits, Node.expects, Node.children, Node.forall₂_each,
          Option.toList_some] at hfits
        exact absurd (Option.some.inj heq).symm (SyntaxTree.ne_of_is_name hu (hfits _ (by simp)))
    | genericParameter hparam =>
      rcases hplace with heq | heq
      · exact absurd heq (hnode hparam (by simp))
      · have hfits := h.fits hparam
        simp only [Node.Fits, Node.expects, Node.children, Node.forall₂_each_append,
          Node.forall₂_each, Option.toList_some] at hfits
        exact absurd (Option.some.inj heq).symm (SyntaxTree.ne_of_is_name hu (hfits.1 _ (by simp)))
    | @docField field key type nullable hfield =>
      rcases hplace with heq | heq
      · exact absurd heq (hnode hfield (by simp))
      · cases key with
        | integer | signature => cases heq
        | name token =>
          have hfits := h.fits hfield
          simp only [Node.Fits, Node.expects, Node.children] at hfits
          exact absurd (Option.some.inj heq).symm
            (SyntaxTree.ne_of_is_name hu (List.forall₂_cons.1 hfits).1)
    | docParameter htag =>
      have hfits := h.fits htag
      simp only [Node.Fits, Node.expects, Node.children, Node.forall₂_each_append,
        Node.forall₂_each, Option.toList_some] at hfits
      have hne := SyntaxTree.ne_of_is_name hu (hfits.1 _ List.mem_cons_self)
      exact absurd (hplace.resolve_right (by simp)) hne
    | enumField hw hx =>
      have hfits := h.fits hw
      simp only [Node.Fits, Node.expects, Node.children, List.append_assoc,
        Node.forall₂_each_append, Node.forall₂_each] at hfits
      have hne := SyntaxTree.ne_of_is_name hu (hfits.2.2 _ hx)
      exact absurd (hplace.resolve_right (by simp)) hne
    | localVar | global | localFunction | globalFunction | counter | loopName | parameter
    | namedType => cases hnamed

/-! ## A search that prefers its own file -/

/-- A candidate of the file itself goes before those of other files. -/
theorem Lookup.prefer?_own {l : Lookup} {candidates : List DeclRef} {ref : DeclRef}
    (href : ref ∈ candidates) (hd : (l.index.decl? ref).isSome = true) :
    ∃ found ∈ candidates, l.prefer? candidates ref.source = some found ∧
      found.source = ref.source := by
  obtain ⟨⟨m, d⟩, hd⟩ := Option.isSome_iff_exists.1 hd
  let place (ref' : DeclRef) : Option (DeclRef × Nat × Nat × Nat) :=
    (l.index.decl? ref').map fun entry =>
      (ref', (if ref'.source = ref.source then 0 else 1), ref'.source, entry.2.position)
  have hplace : (ref, 0, ref.source, d.position) ∈ candidates.filterMap place :=
    List.mem_filterMap.2 ⟨ref, href, by simp [place, hd]⟩
  have hsome : firstLeast? tripleBefore Prod.snd (candidates.filterMap place) ≠ none := fun hnone =>
    List.ne_nil_of_mem hplace (firstLeast?_eq_none.1 hnone)
  obtain ⟨least, hleast⟩ := Option.ne_none_iff_exists'.1 hsome
  have hle := le_of_firstLeast? hleast hplace
  obtain ⟨found, hfound, hplaced⟩ := List.mem_filterMap.1 (mem_of_firstLeast? hleast)
  obtain ⟨⟨m', d'⟩, -, rfl⟩ := Option.map_eq_some_iff.1 hplaced
  refine ⟨found, hfound, ?_, ?_⟩
  · show (firstLeast? tripleBefore Prod.snd (candidates.filterMap place)).map Prod.fst = _
    rw [hleast]
    rfl
  · -- The first part of the key says whether a candidate is of the file itself.
    by_contra hne
    simp [hne] at hle

/-! ## Free names -/

/-- Whether a node is a name expression with a name that nothing local binds there. -/
structure SyntaxTree.FreeName (t : SyntaxTree) (name : String) (u : NodeId) : Prop where
  below : u ∈ t.below t.root
  spelled : t.node? u = some (.nameExpr name)
  free : ∃ env, t.envAt? u = some env ∧ t.binding? env name = none

instance (t : SyntaxTree) (name : String) (u : NodeId) : Decidable (t.FreeName name u) :=
  decidable_of_iff (u ∈ t.below t.root ∧ t.node? u = some (.nameExpr name) ∧
      (t.envAt? u).any (fun env => (t.binding? env name).isNone) = true)
    ⟨fun ⟨hbelow, hspelled, hfree⟩ => by
      obtain ⟨env, henv, hnone⟩ := (Option.any_eq_true _ _).1 hfree
      exact ⟨hbelow, hspelled, env, henv, Option.isNone_iff_eq_none.1 hnone⟩,
    fun ⟨hbelow, hspelled, env, henv, hnone⟩ =>
      ⟨hbelow, hspelled, (Option.any_eq_true _ _).2 ⟨env, henv, by rw [hnone]; rfl⟩⟩⟩

/-- The globals of a name that a file declares. -/
def FileModel.DeclaresGlobal (m : FileModel) (name : String) (i : DeclId) : Prop :=
  ∃ d, m.decl? i = some d ∧ d.kind.isGlobal = true ∧ d.name = name

section
variable {c : Compilation} {f : PublishedFile} {name : String} {u : NodeId} {i : DeclId}

/-- A look-up of a free name finds nothing but globals of the file. -/
theorem PublishedFile.Faithful.declaresGlobal_of_find? (h : f.Faithful config)
    (ho : f.model.tree.InOrder) (hu : f.model.tree.FreeName name u)
    (hi : f.model.find? u name = some i) : f.model.DeclaresGlobal name i := by
  obtain ⟨revision, generation, hm⟩ := h.analysed
  obtain ⟨env, henv, hfree⟩ := hu.free
  obtain ⟨wf, hright⟩ := Outline.right_outline config h.proper ho
  obtain ⟨sid, s, haround, -, hsees⟩ :=
    hright _ ((SyntaxTree.envAt?_eq_some h.proper).1 henv) name hu.spelled
  have hfind : f.model.find? u name =
      (f.model.tree.outline config).look sid (f.model.tree.span u).start name := by
    rw [hm]
    exact FileModel.find?_eq_look wf haround name
  have hmatch := hsees name
  rw [hfree, ← hfind, hi] at hmatch
  obtain ⟨d, hd, hglobal⟩ := hmatch
  obtain ⟨d', hd', -, hname, -⟩ := FileModel.find?_sound hi
  have hdecl : f.model.decl? i = some d := by
    rw [hm]
    exact hd
  obtain rfl : d' = d := Option.some.inj (hd'.symm.trans hdecl)
  exact ⟨d', hd', hglobal, hname⟩

/-- A name expression that declares something declares a global of its name. -/
theorem PublishedFile.Faithful.declaresGlobal_of_anchored? (h : f.Faithful config)
    (hu : f.model.tree.node? u = some (.nameExpr name)) (hi : f.model.anchored? u = some i) :
    f.model.DeclaresGlobal name i := by
  obtain ⟨revision, generation, hm⟩ := h.analysed
  obtain ⟨w, d, token, hd, hdeclares, hplace⟩ :=
    FileModel.declares_of_anchored? h.proper hm hi
  obtain ⟨hglobal, hname⟩ := hdeclares.global_of_nameExpr h.proper hu hplace
  exact ⟨d, hd, hglobal, hname⟩

namespace Compilation

/-- A published file lists the globals that it declares. -/
theorem Reached.mem_globals (h : Reached config c) (hf : f ∈ c.index.files)
    (hi : f.model.DeclaresGlobal name i) : f.model.ref i ∈ c.index.globals name := by
  obtain ⟨d, hd, hglobal, rfl⟩ := hi
  obtain ⟨members, hentries⟩ := h.entries f hf
  obtain ⟨revision, generation, hm⟩ := (h.faithful.2.files f hf).analysed
  have hposted := Outline.posted config (h.faithful.2.files f hf).proper
  have hdecl : (f.model.tree.outline config).decls[i]? = some d := by
    rw [hm] at hd
    exact hd
  refine ProjectIndex.mem_refs.2 ⟨f, hf, i, ?_, rfl⟩
  rw [hentries]
  exact hposted.globals hdecl hglobal

/-- What the project has under a name for a file that declares it is one of its own globals. -/
theorem Reached.global?_own (h : Reached config c) (hf : f ∈ c.index.files)
    (hi : f.model.DeclaresGlobal name i) :
    ∃ j, c.project.global? name f.source = some (f.model.ref j) ∧
      f.model.DeclaresGlobal name j := by
  have hsorted := h.faithful.2.sorted
  obtain ⟨d, hd, -⟩ := id hi
  have hsome : (c.index.decl? (f.model.ref i)).isSome = true := by
    rw [ProjectIndex.decl?_ref hsorted hf, hd]
    rfl
  obtain ⟨found, hfound, hprefer, hsource⟩ :=
    Lookup.prefer?_own (l := c.project.toLookup) (h.mem_globals hf hi) hsome
  obtain ⟨g, hg, j, hj, rfl⟩ := ProjectIndex.mem_refs.1 hfound
  obtain rfl := hsorted.unique hg hf hsource
  obtain ⟨d', hd', hname, hglobal⟩ := (h.faithful.2.files g hg).sound.globals hj
  exact ⟨j, hprefer, d', hd', hglobal, hname⟩

/-- A free name means a global that its file declares under the name, if there is one, and otherwise
what the project has under the name. -/
theorem Reached.declaration?_of_freeName (h : Reached config c) (hf : f ∈ c.index.files)
    (ho : f.model.tree.InOrder) (hu : f.model.tree.FreeName name u) :
    (∃ i, f.model.DeclaresGlobal name i ∧
      c.project.declaration? f.model u = some (f.model.ref i)) ∨
      (¬ ∃ i, f.model.DeclaresGlobal name i) ∧
        c.project.declaration? f.model u = c.project.global? name f.source := by
  have hfaithful := h.faithful.2.files f hf
  have hnamed : c.project.declaration? f.model u = c.project.named? f.model u :=
    Project.declarationStep?_nameExpr hu.spelled _
  rw [hnamed, Project.named?]
  cases hanchor : f.model.anchored? u with
  | some i => exact .inl ⟨i, hfaithful.declaresGlobal_of_anchored? hu.spelled hanchor, rfl⟩
  | none =>
    rw [hu.spelled]
    dsimp only
    cases hfind : f.model.find? u name with
    | some i => exact .inl ⟨i, hfaithful.declaresGlobal_of_find? ho hu hfind, rfl⟩
    | none =>
      -- The scopes do not have the name, so the project is asked for it.
      by_cases hdeclares : ∃ i, f.model.DeclaresGlobal name i
      · obtain ⟨i, hi⟩ := hdeclares
        obtain ⟨j, hglobal, hj⟩ := h.global?_own hf hi
        exact .inl ⟨j, hj, hglobal⟩
      · exact .inr ⟨hdeclares, rfl⟩

/-- The name expression that declares a global means it. -/
theorem Reached.declaration?_of_global (h : Reached config c) (hf : f ∈ c.index.files)
    (hi : f.model.DeclaresGlobal name i) :
    ∃ u, f.model.tree.node? u = some (.nameExpr name) ∧
      c.project.declaration? f.model u = some (f.model.ref i) := by
  obtain ⟨d, hd, hglobal, rfl⟩ := hi
  have hfaithful := h.faithful.2
  obtain ⟨revision, generation, hm⟩ := (hfaithful.files f hf).analysed
  obtain ⟨w, -, token, hdeclares⟩ :=
    FileModel.declares_of_decl? (hfaithful.files f hf).proper hm hd
  have hnamed : d.kind.isNamed = true :=
    DeclKind.isNamed_of_isValue (DeclKind.isValue_of_isGlobal hglobal)
  have hdecl : c.index.decl? (f.model.ref i) = some (f.model, d) := by
    rw [ProjectIndex.decl?_ref hfaithful.sorted hf, hd, Option.map_some]
  refine ⟨d.node, ?_, Project.declaration?_node (p := c.project) hfaithful hdecl hnamed⟩
  cases hdeclares with
  | global _ _ hname | globalFunction _ hname => exact hname
  | _ => cases hglobal

/-- In each file a free name has one meaning, unless the file declares the global more than once.
The free names of one spelling mean globals of this spelling which the file itself declares, or all
of them mean what the project has under the name. The expression that declares a global means it, so
two declarations of a name in one file are told apart. -/
theorem free_names_agree (h : Reached config c) (hf : f ∈ c.index.files)
    (ho : f.model.tree.InOrder) (name : String) :
    ((∃ i, f.model.DeclaresGlobal name i) → ∀ u, f.model.tree.FreeName name u →
        ∃ i, f.model.DeclaresGlobal name i ∧
          c.project.declaration? f.model u = some (f.model.ref i)) ∧
      ((¬ ∃ i, f.model.DeclaresGlobal name i) → ∀ u, f.model.tree.FreeName name u →
        c.project.declaration? f.model u = c.project.global? name f.source) ∧
      ((∀ i j, f.model.DeclaresGlobal name i → f.model.DeclaresGlobal name j → i = j) →
        ∀ u v, f.model.tree.FreeName name u → f.model.tree.FreeName name v →
          c.project.declaration? f.model u = c.project.declaration? f.model v) ∧
      ∀ i, f.model.DeclaresGlobal name i → ∃ u, f.model.tree.node? u = some (.nameExpr name) ∧
        c.project.declaration? f.model u = some (f.model.ref i) := by
  refine ⟨fun hsome u hu => ?_, fun hnone u hu => ?_, fun honce u v hu hv => ?_,
    fun i hi => h.declaration?_of_global hf hi⟩
  · rcases h.declaration?_of_freeName hf ho hu with hown | ⟨hnone, -⟩
    · exact hown
    · exact absurd hsome hnone
  · rcases h.declaration?_of_freeName hf ho hu with ⟨i, hi, -⟩ | ⟨-, hglobal⟩
    · exact absurd ⟨i, hi⟩ hnone
    · exact hglobal
  · rcases h.declaration?_of_freeName hf ho hu with ⟨i, hi, hmeans⟩ | ⟨hnone, hmeans⟩
    · rcases h.declaration?_of_freeName hf ho hv with ⟨j, hj, hmeans'⟩ | ⟨hnone, -⟩
      · rw [hmeans, hmeans', honce i j hi hj]
      · exact absurd ⟨i, hi⟩ hnone
    · rcases h.declaration?_of_freeName hf ho hv with ⟨j, hj, -⟩ | ⟨-, hmeans'⟩
      · exact absurd ⟨j, hj⟩ hnone
      · rw [hmeans, hmeans']

end Compilation

end

/-- `x = value` -/
def assignX (value : Sketch) : Sketch :=
  .node (.assignStat [.var "x"] [value])

/-- `x = 1 do x = 2 end` -/
def assignsOutside : Sketch :=
  .block [assignX (.literal (.integer 1)), .doBlock [assignX (.literal (.integer 2))]]

/-- A global that is assigned again in a block, and `y = x` in another file. -/
def assignedAgain : Compilation :=
  .ofUpdate [.ofSketch 0 (some assignsOutside),
    .ofSketch 1 (some (.block [.node (.assignStat [.var "y"] [.var "x"])]))]

/-- The assignment in the block sees the one before it, so both mean the one global of the file; the
other file means what the project has. -/
theorem free_names_of_block :
    ∃ f ∈ assignedAgain.index.files, ∃ g ∈ assignedAgain.index.files,
      f.model.tree.FreeName "x" 0 ∧ f.model.tree.FreeName "x" 3 ∧ g.model.tree.FreeName "x" 1 ∧
        assignedAgain.project.declaration? f.model 0 =
          assignedAgain.project.declaration? f.model 3 ∧
        assignedAgain.project.declaration? g.model 1 =
          assignedAgain.project.global? "x" g.source := by
  have hreached : Compilation.Reached {} assignedAgain :=
    Compilation.reached_ofUpdate (by decide) (by decide)
  have hrun : ((assignedAgain.index.file? 0).any fun f => (assignedAgain.index.file? 1).any fun g =>
      decide ((f.model.tree = .ofSketch 0 (some assignsOutside) ∧
        f.model.tree.FreeName "x" 0 ∧ f.model.tree.FreeName "x" 3 ∧ f.model.decls.size = 1) ∧
        g.model.tree = .ofSketch 1 (some (.block [.node (.assignStat [.var "y"] [.var "x"])])) ∧
        g.model.tree.FreeName "x" 1 ∧ ∀ d ∈ g.model.decls.toList, d.name ≠ "x")) = true := by
    decide +kernel
  obtain ⟨f, hfile, hrun⟩ := (Option.any_eq_true _ _).1 hrun
  obtain ⟨g, hfile', hrun⟩ := (Option.any_eq_true _ _).1 hrun
  obtain ⟨⟨htree, hfirst, hsecond, hsize⟩, htree', hthird, hnames⟩ := of_decide_eq_true hrun
  have hf := List.mem_of_find?_eq_some hfile
  have hg := List.mem_of_find?_eq_some hfile'
  have ho : f.model.tree.InOrder := by
    rw [htree]
    exact SyntaxTree.inOrder_ofSketch 0 _ (by decide) (by decide)
  have ho' : g.model.tree.InOrder := by
    rw [htree']
    exact SyntaxTree.inOrder_ofSketch 1 _ (by decide) (by decide)
  refine ⟨f, hf, g, hg, hfirst, hsecond, hthird, ?_, ?_⟩
  · refine (Compilation.free_names_agree hreached hf ho "x").2.2.1 ?_ 0 3 hfirst hsecond
    -- The file makes one declaration only.
    have hzero {i : DeclId} (hi : f.model.DeclaresGlobal "x" i) : i = 0 := by
      obtain ⟨d, hd, -⟩ := hi
      have hlt : i < f.model.decls.size := (Array.getElem?_eq_some_iff.1 hd).1
      rw [hsize] at hlt
      exact Nat.lt_one_iff.1 hlt
    intro i j hi hj
    rw [hzero hi, hzero hj]
  · refine (Compilation.free_names_agree hreached hg ho' "x").2.1 ?_ 1 hthird
    rintro ⟨i, d, hd, -, hname⟩
    exact hnames d (Array.mem_toList_iff.2 (Array.mem_of_getElem? hd)) hname

/-- `do x = 1 end x = 2` -/
def assignsInside : Sketch :=
  .block [.doBlock [assignX (.literal (.integer 1))], assignX (.literal (.integer 2))]

/-- A global that is assigned in a block and then outside of it, and an empty file. -/
def assignedInBlock : Compilation :=
  .ofUpdate [.ofSketch 0 (some assignsInside), .ofSketch 1 none]

/-- The second assignment does not see the one in the block: nothing local binds `x` in either
place, and yet they are two globals. -/
theorem assignments_declare_twice :
    Compilation.Reached {} assignedInBlock ∧ ∃ f ∈ assignedInBlock.index.files,
      f.model.tree.FreeName "x" 0 ∧ f.model.tree.FreeName "x" 5 ∧
        assignedInBlock.project.declaration? f.model 0 = some ⟨0, 1, 0⟩ ∧
        assignedInBlock.project.declaration? f.model 5 = some ⟨0, 1, 1⟩ := by
  have hrun : ((assignedInBlock.index.file? 0).any fun f =>
      decide (f.model.tree.FreeName "x" 0 ∧ f.model.tree.FreeName "x" 5 ∧
        assignedInBlock.project.declaration? f.model 0 = some ⟨0, 1, 0⟩ ∧
        assignedInBlock.project.declaration? f.model 5 = some ⟨0, 1, 1⟩)) = true := by
    decide +kernel
  obtain ⟨f, hfile, hrun⟩ := (Option.any_eq_true _ _).1 hrun
  have hf := List.mem_of_find?_eq_some hfile
  exact ⟨Compilation.reached_ofUpdate (by decide) (by decide), f, hf, of_decide_eq_true hrun⟩

end LuaAnalysis
