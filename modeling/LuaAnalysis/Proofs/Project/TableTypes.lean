import LuaAnalysis.Proofs.File.Listings
import LuaAnalysis.Proofs.Project.ValueAdjustment

/-!
# Tables that define types

A statement below a class, an enum or an alias may assign a table. Where the statement declares its
first target, the task of the target makes the fields of the table members of the type. A name that
is declared already has no task, so a table that it is assigned defines nothing
(`Compilation.table_of_declared_name`).

Main statement: `Compilation.fields_of_defining_table`.
-/

namespace LuaAnalysis

/-- A field of a table constructor is a member of the table from the start. -/
theorem Outline.mem_members_table {config : Config} {t : SyntaxTree} (h : t.Proper) {j : DeclId}
    {d : Declaration} (hd : (t.outline config).decls[j]? = some d) (hkind : d.kind = .tableField)
    {table : NodeId} (htable : t.parent? d.node = some table) :
    j ∈ (t.outline config).entries.members.values (.anonymous (t.syntaxId table)) := by
  obtain ⟨home, hhome⟩ := (agree config h).members
  have hlisted : j ∈ (t.outline config).entries.members.values (home j) := by
    rw [hhome, mem_listing]
    exact ⟨j, d, hd, if_pos ⟨by rw [hkind]; rfl, rfl⟩⟩
  -- Its home is the owner of its place, which is the table.
  obtain ⟨d', hd', w, hsite, howner⟩ := (atHome config h).home hlisted
  obtain rfl := Option.some.inj (hd.symm.trans hd')
  obtain ⟨w', -, d', token, hd'', hdeclares, -⟩ :=
    (anchored_walk config h).made ((anchored_walk config h).anchor hd)
  obtain rfl := Option.some.inj (hd.symm.trans hd'')
  cases hdeclares with
  | @tableField key value x table' name hw _ _ _ =>
    have hself : w' ∈ t.memberSites w' := by
      rw [SyntaxTree.memberSites, hw]
      exact List.mem_cons_self
    obtain rfl := SyntaxTree.memberSites_unique h hsite hself
    rw [SyntaxTree.ownerAt?, hw] at howner
    dsimp only at howner htable
    rw [htable, Option.map_some, Option.some.injEq] at howner
    rwa [← howner] at hlisted
  | _ => cases hkind

namespace Project

variable {config : Config} {p : Project} {m : FileModel}

/-- The members of a table become members of the type. -/
theorem mem_members_linkTable (hsorted : p.index.Sorted) (hm : m ∈ p.index.models) {decl : DeclId}
    {name : String} (htype : p.findings.type? m decl = some (.named name)) {v : ValueRef}
    {fields : List NodeId} (htable : m.tree.node? v.expr = some (.tableExpr fields)) {i : DeclId}
    (hi : m.ref i ∈ p.index.members (.anonymous (m.tree.syntaxId v.expr))) :
    m.ref i ∈ (p.linkTable m decl (some v)).index.members (.named name) := by
  obtain ⟨f, hf, rfl⟩ := List.mem_map.1 hm
  have hfile : p.index.file? f.model.source = some f :=
    (ProjectIndex.file?_eq_some hsorted).2 ⟨hf, rfl⟩
  obtain ⟨g, hg, k, hk, href⟩ := ProjectIndex.mem_refs.1 hi
  obtain ⟨hsource, -, rfl⟩ :
      f.model.source = g.model.source ∧ f.model.generation = g.model.generation ∧ i = k := by
    simpa [FileModel.ref] using href
  obtain rfl : f = g := hsorted.unique hf hg hsource
  unfold linkTable
  rw [htype]
  dsimp only
  rw [htable]
  dsimp only
  rw [hfile, Option.map_some, Option.getD_some]
  have hown : f.source = f.model.source := rfl
  refine ProjectIndex.mem_refs.2 ⟨_, List.mem_map_of_mem hf, i, ?_, ?_⟩
  · rw [if_pos hown]
    exact Entries.mem_values_addMembers.2 (.inr ⟨rfl, hk⟩)
  · rw [if_pos hown]

variable {targets : List Target} {before after : List TaskEvent} {e : TaskEvent}
  {stat x : NodeId} {exprs : List NodeId} {i : Nat} {j : DeclId}

/-- A task that defines a type makes the members of its table members of the type. -/
theorem Assigns.mem_members (ha : p.Assigns targets before e after stat exprs i x j)
    (h : p.Ready config targets) (hrun : e.run = true) {name : String}
    (hdefines : e.model.tree.annotation stat i = (some (.named name), true)) {v : ValueRef}
    (hv : valueAt exprs i = some v) {fields : List NodeId}
    (htable : e.model.tree.node? v.expr = some (.tableExpr fields)) {k : DeclId}
    (hk : e.model.ref k ∈ p.index.members (.anonymous (e.model.tree.syntaxId v.expr))) :
    e.model.ref k ∈ (p.resolve targets).project.index.members (.named name) := by
  obtain ⟨todo, htodo, htask⟩ := ha.task
  obtain ⟨d, hd, -, -, hwritten⟩ := ha.decl
  rw [hdefines] at htask hwritten
  have hmodels := p.models_events before
  generalize hq : before.foldl TaskEvent.apply p = q at hmodels
  have hlinked : e.model.ref k ∈ ((q.resolveType e.model j (some v)).linkTable e.model j
      (some v)).index.members (.named name) := by
    have htype : (q.resolveType e.model j (some v)).findings.type? e.model j =
        some (.named name) := by
      rw [Findings.type?, hd]
      dsimp only
      rw [hwritten, Option.some_or]
    refine mem_members_linkTable ?_ ?_ htype htable ?_
    · rw [index_resolveType]
      exact h.faithful.sorted.of_models hmodels
    · rw [index_resolveType, hmodels]
      exact h.model_mem ha.mem
    · rw [index_resolveType, ← hq]
      exact members_events hk
  -- No later task takes a member away.
  rw [ha.resolve_eq, hq]
  apply members_events
  rw [TaskEvent.apply, if_pos hrun, htask, hv, runTask_declaration]
  have hbefore : e.model.ref k ∈ (q.beforeLink e.model
      (.declaration j (some v) todo true)).index.members (.named name) := by
    rw [beforeLink, htodo]
    exact hlinked
  split
  · next howner =>
    have hwrites : Writes e.model (.declaration j (some v) todo true) _ _ :=
      Writes.nothing.linkField (p := q.beforeLink e.model (.declaration j (some v) todo true))
        rfl howner
    exact hwrites.members hbefore
  · exact hbefore

end Project

namespace Compilation

variable {config : Config} {c c' : Compilation} {trees : List SyntaxTree}
  {summary : ResolveSummary} {f : PublishedFile}

/-- A file of an update is published as it was analysed. -/
theorem Reached.file_of_opened (h : Reached config c)
    (hupdate : c.update trees = .ok (summary, c')) (hf : f ∈ c'.index.files)
    (hlast : f.model.generation = c'.generation) :
    ∃ g ∈ (c.opened trees).files, g.model = f.model ∧
      g.entries = (f.model.tree.outline config).entries := by
  have hmodel : f.model ∈ (c.opened trees).models := by
    have hmodels := (changesOnly_update c trees).models
    rw [eq_of_update hupdate] at hf
    exact hmodels ▸ List.mem_map_of_mem hf
  obtain ⟨g, hg, hgf⟩ := List.mem_map.1 hmodel
  refine ⟨g, hg, hgf, ?_⟩
  rcases mem_opened h.faithful.2.sorted hg with ⟨a, ha, rfl⟩ | ⟨hold, -⟩
  · obtain ⟨t, -, revision, -, -, rfl⟩ := mem_analyses ha
    rw [← hgf, ← h.faithful.1]
    rfl
  · -- A file that was there has an earlier generation.
    have hle := h.stamped.generation g hold
    rw [hgf, hlast, eq_of_update hupdate] at hle
    exact absurd hle (Nat.not_succ_le_self c.generation)

section
variable {stat target value : NodeId} {targets exprs : List NodeId}

/-- The first target of a statement is declared if it is a field or the name of a local. Another name
is declared if it leads to a declaration. -/
theorem declared_of_first_target (h : f.Faithful config)
    (hstat : stat ∈ f.model.tree.below f.model.tree.root)
    (hassign : f.model.tree.assignment? stat = some (target :: targets, exprs))
    (htarget : f.model.tree.isName target = true ∨ f.model.tree.isNamedField target = true)
    (hfirst : ∀ name, f.model.tree.node? target = some (.nameExpr name) →
      (f.model.anchored? target).isSome) :
    (f.model.tree.outline config).Declared target := by
  have hhanded := Outline.handed config h.proper
  rcases SyntaxTree.assignment?_eq_some hassign with hn | hn
  · exact hhanded.names stat hstat _ _ hn target List.mem_cons_self
  · rcases htarget with hname | hfield
    · have hfits := h.proper.fits hn
      simp only [Node.Fits, Node.expects, Node.children, Node.forall₂_each_append,
        Node.forall₂_each] at hfits
      obtain ⟨n, hnode, hexpr⟩ := hfits.1 target List.mem_cons_self
      unfold SyntaxTree.isName at hname
      split at hname
      · next heq =>
        rw [hnode] at heq
        obtain rfl := Option.some.inj heq
        cases hexpr
      · next name heq =>
        obtain ⟨revision, generation, hanalysed⟩ := h.analysed
        have hanchored := hfirst name heq
        rw [hanalysed] at hanchored
        exact Outline.declared_of_anchored h.proper hn List.mem_cons_self heq hanchored
      · cases hname
    · exact hhanded.fields stat hstat _ _ hn target List.mem_cons_self hfield

/-- After an update without cycles, the fields of a table are members of the type that is defined
above the statement, if the statement declares the target that the table is assigned to. -/
theorem fields_of_defining_table (h : Reached config c) (htrees : ∀ t ∈ trees, t.Proper)
    (hupdate : c.update trees = .ok (summary, c'))
    (hacyclic : ((c.openProject trees).taskGraph (c.targets trees)).Acyclic)
    (hf : f ∈ c'.index.files) (hlast : f.model.generation = c'.generation)
    (hstat : stat ∈ f.model.tree.below f.model.tree.root)
    (hassign : f.model.tree.assignment? stat = some (target :: targets, value :: exprs))
    {name : String} (hdefined : f.model.tree.definedType? stat = some name)
    (htarget : f.model.tree.isName target = true ∨ f.model.tree.isNamedField target = true)
    (hfirst : ∀ name, f.model.tree.node? target = some (.nameExpr name) →
      (f.model.anchored? target).isSome)
    {fields : List NodeId} (htable : f.model.tree.node? value = some (.tableExpr fields))
    {i : DeclId} {d : Declaration} (hd : f.model.decl? i = some d) (hkind : d.kind = .tableField)
    (hin : f.model.tree.parent? d.node = some value) :
    f.model.ref i ∈ c'.index.members (.named name) := by
  have hfile : f.Faithful config := (h.update htrees hupdate).faithful.2.files f hf
  have hready := h.ready htrees hupdate
  obtain ⟨before, e, after, j, ha, hem, -⟩ :=
    h.exists_assigns htrees hupdate hf hlast hassign (i := 0) rfl
      (declared_of_first_target hfile hstat hassign htarget hfirst)
  have hrun : e.run = true := Project.run_of_acyclic _ hacyclic ha.mem
  have hannotation : f.model.tree.annotation stat 0 = (some (.named name), true) := by
    rw [SyntaxTree.annotation, hdefined]
    rfl
  have hmember : f.model.ref i ∈ (c.openProject trees).index.members
      (.anonymous (f.model.tree.syntaxId value)) := by
    obtain ⟨g, hg, hgf, hentries⟩ := h.file_of_opened hupdate hf hlast
    obtain ⟨revision, generation, hanalysed⟩ := hfile.analysed
    have hdecl : (f.model.tree.outline config).decls[i]? = some d :=
      (congrArg (·.decl? i) hanalysed).symm.trans hd
    refine ProjectIndex.mem_refs.2 ⟨g, hg, i, ?_, by rw [hgf]⟩
    rw [hentries]
    exact Outline.mem_members_table hfile.proper hdecl hkind hin
  rw [← hem] at hannotation htable hmember ⊢
  rw [index_of_update hupdate]
  exact ha.mem_members hready hrun hannotation rfl htable hmember

end

/-- `---@class P` above `P = {x = 1}` -/
def definesP : List Sketch :=
  [.node (.comment [.classTag "P" []]),
    .node (.assignStat [.var "P"]
      [.node (.tableExpr [.entry (.name "x") (.literal (.integer 1))])])]

def definesGlobal : SyntaxTree :=
  .ofSketch 0 (some (.block definesP))

/-- The assignment is the node 8 and declares `P`; the field of its table is the declaration 2. -/
theorem field_of_defining_global :
    ∃ summary c' f, twoSources.update [definesGlobal] = .ok (summary, c') ∧ f ∈ c'.index.files ∧
      f.model.tree.definedType? 8 = some "P" ∧ f.model.ref 2 ∈ c'.index.members (.named "P") := by
  have htrees : ∀ t ∈ [definesGlobal], t.Proper :=
    List.forall_mem_singleton.2 (SyntaxTree.proper_ofSketch 0 _ (by decide))
  have hnil : ((twoSources.openProject [definesGlobal]).taskGraph
      (twoSources.targets [definesGlobal])).sort.cycles = [] := by decide +kernel
  have hacyclic := (DependencyGraph.cycles_sort_eq_nil_iff
    (Project.wellFormed_taskGraph _ (twoSources.targets [definesGlobal]))).1 hnil
  have hrun : ((twoSources.update [definesGlobal]).toOption.any fun done =>
      (done.2.index.file? 0).any fun f => (f.model.decl? 2).any fun d =>
        decide (f.model.generation = done.2.generation ∧
          8 ∈ f.model.tree.below f.model.tree.root ∧
          f.model.tree.assignment? 8 = some ([3], [7]) ∧
          f.model.tree.definedType? 8 = some "P" ∧ f.model.tree.isName 3 = true ∧
          (f.model.anchored? 3).isSome ∧ f.model.tree.node? 7 = some (.tableExpr [6]) ∧
          d.kind = .tableField ∧ f.model.tree.parent? d.node = some 7)) = true := by decide +kernel
  obtain ⟨summary, c', hupdate, hrun⟩ := exists_of_update hrun
  obtain ⟨f, hfile, hrun⟩ := (Option.any_eq_true _ _).1 hrun
  obtain ⟨d, hd, hrun⟩ := (Option.any_eq_true _ _).1 hrun
  obtain ⟨hlast, hstat, hassign, hdefined, htarget, hanchored, htable, hkind, hin⟩ :=
    of_decide_eq_true hrun
  have hf : f ∈ c'.index.files := List.mem_of_find?_eq_some hfile
  exact ⟨summary, c', f, hupdate, hf, hdefined,
    fields_of_defining_table reached_twoSources htrees hupdate hacyclic hf hlast hstat hassign
      hdefined (.inl htarget) (fun _ _ => hanchored) htable hd hkind hin⟩

/-- `local P` before that -/
def definesDeclared : SyntaxTree :=
  .ofSketch 0 (some (.block (.declare ["P"] [] :: definesP)))

/-- The name is that of the local, so the assignment, now the node 10, has no task. The field of the
table stays a member of the table alone, though nothing lies on a cycle. -/
theorem table_of_declared_name :
    ∃ summary c' f d, twoSources.update [definesDeclared] = .ok (summary, c') ∧
      ((twoSources.openProject [definesDeclared]).taskGraph
        (twoSources.targets [definesDeclared])).Acyclic ∧
      f ∈ c'.index.files ∧ f.model.tree.assignment? 10 = some ([5], [9]) ∧
      f.model.tree.definedType? 10 = some "P" ∧ f.model.tree.isName 5 = true ∧
      f.model.tree.node? 9 = some (.tableExpr [8]) ∧ f.model.decl? 2 = some d ∧
      d.kind = .tableField ∧ f.model.tree.parent? d.node = some 9 ∧
      f.model.ref 2 ∉ c'.index.members (.named "P") := by
  have hnil : ((twoSources.openProject [definesDeclared]).taskGraph
      (twoSources.targets [definesDeclared])).sort.cycles = [] := by decide +kernel
  have hacyclic := (DependencyGraph.cycles_sort_eq_nil_iff
    (Project.wellFormed_taskGraph _ (twoSources.targets [definesDeclared]))).1 hnil
  have hrun : ((twoSources.update [definesDeclared]).toOption.any fun done =>
      (done.2.index.file? 0).any fun f => (f.model.decl? 2).any fun d =>
        decide (f.model.tree.assignment? 10 = some ([5], [9]) ∧
          f.model.tree.definedType? 10 = some "P" ∧ f.model.tree.isName 5 = true ∧
          f.model.tree.node? 9 = some (.tableExpr [8]) ∧ d.kind = .tableField ∧
          f.model.tree.parent? d.node = some 9 ∧
          f.model.ref 2 ∉ done.2.index.members (.named "P"))) = true := by decide +kernel
  obtain ⟨summary, c', hupdate, hrun⟩ := exists_of_update hrun
  obtain ⟨f, hfile, hrun⟩ := (Option.any_eq_true _ _).1 hrun
  obtain ⟨d, hd, hrun⟩ := (Option.any_eq_true _ _).1 hrun
  obtain ⟨hassign, hdefined, htarget, htable, hkind, hin, hnot⟩ := of_decide_eq_true hrun
  exact ⟨summary, c', f, d, hupdate, hacyclic, List.mem_of_find?_eq_some hfile, hassign, hdefined,
    htarget, htable, hd, hkind, hin, hnot⟩

end Compilation

end LuaAnalysis
