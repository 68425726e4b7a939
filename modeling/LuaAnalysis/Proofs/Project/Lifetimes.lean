import LuaAnalysis.Proofs.File.Listings
import LuaAnalysis.Proofs.Project.OwnFiles
import LuaAnalysis.Proofs.Project.Refers

/-!
# How long references live

A reference carries the generation of the update that analysed its file, and no two updates have the
same one. So the reference leads to its declaration as long as nothing is done to the file; once the
file is analysed again or removed, it leads nowhere, also when the file comes back.

The generations are numbers here. They are counted by updates alone
(`Compilation.generation_run_le`), so `2 ^ 32 - 1` updates need no more than 32 bits for them.

Main statement: `Compilation.references_live_until_touched`.
-/

namespace LuaAnalysis.Compilation

variable {config : Config} {c : Compilation} {ref : DeclRef}

/-! ## Runs -/

/-- What a client may ask of a compilation that changes it. -/
inductive Operation where
  | register (path : String)
  | update (trees : List SyntaxTree)
  | remove (source : SourceId)

namespace Operation

/-- The compilation after an operation. One that is refused changes nothing. -/
def apply (c : Compilation) : Operation → Compilation
  | register path => (c.register path).2
  | update trees =>
    match c.update trees with
    | .ok (_, c') => c'
    | .error _ => c
  | remove source =>
    match c.remove source with
    | .ok (_, c') => c'
    | .error _ => c

/-- The sources whose files an operation replaces or retracts, none if it is refused. -/
def touched (c : Compilation) : Operation → List SourceId
  | register _ => []
  | update trees =>
    match c.update trees with
    | .ok _ => trees.map (·.source)
    | .error _ => []
  | remove source =>
    match c.remove source with
    | .ok _ => [source]
    | .error _ => []

/-- The trees of an update are written by the rules of the syntax. -/
def Proper : Operation → Prop
  | update trees => ∀ t ∈ trees, t.Proper
  | _ => True

def isUpdate : Operation → Bool
  | update _ => true
  | _ => false

/-- An operation touches nothing and at most registers a source, or it updates, or it removes. -/
theorem apply_cases (c : Compilation) (op : Operation) :
    (op.touched c = [] ∧ ∃ sources, op.apply c = { c with sources }) ∨
      (∃ trees summary, op = .update trees ∧ c.update trees = .ok (summary, op.apply c) ∧
        op.touched c = trees.map (·.source)) ∨
      ∃ source removed, op = .remove source ∧ c.remove source = .ok (removed, op.apply c) ∧
        op.touched c = [source] := by
  unfold touched apply
  cases op with
  | register path => exact .inl ⟨rfl, _, rfl⟩
  | update trees =>
    dsimp only
    cases hupdate : c.update trees with
    | ok done => exact .inr (.inl ⟨trees, done.1, rfl, hupdate, rfl⟩)
    | error e => exact .inl ⟨rfl, _, rfl⟩
  | remove source =>
    dsimp only
    cases hremove : c.remove source with
    | ok done => exact .inr (.inr ⟨source, done.1, rfl, hremove, rfl⟩)
    | error e => exact .inl ⟨rfl, _, rfl⟩

end Operation

/-- The compilation after some operations. -/
def run (c : Compilation) (ops : List Operation) : Compilation :=
  ops.foldl Operation.apply c

/-- The sources that are touched on the way. -/
def touchedBy : Compilation → List Operation → List SourceId
  | _, [] => []
  | c, op :: ops => op.touched c ++ touchedBy (op.apply c) ops

theorem Reached.apply (h : Reached config c) {op : Operation} (hop : op.Proper) :
    Reached config (op.apply c) := by
  cases op with
  | register path => exact h.register path
  | update trees =>
    unfold Operation.apply
    dsimp only
    split
    · next hupdate => exact h.update hop hupdate
    · exact h
  | remove source =>
    unfold Operation.apply
    dsimp only
    split
    · next hremove => exact h.remove hremove
    · exact h

theorem Reached.run (h : Reached config c) {ops : List Operation} (hops : ∀ op ∈ ops, op.Proper) :
    Reached config (c.run ops) := by
  induction ops generalizing c with
  | nil => exact h
  | cons op ops ih =>
    obtain ⟨hop, hops⟩ := List.forall_mem_cons.1 hops
    exact ih (h.apply hop) hops

theorem generation_run_le (c : Compilation) (ops : List Operation) :
    (c.run ops).generation ≤ c.generation + ops.countP Operation.isUpdate := by
  induction ops generalizing c with
  | nil => exact Nat.le_refl _
  | cons op ops ih =>
    have hstep : (op.apply c).generation ≤ c.generation + if op.isUpdate then 1 else 0 := by
      rcases op.apply_cases c with
        ⟨-, sources, happly⟩ | ⟨trees, summary, rfl, hupdate, -⟩ | ⟨source, removed, rfl, hremove, -⟩
      · rw [happly]
        exact Nat.le_add_right _ _
      · rw [eq_of_update hupdate]
        exact Nat.le_refl _
      · rw [eq_of_remove hremove]
        exact Nat.le_refl _
    have hrest := ih (op.apply c)
    rw [List.countP_cons]
    show (run (op.apply c) ops).generation ≤ _
    omega

/-! ## References that lead nowhere -/

/-- A generation that has been given out, and that the file of its source does not have. -/
structure Dead (c : Compilation) (ref : DeclRef) : Prop where
  old : ref.generation ≤ c.generation
  gone : ∀ f ∈ c.index.files, f.source = ref.source → f.model.generation ≠ ref.generation

theorem Dead.decl?_eq_none (h : c.Dead ref) (hsorted : c.index.Sorted) :
    c.index.decl? ref = none := by
  cases hd : c.index.decl? ref with
  | none => rfl
  | some found =>
    obtain ⟨f, hf, hmodel, href, -⟩ := (ProjectIndex.decl?_eq_some hsorted).1 hd
    rw [← hmodel] at href
    exact absurd (congrArg DeclRef.generation href).symm
      (h.gone f hf (congrArg DeclRef.source href).symm)

/-- An update gives its files a generation that no reference has, so what is dead stays so, and what
leads into the files of the update dies. -/
theorem dead_update (h : Reached config c) {c' : Compilation} {trees : List SyntaxTree}
    {summary : ResolveSummary} (hupdate : c.update trees = .ok (summary, c'))
    (hold : ref.generation ≤ c.generation)
    (hgone : ref.source ∈ trees.map (·.source) ∨ c.Dead ref) : c'.Dead ref := by
  have hgeneration : c'.generation = c.generation + 1 := by rw [eq_of_update hupdate]
  refine ⟨by omega, fun f hf hsource heq => ?_⟩
  rcases file_of_update h.faithful.2.sorted hupdate hf with ⟨a, ha, hmodel⟩ | ⟨g, hg, hmodel, hne⟩
  · obtain ⟨t, -, revision, -, -, rfl⟩ := mem_analyses ha
    have hnew : f.model.generation = c.generation + 1 := by
      rw [hmodel]
      rfl
    omega
  · rcases hgone with htouched | hdead
    · exact hne (hsource ▸ htouched)
    · refine hdead.gone g hg ?_ (by rw [hmodel, heq])
      rw [PublishedFile.source, hmodel]
      exact hsource

theorem dead_retract {source : SourceId} (hold : ref.generation ≤ c.generation)
    (hgone : ref.source = source ∨ c.Dead ref) : (c.retract source).Dead ref := by
  refine ⟨hold, fun f hf hsource => ?_⟩
  obtain ⟨hf, hne⟩ := ProjectIndex.mem_files_retract.1 hf
  rcases hgone with rfl | hdead
  · exact absurd hsource hne
  · exact hdead.gone f hf hsource

/-- Whatever is done, a reference into the files that it is done to dies, and a dead one stays
dead. -/
theorem dead_apply (h : Reached config c) {op : Operation} (hold : ref.generation ≤ c.generation)
    (hgone : ref.source ∈ op.touched c ∨ c.Dead ref) : (op.apply c).Dead ref := by
  rcases op.apply_cases c with ⟨htouched, sources, happly⟩ |
    ⟨trees, summary, rfl, hupdate, htouched⟩ | ⟨source, removed, rfl, hremove, htouched⟩
  · rw [htouched] at hgone
    have hdead := hgone.resolve_left List.not_mem_nil
    rw [happly]
    exact ⟨hdead.old, hdead.gone⟩
  · rw [htouched] at hgone
    exact dead_update h hupdate hold hgone
  · rw [htouched, List.mem_singleton] at hgone
    rw [eq_of_remove hremove]
    exact dead_retract hold hgone

theorem Dead.run (h : Reached config c) (hdead : c.Dead ref) {ops : List Operation}
    (hops : ∀ op ∈ ops, op.Proper) : (c.run ops).Dead ref ∧ (c.run ops).index.Sorted := by
  induction ops generalizing c with
  | nil => exact ⟨hdead, h.faithful.2.sorted⟩
  | cons op ops ih =>
    obtain ⟨hop, hrest⟩ := List.forall_mem_cons.1 hops
    exact ih (h.apply hop) (dead_apply h hdead.old (.inr hdead)) hrest

/-! ## References that lead to a declaration -/

theorem SameFile.decl?_eq {c' : Compilation} (h : c.SameFile c' ref.source) :
    c'.index.decl? ref = c.index.decl? ref := by
  unfold ProjectIndex.decl? ProjectIndex.model?
  rw [h.file]

/-- What is done to other files is not seen by a reference. -/
theorem decl?_apply (h : Reached config c) {op : Operation}
    (huntouched : ref.source ∉ op.touched c) :
    (op.apply c).index.decl? ref = c.index.decl? ref := by
  rcases op.apply_cases c with ⟨-, sources, happly⟩ |
    ⟨trees, summary, rfl, hupdate, htouched⟩ | ⟨source, removed, rfl, hremove, htouched⟩
  · rw [happly]
  · rw [htouched] at huntouched
    exact (sameFile_update h hupdate huntouched).decl?_eq
  · rw [htouched, List.mem_singleton] at huntouched
    exact (sameFile_remove hremove huntouched).decl?_eq

/-- A reference that leads to a declaration does so until its file is touched, and never again. -/
theorem decl?_run (h : Reached config c) {found : FileModel × Declaration}
    (hlive : c.index.decl? ref = some found) {ops : List Operation}
    (hops : ∀ op ∈ ops, op.Proper) :
    (c.run ops).index.decl? ref = if ref.source ∈ touchedBy c ops then none else some found := by
  induction ops generalizing c with
  | nil => exact hlive
  | cons op ops ih =>
    obtain ⟨hop, hrest⟩ := List.forall_mem_cons.1 hops
    have hnext := h.apply hop
    by_cases htouched : ref.source ∈ op.touched c
    · obtain ⟨f, hf, hmodel, href, -⟩ := (ProjectIndex.decl?_eq_some h.faithful.2.sorted).1 hlive
      have hold : ref.generation ≤ c.generation := by
        rw [href, ← hmodel]
        exact h.stamped.generation f hf
      obtain ⟨hdead, hsorted⟩ := Dead.run hnext (dead_apply h hold (.inl htouched)) hrest
      rw [touchedBy, if_pos (List.mem_append_left _ htouched)]
      exact hdead.decl?_eq_none hsorted
    · have hstep := ih hnext ((decl?_apply h htouched).trans hlive) hrest
      simp only [touchedBy, List.mem_append, htouched, false_or]
      exact hstep

/-! ## What look-ups answer -/

/-- The references that look-ups in a compilation answer, whatever bounds its searches have. -/
inductive Answers (c : Compilation) : DeclRef → Prop where
  | global {name : String} {ref : DeclRef} (h : ref ∈ c.index.globals name) : Answers c ref
  | type {name : String} {ref : DeclRef} {category : TypeCategory}
      (h : (ref, category) ∈ c.index.types name) : Answers c ref
  | member {owner : Owner} {ref : DeclRef} (h : ref ∈ c.index.members owner) : Answers c ref
  | aliased {name : String} {base : Ty} {ref : DeclRef} (h : (base, ref) ∈ c.index.aliases name) :
      Answers c ref
  | generic {name : String} {ref : DeclRef} (h : ref ∈ c.index.generics name) : Answers c ref
  | globalFrom {l : Lookup} (hl : l.index = c.index) {name : String} {source : SourceId}
      {ref : DeclRef} (h : l.global? name source = some ref) : Answers c ref
  | typeFrom {l : Lookup} (hl : l.index = c.index) {name : String} {source : SourceId}
      {ref : DeclRef} (h : l.namedType? name source = some ref) : Answers c ref
  | memberOf {l : Lookup} (hl : l.index = c.index) {owner : Owner} {name : String} {ref : DeclRef}
      (h : l.member? owner name = some ref) : Answers c ref
  | memberOfType {p : Project} (hp : p.index = c.index) {type : Ty} {name : String} {ref : DeclRef}
      (h : p.memberOfType? type name = some ref) : Answers c ref
  | own {f : PublishedFile} (hf : f ∈ c.index.files) {i : DeclId} {d : Declaration}
      (h : f.model.decl? i = some d) : Answers c (f.model.ref i)
  | node {p : Project} (hp : p.index = c.index) {f : PublishedFile} (hf : f ∈ c.index.files)
      {x : NodeId} {ref : DeclRef} (h : p.declaration? f.model x = some ref) : Answers c ref
  | declaration {source : SourceId} {x : NodeId} {ref : DeclRef} {found : FileModel × Declaration}
      (h : c.declaration? source x = some (ref, found)) : Answers c ref

/-- What is listed by the files leads to a declaration, if it does within each file. -/
theorem Reached.decl?_of_listed (h : Reached config c) {f : PublishedFile} (hf : f ∈ c.index.files)
    {i : DeclId} (hi : ∃ d, (f.model.tree.outline config).decls[i]? = some d) :
    ∃ found, c.index.decl? (f.model.ref i) = some found := by
  obtain ⟨d, hd⟩ := hi
  obtain ⟨revision, generation, hmodel⟩ := (h.faithful.2.files f hf).analysed
  have hdecl : f.model.decl? i = some d := by
    rw [hmodel]
    exact hd
  exact ⟨(f.model, d), by rw [ProjectIndex.decl?_ref h.faithful.2.sorted hf, hdecl]; rfl⟩

/-- A node of a published file leads to something that is declared. -/
theorem decl?_of_declaration? {p : Project} (h : p.index.Faithful config) {f : PublishedFile}
    (hf : f ∈ p.index.files) {x : NodeId} (hx : p.declaration? f.model x = some ref) :
    ∃ found, p.index.decl? ref = some found := by
  obtain ⟨revision, generation, hanalysed⟩ := (h.files f hf).analysed
  have hown {i : DeclId} {d : Declaration} (hd : f.model.decl? i = some d) :
      ∃ found, p.index.decl? (f.model.ref i) = some found :=
    ⟨(f.model, d), by rw [ProjectIndex.decl?_ref h.sorted hf, hd]; rfl⟩
  unfold Project.declaration? Project.declarationStep? at hx
  split at hx
  · next found hfound =>
    obtain rfl := Option.some.inj hx
    obtain ⟨access, -, hfound⟩ := Option.bind_eq_some_iff.1 hfound
    obtain ⟨m, d, hd, -⟩ := Project.isMember_of_indexMemberStep? h hfound
    exact ⟨_, hd⟩
  · split at hx
    · next i hanchor =>
      obtain rfl := Option.some.inj hx
      obtain ⟨-, d, -, hd, -, -⟩ :=
        FileModel.declares_of_anchored? (h.files f hf).proper hanalysed hanchor
      exact hown hd
    · split at hx
      · rcases Option.or_eq_some_iff.1 hx with hfind | ⟨-, hglobal⟩
        · obtain ⟨i, hi, rfl⟩ := Option.map_eq_some_iff.1 hfind
          obtain ⟨d, hd, -⟩ := FileModel.find?_sound hi
          exact hown hd
        · obtain ⟨m, d, hd, -⟩ := h.global (Lookup.mem_of_prefer? hglobal)
          exact ⟨_, hd⟩
      · obtain ⟨m, d, hd, -⟩ := h.type (Lookup.mem_of_prefer? hx)
        exact ⟨_, hd⟩
      · cases hx

/-- What a look-up answers is declared at that moment. -/
theorem Answers.decl? (h : Reached config c) (href : c.Answers ref) :
    ∃ found, c.index.decl? ref = some found := by
  have hfaithful := h.faithful.2
  cases href with
  | global href =>
    obtain ⟨m, d, hd, -⟩ := hfaithful.global href
    exact ⟨_, hd⟩
  | type href =>
    obtain ⟨m, d, hd, -⟩ := hfaithful.type (List.mem_map_of_mem (f := Prod.fst) href)
    exact ⟨_, hd⟩
  | member href =>
    obtain ⟨m, d, hd, -⟩ := hfaithful.member href
    exact ⟨_, hd⟩
  | @aliased name base _ href =>
    obtain ⟨f, hf, hentry⟩ := List.mem_flatMap.1 href
    obtain ⟨⟨base, i⟩, hi, heq⟩ := List.mem_map.1 hentry
    obtain ⟨rfl, rfl⟩ := Prod.mk.inj heq
    obtain ⟨members, hentries⟩ := h.entries f hf
    -- Only the members have changed since the file was analysed.
    have hagree := Outline.agree config (hfaithful.files f hf).proper
    rw [hentries] at hi
    rw [show _ = _ from hagree.aliases name, mem_listing] at hi
    obtain ⟨j, d, hd, hentry⟩ := hi
    unfold listedAlias? at hentry
    split at hentry
    · obtain ⟨-, rfl⟩ := Prod.mk.inj (Option.some.inj hentry)
      exact h.decl?_of_listed hf ⟨d, hd⟩
    · cases hentry
  | @generic name _ href =>
    obtain ⟨f, hf, i, hi, rfl⟩ := ProjectIndex.mem_refs.1 href
    obtain ⟨members, hentries⟩ := h.entries f hf
    have hagree := Outline.agree config (hfaithful.files f hf).proper
    rw [hentries] at hi
    obtain ⟨d, hd, -⟩ := hagree.generics name i hi
    exact h.decl?_of_listed hf ⟨d, hd⟩
  | globalFrom hl href =>
    obtain ⟨m, d, hd, -⟩ := hfaithful.global (hl ▸ Lookup.mem_of_prefer? href)
    exact ⟨_, hd⟩
  | typeFrom hl href =>
    obtain ⟨m, d, hd, -⟩ := hfaithful.type (hl ▸ Lookup.mem_of_prefer? href)
    exact ⟨_, hd⟩
  | memberOf hl href =>
    obtain ⟨owner, hdirect⟩ := Lookup.directMember?_of_memberAbove? href
    obtain ⟨m, d, hd, -⟩ := hfaithful.member (hl ▸ Lookup.mem_of_directMember? hdirect)
    exact ⟨_, hd⟩
  | memberOfType hp href =>
    obtain ⟨owner, hdirect⟩ := Project.directMember?_of_memberOfType? href
    obtain ⟨m, d, hd, -⟩ := hfaithful.member (hp ▸ Lookup.mem_of_directMember? hdirect)
    exact ⟨_, hd⟩
  | @own f hf i d hd =>
    exact ⟨(f.model, d), by rw [ProjectIndex.decl?_ref hfaithful.sorted hf, hd]; rfl⟩
  | @node p hp f hf x _ hx =>
    rw [← hp] at hfaithful hf ⊢
    exact decl?_of_declaration? hfaithful hf hx
  | declaration hx =>
    obtain ⟨m, -, hx⟩ := Option.bind_eq_some_iff.1 hx
    obtain ⟨ref', -, hx⟩ := Option.bind_eq_some_iff.1 hx
    obtain ⟨found, hd, heq⟩ := Option.map_eq_some_iff.1 hx
    obtain ⟨rfl, -⟩ := Prod.mk.inj heq
    exact ⟨found, hd⟩

/-- What a look-up answers leads to a declaration. After any further operations it leads to the same
declaration, of the same analysis, if its file has been left alone; and nowhere, if the file has
been analysed again or removed in between. -/
theorem references_live_until_touched (h : Reached config c) (href : c.Answers ref)
    {ops : List Operation} (hops : ∀ op ∈ ops, op.Proper) :
    ∃ found, c.index.decl? ref = some found ∧
      (c.run ops).index.decl? ref =
        if ref.source ∈ touchedBy c ops then none else some found := by
  obtain ⟨found, hlive⟩ := href.decl? h
  exact ⟨found, hlive, decl?_run h hlive hops⟩

/-- `t = {}` -/
def assignsTable : SyntaxTree :=
  .ofSketch 0 (some (.block [.node (.assignStat [.var "t"] [.node (.tableExpr [])])]))

/-- An update of the other file, and one that is refused. -/
def elsewhere : List Operation :=
  [.update [.ofSketch 1 none], .update [assignsTable, .ofSketch 2 none]]

/-- The file is removed and comes back as it was, twice in one update. -/
def removedAndBack : List Operation :=
  [.remove 0, .update [assignsTable, assignsTable]]

/-- The global `t` is found by its reference while only the other file is rebuilt. When the file has
been removed and has come back, the reference leads nowhere, and `t` has another one. -/
theorem reference_of_removed_file :
    let c := tableAndField
    let ref : DeclRef := ⟨0, 1, 0⟩
    (∃ found, c.index.decl? ref = some found ∧
        (c.run elsewhere).index.decl? ref = some found) ∧
      (c.run (elsewhere ++ removedAndBack)).index.decl? ref = none ∧
      (c.run (elsewhere ++ removedAndBack)).index.globals "t" = [⟨0, 3, 0⟩] := by
  intro c ref
  have hlisted : ref ∈ c.index.globals "t" := by decide +kernel
  have htree : assignsTable.Proper := SyntaxTree.proper_ofSketch 0 _ (by decide)
  have helsewhere : ∀ op ∈ elsewhere, op.Proper := by
    refine List.forall_mem_cons.2 ⟨?_, List.forall_mem_singleton.2 ?_⟩
    · exact List.forall_mem_singleton.2 (SyntaxTree.proper_ofSketch 1 _ (by decide))
    · exact List.forall_mem_cons.2 ⟨htree,
        List.forall_mem_singleton.2 (SyntaxTree.proper_ofSketch 2 _ (by decide))⟩
  have hback : ∀ op ∈ removedAndBack, op.Proper := by
    refine List.forall_mem_cons.2 ⟨trivial, List.forall_mem_singleton.2 ?_⟩
    exact List.forall_mem_cons.2 ⟨htree, List.forall_mem_singleton.2 htree⟩
  refine ⟨?_, ?_, by decide +kernel⟩
  · obtain ⟨found, hnow, hlater⟩ :=
      references_live_until_touched reached_tableAndField (.global hlisted) helsewhere
    have huntouched : ref.source ∉ touchedBy c elsewhere := by decide +kernel
    exact ⟨found, hnow, by rw [hlater, if_neg huntouched]⟩
  · obtain ⟨found, -, hlater⟩ := references_live_until_touched reached_tableAndField
      (.global hlisted) (List.forall_mem_append.2 ⟨helsewhere, hback⟩)
    have htouched : ref.source ∈ touchedBy c (elsewhere ++ removedAndBack) := by decide +kernel
    rw [hlater, if_pos htouched]

end LuaAnalysis.Compilation
