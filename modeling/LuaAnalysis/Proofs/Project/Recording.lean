import LuaAnalysis.Proofs.File.Occurrences
import LuaAnalysis.Proofs.Project.Lifetimes
import LuaAnalysis.Proofs.Project.NameReferences
import LuaAnalysis.Proofs.Resolve.RenumberedTasks

/-!
# Recording occurrences changes nothing else

Two compilations go through the same operations, one of which records occurrences and one does not.
Nothing that resolves tasks, types expressions or looks names up reads an occurrence, so both answer
every operation alike, and their files, types and returns stay the same.

Main statement: `Compilation.recording_is_inert`.
-/

namespace LuaAnalysis

/-- Whether a declaration is seen in its scope only. -/
def DeclKind.isLexical : DeclKind → Bool
  | .localVar | .parameter | .method .lexical _ => true
  | _ => false

theorem DeclKind.isNamed_of_isLexical {kind : DeclKind} (h : kind.isLexical = true) :
    kind.isNamed = true := by
  cases kind with
  | method feature => cases feature <;> first | rfl | cases h
  | _ => first | rfl | cases h

def Analysis.withoutOccurrences (a : Analysis) : Analysis :=
  { a with entries := a.entries.withoutOccurrences }

/-- The files with what they contribute besides occurrences. -/
def ProjectIndex.withoutOccurrences (idx : ProjectIndex) : ProjectIndex :=
  ⟨idx.files.map fun f => { f with entries := f.entries.withoutOccurrences }⟩

theorem ProjectIndex.withoutOccurrences_eq {idx idx' : ProjectIndex}
    (h : idx.Renumbered .same idx') : idx'.withoutOccurrences = idx.withoutOccurrences := by
  unfold ProjectIndex.Renumbered at h
  unfold withoutOccurrences
  congr 1
  generalize idx.files = files at h
  generalize idx'.files = files' at h
  induction h with
  | nil => rfl
  | cons hfg _ ih =>
    rw [List.map_cons, List.map_cons, ih, hfg.model, hfg.entries]
    rfl

namespace Compilation

variable {c c' : Compilation}

/-! ## What operations answer -/

inductive Answer where
  | registered (source : SourceId)
  | updated (answer : Except SourceError ResolveSummary)
  | removed (answer : Except SourceError Bool)

def Operation.answer (c : Compilation) : Operation → Answer
  | register path => .registered (c.register path).1
  | update trees => .updated ((c.update trees).map Prod.fst)
  | remove source => .removed ((c.remove source).map Prod.fst)

/-- What some operations answer one after the other. -/
def answers : Compilation → List Operation → List Answer
  | _, [] => []
  | c, op :: ops => op.answer c :: answers (op.apply c) ops

/-! ## Two runs -/

/-- `c'` is a compilation as `c`, but for the occurrences that `c` may have and go on recording. -/
structure Unrecorded (c c' : Compilation) : Prop where
  config : c'.config = c.config.recording false
  sources : c'.sources = c.sources
  index : c.index.Renumbered .same c'.index
  findings : c.findings.Renumbered .same c'.findings
  generation : c'.generation = c.generation
  revision : c'.revision = c.revision

namespace Unrecorded

variable (h : Unrecorded c c')
include h

theorem project : c.project.Renumbered .same c'.project where
  index := h.index
  depth := by
    show c'.config.maxSuperDepth = c.config.maxSuperDepth
    rw [h.config]
    rfl
  findings := h.findings

/-! ## Updates -/

theorem analyses (trees : List SyntaxTree) :
    c'.analyses trees = (c.analyses trees).map Analysis.withoutOccurrences := by
  unfold Compilation.analyses
  rw [h.config, h.generation, h.revision, List.map_map]
  apply List.map_congr_left
  intro e _
  dsimp only [Function.comp]
  unfold SyntaxTree.analyse
  rw [SyntaxTree.outline_withoutOccurrences]
  rfl

theorem targets (trees : List SyntaxTree) : c'.targets trees = c.targets trees := by
  unfold Compilation.targets
  rw [h.analyses, List.foldl_map]
  rfl

theorem openProject (trees : List SyntaxTree) :
    (c.openProject trees).Renumbered .same (c'.openProject trees) where
  index := by
    show (c.opened trees).Renumbered .same (c'.opened trees)
    unfold opened
    rw [h.analyses]
    have hindex := h.index
    generalize c.index = idx at hindex
    generalize c'.index = idx' at hindex
    generalize c.analyses trees = as
    induction as generalizing idx idx' with
    | nil => exact hindex
    | cons a as ih => exact ih _ _ (ProjectIndex.publish_renumbered hindex ⟨rfl, rfl, trivial⟩)
  depth := h.project.depth
  findings := h.findings

/-- The projects stay as they are to each other, and as many tasks are run and given up. -/
theorem resolve (trees : List SyntaxTree) :
    ((c.openProject trees).resolve (c.targets trees)).project.Renumbered .same
        ((c'.openProject trees).resolve (c'.targets trees)).project ∧
      ((c'.openProject trees).resolve (c'.targets trees)).summary =
        ((c.openProject trees).resolve (c.targets trees)).summary := by
  have htargets : c'.targets trees = (c.targets trees).map Renumbering.same.target := by
    rw [h.targets]
    exact (List.map_id _).symm
  rw [htargets]
  exact ⟨Project.resolve_renumbered (h.openProject trees) fun _ _ => trivial,
    Project.summary_resolve_renumbered (h.openProject trees) fun _ _ => trivial⟩

/-! ## One operation -/

theorem answer (op : Operation) : op.answer c' = op.answer c := by
  cases op with
  | register path =>
    unfold Operation.answer register
    rw [h.sources]
  | update trees =>
    unfold Operation.answer
    dsimp only
    rw [update_eq, update_eq, h.sources]
    cases trees.find? fun tree => !c.sources.contains tree.source with
    | some tree => rfl
    | none =>
      dsimp only [Except.map]
      rw [(h.resolve trees).2]
  | remove source =>
    have hfile := ProjectIndex.model?_renumbered h.index source
    unfold ProjectIndex.model? at hfile
    have hsome : (c'.index.file? source).isSome = (c.index.file? source).isSome := by
      simpa using congrArg Option.isSome hfile
    unfold Operation.answer remove
    dsimp only
    rw [h.sources, hsome]
    split <;> rfl

theorem apply (op : Operation) : Unrecorded (op.apply c) (op.apply c') := by
  cases op with
  | register path =>
    unfold Operation.apply register
    dsimp only
    rw [h.sources]
    exact { h with sources := rfl }
  | update trees =>
    unfold Operation.apply
    dsimp only
    rw [update_eq, update_eq, h.sources]
    cases trees.find? fun tree => !c.sources.contains tree.source with
    | some tree => exact h
    | none =>
      have hdone := (h.resolve trees).1
      exact {
        config := h.config
        sources := rfl
        index := hdone.index
        findings := hdone.findings
        generation := congrArg (· + 1) h.generation
        revision := congrArg (· + trees.length) h.revision }
  | remove source =>
    unfold Operation.apply remove
    dsimp only
    rw [h.sources]
    by_cases hknown : c.sources.contains source
    · rw [if_pos hknown, if_pos hknown]
      exact { h with index := ProjectIndex.retract_renumbered h.index source }
    · rw [if_neg hknown, if_neg hknown]
      exact h

theorem run (ops : List Operation) :
    answers c' ops = answers c ops ∧ Unrecorded (c.run ops) (c'.run ops) := by
  induction ops generalizing c c' with
  | nil => exact ⟨rfl, h⟩
  | cons op ops ih =>
    obtain ⟨hanswers, hrun⟩ := ih (h.apply op)
    exact ⟨by rw [answers, answers, h.answer, hanswers], hrun⟩

/-! ## Queries -/

theorem project_declaration? : c'.project.declaration? = c.project.declaration? := by
  funext m node
  have hnode := Project.declaration?_renumbered h.project (m := m) trivial node
  exact hnode.trans (congrFun Option.map_id _)

theorem decl? : c'.index.decl? = c.index.decl? := by
  funext ref
  exact (ProjectIndex.decl?_renumbered h.index ref).trans (congrFun Option.map_id _)

theorem model? : c'.index.model? = c.index.model? := by
  funext source
  exact (ProjectIndex.model?_renumbered h.index source).trans (congrFun Option.map_id _)

theorem declaration? (source : SourceId) (node : NodeId) :
    c'.declaration? source node = c.declaration? source node := by
  unfold Compilation.declaration?
  rw [h.model?, h.project_declaration?, h.decl?]

theorem definition? (source : SourceId) (node : NodeId) :
    c'.definition? source node = c.definition? source node := by
  unfold Compilation.definition? Project.definition?
  rw [h.model?, h.project_declaration?]
  rw [show c'.project.index.decl? = c.project.index.decl? from h.decl?]

/-- The references of a declaration that is seen in its scope only are found without occurrences. -/
theorem references {config config' : Config} (hfaithful : c.index.Faithful config)
    (hfaithful' : c'.index.Faithful config') {ref : DeclRef} {m : FileModel} {d : Declaration}
    (hd : c.index.decl? ref = some (m, d)) (hlexical : d.kind.isLexical = true) :
    c'.project.references ref = c.project.references ref := by
  have hnamed := DeclKind.isNamed_of_isLexical hlexical
  have hd' : c'.index.decl? ref = some (m, d) := by rw [h.decl?, hd]
  have hcandidates (p : Project) : p.nameCandidates m d = Project.laterNames m d := by
    unfold Project.nameCandidates
    cases hkind : d.kind with
    | method feature =>
      rw [hkind] at hlexical
      cases feature <;> first | rfl | cases hlexical
    | namedType | global =>
      rw [hkind] at hlexical
      cases hlexical
    | _ => rfl
  rw [Project.references_eq (p := c.project) hfaithful hd hnamed,
    Project.references_eq (p := c'.project) hfaithful' hd' hnamed, hcandidates, hcandidates]
  unfold Project.referring
  rw [h.project_declaration?]

end Unrecorded

theorem unrecorded_start (config : Config) :
    Unrecorded { config := config.recording true } { config := config.recording false } where
  config := rfl
  sources := rfl
  index := .nil
  findings := ⟨fun _ _ => rfl, fun _ _ => rfl, fun _ => rfl⟩
  generation := rfl
  revision := rfl

/-- Of two runs of the same operations, one records occurrences and the other does not. Both give the
same answers on the way; at the end their files agree in everything but occurrences, all types and
returns that have been found out are the same, every node has the same declaration and the same
definition, and whatever is seen in its scope only has the same references. -/
theorem recording_is_inert (config : Config) {ops : List Operation}
    (hops : ∀ op ∈ ops, op.Proper) :
    let recorded := run { config := config.recording true } ops
    let plain := run { config := config.recording false } ops
    answers { config := config.recording false } ops =
        answers { config := config.recording true } ops ∧
      plain.index.withoutOccurrences = recorded.index.withoutOccurrences ∧
      (∀ m id, plain.findings.type? m id = recorded.findings.type? m id) ∧
      (∀ m closure, plain.findings.inferred? m closure = recorded.findings.inferred? m closure) ∧
      (∀ m, plain.findings.moduleReturnsOf m = recorded.findings.moduleReturnsOf m) ∧
      (∀ source node, plain.declaration? source node = recorded.declaration? source node) ∧
      (∀ source node, plain.definition? source node = recorded.definition? source node) ∧
      (∀ ref m d, recorded.index.decl? ref = some (m, d) → d.kind.isLexical = true →
        plain.project.references ref = recorded.project.references ref) ∧
      ∀ source node ref m d, recorded.declaration? source node = some (ref, m, d) →
        d.kind.isLexical = true →
        plain.references source node = recorded.references source node := by
  intro recorded plain
  obtain ⟨hanswers, h⟩ := (unrecorded_start config).run ops
  have hrecorded : recorded.index.Faithful (config.recording true) :=
    (Reached.start.run hops).faithful.2
  have hplain : plain.index.Faithful (config.recording false) :=
    (Reached.start.run hops).faithful.2
  have hreferences {ref : DeclRef} {m : FileModel} {d : Declaration}
      (hd : recorded.index.decl? ref = some (m, d)) (hlexical : d.kind.isLexical = true) :
      plain.project.references ref = recorded.project.references ref :=
    h.references hrecorded hplain hd hlexical
  refine ⟨hanswers, ProjectIndex.withoutOccurrences_eq h.index,
    fun m id => h.findings.type? (m := m) trivial id,
    fun m closure => h.findings.inferred? (m := m) trivial closure,
    fun m => h.findings.moduleReturnsOf (m := m) trivial, h.declaration?, h.definition?,
    fun ref m d hd hlexical => hreferences hd hlexical, ?_⟩
  intro source node ref m d hnode hlexical
  unfold Compilation.declaration? at hnode
  obtain ⟨f, hf, hnode⟩ := Option.bind_eq_some_iff.1 hnode
  obtain ⟨found, hfound, hnode⟩ := Option.bind_eq_some_iff.1 hnode
  obtain ⟨_, hd, heq⟩ := Option.map_eq_some_iff.1 hnode
  obtain ⟨rfl, rfl⟩ := Prod.mk.inj heq
  -- Both look for the references of the declaration that the node refers to.
  have hfound' : plain.project.declaration? f node = some found := by
    rw [h.project_declaration?, hfound]
  unfold Compilation.references
  rw [h.model?, hf]
  dsimp only
  unfold Project.findReferences
  rw [hfound', hfound]
  exact hreferences hd hlexical

/-- `local x = true  g = x` -/
def localAndUse : SyntaxTree :=
  .ofSketch 0 (some (.block [.declare ["x"] [.literal (.bool true)],
    .node (.assignStat [.var "g"] [.var "x"])]))

/-- A file that is analysed, and one that is not registered. -/
def oneFile : List Operation :=
  [.register "a.lua", .update [localAndUse], .remove 7]

/-- With and without occurrences the local has the same two references. -/
theorem recording_is_inert_oneFile :
    let recorded := run { config := ({} : Config).recording true } oneFile
    let plain := run { config := ({} : Config).recording false } oneFile
    (recorded.index.nameExprs "x").isEmpty = false ∧ (plain.index.nameExprs "x").isEmpty = true ∧
      (plain.project.references ⟨0, 1, 0⟩).length = 2 ∧
      plain.project.references ⟨0, 1, 0⟩ = recorded.project.references ⟨0, 1, 0⟩ ∧
      ∀ node, plain.declaration? 0 node = recorded.declaration? 0 node := by
  have hops : ∀ op ∈ oneFile, op.Proper := by
    refine List.forall_mem_cons.2 ⟨trivial, List.forall_mem_cons.2 ⟨?_, ?_⟩⟩
    · exact List.forall_mem_singleton.2 (SyntaxTree.proper_ofSketch 0 _ (by decide))
    · exact List.forall_mem_singleton.2 trivial
  obtain ⟨-, -, -, -, -, hdeclaration, -, hreferences, -⟩ := recording_is_inert {} hops
  have hlexical : ((run { config := ({} : Config).recording true } oneFile).index.decl?
      ⟨0, 1, 0⟩).any (·.2.kind.isLexical) = true := by
    decide +kernel
  obtain ⟨⟨m, d⟩, hd, hlexical⟩ := (Option.any_eq_true _ _).1 hlexical
  refine ⟨by decide +kernel, by decide +kernel, by decide +kernel, ?_, hdeclaration 0⟩
  exact hreferences _ m d hd hlexical

end Compilation

end LuaAnalysis
