import LuaAnalysis.Proofs.Project.Update
import LuaAnalysis.Proofs.Resolve.FoundTypes
import LuaAnalysis.Proofs.Types.WellFormed

/-!
# The types that a compilation stores

An update analyses files that store what their trees admit, and does their tasks in a project where
the other files store what they did. So a property that operations on types keep holds of everything
that is stored in any compilation, if tables and closures have it. Well-formed types are like that:
the tuples that stand for the values of a call are never stored.

Main statements: `Compilation.Reached.allTypes`, `Compilation.stored_types_wellFormed`.
-/

namespace LuaAnalysis

namespace Compilation

variable {config : Config} {P : Ty → Prop} {c c' : Compilation} {trees : List SyntaxTree}

/-- An analysis stores what its own tree admits, as nothing has been found out for it yet. -/
theorem Reached.allTypes_of_analysis (h : Reached config c) (htrees : ∀ t ∈ trees, t.Proper)
    {a : Analysis} (ha : a ∈ c.analyses trees) (hP : a.model.tree.Admits P) {type : Ty}
    (htype : PublishedFile.Stores c.findings ⟨a.model, a.entries⟩ type) : P type := by
  obtain ⟨t, ht, revision, hle, -, rfl⟩ := mem_analyses ha
  have hnew : Findings.SameUnder (· = revision) {} c.findings :=
    h.stamped.findings.mono fun heq => heq ▸ hle
  exact PublishedFile.allTypes_of_new hP (htrees t ht) hnew htype

/-- A project that an update comes through: some of the tasks have been done, in their order. -/
def Passes (c : Compilation) (trees : List SyntaxTree) (p : Project) : Prop :=
  ∃ before after, (c.openProject trees).resolveEvents (c.targets trees) = before ++ after ∧
    p = before.foldl TaskEvent.apply (c.openProject trees)

/-- What is stored before the tasks are done. -/
theorem Reached.allTypes_opened (h : Reached config c) (hclosed : Ty.Closed P)
    (hidentities : ∀ i : Identity, P i.type) (htrees : ∀ t ∈ trees, t.Proper)
    (hstored : ∀ f ∈ c.index.files, ∀ type, f.Stores c.findings type → P type) :
    (c.openProject trees).AllTypes P := by
  refine ⟨hclosed, fun m hm i hi => hidentities i, fun f hf type htype => ?_⟩
  rcases mem_opened h.faithful.2.sorted hf with ⟨a, ha, rfl⟩ | ⟨hold, -⟩
  · exact h.allTypes_of_analysis htrees ha ⟨hclosed, fun _ => hidentities _⟩ htype
  · exact hstored f hold type htype

/-- What is stored while the tasks are done. -/
theorem Reached.allTypes_passed (h : Reached config c) (htrees : ∀ t ∈ trees, t.Proper)
    (hopened : (c.openProject trees).AllTypes P) {p : Project} (hp : c.Passes trees p) :
    p.AllTypes P := by
  obtain ⟨before, after, hevents, rfl⟩ := hp
  obtain ⟨-, htargets⟩ := faithful_opened h.faithful.1 h.faithful.2 htrees
  apply hopened.events
  intro e he
  have he : e ∈ (c.openProject trees).resolveEvents (c.targets trees) := by
    rw [hevents]
    exact List.mem_append_left _ he
  exact (concerns_of_taskAt? htargets (((c.openProject trees).mem_resolveEvents).1 he).1).1

/-- Doing tasks leaves the files and their order as they are. -/
theorem Reached.faithful_passed (h : Reached config c) (htrees : ∀ t ∈ trees, t.Proper)
    {p : Project} (hp : c.Passes trees p) :
    p.index.Sorted ∧ ∀ f ∈ p.index.files, f.model.tree.Proper := by
  obtain ⟨before, after, -, rfl⟩ := hp
  obtain ⟨hfaithful, -⟩ := faithful_opened h.faithful.1 h.faithful.2 htrees
  have hmodels := (c.openProject trees).models_events before
  refine ⟨hfaithful.sorted.of_models hmodels, fun f hf => ?_⟩
  have hmodel : f.model ∈ (c.openProject trees).index.models := hmodels ▸ List.mem_map_of_mem hf
  obtain ⟨g, hg, heq⟩ := List.mem_map.1 hmodel
  exact heq ▸ (hfaithful.files g hg).proper

/-- An update leaves the project that it comes through last. -/
theorem passes_project {summary : ResolveSummary} (hupdate : c.update trees = .ok (summary, c')) :
    c.Passes trees c'.project := by
  refine ⟨_, [], (List.append_nil _).symm, ?_⟩
  rw [project_of_update hupdate, Project.project_resolve]

/-- What an update stores. -/
theorem Reached.allTypes_update (h : Reached config c) (hclosed : Ty.Closed P)
    (hidentities : ∀ i : Identity, P i.type) (htrees : ∀ t ∈ trees, t.Proper)
    {summary : ResolveSummary} (hupdate : c.update trees = .ok (summary, c'))
    (hstored : ∀ f ∈ c.index.files, ∀ type, f.Stores c.findings type → P type) :
    c'.project.AllTypes P :=
  h.allTypes_passed htrees (h.allTypes_opened hclosed hidentities htrees hstored)
    (passes_project hupdate)

/-- Whatever happened, everything that is stored has a property that operations on types keep and
that tables and closures have. -/
theorem Reached.allTypes (h : Reached config c) (hclosed : Ty.Closed P)
    (hidentities : ∀ i : Identity, P i.type) : c.project.AllTypes P := by
  refine ⟨hclosed, fun m hm i hi => hidentities i, ?_⟩
  show ∀ f ∈ c.index.files, ∀ type, f.Stores c.findings type → P type
  induction h with
  | start => exact List.forall_mem_nil _
  | register _ _ ih => exact ih
  | update h htrees hupdate ih =>
    exact (h.allTypes_update hclosed hidentities htrees hupdate ih).stored
  | remove _ hremove ih =>
    rw [eq_of_remove hremove]
    exact fun f hf => ih f (ProjectIndex.mem_files_retract.1 hf).1

/-- Every type that is stored while the tasks of an update are done is well-formed. -/
theorem Reached.wellFormed_passed (h : Reached config c) (htrees : ∀ t ∈ trees, t.Proper)
    {p : Project} (hp : c.Passes trees p) : p.AllTypes Ty.WellFormed := by
  have hstored : c.project.AllTypes Ty.WellFormed := h.allTypes Ty.closed_wellFormed Ty.wellFormed_type
  exact h.allTypes_passed htrees
    (h.allTypes_opened Ty.closed_wellFormed Ty.wellFormed_type htrees hstored.stored) hp

/-- Every type that is stored is well-formed. An expression gives a well-formed type for each of its
values; only the value of a call as a whole may be a tuple, of well-formed types. -/
theorem stored_types_wellFormed (h : Reached config c) :
    (∀ f ∈ c.index.files, ∀ type, f.Stores c.findings type → type.WellFormed) ∧
      (∀ f ∈ c.index.files, ∀ expr slot, (c.project.exprType f.model expr slot).WellFormed) ∧
      ∀ f ∈ c.index.files, ∀ call, ∀ type ∈ (c.project.callType f.model call).values,
        type.WellFormed := by
  have hall : c.project.AllTypes Ty.WellFormed :=
    h.allTypes Ty.closed_wellFormed Ty.wellFormed_type
  refine ⟨hall.stored, fun f hf => hall.exprType (List.mem_map_of_mem hf), fun f hf call => ?_⟩
  have hm : f.model ∈ c.project.index.models := List.mem_map_of_mem hf
  exact hall.callStep (hall.exprType hm) hm call

/-- `function f(a) if a then return 1, "s" end return nil end`, `local x, y = f()`, and
`---@type integer | unknown | nil | integer` above `local z` -/
def severalReturns : Compilation :=
  ofUpdate [.ofSketch 0 (some (.block [
      .function (.var "f") ["a"] [
        .ifThen (.var "a") [.node (.returnStat [.literal (.integer 1), .literal (.string "s")])],
        .node (.returnStat [.literal .nil])],
      .declare ["x", "y"] [.call (.var "f") []],
      .node (.comment [.typeTag [.unionType ["integer", "unknown", "nil", "integer"]]]),
      .declare ["z"] []])),
    .ofSketch 1 none]

theorem reached_severalReturns : Reached {} severalReturns := by
  exact reached_ofUpdate (by decide) (by decide)

/-- The call is a tuple, of which `x` gets the first value and `y` the second one. The union of the
first value has come about by joining returns, that of `z` is written. -/
theorem types_of_severalReturns :
    ∃ f ∈ severalReturns.index.files,
      severalReturns.project.callType f.model 17 = .tuple [.union [.integer, .nil], .string] ∧
      severalReturns.findings.type? f.model 2 = some (.union [.integer, .nil]) ∧
      severalReturns.findings.type? f.model 3 = some .string ∧
      severalReturns.findings.type? f.model 4 = some (.union [.integer, .nil]) ∧
      ∀ type, f.Stores severalReturns.findings type →
        type.WellFormed ∧ type ≠ severalReturns.project.callType f.model 17 := by
  have hrun : ∃ f ∈ severalReturns.index.files,
      severalReturns.project.callType f.model 17 = .tuple [.union [.integer, .nil], .string] ∧
      severalReturns.findings.type? f.model 2 = some (.union [.integer, .nil]) ∧
      severalReturns.findings.type? f.model 3 = some .string ∧
      severalReturns.findings.type? f.model 4 = some (.union [.integer, .nil]) := by
    decide +kernel
  obtain ⟨f, hf, hcall, hx, hy, hz⟩ := hrun
  obtain ⟨hstored, -⟩ := stored_types_wellFormed reached_severalReturns
  refine ⟨f, hf, hcall, hx, hy, hz, fun type htype => ⟨hstored f hf type htype, ?_⟩⟩
  rintro rfl
  have hwellFormed := hstored f hf _ htype
  rw [hcall] at hwellFormed
  exact Ty.not_wellFormed_tuple hwellFormed

end Compilation

end LuaAnalysis
