import LuaAnalysis.File.Build
import LuaAnalysis.Project.References
import LuaAnalysis.Resolve.Resolver
import LuaAnalysis.Source.SourceMap

/-!
# Compilations

A `Compilation` holds registered sources and the project made of their files. `update` analyses a
set of trees, publishes all of them and only then does their tasks, so that nothing is typed against
a project that is half published. An operation that is refused changes nothing, also when it is done
in place (`updateInPlace`, `removeInPlace`).
-/

namespace LuaAnalysis

structure Compilation where
  config : Config := {}
  sources : SourceMap := {}
  index : ProjectIndex := {}
  findings : Findings := {}
  /-- How many updates there were. -/
  generation : Nat := 0
  /-- How many files were analysed. -/
  revision : Revision := 0

namespace Compilation

variable (c : Compilation)

/-- The published files with a bound for searches. -/
def projectWithin (maxSuperDepth : Nat) : Project :=
  { index := c.index, maxSuperDepth, findings := c.findings }

def project : Project :=
  c.projectWithin c.config.maxSuperDepth

def register (path : String) : SourceId × Compilation :=
  let (id, sources) := c.sources.register path
  (id, { c with sources })

/-- Analyses one tree without publishing it. -/
def analyse (tree : SyntaxTree) (generation : Nat) : Analysis × Compilation :=
  (tree.analyse c.config c.revision generation, { c with revision := c.revision + 1 })

/-- Analyses trees one after the other. -/
def analyseAll (generation : Nat) (c : Compilation) : List SyntaxTree → List Analysis × Compilation
  | [] => ([], c)
  | tree :: rest =>
    let (a, c) := c.analyse tree generation
    let (as, c) := analyseAll generation c rest
    (a :: as, c)

def publish (file : PublishedFile) : Compilation :=
  { c with index := c.index.publish file }

def retract (source : SourceId) : Compilation :=
  { c with index := c.index.retract source }

def amend (source : SourceId) (change : Entries → Entries) : Compilation :=
  { c with index := c.index.amend source change }

/-- Does the tasks of some files. -/
def resolveWithin (maxSuperDepth : Nat) (targets : List Target) : ResolveSummary × Compilation :=
  let done := (c.projectWithin maxSuperDepth).resolve targets
  (done.summary, { c with index := done.project.index, findings := done.project.findings })

/-- Analyses a change set and replaces what its files contributed before. -/
def update (trees : List SyntaxTree) : Except SourceError (ResolveSummary × Compilation) :=
  match trees.find? fun tree => !c.sources.contains tree.source with
  | some tree => .error (.unknownSource tree.source)
  | none =>
    let generation := c.generation + 1
    let (analyses, c) := analyseAll generation { c with generation } trees
    let c := analyses.foldl (fun c a => c.publish ⟨a.model, a.entries⟩) c
    let targets := analyses.foldl (fun ts a => addTarget ts ⟨a.model, a.worklist⟩) []
    .ok (c.resolveWithin c.config.maxSuperDepth targets)

/-- Retracts the file of a source; the answer says whether there was one. -/
def remove (source : SourceId) : Except SourceError (Bool × Compilation) :=
  if c.sources.contains source then
    .ok ((c.index.file? source).isSome, c.retract source)
  else .error (.unknownSource source)

/-! ## In place -/

/-- What changes a compilation in place and may be refused. -/
abbrev InPlace :=
  ExceptT SourceError (StateM Compilation)

/-- What an operation in place answers, and the compilation that it leaves. -/
def InPlace.attempt {α : Type} (x : InPlace α) (c : Compilation) :
    Except SourceError α × Compilation :=
  (ExceptT.run x).run c

/-- Refuses a source that is not registered. -/
def requireSource (source : SourceId) : InPlace Unit := do
  unless (← get).sources.contains source do
    throw (.unknownSource source)

/-- `update` in place. -/
def updateInPlace (trees : List SyntaxTree) : InPlace ResolveSummary := do
  forM trees fun tree => requireSource tree.source
  modify fun c => { c with generation := c.generation + 1 }
  let analyses ← modifyGet fun c => analyseAll c.generation c trees
  -- No task is done before all files are published.
  forM analyses fun a => modify (publish · ⟨a.model, a.entries⟩)
  let targets := analyses.foldl (fun ts a => addTarget ts ⟨a.model, a.worklist⟩) []
  modifyGet fun c => c.resolveWithin c.config.maxSuperDepth targets

/-- `remove` in place. -/
def removeInPlace (source : SourceId) : InPlace Bool := do
  requireSource source
  modifyGet fun c => ((c.index.file? source).isSome, c.retract source)

/-! ## Looking up -/

/-- The declaration that a node of a source refers to or makes, with the model that made it. -/
def declaration? (source : SourceId) (node : NodeId) : Option (DeclRef × FileModel × Declaration) :=
  (c.index.model? source).bind fun m =>
    (c.project.declaration? m node).bind fun ref =>
      (c.index.decl? ref).map fun found => (ref, found)

def references (source : SourceId) (node : NodeId) : List Reference :=
  match c.index.model? source with
  | some m => c.project.findReferences m node
  | none => []

def definition? (source : SourceId) (node : NodeId) : Option Reference :=
  (c.index.model? source).bind fun m => c.project.definition? m node

end Compilation

end LuaAnalysis
