import LuaAnalysis.File.Model

/-!
# The published files of a project

A project holds one published file for each source. What a look-up finds is what the files
contribute one after the other, by increasing source; so publishing or retracting one file leaves
the contributions of the others as they are.
-/

namespace LuaAnalysis

structure PublishedFile where
  model : FileModel
  entries : Entries
deriving DecidableEq

def PublishedFile.source (f : PublishedFile) : SourceId :=
  f.model.source

/-- The published files, by increasing source. -/
structure ProjectIndex where
  files : List PublishedFile := []
deriving DecidableEq

namespace ProjectIndex

/-- Puts a file into its place and drops the one of the same source. -/
def insertInto (file : PublishedFile) : List PublishedFile → List PublishedFile
  | [] => [file]
  | f :: rest =>
    if file.source < f.source then file :: f :: rest
    else if file.source = f.source then file :: rest
    else f :: insertInto file rest

def publish (p : ProjectIndex) (file : PublishedFile) : ProjectIndex :=
  ⟨insertInto file p.files⟩

def file? (p : ProjectIndex) (source : SourceId) : Option PublishedFile :=
  p.files.find? fun f => f.source = source

def retract (p : ProjectIndex) (source : SourceId) : ProjectIndex :=
  ⟨p.files.filter fun f => f.source ≠ source⟩

/-- Changes what the file of a source contributes. -/
def amend (p : ProjectIndex) (source : SourceId) (change : Entries → Entries) : ProjectIndex :=
  ⟨p.files.map fun f => if f.source = source then { f with entries := change f.entries } else f⟩

def model? (p : ProjectIndex) (source : SourceId) : Option FileModel :=
  (p.file? source).map (·.model)

/-- The declaration that a reference names, with the model that made it. There is none once the file
has been analysed again or retracted. -/
def decl? (p : ProjectIndex) (ref : DeclRef) : Option (FileModel × Declaration) :=
  match p.model? ref.source with
  | some m => if m.generation = ref.generation then (m.decl? ref.decl).map fun d => (m, d) else none
  | none => none

/-! ## What the files contribute -/

/-- The declarations that the files put under a name or an owner. -/
def refs {κ : Type} [DecidableEq κ] (p : ProjectIndex) (table : Entries → Grouped κ DeclId)
    (k : κ) : List DeclRef :=
  p.files.flatMap fun f => ((table f.entries).values k).map f.model.ref

def globals (p : ProjectIndex) (name : String) : List DeclRef :=
  p.refs (·.globals) name

def members (p : ProjectIndex) (owner : Owner) : List DeclRef :=
  p.refs (·.members) owner

def generics (p : ProjectIndex) (name : String) : List DeclRef :=
  p.refs (·.generics) name

def types (p : ProjectIndex) (name : String) : List (DeclRef × TypeCategory) :=
  p.files.flatMap fun f =>
    (f.entries.types.values name).map fun (id, category) => (f.model.ref id, category)

def aliases (p : ProjectIndex) (name : String) : List (Ty × DeclRef) :=
  p.files.flatMap fun f =>
    (f.entries.aliases.values name).map fun (base, id) => (base, f.model.ref id)

def supers (p : ProjectIndex) (name : String) : List Ty :=
  p.files.flatMap fun f => f.entries.supers.values name

def operators (p : ProjectIndex) (owner : Owner) : List Overload :=
  p.files.flatMap fun f => f.entries.operators.values owner

/-- The nodes that the files put under a name, each with the model of its file. -/
def occurrences (p : ProjectIndex) (table : Entries → Grouped String NodeId) (name : String) :
    List (FileModel × NodeId) :=
  p.files.flatMap fun f => ((table f.entries).values name).map fun id => (f.model, id)

def nameExprs (p : ProjectIndex) (name : String) : List (FileModel × NodeId) :=
  p.occurrences (·.nameExprs) name

def indexExprs (p : ProjectIndex) (field : String) : List (FileModel × NodeId) :=
  p.occurrences (·.indexExprs) field

def typeRefs (p : ProjectIndex) (name : String) : List (FileModel × NodeId) :=
  p.occurrences (·.typeRefs) name

/-- The owners that have a declaration as a member. -/
def ownersOf (p : ProjectIndex) (ref : DeclRef) : List Owner :=
  match p.file? ref.source with
  | some f => if f.model.generation = ref.generation then f.entries.members.keysOf ref.decl else []
  | none => []

end ProjectIndex

end LuaAnalysis
