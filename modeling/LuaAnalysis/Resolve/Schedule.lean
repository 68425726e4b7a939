import LuaAnalysis.Data.DependencyGraph
import LuaAnalysis.Project.Typing

/-!
# The order of tasks

A task depends on the tasks that find out what its expressions mention. `Project.taskGraph` relates
the pending tasks of a set of files in this way: a mentioned name leads to the task of the
declaration it refers to and, for a function, to the task of its returns; a mentioned field leads to
the tasks of every field of that name that is assigned anywhere.
-/

namespace LuaAnalysis

/-- A task by its file and its place in the worklist of the file. -/
structure TaskKey where
  source : SourceId
  place : Nat
deriving DecidableEq

/-- A file whose tasks are to be done. -/
structure Target where
  model : FileModel
  worklist : Worklist

/-- The pending tasks of some files, each with its key and the model of its file. -/
def pendingTasks (targets : List Target) : List (TaskKey × FileModel × Task) :=
  targets.flatMap fun t =>
    t.worklist.pending.map fun (place, task) => (⟨t.model.source, place⟩, t.model, task)

/-! ## Mentions -/

/-- What an expression mentions outside closures: name expressions, and the fields that index
expressions select. -/
structure Mentions where
  names : List NodeId
  keys : List String

/-- Where the statements of a body are that return from it. -/
def SyntaxTree.returnStats (t : SyntaxTree) (body : NodeId) : List NodeId :=
  (t.outsideClosures body).filter fun id =>
    match t.node? id with
    | some (.returnStat _) => true
    | _ => false

def SyntaxTree.mentions (t : SyntaxTree) (root : NodeId) : Mentions :=
  let nodes := t.outsideClosures root
  { names := nodes.filter fun id =>
      match t.node? id with
      | some (.nameExpr _) => true
      | _ => false
    keys := nodes.filterMap fun id =>
      match t.node? id with
      | some (.indexExpr ..) => t.fieldText? id
      | _ => none }

/-- The base of the index expression that a declaration assigns to. -/
def FileModel.assignedBase? (m : FileModel) (decl : DeclId) : Option NodeId :=
  (m.decl? decl).bind fun d =>
    match m.tree.node? d.node with
    | some (.indexExpr base _ _) => base
    | _ => none

/-- What a body mentions in its returns. -/
def FileModel.returnMentions (m : FileModel) (body : NodeId) : List Mentions :=
  (m.tree.returnStats body).map m.tree.mentions

/-- The body of a closure. -/
def FileModel.closureBody? (m : FileModel) (closure : NodeId) : Option NodeId :=
  match m.tree.node? closure with
  | some (.closureExpr _ body) => body
  | _ => none

/-- What the expressions mention that a task evaluates. -/
def FileModel.taskMentions (m : FileModel) : Task → List Mentions
  | .declaration decl value todo _ =>
    (value.toList.map fun v => m.tree.mentions v.expr) ++
      (if todo.owner then (m.assignedBase? decl).toList.map m.tree.mentions else [])
  | .method closure => ((m.closureBody? closure).map m.returnMentions).getD []
  | .source body => m.returnMentions body

/-! ## The graph -/

/-- Which tasks find out the type of a declaration, the returns of a closure, and the fields of a
name. A field that holds a function is listed with its closure. -/
structure TaskTable where
  decls : List (DeclRef × TaskKey) := []
  methods : List (SyntaxId × TaskKey) := []
  fields : List (String × TaskKey × Option SyntaxId) := []

namespace TaskTable

def add (table : TaskTable) : TaskKey × FileModel × Task → TaskTable
  | (key, m, .declaration decl _ _ _) =>
    let table := { table with decls := (m.ref decl, key) :: table.decls }
    match m.decl? decl with
    | some d =>
      if d.kind.isAssignedField then
        let closure := d.kind.closure?.map m.tree.syntaxId
        { table with fields := table.fields ++ [(d.name, key, closure)] }
      else table
    | none => table
  | (key, m, .method closure) =>
    { table with methods := (m.tree.syntaxId closure, key) :: table.methods }
  | (_, _, .source _) => table

def ofTasks (tasks : List (TaskKey × FileModel × Task)) : TaskTable :=
  tasks.foldl add {}

def declTask? (table : TaskTable) (ref : DeclRef) : Option TaskKey :=
  (table.decls.find? fun entry => entry.1 = ref).map Prod.snd

def methodTask? (table : TaskTable) (closure : Option SyntaxId) : Option TaskKey :=
  closure.bind fun id => (table.methods.find? fun entry => entry.1 = id).map Prod.snd

/-- The tasks that a mention of a declaration leads to. -/
def ofDeclaration (table : TaskTable) (ref : DeclRef) (closure : Option SyntaxId) : List TaskKey :=
  (table.declTask? ref).toList ++ (table.methodTask? closure).toList

/-- The tasks that a mention of a field leads to. -/
def ofField (table : TaskTable) (name : String) : List TaskKey :=
  (table.fields.filter fun entry => entry.1 = name).flatMap fun (_, key, closure) =>
    key :: (table.methodTask? closure).toList

end TaskTable

namespace Project

variable (p : Project)

/-- The tasks that a mentioned name leads to. -/
def nameTasks (table : TaskTable) (m : FileModel) (name : NodeId) : List TaskKey :=
  match p.declaration? m name with
  | some ref =>
    let closure := (p.index.decl? ref).bind fun (_, d) =>
      d.kind.closure?.map fun node => (⟨ref.source, node⟩ : SyntaxId)
    table.ofDeclaration ref closure
  | none => []

/-- The tasks that a task depends on, in the order in which they are mentioned. -/
def taskDependencies (table : TaskTable) (m : FileModel) (task : Task) : List TaskKey :=
  (m.taskMentions task).flatMap fun mentions =>
    mentions.names.flatMap (p.nameTasks table m) ++ mentions.keys.flatMap table.ofField

/-- Adds a task with everything it depends on. No task depends on itself. -/
def addTask (table : TaskTable) (graph : DependencyGraph TaskKey) :
    TaskKey × FileModel × Task → DependencyGraph TaskKey
  | (key, m, task) =>
    ((p.taskDependencies table m task).filter (· ≠ key)).foldl
      (fun graph other => graph.addDependency key other) (graph.addNode key)

/-- The tasks of some files and what they depend on. -/
def taskGraph (targets : List Target) : DependencyGraph TaskKey :=
  let tasks := pendingTasks targets
  tasks.foldl (p.addTask (.ofTasks tasks)) {}

end Project

end LuaAnalysis
