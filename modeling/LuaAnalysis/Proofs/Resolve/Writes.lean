import LuaAnalysis.Proofs.File.Contributions
import LuaAnalysis.Proofs.File.OpenTasks
import LuaAnalysis.Proofs.Resolve.TaskOrder

/-!
# What a task writes

A task that is run or given up writes findings of its own model, and members into the entries of its
own file (`Project.Writes`). Whatever these writes preserve, tasks preserve.

Main statement: `Project.writes_apply`.
-/

namespace LuaAnalysis

/-- Whether a task makes the fields of a table members of a type. -/
def Task.definesType : Task → Bool
  | .declaration _ _ _ definesType => definesType
  | .method _ | .source _ => false

namespace Project

/-- `q` comes from `p` by what a task of a model may write: the type of the declaration that it is
about, the returns of its closure or of its file, members of the type that its table defines, and
its declaration as a member of an owner. -/
inductive Writes (m : FileModel) (task : Task) (p : Project) : Project → Prop where
  | nothing : Writes m task p p
  | type {q : Project} (h : Writes m task p q) {decl : DeclId} (hdecl : task.decl? = some decl)
      (type : Ty) : Writes m task p { q with findings := q.findings.setType m decl type }
  | returns {q : Project} (h : Writes m task p q) {closure : NodeId}
      (htask : task = .method closure) (returns : List Ty) :
      Writes m task p { q with findings := q.findings.setReturns m closure returns }
  | moduleReturns {q : Project} (h : Writes m task p q) (returns : List Ty) :
      Writes m task p { q with findings := q.findings.setModuleReturns m returns }
  | table {q : Project} (h : Writes m task p q) (hdefines : task.definesType = true) (name : String)
      (added : List DeclId) :
      Writes m task p (q.amend m.source (·.addMembers (.named name) added))
  | field {q : Project} (h : Writes m task p q) {decl : DeclId} (hdecl : task.decl? = some decl)
      (howner : task.todo.owner = true) (owner : Owner) :
      Writes m task p (q.amend m.source (·.addMember owner decl))

variable {p q : Project} {m : FileModel} {task : Task}

theorem Writes.resolveType (h : Writes m task p q) {decl : DeclId} (hdecl : task.decl? = some decl)
    (value : Option ValueRef) : Writes m task p (q.resolveType m decl value) := by
  unfold Project.resolveType
  split
  · exact h
  · exact h.type hdecl _

theorem Writes.linkTable (h : Writes m task p q) (hdefines : task.definesType = true)
    (decl : DeclId) (value : Option ValueRef) : Writes m task p (q.linkTable m decl value) := by
  unfold Project.linkTable
  split
  · split
    · exact h.table hdefines _ _
    · exact h
  · exact h

theorem Writes.linkField (h : Writes m task p q) {decl : DeclId} (hdecl : task.decl? = some decl)
    (howner : task.todo.owner = true) : Writes m task p (q.linkField m decl) := by
  unfold Project.linkField
  split
  · split
    · exact h.field hdecl howner _
    · exact h
  · exact h

/-- The project in which a task links its field: its declaration is typed and the fields of its
table are shared. -/
def beforeLink (p : Project) (m : FileModel) : Task → Project
  | .declaration decl value todo definesType =>
    let p := if todo.type then p.resolveType m decl value else p
    if definesType then p.linkTable m decl value else p
  | .method _ | .source _ => p

theorem writes_beforeLink (p : Project) (m : FileModel) (task : Task) :
    Writes m task p (p.beforeLink m task) := by
  cases task with
  | declaration decl value todo definesType =>
    have htyped : Writes m (.declaration decl value todo definesType) p
        (if todo.type then p.resolveType m decl value else p) := by
      split
      · exact Writes.nothing.resolveType rfl value
      · exact .nothing
    dsimp only [beforeLink]
    split
    · next hdefines => exact htyped.linkTable hdefines decl value
    · exact htyped
  | method | source => exact .nothing

theorem runTask_declaration (p : Project) (m : FileModel) (decl : DeclId) (value : Option ValueRef)
    (todo : Open) (definesType : Bool) :
    let task := Task.declaration decl value todo definesType
    p.runTask m task =
      if todo.owner then (p.beforeLink m task).linkField m decl else p.beforeLink m task :=
  rfl

theorem writes_runTask (p : Project) (m : FileModel) (task : Task) :
    Writes m task p (p.runTask m task) := by
  cases task with
  | declaration decl value todo definesType =>
    have hbefore := p.writes_beforeLink m (.declaration decl value todo definesType)
    rw [runTask_declaration]
    split
    · next howner => exact hbefore.linkField rfl howner
    · exact hbefore
  | method closure =>
    dsimp only [runTask]
    split
    · split
      · exact .nothing
      · exact Writes.nothing.returns rfl _
    · exact .nothing
  | source body => exact Writes.nothing.moduleReturns _

theorem writes_giveUp (p : Project) (m : FileModel) (task : Task) :
    Writes m task p (p.giveUp m task) := by
  cases task with
  | declaration => exact Writes.nothing.type rfl _
  | method =>
    dsimp only [giveUp]
    split
    · exact Writes.nothing.returns rfl _
    · exact .nothing
  | source => exact Writes.nothing.moduleReturns _

theorem writes_apply (p : Project) (e : TaskEvent) : Writes e.model e.task p (e.apply p) := by
  unfold TaskEvent.apply
  split
  · exact p.writes_runTask e.model e.task
  · exact p.writes_giveUp e.model e.task

end Project

end LuaAnalysis
