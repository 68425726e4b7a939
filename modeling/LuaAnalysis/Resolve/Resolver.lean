import LuaAnalysis.Resolve.Schedule

/-!
# Doing the tasks

`Project.resolve` takes every pending task of a set of files once, each after the tasks it depends
on. A task on a reported cycle is given up: what it should find out becomes unknown. Any other task
is run; it types a declaration, makes the fields of a table members of the type that the table
defines, makes an assigned field a member of the owner it is assigned to, or joins the returns of a
body.
-/

namespace LuaAnalysis

/-- Files whose tasks are to be done, one for each source. A file that comes again takes the place
of the one that was there. -/
def addTarget (targets : List Target) (target : Target) : List Target :=
  if targets.any fun t => t.model.source = target.model.source then
    targets.map fun t => if t.model.source = target.model.source then target else t
  else targets ++ [target]

/-- How many tasks were run and how many were given up. -/
structure ResolveSummary where
  resolved : Nat := 0
  cyclic : Nat := 0
deriving DecidableEq

/-- Joins two lists of returns position by position; a longer list keeps what it has more. -/
def joinReturns : List Ty → List Ty → List Ty
  | a :: as, b :: bs => a.join b :: joinReturns as bs
  | [], bs => bs
  | as, [] => as

namespace Project

variable (p : Project)

/-! ## Returns of a body -/

/-- The values of a list of expressions. A call in last position gives all of its values. -/
def valuesOf (m : FileModel) : List NodeId → List Ty
  | [] => []
  | [last] =>
    match m.tree.node? last with
    | some (.callExpr ..) =>
      match p.callType m last with
      | .tuple types => types
      | type => [type]
    | _ => [p.exprType m last 0]
  | e :: rest => p.exprType m e 0 :: valuesOf m rest

/-- The values of a return statement. -/
def returnedValues (m : FileModel) (stat : NodeId) : List Ty :=
  match m.tree.node? stat with
  | some (.returnStat exprs) => p.valuesOf m exprs
  | _ => []

/-- The values of every return of a body, joined position by position. -/
def inferReturns (m : FileModel) (body : NodeId) : List Ty :=
  (m.tree.returnStats body).foldl
    (fun returns stat => joinReturns returns (p.returnedValues m stat)) []

/-! ## Running a task -/

def amend (source : SourceId) (change : Entries → Entries) : Project :=
  { p with index := p.index.amend source change }

/-- Types a declaration that has no type; without a value it is `nil`. -/
def resolveType (m : FileModel) (decl : DeclId) (value : Option ValueRef) : Project :=
  if (p.findings.type? m decl).isSome then p
  else
    let type := match value with
      | some v => p.exprType m v.expr v.slot
      | none => .nil
    { p with findings := p.findings.setType m decl type }

/-- Makes the fields of a table members of the named type that a declaration has. -/
def linkTable (m : FileModel) (decl : DeclId) (value : Option ValueRef) : Project :=
  match p.findings.type? m decl, value with
  | some (.named name), some v =>
    match m.tree.node? v.expr with
    | some (.tableExpr _) =>
      let table := Owner.anonymous (m.tree.syntaxId v.expr)
      let members := ((p.index.file? m.source).map fun f => f.entries.members.values table).getD []
      p.amend m.source fun e => members.foldl (fun e member => e.addMember (.named name) member) e
    | _ => p
  | _, _ => p

/-- Makes an assigned field a member of the first owner that the type of its base has. -/
def linkField (m : FileModel) (decl : DeclId) : Project :=
  match m.assignedBase? decl with
  | some base =>
    match (p.ownersOfType (p.exprType m base 0)).head? with
    | some owner => p.amend m.source fun e => e.addMember owner decl
    | none => p
  | none => p

def runTask (m : FileModel) : Task → Project
  | .declaration decl value todo definesType =>
    let p := if todo.type then p.resolveType m decl value else p
    let p := if definesType then p.linkTable m decl value else p
    if todo.owner then p.linkField m decl else p
  | .method closure =>
    match m.method? closure, m.closureBody? closure with
    | some method, some body =>
      if method.hasDeclaredReturns then p
      else { p with findings := p.findings.setReturns m closure (p.inferReturns m body) }
    | _, _ => p
  | .source body => { p with findings := p.findings.setModuleReturns m (p.inferReturns m body) }

/-- Settles a task that cannot be ordered. -/
def giveUp (m : FileModel) : Task → Project
  | .declaration decl _ _ _ => { p with findings := p.findings.setType m decl .unknown }
  | .method closure =>
    if (m.method? closure).isSome then
      { p with findings := p.findings.setReturns m closure [.unknown] }
    else p
  | .source _ => { p with findings := p.findings.setModuleReturns m [.unknown] }

/-! ## Doing all tasks -/

end Project

/-- How far the tasks are done. -/
structure Progress where
  project : Project
  targets : List Target
  summary : ResolveSummary := {}

namespace Progress

/-- Takes a task out of the worklist it is in. -/
def take (s : Progress) (key : TaskKey) : Option (FileModel × Task) × Progress :=
  match s.targets.find? fun t => t.model.source = key.source with
  | some t =>
    let (task, worklist) := t.worklist.take key.place
    (task.map fun task => (t.model, task),
      { s with targets := addTarget s.targets { t with worklist } })
  | none => (none, s)

/-- Takes a task and runs it, or gives it up if it is on a cycle. -/
def step (cyclic : List TaskKey) (s : Progress) (key : TaskKey) : Progress :=
  match s.take key with
  | (some (m, task), s) =>
    if key ∈ cyclic then
      { s with
        project := s.project.giveUp m task
        summary := { s.summary with cyclic := s.summary.cyclic + 1 } }
    else
      { s with
        project := s.project.runTask m task
        summary := { s.summary with resolved := s.summary.resolved + 1 } }
  | (none, s) => s

end Progress

namespace Project

/-- Does the tasks of some files, and says how many were run and how many were given up. -/
def resolve (p : Project) (targets : List Target) : Progress :=
  let sorted := (p.taskGraph targets).sort
  sorted.order.foldl (Progress.step sorted.cycles.flatten) { project := p, targets }

end Project

end LuaAnalysis
