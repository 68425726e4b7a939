import LuaAnalysis.Proofs.Project.Evaluation
import LuaAnalysis.Proofs.Resolve.GivenUp
import LuaAnalysis.Proofs.Resolve.TaskTable

/-!
# Returns before calls

A call of a function statement is evaluated after the returns of the function have been found out,
when the function is called by its name or by the field that the statement assigns. The mention of
the name or field leads to the task of the declaration, and the declaration to its closure.

A closure that is a value is another matter: the variable that holds it is a declaration without a
closure, so its mention leads to the task of the variable only (`call_before_returns`).

Main statement: `Project.returns_before_call`.
-/

namespace LuaAnalysis

namespace ProjectIndex

variable {idx : ProjectIndex} {ref : DeclRef} {m : FileModel} {d : Declaration}

theorem source_of_decl? (h : idx.decl? ref = some (m, d)) :
    m.source = ref.source ∧ m.decl? ref.decl = some d := by
  unfold decl? model? at h
  cases hfile : idx.file? ref.source with
  | none =>
    rw [hfile] at h
    cases h
  | some f =>
    rw [hfile, Option.map_some] at h
    dsimp only at h
    split at h
    · obtain ⟨e, he, heq⟩ := Option.map_eq_some_iff.1 h
      obtain ⟨rfl, rfl⟩ := Prod.mk.inj heq
      have hsource : f.source = ref.source := by simpa using List.find?_some hfile
      exact ⟨hsource, he⟩
    · cases h

/-- A declaration is the same in every index with alike files. -/
theorem exists_decl?_of_alike {idx' : ProjectIndex} (h : idx.Alike idx')
    (hd : idx'.decl? ref = some (m, d)) : ∃ m', idx.decl? ref = some (m', d) := by
  have hrel := decl?_alike h ref
  rw [hd] at hrel
  generalize idx.decl? ref = found at hrel
  cases hrel with
  | @some x _ hx =>
    obtain ⟨m', e⟩ := x
    obtain rfl : e = d := hx.2
    exact ⟨m', rfl⟩

end ProjectIndex

theorem Lookup.decl?_of_directMember? {l : Lookup} {owner : Owner} {name : String} {ref : DeclRef}
    (h : l.directMember? owner name = some ref) :
    ∃ m d, l.index.decl? ref = some (m, d) ∧ d.name = name := by
  obtain ⟨⟨ref', key⟩, hleast, rfl⟩ := Option.map_eq_some_iff.1 h
  obtain ⟨ref, -, hplaced⟩ := List.mem_filterMap.1 (mem_of_firstLeast? hleast)
  split at hplaced
  · next m d hd =>
    split at hplaced
    · next hname =>
      obtain ⟨rfl, -⟩ := Prod.mk.inj (Option.some.inj hplaced)
      exact ⟨m, d, hd, hname⟩
    · cases hplaced
  · cases hplaced

theorem Lookup.name_of_directMember? {l : Lookup} {owner : Owner} {name : String} {ref : DeclRef}
    {m : FileModel} {d : Declaration} (h : l.directMember? owner name = some ref)
    (hd : l.index.decl? ref = some (m, d)) : d.name = name := by
  obtain ⟨m', d', hd', hname⟩ := decl?_of_directMember? h
  obtain ⟨-, rfl⟩ := Prod.mk.inj (Option.some.inj (hd'.symm.trans hd))
  exact hname

namespace Project

variable {p q : Project} {m : FileModel}

/-- How a callee means the closure of a function statement: it is a name that refers to the function,
or it selects the field that the statement assigns, a member that has a task of its own. -/
inductive CallsFunction (q : Project) (targets : List Target) (m : FileModel) (callee : NodeId)
    (closure : SyntaxId) : Prop where
  | name {name : String} {ref : DeclRef} {m' : FileModel} {d : Declaration}
      (hn : m.tree.node? callee = some (.nameExpr name))
      (href : q.declaration? m callee = some ref) (hd : q.index.decl? ref = some (m', d))
      (hclosure : d.kind.closure? = some closure.node) (hsource : ref.source = closure.source)
  | field {base : NodeId} {selector : Option NodeId} {colon : Bool} {name : String} {ref : DeclRef}
      {m' : FileModel} {d : Declaration} {key : TaskKey} {value : Option ValueRef} {todo : Open}
      {definesType : Bool} (hn : m.tree.node? callee = some (.indexExpr (some base) selector colon))
      (hname : selector.bind m.tree.keyText? = some name)
      (href : q.memberOfType? (q.exprType m base 0) name = some ref)
      (hd : q.index.decl? ref = some (m', d)) (hkind : d.kind = .method .field closure.node)
      (hsource : ref.source = closure.source)
      (htask : (key, m', .declaration ref.decl value todo definesType) ∈ pendingTasks targets)

/-- The mention of the callee leads to the task of the closure. -/
theorem CallsFunction.dependency {targets : List Target} {task : Task} {callee : NodeId}
    {closure : SyntaxId} {other : TaskKey} (h : q.CallsFunction targets m callee closure)
    (hadvances : p.Advances q) (hcallee : callee ∈ m.evaluatedBy task)
    (hother : (TaskTable.ofTasks (pendingTasks targets)).methodTask? (some closure) = some other) :
    other ∈ p.taskDependencies (.ofTasks (pendingTasks targets)) m task := by
  cases h with
  | @name name ref m' d hn href hd hclosure hsource =>
    apply nameTasks_subset hcallee hn
    -- Names refer to the same declarations before and after tasks.
    have hsame : p.declaration? m callee = some ref := by
      rw [declaration?, declarationStep?_nameExpr hn,
        ← named?_alike hadvances.files (.refl m) callee, ← declarationStep?_nameExpr hn]
      exact href
    obtain ⟨m'', hd''⟩ := ProjectIndex.exists_decl?_of_alike hadvances.files hd
    have hid : (⟨ref.source, closure.node⟩ : SyntaxId) = closure := by rw [hsource]
    unfold nameTasks
    rw [hsame]
    dsimp only
    rw [hd'', Option.bind_some, hclosure, Option.map_some, hid]
    exact List.mem_append_right _ (Option.mem_toList.2 hother)
  | @field base selector colon name ref m' d key value todo definesType hn hname href hd hkind
      hsource htask =>
    obtain ⟨owner, hdirect⟩ := directMember?_of_memberOfType? href
    obtain ⟨hsource', hdecl⟩ := ProjectIndex.source_of_decl? hd
    have hid : m'.tree.syntaxId closure.node = closure := by
      rw [SyntaxTree.syntaxId, show m'.tree.source = closure.source from hsource'.trans hsource]
    obtain rfl := Lookup.name_of_directMember? hdirect hd
    have hassigned : d.kind.isAssignedField = true := by
      rw [hkind]
      rfl
    have hclosure : d.kind.closure?.map m'.tree.syntaxId = some closure := by
      rw [hkind]
      exact congrArg some hid
    apply ofField_subset hcallee hn hname
    exact TaskTable.mem_ofField.2 ⟨key, m', _, ref.decl, d, htask, rfl, hdecl, hassigned, rfl,
      .inr (by rw [hclosure, hother])⟩

/-- Once the task of a closure is taken, its returns are known. -/
theorem returns_known {e : TaskEvent} {closure : NodeId} {method : Method}
    (htask : e.task = .method closure) (hmethod : e.model.method? closure = some method)
    (hbody : (e.model.closureBody? closure).isSome = true) :
    method.hasDeclaredReturns = true ∨
      ((e.apply p).findings.inferred? e.model closure).isSome = true := by
  obtain ⟨body, hbody⟩ := Option.isSome_iff_exists.1 hbody
  unfold TaskEvent.apply
  rw [htask]
  split
  · simp only [runTask, hmethod, hbody]
    split
    · next hdeclared => exact .inl hdeclared
    · rw [Findings.inferred?_setReturns]
      exact .inr rfl
  · rw [giveUp, hmethod, Option.isSome_some, if_pos rfl, Findings.inferred?_setReturns]
    exact .inr rfl

/-- When a task that is run evaluates a call of a function statement, the task of the function has
been taken and its returns are known. -/
theorem returns_before_call {files : List Target} {before after : List TaskEvent} {e : TaskEvent}
    (hevents : p.resolveEvents (files.foldl addTarget []) = before ++ e :: after)
    (hrun : e.run = true) (hproper : e.model.tree.Proper) {call callee : NodeId}
    {args : List NodeId} (hcall : call ∈ e.model.evaluatedBy e.task)
    (hn : e.model.tree.node? call = some (.callExpr (some callee) args)) {closure : SyntaxId}
    (hcalls : (before.foldl TaskEvent.apply p).CallsFunction (files.foldl addTarget []) e.model
      callee closure)
    {key : TaskKey} (hpending : (key, m, .method closure.node) ∈
      pendingTasks (files.foldl addTarget [])) (hsource : m.source = closure.source)
    (hother : e.task = .method closure.node → e.model.source ≠ closure.source) :
    ∃ b ∈ before, b.task = .method closure.node ∧ b.model.source = closure.source ∧
      ∀ method, b.model.method? closure.node = some method →
        (b.model.closureBody? closure.node).isSome = true → method.hasDeclaredReturns = true ∨
          ((before.foldl TaskEvent.apply p).findings.inferred? b.model closure.node).isSome =
            true := by
  have h : OnePerSource (files.foldl addTarget []) :=
    onePerSource_foldl_addTarget files [] List.nodup_nil
  generalize files.foldl addTarget [] = targets at *
  have he : e ∈ p.resolveEvents targets := by simp [hevents]
  have hpend : (e.key, e.model, e.task) ∈ pendingTasks targets :=
    (mem_pendingTasks h).2 (p.mem_resolveEvents.1 he).1
  -- The callee is evaluated with the call.
  have hcallee : callee ∈ e.model.evaluatedBy e.task := by
    obtain ⟨root, hroot, hcall⟩ := List.mem_flatMap.1 hcall
    have hpart : callee ∈ e.model.tree.evaluated call :=
      SyntaxTree.mem_evaluated hn (by simp) (by simp [Node.children])
    exact List.mem_flatMap.2
      ⟨root, hroot, SyntaxTree.child_mem_outsideClosures hproper hcall hpart⟩
  -- The table leads to a task of the closure, which is another one than the one that calls.
  obtain ⟨other, m', htable, hmethod, hsame⟩ := TaskTable.exists_methodTask? hpending
  have hid : m.tree.syntaxId closure.node = closure := by
    rw [SyntaxTree.syntaxId, show m.tree.source = closure.source from hsource]
  rw [hid] at htable
  have hdep := hcalls.dependency (p.advances_events before) hcallee htable
  have hne : other ≠ e.key := by
    rintro rfl
    have heq := ((mem_pendingTasks h).1 hmethod).symm.trans ((mem_pendingTasks h).1 hpend)
    obtain ⟨rfl, htask⟩ := Prod.mk.inj (Option.some.inj heq)
    exact hother htask.symm (hsame.trans hsource)
  have hedge : (e.key, other) ∈ (p.taskGraph targets).edges :=
    p.mem_edges_taskGraph.2 ⟨e.model, e.task, hpend, hne, hdep⟩
  obtain ⟨b, hb, rfl⟩ := List.mem_map.1 (p.dependency_before_run h hevents hrun hedge)
  have hbtask := (p.mem_resolveEvents.1 (by simp [hevents, hb] : b ∈ p.resolveEvents targets)).1
  obtain ⟨hbm, hbt⟩ := Prod.mk.inj
    (Option.some.inj (hbtask.symm.trans ((mem_pendingTasks h).1 hmethod)))
  refine ⟨b, hb, hbt, by rw [hbm, hsame, hsource], fun method hmethod hbody => ?_⟩
  -- What the event found out is kept by those that follow it.
  obtain ⟨first, rest, rfl⟩ := List.append_of_mem hb
  rw [List.foldl_append, List.foldl_cons]
  refine (returns_known (p := first.foldl TaskEvent.apply p) hbt hmethod hbody).imp_right ?_
  intro hknown
  obtain ⟨returns, hknown⟩ := Option.isSome_iff_exists.1 hknown
  exact Option.isSome_iff_exists.2 ⟨returns, (advances_events _ rest).findings.returns hknown⟩

/-- `local x = g()` -/
def callsGlobal : Sketch :=
  .block [.declare ["x"] [.call (.var "g") []]]

/-- `function g() return 1 end` -/
def functionStatement : Sketch :=
  .block [.function (.var "g") [] [.node (.returnStat [.literal (.integer 1)])]]

/-- `g = function() return 1 end` -/
def closureValue : Sketch :=
  .block [.node (.assignStat [.var "g"]
    [.closure [] [.node (.returnStat [.literal (.integer 1)])]])]

/-- The call of a global function in a file comes after the function in the next file. -/
theorem returns_before_call_of_global :
    let trees := [SyntaxTree.ofSketch 0 (some callsGlobal),
      SyntaxTree.ofSketch 1 (some functionStatement)]
    let events := (published trees).resolveEvents ((pendingFiles trees).foldl addTarget [])
    events[3]?.map (·.key) = some ⟨0, 1⟩ ∧
      ∃ b ∈ events.take 3, b.task = .method 4 ∧ b.model.source = 1 := by
  intro trees events
  let q := (events.take 3).foldl TaskEvent.apply (published trees)
  have hevent : (events[3]?.any fun e => decide (e.run = true ∧
      e.model.tree = SyntaxTree.ofSketch 0 (some callsGlobal) ∧
      2 ∈ e.model.evaluatedBy e.task ∧ q.declaration? e.model 1 = some ⟨1, 1, 0⟩ ∧
      (e.task = .method 4 → e.model.source ≠ 1))) = true := by decide +kernel
  obtain ⟨e, he, hfacts⟩ := (Option.any_eq_true _ _).1 hevent
  obtain ⟨hrun, htree, hcall, href, hother⟩ := of_decide_eq_true hfacts
  have hsplit : events = events.take 3 ++ e :: events.drop 4 := by
    generalize events = es at he
    obtain ⟨hlen, rfl⟩ := List.getElem?_eq_some_iff.1 he
    rw [List.getElem_cons_drop, List.take_append_drop]
  have hproper : e.model.tree.Proper := htree ▸ SyntaxTree.proper_ofSketch 0 _ (by decide)
  have hn : e.model.tree.node? 2 = some (.callExpr (some 1) []) := by
    rw [htree]
    decide +kernel
  have hcalls : q.CallsFunction ((pendingFiles trees).foldl addTarget []) e.model 1 ⟨1, 4⟩ := by
    have hname : e.model.tree.node? 1 = some (.nameExpr "g") := by
      rw [htree]
      decide +kernel
    have hclosure : ((q.index.decl? ⟨1, 1, 0⟩).bind fun found => found.2.kind.closure?) =
        some 4 := by decide +kernel
    obtain ⟨⟨m, d⟩, hd, hclosure⟩ := Option.bind_eq_some_iff.1 hclosure
    exact .name hname href hd hclosure rfl
  have hpending : ∃ entry ∈ pendingTasks ((pendingFiles trees).foldl addTarget []),
      entry.2.2 = .method 4 ∧ entry.2.1.source = 1 := by decide +kernel
  obtain ⟨⟨key, m, task⟩, hmem, rfl, hsource⟩ := hpending
  obtain ⟨b, hb, htask, hb', -⟩ :=
    returns_before_call hsplit hrun hproper hcall hn hcalls hmem hsource hother
  exact ⟨by decide +kernel, b, hb, htask, hb'⟩

/-- Where the function is a value of the global, the call comes first. No task is on a cycle, the
callee is known to be the closure, and its returns are not known yet. -/
theorem call_before_returns :
    let trees := [SyntaxTree.ofSketch 0 (some callsGlobal),
      SyntaxTree.ofSketch 1 (some closureValue)]
    let targets := (pendingFiles trees).foldl addTarget []
    let events := (published trees).resolveEvents targets
    let q := (events.take 2).foldl TaskEvent.apply (published trees)
    ((published trees).taskGraph targets).Acyclic ∧
      (∃ e, events[2]? = some e ∧ e.run = true ∧ 2 ∈ e.model.evaluatedBy e.task ∧
        e.model.tree.node? 2 = some (.callExpr (some 1) []) ∧
          q.exprType e.model 1 0 = .method ⟨1, 4⟩ ∧ q.exprType e.model 2 0 = .unknown) ∧
      (∃ entry ∈ pendingTasks targets, entry.2.2 = .method 4 ∧ entry.2.1.source = 1) ∧
      ∀ b ∈ events.take 2, b.task ≠ .method 4 := by
  intro trees targets events q
  have hnil : ((published trees).taskGraph targets).sort.cycles = [] := by decide +kernel
  have hevent : (events[2]?.any fun e => decide (e.run = true ∧ 2 ∈ e.model.evaluatedBy e.task ∧
      e.model.tree.node? 2 = some (.callExpr (some 1) []) ∧
      q.exprType e.model 1 0 = .method ⟨1, 4⟩ ∧ q.exprType e.model 2 0 = .unknown)) = true := by
    decide +kernel
  obtain ⟨e, he, hfacts⟩ := (Option.any_eq_true _ _).1 hevent
  exact ⟨(DependencyGraph.cycles_sort_eq_nil_iff (wellFormed_taskGraph _ _)).1 hnil,
    ⟨e, he, of_decide_eq_true hfacts⟩, by decide +kernel, by decide +kernel⟩

end Project

end LuaAnalysis
