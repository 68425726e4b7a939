import LuaAnalysis.Proofs.Resolve.LateTasks
import LuaAnalysis.Proofs.Resolve.TaskNeeds

/-!
# What tasks settle

A task that has been taken is settled: run or given up, its declaration has a type, its closure or
file has returns. What is settled stays so, so after a resolution every task is.

Main statement: `Project.Ready.settled`.
-/

namespace LuaAnalysis

/-- A closure that has returns keeps having some. -/
theorem Findings.Kept.returns? {f f' : Findings} (h : f.Kept f') {method : Method} {m : FileModel}
    {closure : NodeId} (hreturns : (method.returns? (f.inferred? m closure)).isSome) :
    (method.returns? (f'.inferred? m closure)).isSome := by
  unfold Method.returns? at *
  split
  · rfl
  · next hdeclared =>
    rw [if_neg hdeclared] at hreturns
    obtain ⟨returns, hfound⟩ := Option.isSome_iff_exists.1 hreturns
    rw [show f'.inferred? m closure = some returns from h.returns hfound]
    rfl

namespace Project

variable {p q : Project} {m : FileModel} {task : Task}

/-- Whether something has been found out about what a task is about. -/
def Settled (p : Project) (m : FileModel) : Task → Prop
  | .declaration decl _ todo _ => todo.type = true → (p.findings.type? m decl).isSome
  | .method closure => ∀ method, m.method? closure = some method → (m.closureBody? closure).isSome →
    (method.returns? (p.findings.inferred? m closure)).isSome
  | .source _ => (p.findings.moduleReturns.get? m.revision).isSome

/-- What is found out later does not unsettle a task. -/
theorem Settled.advance (h : p.Settled m task) (hadvances : p.Advances q) : q.Settled m task := by
  cases task with
  | declaration decl value todo definesType =>
    intro htype
    obtain ⟨type, hfound⟩ := Option.isSome_iff_exists.1 (h htype)
    rw [hadvances.findings.type? hfound]
    rfl
  | method closure =>
    intro method hmethod hbody
    exact hadvances.findings.returns? (h method hmethod hbody)
  | source block =>
    obtain ⟨returns, hfound⟩ := Option.isSome_iff_exists.1 h
    unfold Settled
    rw [hadvances.findings.moduleReturns hfound]
    rfl

/-! ## One task -/

theorem type?_resolveType {i : DeclId} {d : Declaration} (hd : m.decl? i = some d)
    (value : Option ValueRef) : ((p.resolveType m i value).findings.type? m i).isSome := by
  unfold resolveType
  split
  · next htyped => exact htyped
  · rw [Findings.type?_setType _ hd]
    rfl

theorem findings_linkTable (p : Project) (m : FileModel) (decl : DeclId) (value : Option ValueRef) :
    (p.linkTable m decl value).findings = p.findings := by
  unfold linkTable
  split
  · split <;> rfl
  · rfl

/-- Only typing a declaration finds something out about it. -/
theorem findings_runTask (p : Project) (m : FileModel) (decl : DeclId) (value : Option ValueRef)
    (todo : Open) (definesType : Bool) :
    (p.runTask m (.declaration decl value todo definesType)).findings =
      (if todo.type then p.resolveType m decl value else p).findings := by
  dsimp only [runTask]
  split <;> split <;> simp only [findings_linkField, findings_linkTable]

theorem settled_returns (p : Project) (m : FileModel) (closure : NodeId) (returns : List Ty) :
    Settled { p with findings := p.findings.setReturns m closure returns } m (.method closure) := by
  intro method _ _
  unfold Method.returns?
  split
  · rfl
  · rw [Findings.inferred?_setReturns]
    rfl

theorem settled_moduleReturns (p : Project) (m : FileModel) (block : NodeId) (returns : List Ty) :
    Settled { p with findings := p.findings.setModuleReturns m returns } m (.source block) := by
  unfold Settled Findings.setModuleReturns
  rw [WriteOnce.get?_put, if_pos rfl]
  rfl

theorem settled_runTask (p : Project) (htask : task.Concerns m.tree m.decls) :
    (p.runTask m task).Settled m task := by
  cases task with
  | declaration decl value todo definesType =>
    intro htype
    obtain ⟨d, hd, -⟩ := htask
    rw [findings_runTask, if_pos htype]
    exact type?_resolveType hd value
  | method closure =>
    dsimp only [runTask]
    split
    · next method body hmethod hbody =>
      split
      · next hdeclared =>
        -- Declared returns need no finding out.
        intro method' hmethod' _
        obtain rfl := Option.some.inj (hmethod.symm.trans hmethod')
        rw [Method.returns?, if_pos hdeclared]
        rfl
      · exact p.settled_returns m closure _
    · next hnone =>
      intro method hmethod hbody
      obtain ⟨body, hbody⟩ := Option.isSome_iff_exists.1 hbody
      exact (hnone method body hmethod hbody).elim
  | source block => exact p.settled_moduleReturns m block _

theorem settled_giveUp (p : Project) (htask : task.Concerns m.tree m.decls) :
    (p.giveUp m task).Settled m task := by
  cases task with
  | declaration decl value todo definesType =>
    intro _
    obtain ⟨d, hd, -⟩ := htask
    have hdecl : m.decl? decl = some d := hd
    dsimp only [giveUp]
    rw [Findings.type?_setType _ hdecl]
    rfl
  | method closure =>
    dsimp only [giveUp]
    split
    · exact p.settled_returns m closure _
    · next hnone =>
      intro method hmethod _
      rw [hmethod] at hnone
      exact absurd rfl hnone
  | source block => exact p.settled_moduleReturns m block _

/-- Run or given up, a task that has been taken is settled. -/
theorem settled_apply (p : Project) {e : TaskEvent}
    (he : e.task.Concerns e.model.tree e.model.decls) : (e.apply p).Settled e.model e.task := by
  unfold TaskEvent.apply
  split
  · exact p.settled_runTask he
  · exact p.settled_giveUp he

/-! ## All tasks -/

theorem settled_events (p : Project) {events : List TaskEvent}
    (hevents : ∀ e ∈ events, e.task.Concerns e.model.tree e.model.decls) :
    ∀ e ∈ events, (events.foldl TaskEvent.apply p).Settled e.model e.task := by
  induction events generalizing p with
  | nil => simp
  | cons e events ih =>
    obtain ⟨he, hrest⟩ := List.forall_mem_cons.1 hevents
    refine List.forall_mem_cons.2 ⟨?_, ih (e.apply p) hrest⟩
    exact (p.settled_apply he).advance (advances_events _ events)

/-- A resolution settles every task of its targets. -/
theorem Ready.settled {config : Config} {targets : List Target} (h : p.Ready config targets)
    {t : Target} (ht : t ∈ targets) (htask : some task ∈ t.worklist.places) :
    (p.resolve targets).project.Settled t.model task := by
  obtain ⟨e, he, hmodel, rfl⟩ := h.exists_event ht htask
  rw [project_resolve, ← hmodel]
  exact p.settled_events (fun e he =>
    (concerns_of_taskAt? h.published (p.mem_resolveEvents.1 he).1).2) e he

end Project

end LuaAnalysis
