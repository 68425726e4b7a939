import LuaAnalysis.Proofs.Resolve.Calls
import LuaAnalysis.Proofs.Resolve.Frame

/-!
# What later tasks leave as it is

A task finds out the type of one declaration at most, or the returns of one body, and it adds
members. So a declaration keeps its type through tasks that are about others
(`Project.type?_events`), a call gives the same after tasks that do not find out the returns of its
closure (`Project.returnType?_events`), and a member of an owner stays one
(`Project.members_events`).
-/

namespace LuaAnalysis

/-- Whether a task is about a declaration of a model. -/
def TaskEvent.About (e : TaskEvent) (m : FileModel) (i : DeclId) : Prop :=
  e.model.revision = m.revision ∧ e.task.decl? = some i

/-- The closure whose returns a task finds out: the task is run, and they are not declared. -/
def TaskEvent.findsReturns? (e : TaskEvent) : Option SyntaxId :=
  match e.task with
  | .method closure =>
    if e.run = true ∧ (e.model.method? closure).any (!·.hasDeclaredReturns) ∧
        (e.model.closureBody? closure).isSome then
      some (e.model.tree.syntaxId closure)
    else none
  | .declaration .. | .source _ => none

/-! ## Types and returns -/

theorem Findings.type?_setType_of_ne (f : Findings) {m m' : FileModel} {i j : DeclId}
    (h : m'.revision = m.revision → i ≠ j) (type : Ty) :
    (f.setType m' i type).type? m j = f.type? m j := by
  unfold setType
  split
  · rfl
  · unfold type?
    cases m.decl? j with
    | none => rfl
    | some d =>
      dsimp only
      rw [WriteOnce.get?_put_of_ne]
      rintro heq
      obtain ⟨hrevision, rfl⟩ := Prod.mk.inj heq
      exact h hrevision.symm rfl

theorem Findings.returns_setType (f : Findings) (m : FileModel) (i : DeclId) (type : Ty) :
    (f.setType m i type).returns = f.returns := by
  unfold setType
  split <;> rfl

theorem Findings.moduleReturns_setType (f : Findings) (m : FileModel) (i : DeclId) (type : Ty) :
    (f.setType m i type).moduleReturns = f.moduleReturns := by
  unfold setType
  split <;> rfl

namespace Project

variable {p q : Project} {m : FileModel} {task : Task} {events : List TaskEvent}

theorem findings_linkField (p : Project) (m : FileModel) (decl : DeclId) :
    (p.linkField m decl).findings = p.findings := by
  unfold linkField
  split
  · split <;> rfl
  · rfl

/-- A task that is about another declaration leaves the type of a declaration as it is. -/
theorem Writes.type? (h : Writes m task p q) {m' : FileModel} {i : DeclId}
    (hother : m.revision = m'.revision → task.decl? ≠ some i) :
    q.findings.type? m' i = p.findings.type? m' i := by
  induction h with
  | nothing => rfl
  | @type q h decl hdecl type ih =>
    have hne (hrevision : m.revision = m'.revision) : decl ≠ i := by
      rintro rfl
      exact hother hrevision hdecl
    exact (q.findings.type?_setType_of_ne hne type).trans ih
  | returns _ _ _ ih | moduleReturns _ _ ih | table _ _ _ _ ih | field _ _ _ _ ih => exact ih

theorem type?_events (p : Project) {i : DeclId} (h : ∀ e ∈ events, ¬e.About m i) :
    (events.foldl TaskEvent.apply p).findings.type? m i = p.findings.type? m i := by
  induction events generalizing p with
  | nil => rfl
  | cons e events ih =>
    have hfirst : (e.apply p).findings.type? m i = p.findings.type? m i :=
      (p.writes_apply e).type? fun hrevision hdecl => h e List.mem_cons_self ⟨hrevision, hdecl⟩
    rw [List.foldl_cons, ih _ fun e' he' => h e' (List.mem_cons_of_mem _ he'), hfirst]

/-- Only the task of a closure finds out its returns. -/
theorem Writes.inferred? (h : Writes m task p q) {m' : FileModel} {closure : NodeId}
    (hother : m.revision = m'.revision → task ≠ .method closure) :
    q.findings.inferred? m' closure = p.findings.inferred? m' closure := by
  induction h with
  | nothing => rfl
  | @type q _ decl _ type ih =>
    refine Eq.trans ?_ ih
    unfold Findings.inferred?
    rw [q.findings.returns_setType]
  | @returns q _ closure' htask returns ih =>
    refine Eq.trans (WriteOnce.get?_put_of_ne _ returns fun heq => ?_) ih
    obtain ⟨hrevision, rfl⟩ := Prod.mk.inj heq
    exact hother hrevision.symm htask
  | moduleReturns _ _ ih | table _ _ _ _ ih | field _ _ _ _ ih => exact ih

/-- A task leaves the value of a closure as it is, if it does not find out its returns. To give them
up says no more about them than there was before. -/
theorem returnType?_apply (p : Project) {e : TaskEvent}
    (hmodel : e.model.revision = m.revision → e.model = m) {closure : NodeId}
    (hnone : e.findsReturns? ≠ some (m.tree.syntaxId closure)) :
    (e.apply p).findings.returnType? m closure = p.findings.returnType? m closure := by
  by_cases hown : e.model.revision = m.revision ∧ e.task = .method closure
  · -- The task of the closure itself. If it is run, the returns must be declared.
    obtain ⟨hrevision, htask⟩ := hown
    obtain rfl := hmodel hrevision
    unfold TaskEvent.apply
    rw [htask]
    split
    · next hrun =>
      dsimp only [runTask]
      split
      · next method body hmethod hbody =>
        split
        · rfl
        · next hdeclared =>
          refine absurd ?_ hnone
          simp [TaskEvent.findsReturns?, htask, hrun, hmethod, hbody, hdeclared]
      · rfl
    · dsimp only [giveUp]
      split
      · unfold Findings.returnType?
        refine Option.map_congr fun method _ => ?_
        rw [Findings.inferred?_setReturns]
        unfold Method.returnType Method.returns?
        split
        · rfl
        · cases p.findings.inferred? e.model closure <;> rfl
      · rfl
  · have hinferred := (p.writes_apply e).inferred? fun hrevision htask => hown ⟨hrevision, htask⟩
    unfold Findings.returnType?
    rw [hinferred]

theorem returnType?_events (p : Project) {closure : NodeId}
    (h : ∀ e ∈ events, (e.model.revision = m.revision → e.model = m) ∧
      e.findsReturns? ≠ some (m.tree.syntaxId closure)) :
    (events.foldl TaskEvent.apply p).findings.returnType? m closure =
      p.findings.returnType? m closure := by
  induction events generalizing p with
  | nil => rfl
  | cons e events ih =>
    obtain ⟨⟨hmodel, hnone⟩, hrest⟩ := List.forall_mem_cons.1 h
    rw [List.foldl_cons, ih _ hrest, p.returnType?_apply hmodel hnone]

end Project

/-! ## Models -/

namespace ProjectIndex

variable {idx idx' : ProjectIndex}

theorem model?_eq (idx : ProjectIndex) (source : SourceId) :
    idx.model? source = idx.models.find? fun m => m.source = source := by
  unfold model? file? models
  rw [List.find?_map]
  rfl

theorem model?_congr (h : idx'.models = idx.models) (source : SourceId) :
    idx'.model? source = idx.model? source := by
  rw [model?_eq, model?_eq, h]

theorem decl?_congr (h : idx'.models = idx.models) (ref : DeclRef) :
    idx'.decl? ref = idx.decl? ref := by
  unfold decl?
  rw [model?_congr h]

end ProjectIndex

/-- A call of a closure gives the same where the file of the closure knows the same returns. -/
theorem Project.closureResult_congr {p q : Project} (h : q.index.models = p.index.models)
    {m : FileModel} (hm : m ∈ p.index.models) {closure : SyntaxId}
    (hreturns : ∀ m' ∈ p.index.models, m'.source = closure.source →
      q.findings.returnType? m' closure.node = p.findings.returnType? m' closure.node) :
    q.closureResult m closure = p.closureResult m closure := by
  unfold closureResult
  dsimp only
  rw [ProjectIndex.model?_congr h]
  split
  · next hsource => rw [Option.bind_some, Option.bind_some, hreturns m hm hsource.symm]
  · cases hfind : p.index.model? closure.source with
    | none => rfl
    | some m' =>
      rw [ProjectIndex.model?_eq] at hfind
      have hsource : m'.source = closure.source := by simpa using List.find?_some hfind
      rw [Option.bind_some, Option.bind_some,
        hreturns m' (List.mem_of_find?_eq_some hfind) hsource]

theorem Project.declType_congr {p q : Project} (h : q.index.models = p.index.models)
    {ref : DeclRef} (htype : ∀ m d, p.index.decl? ref = some (m, d) →
      q.findings.type? m ref.decl = p.findings.type? m ref.decl) :
    q.declType ref = p.declType ref := by
  unfold declType
  rw [ProjectIndex.decl?_congr h]
  cases hd : p.index.decl? ref with
  | none => rfl
  | some found =>
    dsimp only
    rw [htype _ _ hd]

/-! ## Members -/

namespace ProjectIndex

variable {idx : ProjectIndex} {m : FileModel}

/-- What is a member stays one when entries of a file grow. -/
theorem members_amend (idx : ProjectIndex) (source : SourceId) {change : Entries → Entries}
    {owner : Owner}
    (hgrow : ∀ e : Entries, e.members.values owner ⊆ (change e).members.values owner)
    {ref : DeclRef} (href : ref ∈ idx.members owner) :
    ref ∈ (idx.amend source change).members owner := by
  obtain ⟨f, hf, i, hi, rfl⟩ := mem_refs.1 href
  refine mem_refs.2 ⟨_, List.mem_map_of_mem hf, i, ?_, ?_⟩
  · split
    · exact hgrow _ hi
    · exact hi
  · split <;> rfl

/-- A field that is linked is a member. -/
theorem mem_members_addMember (hm : m ∈ idx.models) (owner : Owner) (i : DeclId) :
    m.ref i ∈ (idx.amend m.source (·.addMember owner i)).members owner := by
  obtain ⟨f, hf, rfl⟩ := List.mem_map.1 hm
  refine mem_refs.2 ⟨_, List.mem_map_of_mem hf, i, ?_, ?_⟩
  · have hsource : f.source = f.model.source := rfl
    rw [if_pos hsource]
    exact Grouped.mem_values_addNew.2 (.inr ⟨rfl, rfl⟩)
  · split <;> rfl

end ProjectIndex

namespace Project

variable {p q : Project} {m : FileModel} {task : Task} {events : List TaskEvent} {owner : Owner}
  {ref : DeclRef}

/-- A member of an owner stays one, whatever task is taken. -/
theorem Writes.members (h : Writes m task p q) (href : ref ∈ p.index.members owner) :
    ref ∈ q.index.members owner := by
  induction h with
  | nothing => exact href
  | type _ _ _ ih | returns _ _ _ ih | moduleReturns _ _ ih => exact ih
  | table _ _ _ _ ih =>
    exact ProjectIndex.members_amend _ _
      (fun e i hi => Entries.mem_values_addMembers.2 (.inl hi)) ih
  | field _ _ _ _ ih =>
    exact ProjectIndex.members_amend _ _ (fun e i hi => Grouped.mem_values_addNew.2 (.inl hi)) ih

theorem members_events (href : ref ∈ p.index.members owner) :
    ref ∈ (events.foldl TaskEvent.apply p).index.members owner := by
  induction events generalizing p with
  | nil => exact href
  | cons e events ih => exact ih ((p.writes_apply e).members href)

end Project

end LuaAnalysis
