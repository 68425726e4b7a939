import LuaAnalysis.Proofs.Resolve.SameView

/-!
# Doing the tasks of the same files in another order

The task graph does not know everything that a task reads. It has no edge to the tables that share
their fields with types, nor to the closures that are values. Where a task needs them all the same
(`Project.Covered`), it finds what it reads in every order of the files, so what it finds out and
what it links is the same (`Project.SameOutcome`). The induction is on the tasks that come before a
task: what it needs is among them.

Main statements: `Project.Orderly.found?_perm`, `Project.Orderly.mem_members_perm`.
-/

namespace LuaAnalysis

/-- Whether a task evaluates an expression of a kind. -/
def TaskEvent.evaluates (e : TaskEvent) (kind : String) : Bool :=
  (e.model.evaluatedBy e.task).any fun x => (e.model.tree.node? x).any fun n => n.kind = kind

theorem TaskEvent.evaluates_of {e : TaskEvent} {x : NodeId} {n : Node NodeId} {kind : String}
    (hx : x ∈ e.model.evaluatedBy e.task) (hn : e.model.tree.node? x = some n)
    (hkind : n.kind = kind) : e.evaluates kind = true := by
  refine List.any_eq_true.2 ⟨x, hx, ?_⟩
  rw [hn]
  exact decide_eq_true hkind

def Task.value? : Task → Option ValueRef
  | .declaration _ value _ _ => value
  | .method _ | .source _ => none

namespace Project

variable {config : Config} {p q q' : Project} {targets targets' : List Target}
  {e u : TaskEvent}

/-- Every task needs what it reads: the tables that share a field with a type when it selects a
field of the name, and the closures that it calls. No task adds fields to a table that shares its
fields, and no two members of one name stand in one place. -/
structure Covered (p : Project) (targets : List Target) : Prop where
  shared : ∀ e ∈ p.resolveEvents targets, ∀ u ∈ p.resolveEvents targets, u.key ≠ e.key →
    ∀ table name, u.model.Shares u.task table name → ∀ i d, u.model.decl? i = some d →
      u.model.ref i ∈ p.index.members (.anonymous table) → e.Selects d.name →
        (p.taskGraph targets).Needs e.key u.key
  own : ∀ u ∈ p.resolveEvents targets, ∀ table name, u.model.Shares u.task table name →
    ∀ ref ∈ (p.resolve targets).project.index.members (.anonymous table),
      ref ∈ p.index.members (.anonymous table)
  called : ∀ e ∈ p.resolveEvents targets, p.NeedsCalled targets e (p.stage targets e)
  calledBefore : ∀ e ∈ p.resolveEvents targets,
    p.NeedsCalled targets e ((p.stage targets e).beforeLink e.model e.task)
  apart : p.index.MembersApart

/-- It is enough that every task that selects a field depends on those of all tables that share
their fields, and every task that calls something on those of all closures. -/
theorem Covered.of_edges
    (hshared : ∀ e ∈ p.resolveEvents targets, ∀ u ∈ p.resolveEvents targets, u.key ≠ e.key →
      u.task.definesType = true → e.evaluates "IndexExpr" = true →
        (p.taskGraph targets).DependsOn e.key u.key)
    (hown : ∀ u ∈ p.resolveEvents targets, u.task.definesType = true → ∀ v ∈ u.task.value?,
      ∀ ref ∈ (p.resolve targets).project.index.members (.anonymous (u.model.tree.syntaxId v.expr)),
        ref ∈ p.index.members (.anonymous (u.model.tree.syntaxId v.expr)))
    (hcalled : ∀ e ∈ p.resolveEvents targets, ∀ u ∈ p.resolveEvents targets, u.key ≠ e.key →
      u.task.body?.join.isSome = true → e.evaluates "CallExpr" = true →
        (p.taskGraph targets).DependsOn e.key u.key)
    (hapart : p.index.MembersApart) : p.Covered targets := by
  have hcalls (e : TaskEvent) (he : e ∈ p.resolveEvents targets) (q : Project) :
      p.NeedsCalled targets e q := by
    rintro u hu hne closure htask ⟨x, hx, callee, args, hn, -⟩
    exact .single (hcalled e he u hu hne (by rw [htask]; rfl) (TaskEvent.evaluates_of hx hn rfl))
  refine ⟨fun e he u hu hne table name hshares i d _ _ hselects => ?_,
    fun u hu table name hshares => ?_, fun e he => hcalls e he _, fun e he => hcalls e he _, hapart⟩
  · obtain ⟨x, hx, base, key, colon, hn, -⟩ := hselects
    refine .single (hshared e he u hu hne ?_ (TaskEvent.evaluates_of hx hn rfl))
    generalize u.task = task at hshares
    cases hshares
    rfl
  · have hown := hown u hu
    generalize u.task = task at hshares hown
    cases hshares
    exact hown rfl _ rfl

/-- A task finds out the same and links its field to the same owner in two orders of the files. -/
structure SameOutcome (p : Project) (targets targets' : List Target) (e : TaskEvent) : Prop where
  found : (p.resolve targets').project.findings.found? e.model e.task.subject =
    (p.resolve targets).project.findings.found? e.model e.task.subject
  owner : (p.stage targets' e).linkedTo? e.model e.task =
    (p.stage targets e).linkedTo? e.model e.task

/-! ## One task -/

theorem type?_resolveType_eq (p : Project) {m : FileModel} {i : DeclId} {d : Declaration}
    (hd : m.decl? i = some d) (value : Option ValueRef) :
    (p.resolveType m i value).findings.type? m i = some ((p.findings.type? m i).getD
      (match value with
        | some v => p.exprType m v.expr v.slot
        | none => .nil)) := by
  unfold resolveType
  split
  · next htyped =>
    obtain ⟨type, htype⟩ := Option.isSome_iff_exists.1 htyped
    rw [htype, Option.getD_some]
  · exact p.findings.type?_setType hd _

/-- Everything but the link of the field is done before it. -/
theorem findings_beforeLink (p : Project) (m : FileModel) (decl : DeclId) (value : Option ValueRef)
    (todo : Open) (definesType : Bool) :
    (p.beforeLink m (.declaration decl value todo definesType)).findings =
      (p.runTask m (.declaration decl value todo definesType)).findings := by
  rw [runTask_declaration]
  split
  · rw [findings_linkField]
  · rfl

namespace SameView

variable (hv : p.SameView targets e q q') (h : p.Distinct config targets)
  (he : e ∈ p.resolveEvents targets)
include hv h he

theorem found?_self :
    q'.findings.found? e.model e.task.subject = q.findings.found? e.model e.task.subject := by
  refine hv.found e.model (h.model_mem he) _ fun u hu hmodel hsubject hne => absurd ?_ hne
  rw [h.eq_of_subject he hu (by rw [hmodel]) hsubject]

variable (hapart : p.index.MembersApart) (hcalled : p.NeedsCalled targets e q)
include hapart hcalled

/-- The task finds out the same in both. -/
theorem found?_runTask (htask : e.task.Concerns e.model.tree e.model.decls) :
    (q'.runTask e.model e.task).findings.found? e.model e.task.subject =
      (q.runTask e.model e.task).findings.found? e.model e.task.subject := by
  have hself := hv.found?_self h he
  have htype {root : NodeId} (hroot : root ∈ e.model.taskRoots e.task) (slot : Nat) :
      q.exprType e.model root slot = q'.exprType e.model root slot :=
    hv.exprType_eq h he hapart hcalled hroot
      (SyntaxTree.mem_outsideClosures_self (h.proper he) root) slot
  have hreturns {body : NodeId}
      (hbody : ∀ stat ∈ e.model.tree.returnStats body, stat ∈ e.model.taskRoots e.task) :
      q.inferReturns e.model body = q'.inferReturns e.model body :=
    hv.inferReturns_eq h he hapart hcalled hbody
  -- What is known already is kept in both; otherwise both find out what the roots come to.
  obtain ⟨key, m, task, run⟩ := e
  cases task with
  | declaration decl value todo definesType =>
    obtain ⟨d, hd, -⟩ := htask
    have hknown : q'.findings.type? m decl = q.findings.type? m decl :=
      Findings.type?_of_found? hself
    dsimp only [Task.subject, Findings.found?] at hself ⊢
    rw [findings_runTask, findings_runTask]
    split
    · rw [type?_resolveType_eq _ hd, type?_resolveType_eq _ hd, hknown]
      cases value with
      | none => rfl
      | some v =>
        have hroot : v.expr ∈ m.taskRoots (.declaration decl (some v) todo definesType) :=
          List.mem_append_left _ (List.mem_singleton_self _)
        dsimp only
        rw [htype hroot]
    · exact hself
  | method closure =>
    dsimp only [runTask]
    split
    · next method body hmethod hbody =>
      split
      · exact hself
      · dsimp only [Task.subject, Findings.found?] at hself ⊢
        rw [Findings.inferred?_setReturns, Findings.inferred?_setReturns, hself, hreturns]
        intro stat hstat
        show stat ∈ ((m.closureBody? closure).map m.tree.returnStats).getD []
        rw [hbody, Option.map_some, Option.getD_some]
        exact hstat
    · exact hself
  | source body =>
    dsimp only [runTask, Task.subject, Findings.found?, Findings.setModuleReturns] at hself ⊢
    rw [WriteOnce.get?_put, WriteOnce.get?_put, if_pos rfl, if_pos rfl, hself, hreturns]
    exact fun stat hstat => hstat

end SameView

/-- The task links its field to the same owner, where its base is typed alike. -/
theorem SameView.linkedTo?_eq
    (hv : p.SameView targets e (q.beforeLink e.model e.task) (q'.beforeLink e.model e.task))
    (h : p.Distinct config targets) (he : e ∈ p.resolveEvents targets)
    (hapart : p.index.MembersApart)
    (hcalled : p.NeedsCalled targets e (q.beforeLink e.model e.task)) :
    q'.linkedTo? e.model e.task = q.linkedTo? e.model e.task := by
  have htype {root : NodeId} (hroot : root ∈ e.model.taskRoots e.task) :
      (q.beforeLink e.model e.task).exprType e.model root 0 =
        (q'.beforeLink e.model e.task).exprType e.model root 0 :=
    hv.exprType_eq h he hapart hcalled hroot
      (SyntaxTree.mem_outsideClosures_self (h.proper he) root) 0
  have howners (type : Ty) := Lookup.ownersOfType_alike hv.alike hv.depth type
  obtain ⟨key, m, task, run⟩ := e
  unfold linkedTo?
  split
  · next hopen =>
    cases task with
    | method | source => rfl
    | declaration decl value todo definesType =>
      dsimp only [Task.decl?, Option.bind_some]
      cases hbase : m.assignedBase? decl with
      | none => rfl
      | some base =>
        have hroot : base ∈ m.taskRoots (.declaration decl value todo definesType) := by
          have hopen : todo.owner = true := hopen
          refine List.mem_append_right _ ?_
          rw [if_pos hopen, hbase]
          exact List.mem_singleton_self base
        rw [Option.bind_some, Option.bind_some, howners, htype hroot]
  · rfl

/-- What a project looks like to a task when it comes to link its field. -/
theorem SameView.beforeLink (hv : p.SameView targets e q q') (h : p.Orderly config targets)
    (he : e ∈ p.resolveEvents targets)
    (hfound : (q'.runTask e.model e.task).findings.found? e.model e.task.subject =
      (q.runTask e.model e.task).findings.found? e.model e.task.subject)
    (hadds : ∀ owner ref, ref ∈ (q.beforeLink e.model e.task).index.members owner →
      ref ∈ (p.resolve targets).project.index.members owner) :
    p.SameView targets e (q.beforeLink e.model e.task) (q'.beforeLink e.model e.task) where
  advances := hv.advances.trans (writes_beforeLink q e.model e.task).advances
  advances' := hv.advances'.trans (writes_beforeLink q' e.model e.task).advances
  models := (writes_beforeLink q e.model e.task).models.trans hv.models
  models' := (writes_beforeLink q' e.model e.task).models.trans hv.models'
  found m hm s hneeds := by
    have hbefore := hv.found m hm s hneeds
    have hrun (r : Project) (hother : e.model.revision = m.revision → e.task.subject ≠ s) :
        (r.runTask e.model e.task).findings.found? m s = r.findings.found? m s :=
      r.found?_runTask hother
    have hunique := h.unique _ (h.model_mem he) m hm
    generalize hem : e.model = em at *
    cases htask : e.task with
    | method | source => exact hbefore
    | declaration decl value todo definesType =>
      rw [htask] at hfound hrun
      rw [findings_beforeLink, findings_beforeLink]
      -- Its own type is what the task has found out by then; nothing else has changed.
      by_cases hown : em.revision = m.revision ∧ (Task.declaration decl value todo
          definesType).subject = s
      · obtain ⟨hrevision, rfl⟩ := hown
        obtain rfl := hunique hrevision
        exact hfound
      · have hother : em.revision = m.revision → (Task.declaration decl value todo
            definesType).subject ≠ s := fun hrevision hsubject => hown ⟨hrevision, hsubject⟩
        rw [hrun q' hother, hrun q hother, hbefore]
  members m hm i d hd hselects owner := by
    have hbefore := hv.members m hm i d hd hselects
    have hsorted := h.faithful.sorted
    rw [mem_members_beforeLink (hsorted.of_models hv.models) (hv.models ▸ h.model_mem he)
        (h.concerns he),
      mem_members_beforeLink (hsorted.of_models hv.models') (hv.models' ▸ h.model_mem he)
        (h.concerns he), hbefore]
    -- The table shares the members that it has, and these have the name that is asked for.
    refine or_congr_right (exists_congr fun table => exists_congr fun name =>
      and_congr_right fun _ => and_congr_right fun _ => exists_congr fun j =>
        and_congr_right fun href => ?_)
    rw [← href, hbefore]
  kept := hadds

/-! ## Members -/

theorem owner_of_linkedTo? {m : FileModel} {task : Task} {owner : Owner}
    (h : p.linkedTo? m task = some owner) : task.todo.owner = true := by
  unfold linkedTo? at h
  split at h
  · next hopen => exact hopen
  · cases h

theorem Ready.eq_of_ref (h : p.Ready config targets) {m m' : FileModel} {i j : DeclId}
    (hm : m ∈ p.index.models) (hm' : m' ∈ p.index.models) (href : m.ref i = m'.ref j) :
    m = m' ∧ i = j := by
  obtain ⟨hsource, -, hij⟩ :
      m.source = m'.source ∧ m.generation = m'.generation ∧ i = j := by
    simpa [FileModel.ref] using href
  exact ⟨h.faithful.sorted.model_unique hm hm' hsource, hij⟩

/-- A task that links a declaration links it to the same owner in two orders of the files. -/
def LinksAlike (p : Project) (targets targets' : List Target) (ref : DeclRef) (u : TaskEvent) :
    Prop :=
  ∀ i, u.task.decl? = some i → ref = u.model.ref i → u.task.todo.owner = true →
    (p.stage targets' u).linkedTo? u.model u.task = (p.stage targets u).linkedTo? u.model u.task

theorem SameOutcome.linksAlike (h : p.SameOutcome targets targets' u) (ref : DeclRef) :
    p.LinksAlike targets targets' ref u :=
  fun _ _ _ _ => h.owner

namespace Orderly

variable (h : p.Orderly config targets) {owner : Owner} {ref : DeclRef}
include h

/-- A member that a task finds is one in the end. -/
theorem members_of_stage (he : e ∈ p.resolveEvents targets)
    (href : ref ∈ (p.stage targets e).index.members owner) :
    ref ∈ (p.resolve targets).project.index.members owner := by
  rw [h.mem_members_stage he] at href
  rw [h.mem_members_resolve]
  exact href.imp_right fun ⟨u, hu, hadds⟩ => ⟨u, mem_of_earlier hu, hadds⟩

theorem members_of_beforeLink (he : e ∈ p.resolveEvents targets)
    (href : ref ∈ ((p.stage targets e).beforeLink e.model e.task).index.members owner) :
    ref ∈ (p.resolve targets).project.index.members owner := by
  have hmodels : (p.stage targets e).index.models = p.index.models := p.models_events _
  rw [mem_members_beforeLink (h.faithful.sorted.of_models hmodels) (hmodels ▸ h.model_mem he)
    (h.concerns he)] at href
  rcases href with hold | ⟨table, name, hshares, howner, i, rfl, hi⟩
  · exact h.members_of_stage he hold
  · exact h.mem_members_resolve.2 (.inr ⟨e, he, .table hshares howner hi⟩)

variable (hc : p.Covered targets)
include hc

/-- A table that shares its fields has those that it had at first. -/
theorem mem_own (hu : u ∈ p.resolveEvents targets) {table : SyntaxId} {name : String}
    (hshares : u.model.Shares u.task table name) :
    ref ∈ (p.stage targets u).index.members (.anonymous table) ↔
      ref ∈ p.index.members (.anonymous table) :=
  ⟨fun href => hc.own u hu table name hshares ref (h.members_of_stage hu href), members_events⟩

/-- A task that adds a member of a name is among those that a task needs that selects the name. -/
theorem needs_of_adds (he : e ∈ p.resolveEvents targets) (hu : u ∈ p.resolveEvents targets)
    (hne : u.key ≠ e.key) {m : FileModel} (hm : m ∈ p.index.models) {i : DeclId} {d : Declaration}
    (hd : m.decl? i = some d) (hselects : e.Selects d.name)
    (hadds : (p.stage targets u).Adds u.model u.task owner (m.ref i)) :
    (p.taskGraph targets).Needs e.key u.key := by
  generalize href : m.ref i = ref at hadds
  cases hadds with
  | field hj howner =>
    obtain ⟨rfl, rfl⟩ := h.eq_of_ref hm (h.model_mem hu) href
    obtain ⟨d', hd', hassigned⟩ := h.assigned_of_owner hu hj (owner_of_linkedTo? howner)
    obtain rfl := Option.some.inj (hd.symm.trans hd')
    obtain ⟨x, hx, base, key, colon, hn, hname⟩ := hselects
    exact .single (h.edge_of_field he hu hne hx hn hname hj hd hassigned)
  | table hshares howner hj =>
    obtain ⟨rfl, rfl⟩ := h.eq_of_ref hm (h.model_mem hu) href
    exact hc.shared e he u hu hne _ _ hshares i d hd ((h.mem_own hc hu hshares).1 hj) hselects

variable (hperm : targets.Perm targets')
include hperm

/-- So it is in another order, if what links its fields links them alike. -/
theorem mem_own_perm (hu : u ∈ p.resolveEvents targets)
    (hlinks : ∀ w ∈ p.earlier targets' u, p.LinksAlike targets targets' ref w)
    {table : SyntaxId} {name : String} (hshares : u.model.Shares u.task table name) :
    ref ∈ (p.stage targets' u).index.members (.anonymous table) ↔
      ref ∈ p.index.members (.anonymous table) := by
  refine ⟨fun href => ?_, members_events⟩
  rcases ((h.perm hperm).mem_members_stage ((h.mem_events_perm hperm).2 hu)).1 href with
    hold | ⟨w, hw, hadds⟩
  · exact hold
  · have hlinked := hlinks w hw
    cases hadds with
    | @field j hj howner =>
      apply hc.own u hu table name hshares
      have hwmem := (h.mem_events_perm hperm).1 (mem_of_earlier hw)
      refine h.mem_members_resolve.2 (.inr ⟨w, hwmem, .field hj ?_⟩)
      rw [← hlinked j hj rfl (owner_of_linkedTo? howner), howner]
    | table _ howner _ => cases howner

theorem adds_perm (hu : u ∈ p.resolveEvents targets) (hlinked : p.LinksAlike targets targets' ref u)
    (hlinks : ∀ w ∈ p.earlier targets' u, p.LinksAlike targets targets' ref w) :
    (p.stage targets' u).Adds u.model u.task owner ref ↔
      (p.stage targets u).Adds u.model u.task owner ref := by
  constructor
  · rintro (⟨hi, howner⟩ | ⟨hshares, howner, hi⟩)
    · exact .field hi (hlinked _ hi rfl (owner_of_linkedTo? howner) ▸ howner)
    · refine .table hshares howner ((h.mem_own hc hu hshares).2 ?_)
      exact (h.mem_own_perm hc hperm hu hlinks hshares).1 hi
  · rintro (⟨hi, howner⟩ | ⟨hshares, howner, hi⟩)
    · exact .field hi ((hlinked _ hi rfl (owner_of_linkedTo? howner)).trans howner)
    · refine .table hshares howner ((h.mem_own_perm hc hperm hu hlinks hshares).2 ?_)
      exact (h.mem_own hc hu hshares).1 hi

/-! ## All tasks -/

/-- What a task finds looks the same to it, if the tasks that it needs have the same outcome. -/
theorem sameView_stage (he : e ∈ p.resolveEvents targets)
    (hneeded : ∀ u ∈ p.resolveEvents targets, (p.taskGraph targets).Needs e.key u.key →
      p.SameOutcome targets targets' u) :
    p.SameView targets e (p.stage targets e) (p.stage targets' e) := by
  have h' := h.perm hperm
  have hmem {u : TaskEvent} : u ∈ p.resolveEvents targets' ↔ u ∈ p.resolveEvents targets :=
    h.mem_events_perm hperm
  have hearlier {u : TaskEvent} (hu : u ∈ p.resolveEvents targets)
      (hneeds : (p.taskGraph targets).Needs e.key u.key) : u ∈ p.earlier targets' e :=
    h'.earlier_of_needs (hmem.2 he) (hmem.2 hu)
      ((h.toDistinct.needs_perm h'.toDistinct hperm).2 hneeds)
  refine ⟨p.advances_events _, p.advances_events _, p.models_events _, p.models_events _,
    fun m hm s hneeds => ?_, fun m hm i d hd hselects owner => ?_,
    fun owner ref => h.members_of_stage he⟩
  · -- A subject is that of the task itself, that of a task which it needs, or that of no task.
    by_cases hex : ∃ u ∈ p.resolveEvents targets, u.model = m ∧ u.task.subject = s
    · obtain ⟨u, hu, rfl, rfl⟩ := hex
      by_cases hkey : u.key = e.key
      · obtain rfl := h.eq_of_key he hu hkey
        rw [h.found?_stage_self hu, h'.found?_stage_self (hmem.2 hu)]
      · have hneed := hneeds u hu rfl rfl hkey
        rw [h.found?_stage he (h.earlier_of_needs he hu hneed),
          h'.found?_stage (hmem.2 he) (hearlier hu hneed), (hneeded u hu hneed).found]
    · have hnone : ∀ u ∈ p.resolveEvents targets, u.model = m → u.task.subject ≠ s :=
        fun u hu hmodel hsubject => hex ⟨u, hu, hmodel, hsubject⟩
      exact (h.found?_of_no_task hm hnone fun u hu => hmem.1 (mem_of_earlier hu)).trans
        (h.found?_of_no_task hm hnone fun u hu => mem_of_earlier hu).symm
  · -- Whatever links a field of the name is needed, so it links it to the same owner.
    have hlinks {w : TaskEvent} (hw : w ∈ p.earlier targets' e) :
        p.LinksAlike targets targets' (m.ref i) w := by
      intro j hj href howner
      have hwmem := hmem.1 (mem_of_earlier hw)
      obtain ⟨rfl, rfl⟩ := h.eq_of_ref hm (h.model_mem hwmem) href
      obtain ⟨d', hd', hassigned⟩ := h.assigned_of_owner hwmem hj howner
      obtain rfl := Option.some.inj (hd.symm.trans hd')
      obtain ⟨x, hx, base, key, colon, hn, hname⟩ := hselects
      have hne := h'.key_ne (hmem.2 he) hw
      exact (hneeded w hwmem
        (.single (h.edge_of_field he hwmem hne hx hn hname hj hd hassigned))).owner
    have hlinksBefore {u : TaskEvent} (hu : u ∈ p.earlier targets' e) :
        ∀ w ∈ p.earlier targets' u, p.LinksAlike targets targets' (m.ref i) w := by
      intro w hw
      obtain ⟨between, hbetween⟩ := h'.earlier_split (hmem.2 he) hu
      exact hlinks (hbetween ▸ List.mem_append_left _ hw)
    -- Whatever adds a member of the name is needed too, so it comes earlier in both orders.
    rw [h.mem_members_stage he, h'.mem_members_stage (hmem.2 he)]
    refine or_congr_right ⟨?_, ?_⟩
    · rintro ⟨u, hu, hadds⟩
      have humem := hmem.1 (mem_of_earlier hu)
      rw [h.adds_perm hc hperm humem (hlinks hu) (hlinksBefore hu)] at hadds
      have hne := h'.key_ne (hmem.2 he) hu
      exact ⟨u, h.earlier_of_needs he humem (h.needs_of_adds hc he humem hne hm hd hselects hadds),
        hadds⟩
    · rintro ⟨u, hu, hadds⟩
      have humem := mem_of_earlier hu
      have hu' := hearlier humem
        (h.needs_of_adds hc he humem (h.key_ne he hu) hm hd hselects hadds)
      exact ⟨u, hu', (h.adds_perm hc hperm humem (hlinks hu') (hlinksBefore hu')).2 hadds⟩

/-- Every task has the same outcome. -/
theorem same_outcome (he : e ∈ p.resolveEvents targets) : p.SameOutcome targets targets' e := by
  -- What a task needs has fewer tasks before it.
  induction hlength : (p.earlier targets e).length using Nat.strongRecOn generalizing e with
  | _ n ih =>
    subst hlength
    have hneeded : ∀ u ∈ p.resolveEvents targets, (p.taskGraph targets).Needs e.key u.key →
        p.SameOutcome targets targets' u := by
      intro u hu hneeds
      obtain ⟨between, hbetween⟩ := h.earlier_split he (h.earlier_of_needs he hu hneeds)
      refine ih _ ?_ hu rfl
      rw [hbetween, List.length_append, List.length_cons]
      omega
    have hview := h.sameView_stage hc hperm he hneeded
    have hfound := hview.found?_runTask h.toDistinct he hc.apart (hc.called e he) (h.concerns he)
    have hbefore := hview.beforeLink h he hfound fun owner ref => h.members_of_beforeLink he
    refine ⟨?_, hbefore.linkedTo?_eq h.toDistinct he hc.apart (hc.calledBefore e he)⟩
    rw [h.found?_resolve he, (h.perm hperm).found?_resolve ((h.mem_events_perm hperm).2 he),
      hfound]

/-- The same is found out in the end. -/
theorem found?_perm {m : FileModel} (hm : m ∈ p.index.models) (s : Subject) :
    (p.resolve targets').project.findings.found? m s =
      (p.resolve targets).project.findings.found? m s := by
  by_cases hex : ∃ u ∈ p.resolveEvents targets, u.model = m ∧ u.task.subject = s
  · obtain ⟨u, hu, rfl, rfl⟩ := hex
    exact (h.same_outcome hc hperm hu).found
  · have hnone : ∀ u ∈ p.resolveEvents targets, u.model = m → u.task.subject ≠ s :=
      fun u hu hmodel hsubject => hex ⟨u, hu, hmodel, hsubject⟩
    rw [p.project_resolve, p.project_resolve, h.found?_of_no_task hm hnone (List.Subset.refl _),
      h.found?_of_no_task hm hnone fun u hu => (h.mem_events_perm hperm).1 hu]

/-- The same members are there in the end. -/
theorem mem_members_perm : ref ∈ (p.resolve targets').project.index.members owner ↔
    ref ∈ (p.resolve targets).project.index.members owner := by
  have hlinks {u : TaskEvent} (hu : u ∈ p.resolveEvents targets') :
      p.LinksAlike targets targets' ref u :=
    (h.same_outcome hc hperm ((h.mem_events_perm hperm).1 hu)).linksAlike ref
  rw [h.mem_members_resolve, (h.perm hperm).mem_members_resolve]
  refine or_congr_right (exists_congr fun u => ?_)
  rw [h.mem_events_perm hperm]
  refine and_congr_right fun hu => h.adds_perm hc hperm hu ?_ fun w hw => ?_
  · exact hlinks ((h.mem_events_perm hperm).2 hu)
  · exact hlinks (mem_of_earlier hw)

end Orderly

end Project

end LuaAnalysis
