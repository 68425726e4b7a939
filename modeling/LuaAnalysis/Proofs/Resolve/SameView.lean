import LuaAnalysis.Proofs.Project.AssignedFields
import LuaAnalysis.Proofs.Project.MemberLevels
import LuaAnalysis.Proofs.Resolve.TargetOrder

/-!
# What a task sees of a project

Two projects look the same to a task when they agree in what is known about the subjects of the
tasks that it needs, and in the members that have a name which it selects (`Project.SameView`). Then
its expressions have the same types in both, as long as the closures that it calls have their tasks
among those that it needs.

Main statements: `Project.SameView.exprType_eq`, `Project.SameView.inferReturns_eq`.
-/

namespace LuaAnalysis

/-- Whether a task selects fields of a name. -/
def TaskEvent.Selects (e : TaskEvent) (name : String) : Prop :=
  ∃ x ∈ e.model.evaluatedBy e.task, ∃ base key colon,
    e.model.tree.node? x = some (.indexExpr base key colon) ∧
      key.bind e.model.tree.keyText? = some name

/-- Whether a task calls a closure, as far as its callees have types in a project. -/
def TaskEvent.Calls (e : TaskEvent) (q : Project) (closure : SyntaxId) : Prop :=
  ∃ x ∈ e.model.evaluatedBy e.task, ∃ callee args,
    e.model.tree.node? x = some (.callExpr (some callee) args) ∧
      q.exprType e.model callee 0 = .method closure

/-- The names of the members of a file, with the places where these stand. -/
def FileModel.memberPlaces (m : FileModel) : List (String × Nat) :=
  (m.decls.toList.filter (·.kind.isMember)).map fun d => (d.name, d.position)

/-- No two members of a file have one name and stand in one place. -/
def ProjectIndex.MembersApart (idx : ProjectIndex) : Prop :=
  ∀ m ∈ idx.models, m.memberPlaces.Nodup

instance (idx : ProjectIndex) : Decidable idx.MembersApart :=
  inferInstanceAs (Decidable (∀ m ∈ idx.models, m.memberPlaces.Nodup))

theorem FileModel.eq_of_memberPlaces {m : FileModel} (h : m.memberPlaces.Nodup) {i j : DeclId}
    {d d' : Declaration} (hd : m.decl? i = some d) (hd' : m.decl? j = some d')
    (hmember : d.kind.isMember = true) (hmember' : d'.kind.isMember = true)
    (hname : d.name = d'.name) (hposition : d.position = d'.position) : i = j := by
  have hplaces : (d.name, d.position) = (d'.name, d'.position) := by rw [hname, hposition]
  unfold memberPlaces List.Nodup at h
  rw [List.pairwise_map, List.pairwise_filter] at h
  rw [decl?, ← Array.getElem?_toList] at hd hd'
  exact place_eq_of_pairwise h hd hd' (fun hne => hne hmember hmember' hplaces)
    fun hne => hne hmember' hmember hplaces.symm

namespace Project

variable {config : Config} {p q q' : Project} {targets : List Target} {e u : TaskEvent}

/-- The tasks that the returns of a closure come from are among those that a task needs, if it calls
the closure. -/
def NeedsCalled (p : Project) (targets : List Target) (e : TaskEvent) (q : Project) : Prop :=
  ∀ u ∈ p.resolveEvents targets, u.key ≠ e.key → ∀ closure, u.task = .method closure →
    e.Calls q (u.model.tree.syntaxId closure) → (p.taskGraph targets).Needs e.key u.key

/-- Two projects that look the same to a task. They come from one project, and the members of the
first are members in the end. -/
structure SameView (p : Project) (targets : List Target) (e : TaskEvent) (q q' : Project) :
    Prop where
  advances : p.Advances q
  advances' : p.Advances q'
  models : q.index.models = p.index.models
  models' : q'.index.models = p.index.models
  found : ∀ m ∈ p.index.models, ∀ s,
    (∀ u ∈ p.resolveEvents targets, u.model = m → u.task.subject = s → u.key ≠ e.key →
      (p.taskGraph targets).Needs e.key u.key) →
    q'.findings.found? m s = q.findings.found? m s
  members : ∀ m ∈ p.index.models, ∀ i d, m.decl? i = some d → e.Selects d.name → ∀ owner,
    (m.ref i ∈ q'.index.members owner ↔ m.ref i ∈ q.index.members owner)
  kept : ∀ owner ref, ref ∈ q.index.members owner →
    ref ∈ (p.resolve targets).project.index.members owner

/-- A member is looked up alike in two projects in which an owner has the same members of a name,
if no two of them stand in one place. -/
theorem Ready.directMember?_congr (h : p.Ready config targets) (hapart : p.index.MembersApart)
    (hmodels : q.index.models = p.index.models) (hmodels' : q'.index.models = p.index.models)
    {owner : Owner} {name : String}
    (hkept : ∀ ref, ref ∈ q.index.members owner →
      ref ∈ (p.resolve targets).project.index.members owner)
    (hmembers : ∀ m ∈ p.index.models, ∀ i d, m.decl? i = some d → d.name = name →
      (m.ref i ∈ q'.index.members owner ↔ m.ref i ∈ q.index.members owner)) :
    q'.directMember? owner name = q.directMember? owner name := by
  have hnamed {ref : DeclRef} {d : Declaration}
      (hmem : (ref, d) ∈ q.toLookup.membersNamed owner name) :
      ∃ m ∈ p.index.models, ref = m.ref ref.decl ∧ m.decl? ref.decl = some d ∧
        d.kind.isMember = true ∧ d.name = name := by
    obtain ⟨href, ⟨m, hd⟩, hname⟩ := Lookup.mem_membersNamed.1 hmem
    obtain ⟨m', d', hd', hm, hown, hdecl, hmember⟩ := h.isMember_of_resolved (hkept _ href)
    rw [ProjectIndex.decl?_congr hmodels, hd'] at hd
    obtain ⟨-, rfl⟩ := Prod.mk.inj (Option.some.inj hd)
    exact ⟨m', hm, hown, hdecl, hmember, hname⟩
  refine Lookup.directMember?_of_mem_iff (fun ⟨ref, d⟩ => ?_) fun ⟨ref, d⟩ hd ⟨ref', d'⟩ hd' hkey =>
    ?_
  · rw [Lookup.mem_membersNamed, Lookup.mem_membersNamed,
      ProjectIndex.decl?_congr (hmodels'.trans hmodels.symm)]
    refine and_congr_left fun ⟨⟨m, hd⟩, hname⟩ => ?_
    obtain ⟨f, hf, rfl, href, hdecl⟩ :=
      (ProjectIndex.decl?_eq_some (h.faithful.sorted.of_models hmodels)).1 hd
    rw [href]
    exact hmembers f.model (hmodels ▸ List.mem_map_of_mem hf) ref.decl d hdecl hname
  · -- Members of one key are of one file and stand in one place.
    obtain ⟨m, hm, href, hdecl, hmember, hname⟩ := hnamed hd
    obtain ⟨m', hm', href', hdecl', hmember', hname'⟩ := hnamed hd'
    obtain ⟨-, hsource, hposition⟩ : d.kind.memberRank = d'.kind.memberRank ∧
        ref.source = ref'.source ∧ d.position = d'.position := by
      simpa [Lookup.memberKey] using hkey
    rw [href, href'] at hsource
    obtain rfl : m = m' := h.faithful.sorted.model_unique hm hm' hsource
    have hsame := FileModel.eq_of_memberPlaces (hapart m hm) hdecl hdecl' hmember hmember'
      (hname.trans hname'.symm) hposition
    rw [hsame] at href hdecl
    rw [href', ← href, Option.some.inj (hdecl.symm.trans hdecl')]

namespace SameView

variable (hv : p.SameView targets e q q') (h : p.Distinct config targets)
  (he : e ∈ p.resolveEvents targets)

include hv in
theorem alike : q.index.Alike q'.index :=
  hv.advances.files.symm.trans hv.advances'.files

include hv in
theorem depth : q.maxSuperDepth = q'.maxSuperDepth :=
  hv.advances.depth.symm.trans hv.advances'.depth

include hv h in
/-- A declaration has the same type in both, if the task needs the one that finds it out. -/
theorem declType_eq {ref : DeclRef}
    (hneeds : ∀ u ∈ p.resolveEvents targets, ∀ i, ref = u.model.ref i → u.task.decl? = some i →
      u.key ≠ e.key → (p.taskGraph targets).Needs e.key u.key) :
    q.declType ref = q'.declType ref := by
  refine (declType_congr (hv.models'.trans hv.models.symm) fun m d hd => ?_).symm
  obtain ⟨f, hf, rfl, href, -⟩ :=
    (ProjectIndex.decl?_eq_some (h.faithful.sorted.of_models hv.models)).1 hd
  have hm : f.model ∈ p.index.models := hv.models ▸ List.mem_map_of_mem hf
  exact Findings.type?_of_found? (hv.found f.model hm (.decl ref.decl) fun u hu hmodel hsubject =>
    hneeds u hu ref.decl (hmodel ▸ href) (Task.subject_eq_decl.1 hsubject))

include hv h he

theorem declType_of_name {x : NodeId} (hx : x ∈ e.model.evaluatedBy e.task) {name : String}
    (hn : e.model.tree.node? x = some (.nameExpr name)) {ref : DeclRef}
    (href : q.named? e.model x = some ref) : q.declType ref = q'.declType ref := by
  apply hv.declType_eq h
  rintro u hu i rfl hi hne
  refine .single (h.edge_of_name he hu hne hx hn hi ?_)
  rw [← named?_alike hv.advances.files (.refl e.model) x, href]

/-- A selected field has the same type in both. -/
theorem declType_of_field {name : String} (hselects : e.Selects name) {owner : Owner}
    {ref : DeclRef} (href : q.directMember? owner name = some ref) :
    q.declType ref = q'.declType ref := by
  apply hv.declType_eq h
  rintro u hu i rfl hi hne
  obtain ⟨d, hd, rfl, hassigned⟩ := h.assigned_of_directMember? hu hi href hv.models
    (hv.kept _ _ (Lookup.mem_of_directMember? href))
  obtain ⟨x, hx, base, key, colon, hn, hname⟩ := hselects
  exact .single (h.edge_of_field he hu hne hx hn hname hi hd hassigned)

omit he in
/-- A selected field is looked up alike in both. -/
theorem directMember?_eq (hapart : p.index.MembersApart) {name : String}
    (hselects : e.Selects name) (owner : Owner) :
    q.directMember? owner name = q'.directMember? owner name := by
  refine (h.directMember?_congr hapart hv.models hv.models' (hv.kept owner) ?_).symm
  rintro m hm i d hd rfl
  exact hv.members m hm i d hd hselects owner

/-- A closure that the task calls has the same value in both. -/
theorem closureResult_eq (hcalled : p.NeedsCalled targets e q) {closure : SyntaxId}
    (hcalls : e.Calls q closure) :
    q.closureResult e.model closure = q'.closureResult e.model closure := by
  refine (closureResult_congr (hv.models'.trans hv.models.symm)
    (hv.models ▸ h.model_mem he) fun m hm hsource => ?_).symm
  have hfound := hv.found m (hv.models ▸ hm) (.body (some closure.node))
    fun u hu hmodel hsubject hne => ?_
  · exact congrArg (fun returns => (m.method? closure.node).map (·.returnType returns)) hfound
  · have htask : u.task = .method closure.node := by
      cases hu : u.task with
      | method node =>
        rw [hu] at hsubject
        cases hsubject
        rfl
      | declaration | source =>
        rw [hu] at hsubject
        cases hsubject
    refine hcalled u hu hne closure.node htask ?_
    have hid : u.model.tree.syntaxId closure.node = closure := by
      rw [SyntaxTree.syntaxId, hmodel, show m.tree.source = closure.source from hsource]
    rwa [hid]

/-! ## Evaluation -/

variable (hapart : p.index.MembersApart) (hcalled : p.NeedsCalled targets e q)
include hapart hcalled

theorem agrees {root : NodeId} (hroot : root ∈ e.model.taskRoots e.task) :
    Agrees q q' e.model e.model (e.model.tree.outsideClosures root) := by
  have hregion {x : NodeId} (hx : x ∈ e.model.tree.outsideClosures root) :
      x ∈ e.model.evaluatedBy e.task := List.mem_flatMap.2 ⟨root, hroot, hx⟩
  refine ⟨fun hx hn href => hv.declType_of_name h he (hregion hx) hn href,
    fun hx hn hname => ?_, fun hx hn hclosure _ => ?_⟩
  · have hselects : e.Selects _ := ⟨_, hregion hx, _, _, _, hn, hname⟩
    refine ⟨memberOfType?_congr hv.alike.sameNames hv.depth
      (hv.directMember?_eq h hapart hselects) _, fun ref href => ?_⟩
    obtain ⟨owner, hdirect⟩ := directMember?_of_memberOfType? href
    exact hv.declType_of_field h he hselects hdirect
  · exact hv.closureResult_eq h he hcalled ⟨_, hregion hx, _, _, hn, hclosure⟩

/-- What the task evaluates has the same types in both. -/
theorem exprType_eq {root expr : NodeId} (hroot : root ∈ e.model.taskRoots e.task)
    (hexpr : expr ∈ e.model.tree.outsideClosures root) (slot : Nat) :
    q.exprType e.model expr slot = q'.exprType e.model expr slot :=
  exprType_congr hv.alike hv.depth (.refl e.model) (h.proper he)
    (hv.agrees h he hapart hcalled hroot) hexpr slot

theorem callType_eq {root call : NodeId} {callee : Option NodeId} {args : List NodeId}
    (hroot : root ∈ e.model.taskRoots e.task) (hcall : call ∈ e.model.tree.outsideClosures root)
    (hn : e.model.tree.node? call = some (.callExpr callee args)) :
    q.callType e.model call = q'.callType e.model call := by
  have hagrees := hv.agrees h he hapart hcalled hroot
  have hparts : ∀ c ∈ e.model.tree.evaluated call, ∀ slot,
      q.exprType e.model c slot = q'.exprType e.model c slot := fun c hc =>
    hv.exprType_eq h he hapart hcalled hroot
      (SyntaxTree.child_mem_outsideClosures (h.proper he) hcall hc)
  refine callStep_congr (.refl e.model)
    ⟨hagrees.name hcall, hagrees.field hcall, fun hn' hclosure => ?_⟩ hparts hn
  refine hagrees.call hcall hn' hclosure ?_
  rw [← hparts _ (SyntaxTree.mem_evaluated hn' (by simp) (by simp [Node.children])), hclosure]

theorem valuesOf_eq {root : NodeId} (hroot : root ∈ e.model.taskRoots e.task)
    {exprs : List NodeId} (hexprs : ∀ expr ∈ exprs, expr ∈ e.model.tree.outsideClosures root) :
    q.valuesOf e.model exprs = q'.valuesOf e.model exprs := by
  induction exprs with
  | nil => rfl
  | cons expr rest ih =>
    obtain ⟨hexpr, hrest⟩ := List.forall_mem_cons.1 hexprs
    have htype := hv.exprType_eq h he hapart hcalled hroot hexpr 0
    cases rest with
    | nil =>
      unfold valuesOf
      split
      · next hn => rw [hv.callType_eq h he hapart hcalled hroot hexpr hn]
      · rw [htype]
    | cons next rest =>
      show q.exprType e.model expr 0 :: q.valuesOf e.model (next :: rest) =
        q'.exprType e.model expr 0 :: q'.valuesOf e.model (next :: rest)
      rw [htype, ih hrest]

/-- A body that the task finds the returns of has the same returns in both. -/
theorem inferReturns_eq {body : NodeId}
    (hbody : ∀ stat ∈ e.model.tree.returnStats body, stat ∈ e.model.taskRoots e.task) :
    q.inferReturns e.model body = q'.inferReturns e.model body := by
  unfold inferReturns
  refine List.foldl_ext _ _ _ fun returns stat hstat => ?_
  have hproper := h.proper he
  have hvalues : q.returnedValues e.model stat = q'.returnedValues e.model stat := by
    unfold returnedValues
    split
    · next exprs hn =>
      refine hv.valuesOf_eq h he hapart hcalled (hbody stat hstat) fun expr hexpr => ?_
      exact SyntaxTree.child_mem_outsideClosures hproper
        (SyntaxTree.mem_outsideClosures_self hproper stat)
        (SyntaxTree.mem_evaluated hn (by simp) (by simpa [Node.children] using hexpr))
    · rfl
  rw [hvalues]

end SameView

end Project

end LuaAnalysis
