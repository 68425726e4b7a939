import LuaAnalysis.Project.Typing
import LuaAnalysis.Proofs.Project.FirstLeast
import Mathlib.Data.List.Forall2

/-!
# Renumbered projects

What a project says depends neither on the numbers that analyses carry nor on the occurrences that
are recorded. A `Renumbering` gives analyses other numbers; in a project that differs in nothing but
numbers and occurrences every look-up gives what it gave, up to the generations in its references,
and every expression has the type that it had.

Main statements: `Project.exprType_renumbered`, `Project.declaration?_renumbered`.
-/

namespace LuaAnalysis

/-- New generations and revisions for the analyses of a project. What is found out agrees under the
revisions that are live. -/
structure Renumbering where
  gen : SourceId → Nat → Nat
  rev : Revision → Revision
  live : Revision → Prop
  gen_injective : ∀ source, Function.Injective (gen source)
  rev_injective : Function.Injective rev

namespace Renumbering

variable (σ : Renumbering)

def ref (r : DeclRef) : DeclRef :=
  ⟨r.source, σ.gen r.source r.generation, r.decl⟩

def model (m : FileModel) : FileModel :=
  { m with revision := σ.rev m.revision, generation := σ.gen m.source m.generation }

theorem ref_injective : Function.Injective σ.ref := by
  intro r r' h
  cases r
  cases r'
  simp only [ref, DeclRef.mk.injEq] at h ⊢
  obtain ⟨rfl, hgeneration, rfl⟩ := h
  exact ⟨rfl, σ.gen_injective _ hgeneration, rfl⟩

/-- The numbers that there are, with every revision live. -/
def same : Renumbering where
  gen _ generation := generation
  rev revision := revision
  live _ := True
  gen_injective _ := Function.injective_id
  rev_injective := Function.injective_id

end Renumbering

/-- What a file contributes besides occurrences. -/
def Entries.withoutOccurrences (e : Entries) : Entries :=
  { e with nameExprs := {}, indexExprs := {}, typeRefs := {} }

/-- `g` is `f` with other numbers, and maybe with other occurrences. -/
structure PublishedFile.Renumbered (σ : Renumbering) (f g : PublishedFile) : Prop where
  model : g.model = σ.model f.model
  entries : g.entries.withoutOccurrences = f.entries.withoutOccurrences
  live : σ.live f.model.revision

def ProjectIndex.Renumbered (σ : Renumbering) (idx idx' : ProjectIndex) : Prop :=
  List.Forall₂ (PublishedFile.Renumbered σ) idx.files idx'.files

structure Findings.Renumbered (σ : Renumbering) (f g : Findings) : Prop where
  types : ∀ {k : Revision}, σ.live k → ∀ id, g.types.get? (σ.rev k, id) = f.types.get? (k, id)
  returns : ∀ {k : Revision}, σ.live k → ∀ id, g.returns.get? (σ.rev k, id) = f.returns.get? (k, id)
  moduleReturns : ∀ {k : Revision}, σ.live k →
    g.moduleReturns.get? (σ.rev k) = f.moduleReturns.get? k

structure Project.Renumbered (σ : Renumbering) (p q : Project) : Prop where
  index : p.index.Renumbered σ q.index
  depth : q.maxSuperDepth = p.maxSuperDepth
  findings : p.findings.Renumbered σ q.findings

variable {σ : Renumbering}

/-! ## Files -/

namespace PublishedFile.Renumbered

variable {f g : PublishedFile} (h : f.Renumbered σ g)
include h

theorem source : g.source = f.source := by
  rw [PublishedFile.source, h.model]
  rfl

/-- A table of entries that are no occurrences is the same in both. -/
theorem table {τ : Type} (table : Entries → τ)
    (htable : ∀ e : Entries, table e.withoutOccurrences = table e) :
    table g.entries = table f.entries := by
  rw [← htable g.entries, h.entries, htable]

end PublishedFile.Renumbered

namespace ProjectIndex

variable {idx idx' : ProjectIndex} (h : idx.Renumbered σ idx')
include h

/-- What the files contribute one after the other agrees when it agrees for every two files. -/
theorem flatMap_renumbered {α : Type} {get get' : PublishedFile → List α}
    (hget : ∀ {f g : PublishedFile}, f.Renumbered σ g → get' g = get f) :
    idx'.files.flatMap get' = idx.files.flatMap get := by
  unfold ProjectIndex.Renumbered at h
  generalize idx.files = files at h
  generalize idx'.files = files' at h
  induction h with
  | nil => rfl
  | cons hfg _ ih => rw [List.flatMap_cons, List.flatMap_cons, hget hfg, ih]

theorem refs_renumbered {κ : Type} [DecidableEq κ] {table : Entries → Grouped κ DeclId}
    (htable : ∀ e : Entries, table e.withoutOccurrences = table e) (k : κ) :
    idx'.refs table k = (idx.refs table k).map σ.ref := by
  unfold refs
  rw [List.map_flatMap]
  refine flatMap_renumbered h fun {f g} hfg => ?_
  rw [hfg.table table htable, hfg.model, List.map_map]
  rfl

theorem globals_renumbered (name : String) :
    idx'.globals name = (idx.globals name).map σ.ref :=
  refs_renumbered h (fun _ => rfl) name

theorem members_renumbered (owner : Owner) :
    idx'.members owner = (idx.members owner).map σ.ref :=
  refs_renumbered h (fun _ => rfl) owner

theorem types_renumbered (name : String) :
    (idx'.types name).map Prod.fst = ((idx.types name).map Prod.fst).map σ.ref := by
  unfold types
  rw [List.map_flatMap, List.map_flatMap, List.map_flatMap]
  refine flatMap_renumbered h fun {f g} hfg => ?_
  rw [hfg.table Entries.types (fun _ => rfl), hfg.model]
  simp only [List.map_map]
  rfl

theorem aliases_renumbered (name : String) :
    (idx'.aliases name).map Prod.fst = (idx.aliases name).map Prod.fst := by
  unfold aliases
  rw [List.map_flatMap, List.map_flatMap]
  refine flatMap_renumbered h fun {f g} hfg => ?_
  rw [hfg.table Entries.aliases (fun _ => rfl)]
  simp only [List.map_map]
  rfl

theorem supers_renumbered (name : String) : idx'.supers name = idx.supers name :=
  flatMap_renumbered h fun {f g} hfg => by rw [hfg.table Entries.supers fun _ => rfl]

theorem operators_renumbered (owner : Owner) : idx'.operators owner = idx.operators owner :=
  flatMap_renumbered h fun {f g} hfg => by
    rw [hfg.table Entries.operators fun _ => rfl]

theorem file?_renumbered (source : SourceId) :
    Option.Rel (PublishedFile.Renumbered σ) (idx.file? source) (idx'.file? source) := by
  unfold ProjectIndex.Renumbered at h
  unfold file?
  generalize idx.files = files at h
  generalize idx'.files = files' at h
  induction h with
  | nil => exact .none
  | cons hfg _ ih =>
    rw [List.find?_cons, List.find?_cons, hfg.source]
    split
    · exact .some hfg
    · exact ih

theorem model?_renumbered (source : SourceId) :
    idx'.model? source = (idx.model? source).map σ.model := by
  have hfile := file?_renumbered h source
  unfold model?
  generalize idx.file? source = found at hfile
  generalize idx'.file? source = found' at hfile
  cases hfile with
  | none => rfl
  | some hfg => exact congrArg some hfg.model

/-- A file takes its place where it took it. -/
theorem publish_renumbered {f g : PublishedFile} (hfg : f.Renumbered σ g) :
    (idx.publish f).Renumbered σ (idx'.publish g) := by
  unfold ProjectIndex.Renumbered at h ⊢
  unfold publish
  generalize idx.files = files at h
  generalize idx'.files = files' at h
  induction h with
  | nil => exact .cons hfg .nil
  | cons hfg' hrest ih =>
    rw [insertInto, insertInto, hfg.source, hfg'.source]
    split
    · exact .cons hfg (.cons hfg' hrest)
    · split
      · exact .cons hfg hrest
      · exact .cons hfg' ih

theorem retract_renumbered (source : SourceId) :
    (idx.retract source).Renumbered σ (idx'.retract source) := by
  unfold ProjectIndex.Renumbered at h ⊢
  unfold retract
  generalize idx.files = files at h
  generalize idx'.files = files' at h
  induction h with
  | nil => exact .nil
  | cons hfg hrest ih =>
    rw [List.filter_cons, List.filter_cons, hfg.source]
    split
    · exact .cons hfg ih
    · exact ih

theorem live_of_model? {source : SourceId} {m : FileModel} (hm : idx.model? source = some m) :
    σ.live m.revision := by
  have hfile := file?_renumbered h source
  obtain ⟨f, hf, rfl⟩ := Option.map_eq_some_iff.1 hm
  rw [hf] at hfile
  generalize idx'.file? source = found at hfile
  cases hfile with
  | some hfg => exact hfg.live

theorem decl?_renumbered (ref : DeclRef) :
    idx'.decl? (σ.ref ref) = (idx.decl? ref).map fun found => (σ.model found.1, found.2) := by
  unfold decl?
  rw [show (σ.ref ref).source = ref.source from rfl, model?_renumbered h]
  cases hm : idx.model? ref.source with
  | none => rfl
  | some m =>
    -- A generation is still that of the file, or still is not.
    have hsource : m.source = ref.source := by
      obtain ⟨f, hf, rfl⟩ := Option.map_eq_some_iff.1 hm
      show f.source = ref.source
      simpa using List.find?_some hf
    have hgeneration : (σ.model m).generation = (σ.ref ref).generation ↔
        m.generation = ref.generation := by
      show σ.gen m.source m.generation = σ.gen ref.source ref.generation ↔ _
      rw [hsource]
      exact (σ.gen_injective ref.source).eq_iff
    dsimp only [Option.map_some]
    rw [if_congr hgeneration rfl rfl]
    split
    · cases hd : m.decl? ref.decl with
      | none => exact congrArg (Option.map _) hd
      | some d => exact congrArg (Option.map _) hd
    · rfl

end ProjectIndex

/-! ## Look-up -/

/-- The first of some references by keys that do not depend on numbers. -/
theorem first_renumbered {κ : Type} (before : κ → κ → Bool)
    {place place' : DeclRef → Option (DeclRef × κ)}
    (hplace : ∀ ref, place' (σ.ref ref) = (place ref).map fun e => (σ.ref e.1, e.2))
    (refs : List DeclRef) :
    (firstLeast? before Prod.snd ((refs.map σ.ref).filterMap place')).map Prod.fst =
      ((firstLeast? before Prod.snd (refs.filterMap place)).map Prod.fst).map σ.ref := by
  have hplaced : (refs.map σ.ref).filterMap place' =
      (refs.filterMap place).map fun e => (σ.ref e.1, e.2) := by
    rw [List.filterMap_map, List.map_filterMap]
    exact List.filterMap_congr fun ref _ => hplace ref
  rw [hplaced, firstLeast?_map before Prod.snd Prod.snd (fun e => (σ.ref e.1, e.2)) fun _ => rfl,
    Option.map_map, Option.map_map]
  rfl

namespace Lookup

variable {l l' : Lookup} (h : l.index.Renumbered σ l'.index)
include h

theorem prefer?_renumbered (candidates : List DeclRef) (source : SourceId) :
    l'.prefer? (candidates.map σ.ref) source = (l.prefer? candidates source).map σ.ref := by
  refine first_renumbered tripleBefore (fun ref => ?_) candidates
  rw [ProjectIndex.decl?_renumbered h]
  cases l.index.decl? ref <;> rfl

theorem global?_renumbered (name : String) (source : SourceId) :
    l'.global? name source = (l.global? name source).map σ.ref := by
  rw [global?, global?, ProjectIndex.globals_renumbered h, prefer?_renumbered h]

theorem namedType?_renumbered (name : String) (source : SourceId) :
    l'.namedType? name source = (l.namedType? name source).map σ.ref := by
  rw [namedType?, namedType?, ProjectIndex.types_renumbered h, prefer?_renumbered h]

theorem collectOwners_renumbered (levels : Nat) :
    l'.collectOwners levels = l.collectOwners levels := by
  induction levels with
  | zero => rfl
  | succ levels ih =>
    -- Only the base types of aliases are gone into.
    have haliases (name : String) (owners : List Owner) :
        (l'.index.aliases name).foldl (fun owners base => l.collectOwners levels base.1 owners)
            owners =
          (l.index.aliases name).foldl (fun owners base => l.collectOwners levels base.1 owners)
            owners := by
      rw [← List.foldl_map (f := Prod.fst)
          (g := fun owners base => l.collectOwners levels base owners),
        ProjectIndex.aliases_renumbered h, List.foldl_map]
    funext type owners
    unfold collectOwners
    rw [ih]
    split <;> simp only [haliases]

theorem directMember?_renumbered (owner : Owner) (name : String) :
    l'.directMember? owner name = (l.directMember? owner name).map σ.ref := by
  unfold directMember?
  rw [ProjectIndex.members_renumbered h]
  refine first_renumbered tripleBefore (fun ref => ?_) (l.index.members owner)
  rw [ProjectIndex.decl?_renumbered h]
  cases l.index.decl? ref with
  | none => rfl
  | some found =>
    dsimp only [Option.map_some]
    split <;> rfl

variable (hdepth : l'.maxSuperDepth = l.maxSuperDepth)
include hdepth

theorem ownersOfType_renumbered : l'.ownersOfType = l.ownersOfType := by
  funext type
  rw [ownersOfType, ownersOfType, hdepth, collectOwners_renumbered h]

theorem superOwners_renumbered : l'.superOwners = l.superOwners := by
  funext owner
  unfold superOwners
  rw [ownersOfType_renumbered h hdepth]
  cases owner with
  | anonymous id => rfl
  | named name =>
    dsimp only
    rw [ProjectIndex.supers_renumbered h]

theorem memberAbove?_renumbered (name : String) (levels : Nat) (seen level : List Owner) :
    l'.memberAbove? name levels seen level = (l.memberAbove? name levels seen level).map σ.ref := by
  have hdirect (owners : List Owner) :
      owners.findSome? (fun owner => l'.directMember? owner name) =
        (owners.findSome? fun owner => l.directMember? owner name).map σ.ref := by
    rw [List.map_findSome?]
    congr 1
    funext owner
    exact directMember?_renumbered h owner name
  induction levels generalizing seen level with
  | zero =>
    rw [memberAbove?, memberAbove?, hdirect]
    cases (unseen seen level).findSome? fun owner => l.directMember? owner name <;> rfl
  | succ levels ih =>
    rw [memberAbove?, memberAbove?, hdirect, superOwners_renumbered h hdepth]
    cases (unseen seen level).findSome? fun owner => l.directMember? owner name with
    | some found => rfl
    | none =>
      dsimp only [Option.map_none]
      split
      · rfl
      · exact ih _ _

theorem member?_renumbered (owner : Owner) (name : String) :
    l'.member? owner name = (l.member? owner name).map σ.ref := by
  rw [member?, member?, hdepth, memberAbove?_renumbered h hdepth]

end Lookup

/-! ## Findings -/

namespace Findings.Renumbered

variable {f g : Findings} (h : f.Renumbered σ g) {m : FileModel} (hm : σ.live m.revision)
include h hm

theorem type? (id : DeclId) : g.type? (σ.model m) id = f.type? m id := by
  unfold Findings.type?
  rw [show (σ.model m).decl? id = m.decl? id from rfl,
    show (σ.model m).revision = σ.rev m.revision from rfl, h.types hm]

theorem inferred? (closure : NodeId) : g.inferred? (σ.model m) closure = f.inferred? m closure :=
  h.returns hm closure

theorem returnType? (closure : NodeId) :
    g.returnType? (σ.model m) closure = f.returnType? m closure := by
  unfold Findings.returnType?
  rw [h.inferred? hm]
  rfl

theorem moduleReturnsOf : g.moduleReturnsOf (σ.model m) = f.moduleReturnsOf m :=
  congrArg (·.getD []) (h.moduleReturns hm)

end Findings.Renumbered

/-! ## Types of expressions -/

namespace Project

variable {p q : Project} (h : p.Renumbered σ q)
include h

theorem declType_renumbered (ref : DeclRef) : q.declType (σ.ref ref) = p.declType ref := by
  unfold declType
  rw [ProjectIndex.decl?_renumbered h.index]
  cases hd : p.index.decl? ref with
  | none => rfl
  | some found =>
    obtain ⟨m, d⟩ := found
    have hm : p.index.model? ref.source = some m := by
      unfold ProjectIndex.decl? at hd
      split at hd
      · next m' hm' =>
        split at hd
        · obtain ⟨_, _, heq⟩ := Option.map_eq_some_iff.1 hd
          rw [hm', (Prod.mk.inj heq).1]
        · cases hd
      · cases hd
    dsimp only [Option.map_some]
    rw [show (σ.ref ref).decl = ref.decl from rfl,
      h.findings.type? (ProjectIndex.live_of_model? h.index hm)]

theorem overloadResult?_renumbered : q.overloadResult? = p.overloadResult? := by
  funext type kind operand
  have howners : q.ownersOfType = p.ownersOfType :=
    Lookup.ownersOfType_renumbered h.index h.depth
  have hoperators : q.index.operators = p.index.operators :=
    funext (ProjectIndex.operators_renumbered h.index)
  rw [overloadResult?, overloadResult?, howners, hoperators]

theorem memberOfType?_renumbered (type : Ty) (name : String) :
    q.memberOfType? type name = (p.memberOfType? type name).map σ.ref := by
  have howners : q.ownersOfType = p.ownersOfType :=
    Lookup.ownersOfType_renumbered h.index h.depth
  unfold memberOfType?
  rw [howners, List.map_findSome?]
  congr 1
  funext owner
  exact Lookup.member?_renumbered h.index h.depth owner name

section
variable {m : FileModel} (hm : σ.live m.revision) (typeOf : NodeId → Nat → Ty)

include hm in
theorem closureResult_renumbered (closure : SyntaxId) :
    q.closureResult (σ.model m) closure = p.closureResult m closure := by
  unfold closureResult
  have howner : (if closure.source = (σ.model m).source then some (σ.model m)
        else q.index.model? closure.source) =
      (if closure.source = m.source then some m else p.index.model? closure.source).map σ.model := by
    rw [ProjectIndex.model?_renumbered h.index]
    show (if closure.source = m.source then _ else _) = _
    split <;> rfl
  dsimp only
  rw [howner, Option.bind_map]
  congr 1
  -- Either the file itself is asked, or one that is published.
  split
  · exact h.findings.returnType? hm closure.node
  · cases hfound : p.index.model? closure.source with
    | none => rfl
    | some m' => exact h.findings.returnType? (ProjectIndex.live_of_model? h.index hfound) _

theorem indexMemberStep?_renumbered (index : NodeId) :
    q.indexMemberStep? (σ.model m) typeOf index =
      (p.indexMemberStep? m typeOf index).map σ.ref := by
  unfold indexMemberStep?
  rw [show (σ.model m).tree = m.tree from rfl]
  split
  · split
    · exact memberOfType?_renumbered h _ _
    · rfl
  · rfl

theorem declarationStep?_renumbered (node : NodeId) :
    q.declarationStep? (σ.model m) typeOf node =
      (p.declarationStep? m typeOf node).map σ.ref := by
  unfold declarationStep?
  have hmember : ((σ.model m).tree.memberAccess? node).bind
        (q.indexMemberStep? (σ.model m) typeOf) =
      ((m.tree.memberAccess? node).bind (p.indexMemberStep? m typeOf)).map σ.ref := by
    rw [Option.map_bind]
    congr 1
    funext index
    exact indexMemberStep?_renumbered h typeOf index
  rw [hmember, show (σ.model m).tree = m.tree from rfl,
    show (σ.model m).anchored? node = m.anchored? node from rfl,
    show (σ.model m).source = m.source from rfl]
  cases (m.tree.memberAccess? node).bind (p.indexMemberStep? m typeOf) with
  | some found => rfl
  | none =>
    dsimp only [Option.map_none]
    cases m.anchored? node with
    | some id => rfl
    | none =>
      dsimp only
      split
      · next name hnode =>
        rw [Lookup.global?_renumbered h.index,
          show (σ.model m).find? node name = m.find? node name from rfl]
        cases m.find? node name <;> rfl
      · exact Lookup.namedType?_renumbered h.index _ _
      · rfl

include hm in
theorem callStep_renumbered (call : NodeId) :
    q.callStep (σ.model m) typeOf call = p.callStep m typeOf call := by
  unfold callStep
  rw [show (σ.model m).tree = m.tree from rfl]
  split
  · split
    · exact closureResult_renumbered h hm _
    · rfl
    · rfl
  · rfl

theorem elementStep_renumbered (baseType : Ty) (key : Option NodeId) :
    q.elementStep (σ.model m) typeOf baseType key = p.elementStep m typeOf baseType key := by
  unfold elementStep
  rw [overloadResult?_renumbered h]
  rfl

theorem indexStep_renumbered (base key : Option NodeId) :
    q.indexStep (σ.model m) typeOf base key = p.indexStep m typeOf base key := by
  unfold indexStep
  cases base with
  | none => rfl
  | some base =>
    have hmember : (key.bind m.tree.keyText?).bind (q.memberOfType? (typeOf base 0)) =
        ((key.bind m.tree.keyText?).bind (p.memberOfType? (typeOf base 0))).map σ.ref := by
      rw [Option.map_bind]
      congr 1
      funext name
      exact memberOfType?_renumbered h _ name
    dsimp only
    rw [show (σ.model m).tree = m.tree from rfl, hmember]
    cases (key.bind m.tree.keyText?).bind (p.memberOfType? (typeOf base 0)) with
    | none => exact elementStep_renumbered h typeOf _ key
    | some ref => exact declType_renumbered h ref

theorem binaryStep_renumbered (op : BinaryOp) (lhs rhs : Option NodeId) :
    q.binaryStep typeOf op lhs rhs = p.binaryStep typeOf op lhs rhs := by
  unfold binaryStep
  rw [overloadResult?_renumbered h]

theorem unaryStep_renumbered (op : UnaryOp) (operand : Option NodeId) :
    q.unaryStep typeOf op operand = p.unaryStep typeOf op operand := by
  unfold unaryStep
  rw [overloadResult?_renumbered h]

include hm in
theorem typeStep_renumbered : q.typeStep (σ.model m) typeOf = p.typeStep m typeOf := by
  have hdeclType (found : Option DeclRef) :
      (found.map σ.ref).map q.declType = found.map p.declType := by
    rw [Option.map_map]
    congr 1
    funext ref
    exact declType_renumbered h ref
  funext expr slot
  unfold typeStep
  rw [show (σ.model m).tree = m.tree from rfl]
  cases hn : m.tree.node? expr with
  | none => rfl
  | some n =>
    cases n with
    | callExpr callee args => exact congrArg (·.slot slot) (callStep_renumbered h hm typeOf expr)
    | nameExpr name =>
      dsimp only
      rw [declarationStep?_renumbered h, hdeclType]
    | indexExpr base key colon =>
      dsimp only
      rw [indexStep_renumbered h]
    | binaryExpr op lhs rhs =>
      dsimp only
      rw [binaryStep_renumbered h]
    | unaryExpr op operand =>
      dsimp only
      rw [unaryStep_renumbered h]
    | _ => rfl

include hm in
theorem exprTypeWithin_renumbered (levels : Nat) :
    q.exprTypeWithin (σ.model m) levels = p.exprTypeWithin m levels := by
  induction levels with
  | zero => rfl
  | succ levels ih =>
    funext expr slot
    rw [exprTypeWithin, exprTypeWithin, ih, typeStep_renumbered h hm]

include hm in
/-- An expression has the type that it had. -/
theorem exprType_renumbered : q.exprType (σ.model m) = p.exprType m := by
  funext expr slot
  rw [exprType, exprType, exprTypeWithin_renumbered h hm]

include hm in
theorem callType_renumbered (call : NodeId) : q.callType (σ.model m) call = p.callType m call := by
  rw [callType, callType, exprType_renumbered h hm, callStep_renumbered h hm]

include hm in
/-- A node refers to the declaration to which it referred. -/
theorem declaration?_renumbered (node : NodeId) :
    q.declaration? (σ.model m) node = (p.declaration? m node).map σ.ref := by
  rw [declaration?, declaration?, exprType_renumbered h hm, declarationStep?_renumbered h]

end

end Project

end LuaAnalysis
