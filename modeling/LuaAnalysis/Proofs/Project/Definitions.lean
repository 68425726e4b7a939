import LuaAnalysis.Proofs.Project.NameReferences
import LuaAnalysis.Proofs.Project.OwnPlace

/-!
# Definitions and first references

A node that refers to a declaration has a definition, the place of the declaration. It is the first
of the references of the node when look-up at that place leads back to the declaration. It does
unless the place is an index expression and the type of its base has another member of the name.

Main statement: `leads_back_iff`.
-/

namespace LuaAnalysis

/-- In any compilation that comes about, the place of a declaration that something refers to leads
back to it unless it is assigned to a value that has another member of the name. When it leads back,
the definition of whatever refers to the declaration is the first of its references. -/
theorem leads_back_iff {config : Config} {c : Compilation} (h : Compilation.Reached config c)
    {f : PublishedFile} (hf : f ∈ c.index.files) {x : NodeId} {ref : DeclRef}
    (hx : c.project.declaration? f.model x = some ref) :
    ∃ m d, c.index.decl? ref = some (m, d) ∧
      (c.project.declaration? m d.node = some ref ↔
        ∀ member ∈ c.project.assignedMember? m ref.decl d.name, member = ref) ∧
      (c.project.declaration? m d.node = some ref →
        c.project.definition? f.model x = some d.reference ∧
          (c.project.findReferences f.model x).head? = some d.reference) := by
  obtain ⟨-, hfaithful⟩ := h.faithful
  have hfaithful : c.project.index.Faithful config := hfaithful
  -- However the node refers to the declaration, the node of the declaration is an anchor of it.
  obtain ⟨g, hg, i, d, rfl, hdecl, hanchor⟩ := Project.anchored_of_declaration? hfaithful hf hx
  have hd : c.project.index.decl? (g.model.ref i) = some (g.model, d) := by
    rw [ProjectIndex.decl?_ref hfaithful.sorted hg, hdecl, Option.map_some]
  have hplace := Project.declaration?_place hfaithful hg hdecl hanchor
  refine ⟨g.model, d, hd, ?_, fun hback => ⟨?_, ?_⟩⟩
  · rw [hplace, Option.some.injEq]
    show _ ↔ ∀ member ∈ c.project.assignedMember? g.model i d.name, member = g.model.ref i
    cases c.project.assignedMember? g.model i d.name with
    | none => simp
    | some member => simp
  · rw [Project.definition?, hx, Option.bind_some, hd, Option.map_some]
  · rw [Project.findReferences, hx]
    dsimp only
    rw [Project.references]
    dsimp only
    -- The references are those of the declaration itself.
    rw [Project.canonical_of_leads_back hd hback, hd]
    exact head?_distinctReferences _ _

/-- `t = {}` and `t.x = 1` -/
def makesField : Sketch :=
  .block [.node (.assignStat [.var "t"] [.node (.tableExpr [])]),
    .node (.assignStat [.member (.var "t") "x" false] [.literal (.integer 1)])]

/-- A field and its use in another file, `local y = t.x` -/
def fieldInUse : Compilation :=
  .ofUpdate [.ofSketch 0 (some makesField),
    .ofSketch 1 (some (.block [.declare ["y"] [.member (.var "t") "x" false]]))]

theorem reached_fieldInUse : Compilation.Reached {} fieldInUse := by
  exact Compilation.reached_ofUpdate (by decide) (by decide)

/-- The use leads to the assigned field, and at its place the table has no other member of the
name. -/
theorem leads_back_of_field :
    ∃ f ∈ fieldInUse.index.files, fieldInUse.project.declaration? f.model 3 = some ⟨0, 1, 1⟩ ∧
      ∃ m d, fieldInUse.index.decl? ⟨0, 1, 1⟩ = some (m, d) ∧ d.kind = .index ∧
        fieldInUse.project.assignedMember? m 1 d.name = some ⟨0, 1, 1⟩ ∧
        fieldInUse.project.declaration? m d.node = some ⟨0, 1, 1⟩ ∧
        fieldInUse.project.definition? f.model 3 = some d.reference ∧
        (fieldInUse.project.findReferences f.model 3).head? = some d.reference := by
  have huse : ((fieldInUse.index.file? 1).any fun f =>
      decide (fieldInUse.project.declaration? f.model 3 = some ⟨0, 1, 1⟩)) = true := by
    decide +kernel
  obtain ⟨f, hfile, hx⟩ := (Option.any_eq_true _ _).1 huse
  have hf := List.mem_of_find?_eq_some hfile
  have hx := of_decide_eq_true hx
  obtain ⟨m, d, hd, hiff, hback⟩ := leads_back_iff reached_fieldInUse hf hx
  have hassigned : (fieldInUse.index.decl? ⟨0, 1, 1⟩).all (fun e => decide (e.2.kind = .index ∧
      fieldInUse.project.assignedMember? e.1 1 e.2.name = some ⟨0, 1, 1⟩)) = true := by
    decide +kernel
  rw [hd, Option.all_some] at hassigned
  obtain ⟨hkind, hmember⟩ := of_decide_eq_true hassigned
  have hleads := hiff.2 (by
    rw [hmember]
    simp)
  exact ⟨f, hf, hx, m, d, hd, hkind, hmember, hleads, hback hleads⟩

/-- `---@class P` above `local P = {b = {x = true}}` -/
def nestsTable : Sketch :=
  .block [.node (.comment [.classTag "P" []]),
    .declare ["P"] [.node (.tableExpr [.entry (.name "b")
      (.node (.tableExpr [.entry (.name "x") (.literal (.bool true))]))])]]

/-- `---@type P` above `local p`, then `local t = {}`, `p.b = t`, `p.b.x = 1` and `t.x = 2` -/
def assignsTwice : Sketch :=
  .block [.node (.comment [.typeTag [.typeName "P"]]), .declare ["p"] [],
    .declare ["t"] [.node (.tableExpr [])],
    .node (.assignStat [.member (.var "p") "b" false] [.var "t"]),
    .node (.assignStat [.member (.member (.var "p") "b" false) "x" false] [.literal (.integer 1)]),
    .node (.assignStat [.member (.var "t") "x" false] [.literal (.integer 2)])]

/-- Fields that are assigned before the table of the class is linked. -/
def lateClass : Compilation :=
  .ofUpdate [.ofSketch 1 (some assignsTwice), .ofSketch 0 (some nestsTable)]

theorem reached_lateClass : Compilation.Reached {} lateClass := by
  exact Compilation.reached_ofUpdate (by decide) (by decide)

/-- `p.b` is an own table when `p.b.x` is assigned, so `t.x` leads there; then the class is linked and
the place leads to the field of the class. -/
theorem place_leads_elsewhere :
    Compilation.Reached {} lateClass ∧ ∃ f ∈ lateClass.index.files, ∃ d,
      lateClass.project.declaration? f.model 22 = some ⟨1, 1, 3⟩ ∧
      lateClass.index.decl? ⟨1, 1, 3⟩ = some (f.model, d) ∧
      lateClass.project.declaration? f.model d.node = some ⟨0, 1, 3⟩ ∧
      lateClass.project.definition? f.model 22 = some d.reference ∧
      (lateClass.project.findReferences f.model 22).head? ≠ some d.reference := by
  have hrun : ((lateClass.index.file? 1).any fun f =>
      (f.model.decl? 3).any fun d => decide (
        lateClass.project.declaration? f.model 22 = some ⟨1, 1, 3⟩ ∧
          lateClass.index.decl? ⟨1, 1, 3⟩ = some (f.model, d) ∧
          lateClass.project.declaration? f.model d.node = some ⟨0, 1, 3⟩ ∧
          lateClass.project.definition? f.model 22 = some d.reference ∧
          (lateClass.project.findReferences f.model 22).head? ≠ some d.reference)) = true := by
    decide +kernel
  obtain ⟨f, hfile, hrun⟩ := (Option.any_eq_true _ _).1 hrun
  have hf := List.mem_of_find?_eq_some hfile
  obtain ⟨d, -, hrun⟩ := (Option.any_eq_true _ _).1 hrun
  have hfacts := of_decide_eq_true hrun
  exact ⟨reached_lateClass, f, hf, d, hfacts⟩

end LuaAnalysis
