import LuaAnalysis.Proofs.File.Anchors
import LuaAnalysis.Proofs.File.OpenTasks
import Mathlib.Data.List.Nodup

/-!
# One task each

A declaration that gets its type from a value has one task, any other has none. A closure is known
as a method, and has a task for its returns if they are asked for and it has a body.

Main statements: `Outline.Posted.count_decls`, `Outline.closures`.
-/

namespace LuaAnalysis.Outline

variable {config : Config} {t : SyntaxTree} {o o' : Outline} {w : NodeId}
  {made : List (Declaration × Option NodeId)} {seen : List NodeId}

theorem Posted.count_decls (h : Posted o) (i : DeclId) :
    o.worklist.decls.count i = if o.decls[i]?.any (·.kind.isValued) then 1 else 0 := by
  have hnodup : o.worklist.decls.Nodup := h.ordered.imp fun hlt => Nat.ne_of_lt hlt
  split
  · next hvalued =>
    obtain ⟨d, hd, hvalued⟩ := (Option.any_eq_true _ _).1 hvalued
    obtain ⟨value, todo, definesType, hplace, -⟩ := h.tasks hd hvalued
    exact List.count_eq_one_of_mem hnodup (List.mem_filterMap.2 ⟨_, hplace, rfl⟩)
  · next hother =>
    refine List.count_eq_zero.2 fun hi => hother ?_
    obtain ⟨d, hd, hvalued⟩ := h.valued i hi
    rw [hd]
    exact hvalued

/-! ## Closures -/

/-- The closures among the nodes that have been entered are methods, and their bodies have tasks. -/
structure Closures (t : SyntaxTree) (config : Config) (seen : List NodeId) (o : Outline) :
    Prop where
  methods : ∀ x ∈ seen, ∀ params body, t.node? x = some (.closureExpr params body) →
    ∃ m ∈ o.methods, m.closure = x
  tasks : config.inferReturns = true → ∀ x ∈ seen, ∀ params body,
    t.node? x = some (.closureExpr params (some body)) → some (.method x) ∈ o.worklist.places

/-- What a node makes takes no method and no task away. -/
theorem Makes.keeps (h : Makes t w o made o') :
    o.methods ⊆ o'.methods ∧ o.worklist.places ⊆ o'.worklist.places := by
  induction h with
  | nothing => exact ⟨List.Subset.refl _, List.Subset.refl _⟩
  | declare _ _ ih => exact ih
  | record _ _ ih => exact ih
  | schedule _ _ ih => exact ⟨ih.1, List.subset_append_of_subset_left _ ih.2⟩
  | method _ _ ih => exact ⟨List.subset_cons_of_subset _ ih.1, ih.2⟩

theorem Closures.declareAt (h : Closures t config seen o) (w : NodeId) :
    Closures t config (seen ++ [w]) (o.declareAt config t w) := by
  obtain ⟨made, hmakes, -⟩ := makes_declareAt (t := t) (w := w) config o
  obtain ⟨hmethods, hplaces⟩ := hmakes.keeps
  refine ⟨fun x hx params body hn => ?_, fun hinfer x hx params body hn => ?_⟩
  · rcases List.mem_append.1 hx with hx | hx
    · obtain ⟨m, hm, hclosure⟩ := h.methods x hx params body hn
      exact ⟨m, hmethods hm, hclosure⟩
    · obtain rfl := List.mem_singleton.1 hx
      rw [Outline.declareAt, hn]
      unfold Outline.closure
      dsimp only
      split
      · exact ⟨_, List.mem_cons_self, rfl⟩
      · exact ⟨_, List.mem_cons_self, rfl⟩
  · rcases List.mem_append.1 hx with hx | hx
    · exact hplaces (h.tasks hinfer x hx params body hn)
    · obtain rfl := List.mem_singleton.1 hx
      rw [Outline.declareAt, hn]
      unfold Outline.closure
      dsimp only
      rw [if_pos (by rw [hinfer]; rfl)]
      exact List.mem_append_right _ List.mem_cons_self

/-- All closures of the tree are methods, and all bodies have tasks. -/
theorem closures (config : Config) (h : t.Proper) :
    Closures t config (t.below t.root) (t.outline config) := by
  refine outline_induction (P := Closures t config) h (fun seen o x _ _ ho => ?_)
    (fun seen o x _ ho => ?_) ?_
  · unfold enter
    dsimp only
    split
    · next kind _ =>
      have hscope : Closures t config seen (o.enterScope t x kind) := ⟨ho.methods, ho.tasks⟩
      exact hscope.declareAt x
    · exact ho.declareAt x
  · unfold leave
    split
    · exact ⟨ho.methods, ho.tasks⟩
    · exact ho
  · exact ⟨by simp, by simp⟩

end LuaAnalysis.Outline
