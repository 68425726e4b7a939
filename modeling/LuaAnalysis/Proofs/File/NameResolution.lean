import LuaAnalysis.Proofs.File.Anchors
import LuaAnalysis.Proofs.File.BlockWalk
import LuaAnalysis.Proofs.File.SeenNames
import LuaAnalysis.Syntax.Shorthand

/-!
# Name look-up is lexical

`SyntaxTree.envAt?` says by the syntax alone which names are in scope at a node; the model of a file
looks names up by scopes and positions. In a text that is written down from left to right the two
agree for every name expression.

Main statement: `find?_is_lexical`.
-/

namespace LuaAnalysis

open Outline

theorem FileModel.find?_eq_look {t : SyntaxTree} {config : Config} {revision : Revision}
    {generation : Nat} {sid : ScopeId} {u : NodeId} (wf : Nested t (t.outline config))
    (haround : Around t (t.outline config) sid (u :: t.ancestors u)) (name : String) :
    (t.analyse config revision generation).model.find? u name =
      (t.outline config).look sid (t.span u).start name :=
  Outline.find?_eq_look wf haround name

/-- Look-up by scopes and positions is lexical scoping. A name that is bound where a name expression
stands leads to the declaration of the node that binds it, and that is the one declaration of this
node; any other name leads to a global or to nothing. -/
theorem find?_is_lexical (config : Config) (revision : Revision) (generation : Nat)
    (source : SourceId) (block : Option Sketch)
    (hproper : (Sketch.node (.source block)).proper = true)
    (hunpinned : (Sketch.node (.source block)).unpinned = true) {u : NodeId} {name : String}
    (hu : u ∈ (SyntaxTree.ofSketch source block).descendants
      (SyntaxTree.ofSketch source block).root)
    (hname : (SyntaxTree.ofSketch source block).node? u = some (.nameExpr name)) :
    let t := SyntaxTree.ofSketch source block
    let m := (t.analyse config revision generation).model
    ∃ env, t.envAt? u = some env ∧
      match t.binding? env name with
      | some b => ∃ i d, m.find? u name = some i ∧ m.anchored? b = some i ∧ m.decl? i = some d ∧
          d.node = b ∧ d.name = name
      | none => ∀ i, m.find? u name = some i →
          ∃ d, m.decl? i = some d ∧ d.kind.isGlobal = true ∧ d.name = name := by
  intro t m
  have h : t.Proper := SyntaxTree.proper_ofSketch source block hproper
  have ho : t.InOrder := SyntaxTree.inOrder_ofSketch source block hproper hunpinned
  have hbelow : u ∈ t.below t.root := by
    rw [SyntaxTree.below_eq_descendants h]
    exact List.mem_cons_of_mem _ hu
  obtain ⟨env, henv⟩ := SyntaxTree.exists_envAt? h hbelow
  obtain ⟨wf, hright⟩ := right_outline config h ho
  obtain ⟨sid, s, haround, -, hsees⟩ := hright _ ((SyntaxTree.envAt?_eq_some h).1 henv) name hname
  have hfind : m.find? u name = (t.outline config).look sid (t.span u).start name :=
    FileModel.find?_eq_look wf haround name
  -- What the scopes find is what the environment binds the name to, or else a global.
  have hmatch := hsees name
  rw [← hfind] at hmatch
  refine ⟨env, henv, ?_⟩
  cases hbound : t.binding? env name with
  | some b =>
    rw [hbound] at hmatch
    cases hfound : m.find? u name with
    | none =>
      rw [hfound] at hmatch
      exact hmatch.elim
    | some i =>
      rw [hfound] at hmatch
      obtain ⟨d, hd, rfl⟩ := hmatch
      obtain ⟨d', hd', hvalue, hname', -⟩ := FileModel.find?_sound hfound
      obtain rfl : d' = d := Option.some.inj (hd'.symm.trans hd)
      have hanchor := FileModel.anchored_node h (m := m) rfl hd
        (DeclKind.isNamed_of_isValue hvalue)
      exact ⟨i, d', rfl, hanchor, hd, rfl, hname'⟩
  | none =>
    intro i hfound
    rw [hbound, hfound] at hmatch
    obtain ⟨d, hd, hglobal⟩ := hmatch
    obtain ⟨d', hd', -, hname', -⟩ := FileModel.find?_sound hfound
    obtain rfl : d' = d := Option.some.inj (hd'.symm.trans hd)
    exact ⟨d', hd, hglobal, hname'⟩

/-- `local x = 1 repeat local x = x until x` -/
def shadowedInLoop : Sketch :=
  .block [.declare ["x"] [.literal (.integer 1)],
    .repeatLoop [.declare ["x"] [.var "x"]] (.var "x")]

/-- The condition of the loop means the `x` of its body, which is node 3. -/
theorem find?_in_condition :
    let t := SyntaxTree.ofSketch 0 (some shadowedInLoop)
    let m := (t.analyse {} 0 1).model
    t.node? 7 = some (.nameExpr "x") ∧
      ∃ i d, m.find? 7 "x" = some i ∧ m.anchored? 3 = some i ∧ m.decl? i = some d ∧ d.node = 3 := by
  have hname : (SyntaxTree.ofSketch 0 (some shadowedInLoop)).node? 7 = some (.nameExpr "x") := by
    decide +kernel
  have hscope : (SyntaxTree.ofSketch 0 (some shadowedInLoop)).envAt? 7 = some [3, 0] := by
    decide +kernel
  have hbound : (SyntaxTree.ofSketch 0 (some shadowedInLoop)).binding? [3, 0] "x" = some 3 := by
    decide +kernel
  obtain ⟨env, henv, hfound⟩ := find?_is_lexical {} 0 1 0 (some shadowedInLoop) (by decide)
    (by decide) (by decide +kernel) hname
  have hsame : env = [3, 0] := Option.some.inj (henv.symm.trans hscope)
  rw [hsame, hbound] at hfound
  obtain ⟨i, d, hfind, hanchor, hd, hnode, -⟩ := hfound
  exact ⟨hname, i, d, hfind, hanchor, hd, hnode⟩

end LuaAnalysis
