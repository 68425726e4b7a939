import LuaAnalysis.Proofs.Project.CallValues
import LuaAnalysis.Proofs.Project.StoredTypes

/-!
# Inferred returns

The returns of a body are the values of its return statements, joined position by position. A
statement that gives fewer values than another leaves the further positions to the other; a call in
last position gives all the returns of the function that it calls.

Main statement: `Compilation.inferred_returns_are_joined`.
-/

namespace LuaAnalysis

/-! ## Joining positions -/

/-- The type of a value that has one of some types, joined from the first on. -/
def Ty.joinAll : List Ty → Option Ty
  | [] => none
  | t :: ts => some (ts.foldl join t)

theorem Ty.joinAll_append (ts us : List Ty) :
    joinAll ((joinAll ts).toList ++ us) = joinAll (ts ++ us) := by
  cases ts with
  | nil => rfl
  | cons t ts =>
    show some (us.foldl join (ts.foldl join t)) = some ((ts ++ us).foldl join t)
    rw [List.foldl_append]

theorem length_joinReturns (as bs : List Ty) :
    (joinReturns as bs).length = max as.length bs.length := by
  induction as generalizing bs with
  | nil => simp [joinReturns]
  | cons a as ih =>
    cases bs with
    | nil => simp [joinReturns]
    | cons b bs => simp only [joinReturns, List.length_cons, ih, Nat.add_max_add_right]

/-- In each position two lists are joined, or the longer one keeps what it has. -/
theorem getElem?_joinReturns (as bs : List Ty) (i : Nat) :
    (joinReturns as bs)[i]? = Ty.joinAll (as[i]?.toList ++ bs[i]?.toList) := by
  induction as generalizing bs i with
  | nil => cases h : bs[i]? <;> simp [joinReturns, h, Ty.joinAll]
  | cons a as ih =>
    cases bs with
    | nil => cases h : (a :: as)[i]? <;> simp [joinReturns, h, Ty.joinAll]
    | cons b bs =>
      cases i with
      | zero => rfl
      | succ i => exact ih bs i

theorem length_foldl_joinReturns (lists : List (List Ty)) (returns : List Ty) :
    (lists.foldl joinReturns returns).length =
      max returns.length ((lists.map List.length).foldr max 0) := by
  induction lists generalizing returns with
  | nil => simp
  | cons ts lists ih =>
    rw [List.foldl_cons, ih, length_joinReturns, List.map_cons, List.foldr_cons, Nat.max_assoc]

theorem getElem?_foldl_joinReturns (lists : List (List Ty)) (returns : List Ty) (i : Nat) :
    (lists.foldl joinReturns returns)[i]? =
      Ty.joinAll (returns[i]?.toList ++ lists.filterMap (·[i]?)) := by
  induction lists generalizing returns with
  | nil => cases h : returns[i]? <;> simp [h, Ty.joinAll]
  | cons ts lists ih =>
    have hcons : (ts :: lists).filterMap (·[i]?) = ts[i]?.toList ++ lists.filterMap (·[i]?) := by
      cases h : ts[i]? <;> simp [h]
    rw [List.foldl_cons, ih, getElem?_joinReturns, Ty.joinAll_append, hcons, List.append_assoc]

/-! ## The returns of a body -/

/-- What the return statements of a body return, in their order. Those inside a closure of the body
return from the closure. -/
def SyntaxTree.returnsIn (t : SyntaxTree) (body : NodeId) : List (List NodeId) :=
  (t.below body).filterMap fun id =>
    if t.enclosed body id then none
    else
      match t.node? id with
      | some (.returnStat exprs) => some exprs
      | _ => none

namespace Project

variable {p : Project} {f : PublishedFile}

theorem inferReturns_eq (h : p.AllTypes Ty.WellFormed) (hsorted : p.index.Sorted)
    (hf : f ∈ p.index.files) (hproper : f.model.tree.Proper) (body : NodeId) :
    p.inferReturns f.model body =
      ((f.model.tree.returnsIn body).map (p.valueList f.model)).foldl joinReturns [] := by
  have hlists : (f.model.tree.returnStats body).map (p.returnedValues f.model) =
      (f.model.tree.returnsIn body).map (p.valueList f.model) := by
    unfold SyntaxTree.returnStats SyntaxTree.returnsIn
    rw [SyntaxTree.outsideClosures_eq_filter hproper]
    induction f.model.tree.below body with
    | nil => rfl
    | cons id rest ih =>
      cases henclosed : f.model.tree.enclosed body id with
      | true => simpa [henclosed] using ih
      | false =>
        cases hn : f.model.tree.node? id with
        | none => simpa [henclosed, hn] using ih
        | some n =>
          cases n with
          | returnStat exprs =>
            have hvalues : p.returnedValues f.model id = p.valueList f.model exprs := by
              rw [returnedValues, hn, ← valuesOf_eq h hsorted hf]
            simpa [henclosed, hn, hvalues] using ih
          | _ => simpa [henclosed, hn] using ih
  rw [← hlists, List.foldl_map]
  rfl

end Project

namespace Compilation

variable {config : Config} {c : Compilation} {trees : List SyntaxTree} {p : Project}
  {f : PublishedFile}

/-- At any moment of an update, the returns inferred for a body of a published file are as many as
the longest of its return statements gives, and in each position the values of those that have one
there are joined, in the order of the statements. -/
theorem inferred_returns_are_joined (h : Reached config c) (htrees : ∀ t ∈ trees, t.Proper)
    (hp : c.Passes trees p) (hf : f ∈ p.index.files) (body : NodeId) :
    let lists := (f.model.tree.returnsIn body).map (p.valueList f.model)
    (p.inferReturns f.model body).length = (lists.map List.length).foldr max 0 ∧
      ∀ i : Nat, (p.inferReturns f.model body)[i]? =
        Ty.joinAll (lists.filterMap fun values => values[i]?) := by
  intro lists
  have hall : p.AllTypes Ty.WellFormed := h.wellFormed_passed htrees hp
  obtain ⟨hsorted, hproper⟩ := h.faithful_passed htrees hp
  rw [Project.inferReturns_eq hall hsorted hf (hproper f hf)]
  constructor
  · rw [length_foldl_joinReturns, List.length_nil, Nat.zero_max]
  · intro i
    rw [getElem?_foldl_joinReturns, List.getElem?_nil, Option.toList_none, List.nil_append]

/-- `function g() return "s", true end` and
`function f(a) if a then return 1 end local k = function() return a end return nil, g() end` -/
def returnsCall : SyntaxTree :=
  .ofSketch 0 (some (.block [
    .function (.var "g") [] [.node (.returnStat [.literal (.string "s"), .literal (.bool true)])],
    .function (.var "f") ["a"] [
      .ifThen (.var "a") [.node (.returnStat [.literal (.integer 1)])],
      .declare ["k"] [.closure [] [.node (.returnStat [.var "a"])]],
      .node (.returnStat [.literal .nil, .call (.var "g") []])]]))

/-- The project after all tasks of an update with this file. -/
def afterReturnsCall : Project :=
  let c := (({} : Compilation).register "/a.lua").2
  ((c.openProject [returnsCall]).resolveEvents (c.targets [returnsCall])).foldl TaskEvent.apply
    (c.openProject [returnsCall])

/-- The body of `f` is the node 25. The closure in it returns nothing from `f`, and the call of `g`
gives both returns of `g`. -/
theorem inferred_returns_returnsCall :
    ∃ f ∈ afterReturnsCall.index.files,
      (f.model.tree.returnsIn 25).map (afterReturnsCall.valueList f.model) =
        [[.integer], [.nil, .string, .boolean]] ∧
      (afterReturnsCall.inferReturns f.model 25).length = 3 ∧
      (afterReturnsCall.inferReturns f.model 25)[0]? = some (.union [.integer, .nil]) ∧
      (afterReturnsCall.inferReturns f.model 25)[2]? = some .boolean := by
  have hreached : Reached {} (({} : Compilation).register "/a.lua").2 := Reached.start.register _
  have hproper : ∀ t ∈ [returnsCall], t.Proper :=
    List.forall_mem_singleton.2 (SyntaxTree.proper_ofSketch 0 _ (by decide))
  have hpassed : (({} : Compilation).register "/a.lua").2.Passes [returnsCall] afterReturnsCall :=
    ⟨_, [], (List.append_nil _).symm, rfl⟩
  have hrun : ∃ f ∈ afterReturnsCall.index.files,
      (f.model.tree.returnsIn 25).map (afterReturnsCall.valueList f.model) =
        [[.integer], [.nil, .string, .boolean]] := by
    decide +kernel
  obtain ⟨f, hf, hlists⟩ := hrun
  have hjoined := inferred_returns_are_joined hreached hproper hpassed hf 25
  rw [hlists] at hjoined
  obtain ⟨hlength, hposition⟩ := hjoined
  exact ⟨f, hf, hlists, hlength, (hposition 0).trans (by decide), (hposition 2).trans (by decide)⟩

end Compilation

end LuaAnalysis
