import LuaAnalysis.File.Build
import LuaAnalysis.Proofs.Syntax.Descent

/-!
# Lexical environments

The scoping rules of Lua, by the syntax alone: a traversal hands every node the names in scope
there. The names of a local statement are in scope behind the statement up to the end of its block,
and in a repeat loop in the condition as well; the name of a local function is in scope in the
function too; parameters and loop variables are in scope in the body.

Main statement: every node that the traversal from the root reaches has one environment
(`envAt?_eq_some`).
-/

namespace LuaAnalysis

/-- The names in scope, the latest first, each by the node that binds it. -/
abbrev Env := List NodeId

namespace SyntaxTree

variable {t : SyntaxTree}

/-- The node that binds a name. -/
def binding? (t : SyntaxTree) (env : Env) (name : String) : Option NodeId :=
  env.find? fun b => t.nameText b = name

/-- The names that a statement binds for what follows it, the latest first. -/
def bound (t : SyntaxTree) (stat : NodeId) : Env :=
  match t.node? stat with
  | some (.localStat names _) => names.reverse
  | some (.funcStat (some target) (some _)) =>
    if (t.nameText? target).isSome then [target] else []
  | _ => []

/-- Each of some statements with the names in scope where it begins. -/
def inSequence (t : SyntaxTree) : Env → List NodeId → List (NodeId × Env)
  | _, [] => []
  | env, stat :: rest => (stat, env) :: t.inSequence (t.bound stat ++ env) rest

/-- The names in scope behind some statements. -/
def envAfter (t : SyntaxTree) (env : Env) (stats : List NodeId) : Env :=
  stats.foldl (fun env stat => t.bound stat ++ env) env

/-- The children of a node, each with the names in scope there. -/
def childEnvs (t : SyntaxTree) (env : Env) (id : NodeId) : List (NodeId × Env) :=
  match t.node? id with
  | some (.block _) => t.inSequence env (t.children id)
  | some (.funcStat (some target) (some closure)) => [(target, env), (closure, t.bound id ++ env)]
  | some (.closureExpr params body) =>
    params.map (·, env) ++ body.toList.map (·, params.reverse ++ env)
  | some (.repeatStat body cond) =>
    body.toList.map (·, env) ++
      cond.toList.map (·, t.envAfter env (body.toList.flatMap t.children))
  | some (.forStat var exprs body) =>
    (var.toList ++ exprs).map (·, env) ++ body.toList.map (·, var.toList ++ env)
  | some (.forRangeStat names exprs body) =>
    (names ++ exprs).map (·, env) ++ body.toList.map (·, names.reverse ++ env)
  | _ => (t.children id).map (·, env)

/-- The nodes from `id` down, at most a number of levels, each with the names in scope there. -/
def envsWithin (t : SyntaxTree) : Nat → Env → NodeId → List (NodeId × Env)
  | 0, _, _ => []
  | levels + 1, env, id =>
    (id, env) :: (t.childEnvs env id).flatMap fun (c, env) => t.envsWithin levels env c

/-- The nodes from `id` down, each with the names in scope there. -/
def envsBelow (t : SyntaxTree) (env : Env) (id : NodeId) : List (NodeId × Env) :=
  t.envsWithin (id + 1) env id

/-- The names in scope at a node. -/
def envAt? (t : SyntaxTree) (id : NodeId) : Option Env :=
  ((t.envsBelow [] t.root).find? fun e => e.1 = id).map Prod.snd

/-! ## The traversal reaches every node once -/

theorem map_fst_inSequence (env : Env) (stats : List NodeId) :
    (t.inSequence env stats).map Prod.fst = stats := by
  induction stats generalizing env with
  | nil => rfl
  | cons stat rest ih => rw [inSequence, List.map_cons, ih]

theorem map_fst_childEnvs (env : Env) (id : NodeId) :
    (t.childEnvs env id).map Prod.fst = t.children id := by
  have hpairs (cs : List NodeId) (env : Env) : (cs.map (·, env)).map Prod.fst = cs := by
    rw [List.map_map]
    exact List.map_id cs
  unfold childEnvs
  split
  · exact map_fst_inSequence env _
  · next hn => rw [children_eq hn (by simp)]; rfl
  · next hn => rw [children_eq hn (by simp), List.map_append, hpairs, hpairs]; rfl
  · next hn => rw [children_eq hn (by simp), List.map_append, hpairs, hpairs]; rfl
  · next hn => rw [children_eq hn (by simp), List.map_append, hpairs, hpairs]; rfl
  · next hn => rw [children_eq hn (by simp), List.map_append, hpairs, hpairs]; rfl
  · exact hpairs _ env

theorem fst_mem_children {env env' : Env} {id c : NodeId} (h : (c, env') ∈ t.childEnvs env id) :
    c ∈ t.children id := by
  rw [← map_fst_childEnvs env id]
  exact List.mem_map_of_mem h

theorem envsWithin_stable (h : t.Proper) (k l : Nat) (env : Env) (id : NodeId) (hk : id < k)
    (hl : id < l) : t.envsWithin k env id = t.envsWithin l env id := by
  refine congrFun (levels_stable (f := fun levels id env => t.envsWithin levels env id)
    (fun k l id hsame => ?_) hk hl) env
  funext env
  rw [envsWithin, envsWithin]
  congr 1
  apply List.flatMap_congr
  rintro ⟨c, env'⟩ hc
  exact congrFun (hsame c (h.child_lt (fst_mem_children hc))) env'

theorem envsBelow_eq (h : t.Proper) (env : Env) (id : NodeId) :
    t.envsBelow env id =
      (id, env) :: (t.childEnvs env id).flatMap fun (c, env) => t.envsBelow env c := by
  rw [envsBelow, envsWithin]
  congr 1
  apply List.flatMap_congr
  rintro ⟨c, env'⟩ hc
  exact envsWithin_stable h id (c + 1) env' c (h.child_lt (fst_mem_children hc))
    (Nat.lt_succ_self c)

theorem map_fst_envsBelow (h : t.Proper) (env : Env) (id : NodeId) :
    (t.envsBelow env id).map Prod.fst = t.below id := by
  induction id using Nat.strongRecOn generalizing env with
  | _ id ih =>
    rw [envsBelow_eq h, below_eq h, List.map_cons, List.map_flatMap, ← map_fst_childEnvs env id,
      List.flatMap_map]
    congr 1
    apply List.flatMap_congr
    rintro ⟨c, env'⟩ hc
    exact ih c (h.child_lt (fst_mem_children hc)) env'

theorem envAt?_eq_some (h : t.Proper) {id : NodeId} {env : Env} :
    t.envAt? id = some env ↔ (id, env) ∈ t.envsBelow [] t.root := by
  have hnodup : ((t.envsBelow [] t.root).map Prod.fst).Nodup := by
    rw [map_fst_envsBelow h]
    exact nodup_below h t.root
  unfold envAt?
  revert hnodup
  generalize t.envsBelow [] t.root = envs
  intro hnodup
  induction envs with
  | nil => simp
  | cons e envs ih =>
    obtain ⟨x, env'⟩ := e
    rw [List.map_cons, List.nodup_cons] at hnodup
    by_cases hx : x = id
    · subst hx
      have hnot : (x, env) ∉ envs := fun hmem => hnodup.1 (List.mem_map.2 ⟨_, hmem, rfl⟩)
      simp [hnot, eq_comm]
    · have hih := ih hnodup.2
      rw [List.find?_cons_of_neg (by simpa using hx)]
      simp [hih, Ne.symm hx]

theorem exists_envAt? (h : t.Proper) {id : NodeId} (hid : id ∈ t.below t.root) :
    ∃ env, t.envAt? id = some env := by
  rw [← map_fst_envsBelow h []] at hid
  obtain ⟨⟨x, env⟩, hmem, rfl⟩ := List.mem_map.1 hid
  exact ⟨env, (envAt?_eq_some h).2 hmem⟩

end SyntaxTree

end LuaAnalysis
