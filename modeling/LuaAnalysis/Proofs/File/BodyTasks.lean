import LuaAnalysis.Proofs.File.ClosureTasks

/-!
# The tasks of bodies

The returns of a closure are found out by one task, and so are those of a file. A walk posts the
tasks of bodies in its own order, one for each node that has such a body (`Outline.bodies_outline`).

Main statements: `Outline.nodup_bodies`, `Worklist.body_unique`.
-/

namespace LuaAnalysis

/-- The body whose returns a task finds out: that of a closure, or else that of the file. -/
def Task.body? : Task → Option (Option NodeId)
  | .declaration .. => none
  | .method closure => some (some closure)
  | .source _ => some none

/-- The bodies whose returns the tasks of a worklist find out, in order. -/
def Worklist.bodies (w : Worklist) : List (Option NodeId) :=
  w.places.filterMap (·.bind Task.body?)

theorem Worklist.bodies_push (w : Worklist) (task : Task) :
    (w.push task).bodies = w.bodies ++ task.body?.toList := by
  unfold bodies push
  rw [List.filterMap_append]
  cases task <;> rfl

/-- The body that a node has and whose returns are to be found out. -/
def SyntaxTree.bodyAt? (config : Config) (t : SyntaxTree) (w : NodeId) : Option (Option NodeId) :=
  if config.inferReturns then
    match t.node? w with
    | some (.source (some _)) => some none
    | some (.closureExpr _ (some _)) => some (some w)
    | _ => none
  else none

namespace Outline

variable {config : Config} {t : SyntaxTree} {o : Outline}

theorem bodies_foldl {α : Type} {step : Outline → α → Outline}
    (h : ∀ o x, (step o x).worklist.bodies = o.worklist.bodies) (xs : List α) (o : Outline) :
    (xs.foldl step o).worklist.bodies = o.worklist.bodies := by
  induction xs generalizing o with
  | nil => rfl
  | cons x xs ih => rw [List.foldl_cons, ih, h]

theorem bodies_schedule (o : Outline) (decl : DeclId) (value : Option ValueRef) (todo : Open)
    (definesType : Bool) :
    (o.schedule (.declaration decl value todo definesType)).worklist.bodies =
      o.worklist.bodies :=
  (o.worklist.bodies_push _).trans (List.append_nil _)

/-! ## Nodes without bodies -/

theorem bodies_localStat (o : Outline) (stat : NodeId) (names exprs : List NodeId) :
    (o.localStat t stat names exprs).worklist.bodies = o.worklist.bodies := by
  refine bodies_foldl (fun o e => ?_) _ o
  exact bodies_schedule _ _ _ _ _

theorem bodies_assignStat (o : Outline) (stat : NodeId) (targets exprs : List NodeId) :
    (o.assignStat t stat targets exprs).worklist.bodies = o.worklist.bodies := by
  refine bodies_foldl (fun o e => ?_) _ o
  unfold assignTarget
  dsimp only
  split
  · split
    · rfl
    · exact bodies_schedule _ _ _ _ _
  · split
    · exact bodies_schedule _ _ _ _ _
    · rfl
  · rfl

theorem bodies_funcStat (o : Outline) (target closure : NodeId) :
    (o.funcStat t target closure).worklist.bodies = o.worklist.bodies := by
  unfold funcStat
  dsimp only
  split
  · exact bodies_schedule _ _ _ _ _
  · split
    · rfl
    · exact bodies_schedule _ _ _ _ _
  · split
    · exact bodies_schedule _ _ _ _ _
    · rfl
  · rfl

theorem bodies_tableField (o : Outline) (field : NodeId) (key value : Option NodeId) :
    (o.tableField t field key value).worklist.bodies = o.worklist.bodies := by
  unfold tableField
  split
  · split
    · exact bodies_schedule _ _ _ _ _
    · rfl
  · rfl

theorem bodies_declareParams (o : Outline) (params : List (NodeId × Ty)) (names : List NodeId) :
    ((o.declareParamTags t params).declareParams t params names).worklist.bodies =
      o.worklist.bodies := by
  unfold declareParams declareParamTags
  rw [bodies_foldl fun _ _ => by rfl, bodies_foldl fun _ _ => by rfl]

theorem bodies_genericParam (o : Outline) (param : NodeId) :
    (o.genericParam t param).worklist.bodies = o.worklist.bodies := by
  unfold genericParam
  split <;> rfl

theorem bodies_docField (o : Outline) (owner : Owner) (field : NodeId) :
    (o.docField t owner field).worklist.bodies = o.worklist.bodies := by
  unfold docField
  split
  · dsimp only
    split <;> rfl
  · rfl

theorem bodies_classTag (o : Outline) (owner : Owner) (tag : NodeId) :
    (o.classTag t owner tag).worklist.bodies = o.worklist.bodies := by
  unfold classTag
  split
  · exact bodies_docField o owner tag
  · unfold operator
    split
    · split <;> rfl
    · rfl
  · rfl

theorem bodies_classGenerics (o : Outline) (name : String) (generics : Option NodeId) :
    (o.classGenerics t name generics).worklist.bodies = o.worklist.bodies := by
  unfold classGenerics
  split
  · refine bodies_foldl (fun o param => ?_) _ o
    split
    · exact bodies_genericParam o param
    · rfl
  · rfl

theorem bodies_docClass (o : Outline) (tag : NodeId) (kind : ClassKind) (name : NodeId)
    (generics : Option NodeId) (supers : List NodeId) (body : Option NodeId) :
    (o.docClass t tag kind name generics supers body).worklist.bodies = o.worklist.bodies := by
  unfold docClass
  dsimp only
  rw [bodies_classGenerics, bodies_foldl (fun _ _ => by rfl),
    bodies_foldl (fun o field => bodies_docField o _ field),
    bodies_foldl fun o tag => bodies_classTag o _ tag]
  rfl

theorem bodies_docEnum (o : Outline) (name : NodeId) (base : Option NodeId)
    (fields : List NodeId) : (o.docEnum t name base fields).worklist.bodies = o.worklist.bodies := by
  refine (bodies_foldl (fun o field => ?_) fields _).trans ?_
  · rfl
  · rfl

theorem bodies_occurrence (o : Outline) (id : NodeId) :
    (o.occurrence t id).worklist.bodies = o.worklist.bodies := by
  unfold occurrence
  split
  · rfl
  · split <;> rfl
  · rfl
  · rfl

/-! ## The walk -/

theorem bodies_closure (o : Outline) (id : NodeId) (names : List NodeId) (body : Option NodeId) :
    (o.closure config t id names body).worklist.bodies =
      o.worklist.bodies ++ if config.inferReturns && body.isSome then [some id] else [] := by
  unfold closure
  dsimp only
  split
  · refine (Worklist.bodies_push _ _).trans ?_
    show (declareParams t (declareParamTags t _ _) _ names).worklist.bodies ++ _ = _
    rw [bodies_declareParams, bodies_foldl fun o param => bodies_genericParam o param]
    rfl
  · show (declareParams t (declareParamTags t _ _) _ names).worklist.bodies = _
    rw [bodies_declareParams, bodies_foldl fun o param => bodies_genericParam o param,
      List.append_nil]

/-- A node posts the task of its own body, and of no other. -/
theorem bodies_declareAt (o : Outline) (w : NodeId) :
    (o.declareAt config t w).worklist.bodies =
      o.worklist.bodies ++ (t.bodyAt? config w).toList := by
  -- Only a whole text and a closure have bodies.
  have hnone {o' : Outline} (hsame : o'.worklist.bodies = o.worklist.bodies)
      (hbody : t.bodyAt? config w = none) :
      o'.worklist.bodies = o.worklist.bodies ++ (t.bodyAt? config w).toList := by
    rw [hsame, hbody, Option.toList_none, List.append_nil]
  have hother {n : Node NodeId} (hw : t.node? w = some n)
      (hsource : ∀ body, n ≠ .source (some body))
      (hclosure : ∀ params body, n ≠ .closureExpr params (some body)) :
      t.bodyAt? config w = none := by
    unfold SyntaxTree.bodyAt?
    rw [hw]
    split
    · split
      · next body heq => exact absurd (Option.some.inj heq) (hsource body)
      · next params body heq => exact absurd (Option.some.inj heq) (hclosure params body)
      · rfl
    · rfl
  have hoccurrence : (if config.indexNameExprs then o.occurrence t w else o).worklist.bodies =
      o.worklist.bodies := by
    split
    · exact bodies_occurrence o w
    · rfl
  unfold declareAt
  split
  · next body hw =>
    unfold SyntaxTree.bodyAt?
    rw [hw]
    split
    · exact Worklist.bodies_push _ _
    · exact (List.append_nil _).symm
  · next hw => exact hnone (bodies_localStat o w _ _) (hother hw nofun nofun)
  · next hw => exact hnone (bodies_assignStat o w _ _) (hother hw nofun nofun)
  · next hw => exact hnone (bodies_funcStat o _ _) (hother hw nofun nofun)
  · next hw => exact hnone rfl (hother hw nofun nofun)
  · next hw => exact hnone (bodies_declareParams o _ _) (hother hw nofun nofun)
  · next hw => exact hnone rfl (hother hw nofun nofun)
  · next hw => exact hnone (bodies_tableField o w _ _) (hother hw nofun nofun)
  · next params body hw =>
    rw [bodies_closure]
    unfold SyntaxTree.bodyAt?
    rw [hw]
    cases config.inferReturns <;> cases body <;> rfl
  · next hw => exact hnone (bodies_docClass o w _ _ _ _ _) (hother hw nofun nofun)
  · next hw => exact hnone (bodies_docEnum o _ _ _) (hother hw nofun nofun)
  · next hw => exact hnone rfl (hother hw nofun nofun)
  · next hw =>
    exact hnone (bodies_foldl (fun o field => bodies_docField o _ field) _ o)
      (hother hw nofun nofun)
  · next hw => exact hnone hoccurrence (hother hw nofun nofun)
  · next hw => exact hnone hoccurrence (hother hw nofun nofun)
  · next hw => exact hnone hoccurrence (hother hw nofun nofun)
  · next hsource _ _ _ _ _ _ _ hclosure _ _ _ _ _ _ _ =>
    -- Nodes of all other forms post nothing and have no body.
    refine hnone rfl ?_
    cases hw : t.node? w with
    | none =>
      unfold SyntaxTree.bodyAt?
      rw [hw]
      split <;> rfl
    | some n =>
      refine hother hw (fun body heq => ?_) fun params body heq => ?_
      · exact hsource body (heq ▸ hw)
      · exact hclosure params (some body) (heq ▸ hw)

/-- The walk through a tree posts the tasks of bodies in its own order. -/
theorem bodies_outline (config : Config) (h : t.Proper) :
    (t.outline config).worklist.bodies = (t.below t.root).filterMap (t.bodyAt? config) := by
  refine outline_induction
    (P := fun seen o => o.worklist.bodies = seen.filterMap (t.bodyAt? config)) h
    (fun seen o x _ _ ho => ?_) (fun seen o x _ ho => ?_) rfl
  · have hbodies : (o.enter config t x).worklist.bodies =
        o.worklist.bodies ++ (t.bodyAt? config x).toList := by
      unfold enter
      dsimp only
      split
      · exact bodies_declareAt (o.enterScope t x _) x
      · exact bodies_declareAt o x
    rw [hbodies, ho, List.filterMap_append, List.append_cancel_left_eq]
    cases hbody : t.bodyAt? config x with
    | none => simp [hbody]
    | some body => simp [hbody]
  · unfold leave
    split
    · exact ho
    · exact ho

end Outline

/-- Only the root of a tree is the whole text. -/
theorem SyntaxTree.eq_root_of_source {t : SyntaxTree} (h : t.Proper) {x : NodeId}
    {body : Option NodeId} (hn : t.node? x = some (.source body)) (hx : x ∈ t.below t.root) :
    x = t.root := by
  rw [below_eq h, List.mem_cons, List.mem_flatMap] at hx
  refine hx.resolve_right ?_
  rintro ⟨c, hc, hx⟩
  -- A node below the root has a parent, and no place asks for a whole text.
  have hunder := (mem_below h).1 hx
  obtain ⟨parent, hparent⟩ : ∃ parent, x ∈ t.children parent := by
    cases hunder.cases_head with
    | inl heq => exact ⟨t.root, heq ▸ hc⟩
    | inr hstep => exact ⟨_, hstep.choose_spec.1⟩
  obtain ⟨n, hn', hpart | ⟨stats, -, stat, -, hcomment⟩⟩ := mem_children hparent
  · obtain ⟨sort, -, m, hm, hadmits⟩ := h.is_of_part hn' hpart
    obtain rfl := Option.some.inj (hn.symm.trans hm)
    cases sort <;> cases hadmits
  · obtain ⟨tags, htags⟩ := h.comments hcomment
    rw [hn] at htags
    cases htags

/-- No body has two tasks. -/
theorem Outline.nodup_bodies (config : Config) {t : SyntaxTree} (h : t.Proper) :
    (t.outline config).worklist.bodies.Nodup := by
  rw [bodies_outline config h]
  have hbody {x : NodeId} {body : Option NodeId} (hx : t.bodyAt? config x = some body) :
      body = some x ∨ body = none ∧ ∃ block, t.node? x = some (.source block) := by
    unfold SyntaxTree.bodyAt? at hx
    split at hx
    · split at hx
      · next block hn => exact .inr ⟨(Option.some.inj hx).symm, _, hn⟩
      · exact .inl (Option.some.inj hx).symm
      · cases hx
    · cases hx
  have hnodup := SyntaxTree.nodup_below h t.root
  unfold List.Nodup at *
  rw [List.pairwise_filterMap]
  refine hnodup.imp_of_mem fun {x y} hx hy hne body hbx body' hby heq => hne ?_
  subst heq
  rcases hbody hbx with rfl | ⟨rfl, block, hn⟩
  · rcases hbody hby with heq | ⟨heq, -⟩
    · exact Option.some.inj heq
    · cases heq
  · rcases hbody hby with heq | ⟨-, block', hn'⟩
    · cases heq
    · rw [SyntaxTree.eq_root_of_source h hn hx, SyntaxTree.eq_root_of_source h hn' hy]

/-- Two tasks of one body stand in one place. -/
theorem Worklist.body_unique {w : Worklist} (h : w.bodies.Nodup) {a b : Nat} {task task' : Task}
    {body : Option NodeId} (ha : w.get? a = some task) (hb : w.get? b = some task')
    (hbody : task.body? = some body) (hbody' : task'.body? = some body) : a = b := by
  unfold bodies List.Nodup at h
  rw [List.pairwise_filterMap] at h
  exact place_eq_of_pairwise h (Option.join_eq_some_iff.1 ha) (Option.join_eq_some_iff.1 hb)
    (fun hne => hne body hbody body hbody' rfl) fun hne => hne body hbody' body hbody rfl

end LuaAnalysis
