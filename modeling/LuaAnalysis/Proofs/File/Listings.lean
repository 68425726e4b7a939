import LuaAnalysis.Proofs.File.Anchors

/-!
# What a file lists

The globals, types, members and aliases in the entries of a file are its declarations of these
kinds, no more and no less, and the occurrences are the nodes of its tree. Whatever makes such a
declaration enters it in its list at once (`Outline.Listed.declareWith`), so the two grow together;
the occurrences are entered by the nodes themselves.

Main statements: `Outline.agree`, `SyntaxTree.entries_agree`.
-/

namespace LuaAnalysis

variable {t : SyntaxTree} {config : Config}

/-- Whether a declaration is a field that is made together with its owner. A field that is assigned
becomes a member later. -/
def DeclKind.isOwned : DeclKind → Bool
  | .docField | .enumField | .tableField => true
  | _ => false

/-- The category of the type that a declaration defines, if it defines one. -/
def DeclKind.category? : DeclKind → Option TypeCategory
  | .namedType category => some category
  | _ => none

/-! ## Lists of declarations -/

section
variable {β : Type} {decls : Array Declaration} {item? other? : DeclId → Declaration → Option β}

/-- The entries that declarations have, in the order in which the declarations are made. -/
def listing (decls : Array Declaration) (item? : DeclId → Declaration → Option β) : List β :=
  decls.toList.zipIdx.filterMap fun (d, i) => item? i d

theorem listing_push (decls : Array Declaration) (d : Declaration)
    (item? : DeclId → Declaration → Option β) :
    listing (decls.push d) item? = listing decls item? ++ (item? decls.size d).toList := by
  unfold listing
  rw [Array.toList_push, List.zipIdx_append, List.filterMap_append]
  cases h : item? decls.size d <;> simp [h]

theorem mem_listing {b : β} :
    b ∈ listing decls item? ↔ ∃ i d, decls[i]? = some d ∧ item? i d = some b := by
  simp only [listing, List.mem_filterMap, Prod.exists, List.mk_mem_zipIdx_iff_getElem?,
    Array.getElem?_toList]
  exact exists_comm

theorem listing_congr (h : ∀ {i : DeclId} {d : Declaration}, decls[i]? = some d →
    item? i d = other? i d) : listing decls item? = listing decls other? := by
  refine List.filterMap_congr fun (d, i) hmem => h ?_
  rw [List.mk_mem_zipIdx_iff_getElem?, Array.getElem?_toList] at hmem
  exact hmem

end

/-- A global is listed under its own name. -/
def listedGlobal? (name : String) (i : DeclId) (d : Declaration) : Option DeclId :=
  if d.kind.isGlobal ∧ d.name = name then some i else none

/-- A type is listed under its own name, with its own category. -/
def listedType? (name : String) (i : DeclId) (d : Declaration) : Option (DeclId × TypeCategory) :=
  if d.name = name then d.kind.category?.map fun category => (i, category) else none

/-- A field is listed under the owner that is given for it. -/
def listedMember? (home : DeclId → Owner) (owner : Owner) (i : DeclId) (d : Declaration) :
    Option DeclId :=
  if d.kind.isOwned ∧ home i = owner then some i else none

/-- The type that the alias with a name stands for. -/
def SyntaxTree.aliasedType (t : SyntaxTree) (name : NodeId) : Ty :=
  match (t.parent? name).bind t.node? with
  | some (.docAlias _ (some type)) => t.annotatedType type
  | _ => .unknown

/-- An alias is listed under its own name, with the type that it stands for. -/
def listedAlias? (t : SyntaxTree) (name : String) (i : DeclId) (d : Declaration) :
    Option (Ty × DeclId) :=
  if d.kind = .namedType .aliasType ∧ d.name = name then some (t.aliasedType d.node, i) else none

/-- The nodes of some that are entered where they satisfy a predicate, if occurrences are asked
for. -/
def occurrencesAmong (config : Config) (nodes : List NodeId) (p : NodeId → Bool) : List NodeId :=
  if config.indexNameExprs then nodes.filter p else []

/-- Whether a node is an index expression that selects a field by a key of that name. -/
def SyntaxTree.selects (t : SyntaxTree) (field : String) (id : NodeId) : Bool :=
  match t.node? id with
  | some (.indexExpr ..) => t.fieldText? id = some field
  | _ => false

/-- The lists of globals, types, members and aliases are what the declarations of a file make of
them, and the generic parameters of types are declared as such. -/
structure Entries.ListsDecls (t : SyntaxTree) (decls : Array Declaration) (e : Entries) : Prop where
  globals : ∀ name, e.globals.values name = listing decls (listedGlobal? name)
  types : ∀ name, e.types.values name = listing decls (listedType? name)
  members : ∃ home : DeclId → Owner, ∀ owner,
    e.members.values owner = listing decls (listedMember? home owner)
  aliases : ∀ name, e.aliases.values name = listing decls (listedAlias? t name)
  generics : ∀ name, ∀ i ∈ e.generics.values name,
    ∃ d, decls[i]? = some d ∧ d.kind = .genericParameter

/-- The entries of a file agree with its declarations, and with the nodes that have been seen. -/
structure Entries.Agree (t : SyntaxTree) (config : Config) (seen : List NodeId)
    (decls : Array Declaration) (e : Entries) : Prop extends Entries.ListsDecls t decls e where
  nameExprs : ∀ name, e.nameExprs.values name =
    occurrencesAmong config seen fun id => t.node? id = some (.nameExpr name)
  indexExprs : ∀ field, e.indexExprs.values field = occurrencesAmong config seen (t.selects field)
  typeRefs : ∀ name, e.typeRefs.values name =
    occurrencesAmong config seen fun id => t.node? id = some (.docNameType name)

theorem Grouped.values_add_eq_append {κ α : Type} [DecidableEq κ] (g : Grouped κ α) (k k' : κ)
    (a : α) : (g.add k a).values k' = g.values k' ++ (if k = k' then some a else none).toList := by
  rw [Grouped.values_add]
  by_cases h : k = k'
  · simp [h]
  · simp [h, Ne.symm h]

namespace Outline

/-- The declarations are listed, and the occurrences are those of the entries `e`. -/
structure Listed (t : SyntaxTree) (e : Entries) (o : Outline) : Prop extends
    Entries.ListsDecls t o.decls o.entries where
  nameExprs : o.entries.nameExprs = e.nameExprs
  indexExprs : o.entries.indexExprs = e.indexExprs
  typeRefs : o.entries.typeRefs = e.typeRefs

variable {e : Entries} {o : Outline}

/-! ## One declaration -/

/-- What is declared stays declared. -/
theorem Listed.generics_push (h : Listed t e o) (d : Declaration) (name : String) :
    ∀ i ∈ o.entries.generics.values name,
      ∃ d', (o.decls.push d)[i]? = some d' ∧ d'.kind = .genericParameter := by
  intro i hi
  obtain ⟨d', hd', hkind⟩ := h.generics name i hi
  have hlt : i < o.decls.size := (Array.getElem?_eq_some_iff.1 hd').1
  exact ⟨d', by rw [Array.getElem?_push, if_neg (Nat.ne_of_lt hlt), hd'], hkind⟩

/-- A declaration is made and entered in the lists that it belongs to; a field has an owner. -/
theorem Listed.declareWith (h : Listed t e o) {d : Declaration} (token : Option NodeId)
    (owner : Owner) {change : Entries → Entries}
    (hglobals : ∀ name, (change o.entries).globals.values name =
      o.entries.globals.values name ++ (listedGlobal? name o.nextDecl d).toList)
    (htypes : ∀ name, (change o.entries).types.values name =
      o.entries.types.values name ++ (listedType? name o.nextDecl d).toList)
    (hmembers : (change o.entries).members =
      if d.kind.isOwned then o.entries.members.addNew owner o.nextDecl else o.entries.members)
    (haliases : ∀ name, (change o.entries).aliases.values name =
      o.entries.aliases.values name ++ (listedAlias? t name o.nextDecl d).toList)
    (hgenerics : (change o.entries).generics = o.entries.generics)
    (hnames : (change o.entries).nameExprs = o.entries.nameExprs)
    (hindexes : (change o.entries).indexExprs = o.entries.indexExprs)
    (hrefs : (change o.entries).typeRefs = o.entries.typeRefs) :
    Listed t e ((o.declare d token).record change) := by
  obtain ⟨home, hhome⟩ := h.members
  -- The declaration is new, so no owner has it yet and it has no place among the others.
  have hfresh : o.nextDecl ∉ o.entries.members.values owner := fun hmem => by
    rw [hhome, mem_listing] at hmem
    obtain ⟨i, d', hd', hitem⟩ := hmem
    unfold listedMember? at hitem
    split at hitem
    · obtain rfl := Option.some.inj hitem
      exact Nat.lt_irrefl _ (Array.getElem?_eq_some_iff.1 hd').1
    · cases hitem
  let home' : DeclId → Owner := fun i => if i = o.nextDecl then owner else home i
  have hsame (owner' : Owner) : listing o.decls (listedMember? home owner') =
      listing o.decls (listedMember? home' owner') :=
    listing_congr fun {i d'} hd' => by
      have hne : i ≠ o.nextDecl := Nat.ne_of_lt (Array.getElem?_eq_some_iff.1 hd').1
      simp only [listedMember?, home', if_neg hne]
  refine ⟨⟨fun name => ?_, fun name => ?_, ⟨home', fun owner' => ?_⟩, fun name => ?_,
    fun name => ?_⟩, hnames.trans h.nameExprs, hindexes.trans h.indexExprs,
    hrefs.trans h.typeRefs⟩
  · exact (hglobals name).trans (by rw [h.globals]; exact (listing_push ..).symm)
  · exact (htypes name).trans (by rw [h.types]; exact (listing_push ..).symm)
  · show (change o.entries).members.values owner' =
      listing (o.decls.push d) (listedMember? home' owner')
    rw [hmembers, listing_push, ← hsame, ← hhome]
    split
    · next hmember =>
      rw [Grouped.addNew, if_neg hfresh, Grouped.values_add_eq_append]
      simp [listedMember?, home', hmember, nextDecl]
    · next hother => simp [listedMember?, hother]
  · exact (haliases name).trans (by rw [h.aliases]; exact (listing_push ..).symm)
  · show ∀ i ∈ (change o.entries).generics.values name, _
    rw [hgenerics]
    exact h.generics_push d name

/-- A declaration that belongs to no list. -/
theorem Listed.declare (h : Listed t e o) {d : Declaration} (hglobal : d.kind.isGlobal = false)
    (htype : d.kind.category? = none) (hmember : d.kind.isOwned = false)
    (token : Option NodeId) : Listed t e (o.declare d token) := by
  have halias : d.kind ≠ .namedType .aliasType := fun heq => by
    rw [heq] at htype
    cases htype
  show Listed t e ((o.declare d token).record id)
  refine h.declareWith token (.named "") (fun name => ?_) (fun name => ?_) ?_ (fun name => ?_) rfl
    rfl rfl rfl
  · simp [listedGlobal?, hglobal]
  · simp [listedType?, htype]
  · simp [hmember]
  · simp [listedAlias?, halias]

theorem Listed.declareGlobal (h : Listed t e o) {d : Declaration}
    (hglobal : d.kind.isGlobal = true) (token : Option NodeId) :
    Listed t e ((o.declare d token).record (·.addGlobal d.name o.nextDecl)) := by
  -- A global belongs to no other list.
  have hothers : d.kind.category? = none ∧ d.kind.isOwned = false ∧
      d.kind ≠ .namedType .aliasType := by
    cases hkind : d.kind <;> simp_all [DeclKind.isGlobal, DeclKind.category?, DeclKind.isOwned]
  obtain ⟨htype, hmember, halias⟩ := hothers
  refine h.declareWith token (.named "") (fun name => ?_) (fun name => ?_) ?_ (fun name => ?_) rfl
    rfl rfl rfl
  · simp [Entries.addGlobal, Grouped.values_add_eq_append, listedGlobal?, hglobal]
  · simp [Entries.addGlobal, listedType?, htype]
  · simp [Entries.addGlobal, hmember]
  · simp [Entries.addGlobal, listedAlias?, halias]

/-- A field gets its owner, which is the only one it has. -/
theorem Listed.declareMember (h : Listed t e o) {d : Declaration}
    (hmember : d.kind.isOwned = true) (token : Option NodeId) (owner : Owner) :
    Listed t e ((o.declare d token).record (·.addMember owner o.nextDecl)) := by
  have hothers : d.kind.category? = none ∧ d.kind.isGlobal = false ∧
      d.kind ≠ .namedType .aliasType := by
    cases hkind : d.kind <;> simp_all [DeclKind.isGlobal, DeclKind.category?, DeclKind.isOwned]
  obtain ⟨htype, hglobal, halias⟩ := hothers
  refine h.declareWith token owner (fun name => ?_) (fun name => ?_) ?_ (fun name => ?_) rfl rfl rfl
    rfl
  · simp [Entries.addMember, listedGlobal?, hglobal]
  · simp [Entries.addMember, listedType?, htype]
  · simp [Entries.addMember, hmember]
  · simp [Entries.addMember, listedAlias?, halias]

/-! ## What concerns no list -/

theorem Listed.schedule (h : Listed t e o) (task : Task) : Listed t e (o.schedule task) :=
  ⟨h.toListsDecls, h.nameExprs, h.indexExprs, h.typeRefs⟩

/-- Supertypes and operators are no declarations. -/
theorem Listed.record (h : Listed t e o) {change : Entries → Entries}
    (hchange : ∃ supers operators, change o.entries = { o.entries with supers, operators }) :
    Listed t e (o.record change) := by
  obtain ⟨supers, operators, heq⟩ := hchange
  refine ⟨⟨?_, ?_, ?_, ?_, ?_⟩, ?_, ?_, ?_⟩ <;> rw [Outline.record, heq]
  · exact h.globals
  · exact h.types
  · exact h.members
  · exact h.aliases
  · exact h.generics
  · exact h.nameExprs
  · exact h.indexExprs
  · exact h.typeRefs

theorem Listed.foldl {α : Type} {step : Outline → α → Outline} (xs : List α)
    (hstep : ∀ {o} x, Listed t e o → Listed t e (step o x)) (h : Listed t e o) :
    Listed t e (xs.foldl step o) := by
  induction xs generalizing o with
  | nil => exact h
  | cons x xs ih => exact ih (hstep x h)

/-! ## Statements -/

theorem Listed.localStat (h : Listed t e o) (stat : NodeId) (names exprs : List NodeId) :
    Listed t e (o.localStat t stat names exprs) :=
  Listed.foldl _ (fun _ ho => (ho.declare rfl rfl rfl none).schedule _) h

theorem Listed.assignStat (h : Listed t e o) (stat : NodeId) (targets exprs : List NodeId) :
    Listed t e (o.assignStat t stat targets exprs) := by
  refine Listed.foldl _ (fun {o} x ho => ?_) h
  unfold assignTarget
  dsimp only
  split
  · split
    · exact ho
    · exact (ho.declareGlobal rfl none).schedule _
  · split
    · exact (ho.declare rfl rfl rfl _).schedule _
    · exact ho
  · exact ho

theorem Listed.funcStat (h : Listed t e o) (target closure : NodeId) :
    Listed t e (o.funcStat t target closure) := by
  unfold Outline.funcStat
  dsimp only
  split
  · exact (h.declare rfl rfl rfl none).schedule _
  · split
    · exact h
    · exact (h.declareGlobal rfl none).schedule _
  · split
    · exact (h.declare rfl rfl rfl _).schedule _
    · exact h
  · exact h

theorem Listed.declareParamTags (h : Listed t e o) (params : List (NodeId × Ty)) :
    Listed t e (o.declareParamTags t params) :=
  Listed.foldl _ (fun _ ho => ho.declare rfl rfl rfl none) h

theorem Listed.declareParams (h : Listed t e o) (params : List (NodeId × Ty))
    (names : List NodeId) : Listed t e (o.declareParams t params names) :=
  Listed.foldl _ (fun _ ho => ho.declare rfl rfl rfl none) h

/-! ## Closures and tables -/

theorem Listed.genericParam (h : Listed t e o) (param : NodeId) :
    Listed t e (o.genericParam t param) := by
  unfold Outline.genericParam
  split
  · exact h.declare rfl rfl rfl _
  · exact h

theorem Listed.closure (h : Listed t e o) (id : NodeId) (names : List NodeId)
    (body : Option NodeId) : Listed t e (o.closure config t id names body) := by
  have hmethod {o : Outline} (ho : Listed t e o) (m : Method) :
      Listed t e { o with methods := m :: o.methods } :=
    ⟨ho.toListsDecls, ho.nameExprs, ho.indexExprs, ho.typeRefs⟩
  unfold Outline.closure
  dsimp only
  generalize ((t.enclosingStat? id).map t.tags).getD [] = tags
  have hgenerics :
      Listed t e ((genericParams t tags).foldl (fun o param => o.genericParam t param) o) :=
    Listed.foldl _ (fun param ho => ho.genericParam param) h
  have hparams := (hgenerics.declareParamTags (paramTags t tags)).declareParams (paramTags t tags)
    names
  split
  · exact (hmethod hparams _).schedule _
  · exact hmethod hparams _

theorem Listed.tableField (h : Listed t e o) (field : NodeId) (key value : Option NodeId) :
    Listed t e (o.tableField t field key value) := by
  unfold Outline.tableField
  split
  · split
    · exact (h.declareMember rfl _ _).schedule _
    · exact h
  · exact h

/-! ## Definitions of types -/

/-- A type that is no alias. -/
theorem Listed.namedType (h : Listed t e o) (name : NodeId) {category : TypeCategory}
    (hcategory : category ≠ .aliasType) : Listed t e (o.namedType t name category) := by
  unfold Outline.namedType declareName
  refine h.declareWith none (.named "") (fun text => ?_) (fun text => ?_) ?_ (fun text => ?_) rfl
    rfl rfl rfl
  · simp [Entries.addType, listedGlobal?, DeclKind.isGlobal]
  · exact Grouped.values_add_eq_append ..
  · rfl
  · simp [Entries.addType, listedAlias?, hcategory]

theorem Listed.docAlias (ht : t.Proper) (h : Listed t e o) {w name type : NodeId}
    (hw : t.node? w = some (.docAlias (some name) (some type))) :
    Listed t e (o.docAlias t name type) := by
  have htype : t.aliasedType name = t.annotatedType type := by
    have hparent : t.parent? name = some w :=
      ht.parent?_eq.2 (SyntaxTree.part_mem_children hw (by simp [Node.children]))
    rw [SyntaxTree.aliasedType, hparent, Option.bind_some, hw]
  unfold Outline.docAlias Outline.namedType declareName
  -- The type and the alias are entered one after the other.
  show Listed t e ((o.declare _ none).record fun e =>
    (e.addType _ o.nextDecl .aliasType).addAlias _ (t.annotatedType type) o.nextDecl)
  refine h.declareWith none (.named "") (fun text => ?_) (fun text => ?_) ?_ (fun text => ?_) rfl
    rfl rfl rfl
  · simp [Entries.addType, Entries.addAlias, listedGlobal?, DeclKind.isGlobal]
  · exact Grouped.values_add_eq_append ..
  · rfl
  · simp [Entries.addType, Entries.addAlias, Grouped.values_add_eq_append, listedAlias?, htype]

theorem Listed.docField (h : Listed t e o) (owner : Owner) (field : NodeId) :
    Listed t e (o.docField t owner field) := by
  unfold Outline.docField
  split
  · dsimp only
    split
    · exact h.declareMember rfl _ owner
    · exact h.declareMember rfl _ owner
    · exact h.record ⟨_, _, rfl⟩
  · exact h

theorem Listed.classTag (h : Listed t e o) (owner : Owner) (tag : NodeId) :
    Listed t e (o.classTag t owner tag) := by
  unfold Outline.classTag
  split
  · exact h.docField owner tag
  · unfold operator
    split
    · split
      · exact h.record ⟨_, _, rfl⟩
      · exact h
    · exact h
  · exact h

theorem Listed.classGenerics (h : Listed t e o) (name : String) (generics : Option NodeId) :
    Listed t e (o.classGenerics t name generics) := by
  unfold Outline.classGenerics
  split
  · refine Listed.foldl _ (fun {o} param ho => ?_) h
    split
    · next hparam =>
      have hdeclared := ho.genericParam param
      refine ⟨⟨hdeclared.globals, hdeclared.types, hdeclared.members, hdeclared.aliases,
        fun owner i hi => ?_⟩, hdeclared.nameExprs, hdeclared.indexExprs, hdeclared.typeRefs⟩
      rcases Grouped.mem_values_add.1 hi with hi | ⟨-, rfl⟩
      · exact hdeclared.generics owner i hi
      · -- The parameter is the declaration that has just been made.
        rw [Outline.record, Outline.genericParam, hparam]
        exact ⟨_, Array.getElem?_push_size, rfl⟩
    · exact ho
  · exact h

theorem Listed.docClass (h : Listed t e o) (tag : NodeId) (kind : ClassKind) (name : NodeId)
    (generics : Option NodeId) (supers : List NodeId) (body : Option NodeId) :
    Listed t e (o.docClass t tag kind name generics supers body) := by
  unfold Outline.docClass
  dsimp only
  apply Listed.classGenerics
  apply Listed.foldl _ fun super ho => ho.record ⟨_, _, rfl⟩
  apply Listed.foldl _ fun field ho => ho.docField _ field
  apply Listed.foldl _ fun tag ho => ho.classTag _ tag
  exact h.namedType name (by cases kind <;> simp)

theorem Listed.docEnum (h : Listed t e o) (name : NodeId) (base : Option NodeId)
    (fields : List NodeId) : Listed t e (o.docEnum t name base fields) :=
  Listed.foldl _ (fun _ ho => ho.declareMember rfl none _) (h.namedType name (by simp))

/-! ## The walk -/

/-- Whether a node is of a kind that occurrences are. -/
def isOccurrence (t : SyntaxTree) (id : NodeId) : Bool :=
  match t.node? id with
  | some (.nameExpr _) | some (.indexExpr ..) | some (.docNameType _) => true
  | _ => false

/-- What a node declares is listed; occurrences come from expressions and type names only. -/
theorem Listed.declareAt (ht : t.Proper) (h : Listed t e o) {id : NodeId}
    (hid : isOccurrence t id = false) : Listed t e (o.declareAt config t id) := by
  unfold Outline.declareAt
  split
  · split
    · exact h.schedule _
    · exact h
  · exact h.localStat id _ _
  · exact h.assignStat id _ _
  · exact h.funcStat _ _
  · exact h.declare rfl rfl rfl none
  · exact (h.declareParamTags _).declareParams _ _
  · exact h.declare rfl rfl rfl _
  · exact h.tableField id _ _
  · exact h.closure id _ _
  · exact h.docClass id _ _ _ _ _
  · exact h.docEnum _ _ _
  · next hw => exact h.docAlias ht hw
  · exact Listed.foldl _ (fun field ho => ho.docField _ field) h
  · next hn => simp [isOccurrence, hn] at hid
  · next hn => simp [isOccurrence, hn] at hid
  · next hn => simp [isOccurrence, hn] at hid
  · exact h

/-! ## Occurrences -/

theorem occurrencesAmong_append (config : Config) (seen : List NodeId) (w : NodeId)
    (p : NodeId → Bool) : occurrencesAmong config (seen ++ [w]) p =
      occurrencesAmong config seen p ++
        (if config.indexNameExprs ∧ p w = true then some w else none).toList := by
  unfold occurrencesAmong
  cases config.indexNameExprs <;> cases hp : p w <;> simp [hp]

/-- A node adds an occurrence of the kind that it is, and no other. -/
theorem Agree.enter {seen : List NodeId} {w : NodeId} {decls decls' : Array Declaration}
    {e' : Entries} (h : e.Agree t config seen decls) (hlists : e'.ListsDecls t decls')
    (hnames : ∀ name, e'.nameExprs.values name = e.nameExprs.values name ++
      (if config.indexNameExprs ∧ t.node? w = some (.nameExpr name) then some w else none).toList)
    (hindexes : ∀ field, e'.indexExprs.values field = e.indexExprs.values field ++
      (if config.indexNameExprs ∧ t.selects field w then some w else none).toList)
    (htypes : ∀ name, e'.typeRefs.values name = e.typeRefs.values name ++
      (if config.indexNameExprs ∧ t.node? w = some (.docNameType name) then some w
        else none).toList) :
    e'.Agree t config (seen ++ [w]) decls' := by
  refine ⟨hlists, fun name => ?_, fun field => ?_, fun name => ?_⟩
  · rw [hnames, h.nameExprs, occurrencesAmong_append]
    simp
  · rw [hindexes, h.indexExprs, occurrencesAmong_append]
  · rw [htypes, h.typeRefs, occurrencesAmong_append]
    simp

theorem Agree.occurrence {seen : List NodeId} {w : NodeId}
    (h : o.entries.Agree t config seen o.decls) (hw : isOccurrence t w = true) :
    (o.declareAt config t w).entries.Agree t config (seen ++ [w])
      (o.declareAt config t w).decls := by
  have heq : o.declareAt config t w = if config.indexNameExprs then o.occurrence t w else o := by
    unfold isOccurrence at hw
    unfold declareAt
    split at hw
    · next hn => rw [hn]
    · next hn => rw [hn]
    · next hn => rw [hn]
    · cases hw
  rw [heq]
  split
  · next hindex =>
    unfold Outline.occurrence
    split
    · next name hn =>
      refine Agree.enter h ⟨h.globals, h.types, h.members, h.aliases, h.generics⟩ (fun name' => ?_)
        (fun field => ?_) (fun name' => ?_)
      · simp [record, Entries.addNameExpr, Grouped.values_add_eq_append, hindex, hn]
      · simp [record, Entries.addNameExpr, SyntaxTree.selects, hn]
      · simp [record, Entries.addNameExpr, hn]
    · next hn =>
      split
      · next field hfield =>
        refine Agree.enter h ⟨h.globals, h.types, h.members, h.aliases, h.generics⟩ (fun name => ?_)
          (fun field' => ?_) (fun name => ?_)
        · simp [record, Entries.addIndexExpr, hn]
        · simp [record, Entries.addIndexExpr, Grouped.values_add_eq_append, hindex,
            SyntaxTree.selects, hn, hfield]
        · simp [record, Entries.addIndexExpr, hn]
      · next hfield =>
        -- The key names no field.
        refine Agree.enter h h.toListsDecls (fun name => ?_) (fun field => ?_) (fun name => ?_)
        · simp [hn]
        · simp [SyntaxTree.selects, hn, hfield]
        · simp [hn]
    · next name hn =>
      refine Agree.enter h ⟨h.globals, h.types, h.members, h.aliases, h.generics⟩ (fun name' => ?_)
        (fun field => ?_) (fun name' => ?_)
      · simp [record, Entries.addTypeRef, hn]
      · simp [record, Entries.addTypeRef, SyntaxTree.selects, hn]
      · simp [record, Entries.addTypeRef, Grouped.values_add_eq_append, hindex, hn]
    · next hname hindexed htype =>
      exfalso
      unfold isOccurrence at hw
      split at hw
      · next hn => exact hname _ hn
      · next hn => exact hindexed _ _ _ hn
      · next hn => exact htype _ hn
      · cases hw
  · next hindex =>
    refine Agree.enter h h.toListsDecls (fun name => ?_) (fun field => ?_) (fun name => ?_) <;>
      simp [hindex]

theorem Agree.declareAt {seen : List NodeId} (ht : t.Proper)
    (h : o.entries.Agree t config seen o.decls) (w : NodeId) :
    (o.declareAt config t w).entries.Agree t config (seen ++ [w])
      (o.declareAt config t w).decls := by
  cases hw : isOccurrence t w with
  | true => exact Agree.occurrence h hw
  | false =>
    have hlisted : Listed t o.entries o := ⟨h.toListsDecls, rfl, rfl, rfl⟩
    have hlisted : Listed t o.entries (o.declareAt config t w) := hlisted.declareAt ht hw
    have hname (name : String) : t.node? w ≠ some (.nameExpr name) := fun hn => by
      simp [isOccurrence, hn] at hw
    have htype (name : String) : t.node? w ≠ some (.docNameType name) := fun hn => by
      simp [isOccurrence, hn] at hw
    have hselects (field : String) : t.selects field w = false := by
      unfold SyntaxTree.selects
      split
      · next hn => simp [isOccurrence, hn] at hw
      · rfl
    refine Agree.enter h hlisted.toListsDecls (fun name => ?_) (fun field => ?_) (fun name => ?_)
    · simp [hlisted.nameExprs, hname]
    · simp [hlisted.indexExprs, hselects]
    · simp [hlisted.typeRefs, htype]

/-- The entries agree with what the walk has made and seen. -/
theorem agree (config : Config) (h : t.Proper) :
    (t.outline config).entries.Agree t config (t.below t.root) (t.outline config).decls := by
  refine outline_induction (P := fun seen o => o.entries.Agree t config seen o.decls) h
    (fun seen o x _ _ ho => ?_) (fun seen o x _ ho => ?_) ?_
  · obtain ⟨o₁, made, hdecls, -, hentries, -, henter, -, -⟩ := makes_enter config t x o
    rw [henter]
    exact Agree.declareAt h (by rwa [hdecls, hentries]) x
  · obtain ⟨hdecls, -, hentries, -⟩ := leave_eq o x
    rwa [hdecls, hentries]
  · refine ⟨⟨fun _ => rfl, fun _ => rfl, ⟨fun _ => .named "", fun _ => rfl⟩, fun _ => rfl, ?_⟩, ?_,
      ?_, ?_⟩ <;> intro <;> simp [occurrencesAmong]

end Outline

/-- The entries that the analysis of a file makes are exactly its globals, types, fields and
aliases, each once and in order, and the occurrences in its tree, if they are asked for. -/
theorem SyntaxTree.entries_agree (h : t.Proper) (config : Config) (revision : Revision)
    (generation : Nat) :
    (t.analyse config revision generation).entries.Agree t config (t.below t.root)
      (t.analyse config revision generation).model.decls :=
  Outline.agree config h

/-- A class with a field and an alias of it, above `g = {y = z}` -/
def listedFile : SyntaxTree :=
  .ofSketch 0 (some (.block
    [.node (.comment [.classTag "P" [], .docField "x" "integer", .aliasTag "Q" "P"]),
      .node (.assignStat [.var "g"] [.node (.tableExpr [.entry (.name "y") (.var "z")])])]))

/-- Every list of the file has something in it; the two fields are under different owners. -/
theorem entries_agree_listedFile :
    let a := listedFile.analyse { indexNameExprs := true } 0 1
    a.entries.Agree listedFile { indexNameExprs := true } (listedFile.below listedFile.root)
        a.model.decls ∧
      a.entries.globals.values "g" = [3] ∧ a.entries.types.values "Q" = [(2, .aliasType)] ∧
      a.entries.members.groups.map Prod.snd = [[1], [4]] ∧
      a.entries.aliases.values "Q" = [(.named "P", 2)] ∧
      a.entries.typeRefs.keys = ["integer", "P"] ∧ a.entries.nameExprs.keys = ["g", "z"] := by
  refine ⟨SyntaxTree.entries_agree (SyntaxTree.proper_ofSketch 0 _ (by decide)) _ 0 1, ?_⟩
  decide +kernel

end LuaAnalysis
