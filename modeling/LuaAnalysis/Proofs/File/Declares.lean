import LuaAnalysis.Proofs.File.OutlineWalk

/-!
# What a node makes

`Declares` lists the declarations that a node may make, `Contributes` what it may add to the entries
of its file, and `Makes` says that an outline comes from another by such steps. The declarations
that are referred to by their names alone are made for parts of the node, each part once.

Main statement: `makes_declareAt`.
-/

namespace LuaAnalysis

/-- Whether a declaration is referred to by its name alone: a value or a type. -/
def DeclKind.isNamed : DeclKind → Bool
  | .namedType _ => true
  | kind => kind.isValue

theorem DeclKind.isNamed_of_isValue {kind : DeclKind} (h : kind.isValue = true) :
    kind.isNamed = true := by
  cases kind <;> first | exact h | rfl

/-- Whether a declaration is a global. -/
def DeclKind.isGlobal : DeclKind → Bool
  | .global | .method .global _ => true
  | _ => false

/-- Whether a declaration may be a member of an owner. -/
def DeclKind.isMember : DeclKind → Bool
  | .docField | .enumField | .tableField | .index | .method .field _ => true
  | _ => false

theorem DeclKind.isMember_of_isAssignedField {kind : DeclKind} (h : kind.isAssignedField = true) :
    kind.isMember = true := by
  cases kind with
  | method feature => cases feature <;> first | rfl | cases h
  | _ => first | rfl | cases h

theorem DeclKind.not_isNamed_of_isMember {kind : DeclKind} (h : kind.isMember = true) :
    kind.isNamed = false := by
  cases kind with
  | method feature => cases feature <;> first | rfl | cases h
  | _ => first | rfl | cases h

/-- Whether a node is a name or a name expression. -/
def SyntaxTree.isName (t : SyntaxTree) (id : NodeId) : Bool :=
  match t.node? id with
  | some (.name _) | some (.nameExpr _) => true
  | _ => false

/-- The parts of a node that may be the names of declarations: the names that it binds, the globals
that it assigns and the type that it defines. -/
def SyntaxTree.namesAt (t : SyntaxTree) (w : NodeId) : List NodeId :=
  match t.node? w with
  | some (.localStat names _) => names
  | some (.assignStat targets _) => targets.filter t.isName
  | some (.funcStat (some target) (some _)) => [target].filter t.isName
  | some (.forStat (some var) _ _) => [var]
  | some (.forRangeStat names _ _) => names
  | some (.closureExpr params _) => params
  | some (.docClass _ (some name) _ _ _) => [name]
  | some (.docEnum (some name) _ _) => [name]
  | some (.docAlias (some name) (some _)) => [name]
  | _ => []

/-- Whether a node gives values to names that may be declared elsewhere. -/
def SyntaxTree.assigns (t : SyntaxTree) (w : NodeId) : Bool :=
  match t.node? w with
  | some (.assignStat _ _) => true
  | some (.funcStat (some target) _) => (t.nameText? target).isNone
  | _ => false

/-- The places where a node may declare members: the targets that it assigns, itself if it is a field
of a table, or the fields of the type that it defines or is. -/
def SyntaxTree.memberSites (t : SyntaxTree) (w : NodeId) : List NodeId :=
  match t.node? w with
  | some (.assignStat targets _) => targets
  | some (.funcStat (some target) (some _)) => [target]
  | some (.tableField _ _) => [w]
  | some (.docClass _ (some _) _ _ body) => t.followingTags w ++ Outline.bodyFields t body
  | some (.docEnum (some _) _ fields) => fields
  | some (.docTableType fields) => fields
  | _ => []

/-- The owner whose members a node declares: the type that it defines, or the table constructor or
table type that they are written in. -/
def SyntaxTree.ownerAt? (t : SyntaxTree) (w : NodeId) : Option Owner :=
  match t.node? w with
  | some (.tableField _ _) => (t.parent? w).map fun table => .anonymous (t.syntaxId table)
  | some (.docClass _ (some name) _ _ _) => some (.named (t.nameText name))
  | some (.docEnum (some name) _ _) => some (.named (t.nameText name))
  | some (.docTableType _) => some (.anonymous (t.syntaxId w))
  | _ => none

/-- Whether an expression is part of a statement that the tags above it define a type by. -/
def SyntaxTree.Defines (t : SyntaxTree) (expr : NodeId) (name : String) : Prop :=
  ∃ stat, expr ∈ t.children stat ∧ t.definedType? stat = some name

/-- The name that is the key of a field. -/
def FieldKey.token? {α : Type} : FieldKey α → Option α
  | .name token => some token
  | _ => none

/-- The declarations that a node may make, each with its name where that is another node. -/
inductive Declares (t : SyntaxTree) (w : NodeId) : Declaration → Option NodeId → Prop where
  | localVar {names exprs : List NodeId} {x : NodeId}
      (hw : t.node? w = some (.localStat names exprs)) (hx : x ∈ names) (written : Option Ty) :
      Declares t w ⟨t.nameText x, .localVar, x, t.loc x, written⟩ none
  | global {targets exprs : List NodeId} {x : NodeId} {name : String}
      (hw : t.node? w = some (.assignStat targets exprs)) (hx : x ∈ targets)
      (hname : t.node? x = some (.nameExpr name)) (written : Option Ty) :
      Declares t w ⟨name, .global, x, t.loc x, written⟩ none
  | index {targets exprs : List NodeId} {x key : NodeId} {base : Option NodeId} {colon : Bool}
      {name : String} (hw : t.node? w = some (.assignStat targets exprs)) (hx : x ∈ targets)
      (hindex : t.node? x = some (.indexExpr base (some key) colon))
      (hname : t.keyText? key = some name) (written : Option Ty) :
      Declares t w ⟨name, .index, x, t.loc key, written⟩ (some key)
  | localFunction {x closure : NodeId} {name : String}
      (hw : t.node? w = some (.funcStat (some x) (some closure)))
      (hname : t.node? x = some (.name name)) :
      Declares t w ⟨name, .method .lexical closure, x, t.loc x, none⟩ none
  | globalFunction {x closure : NodeId} {name : String}
      (hw : t.node? w = some (.funcStat (some x) (some closure)))
      (hname : t.node? x = some (.nameExpr name)) :
      Declares t w ⟨name, .method .global closure, x, t.loc x, none⟩ none
  | fieldFunction {x closure key : NodeId} {base : Option NodeId} {colon : Bool} {name : String}
      (hw : t.node? w = some (.funcStat (some x) (some closure)))
      (hindex : t.node? x = some (.indexExpr base (some key) colon))
      (hname : t.keyText? key = some name) :
      Declares t w ⟨name, .method .field closure, x, t.loc key, none⟩ (some key)
  | counter {x : NodeId} {exprs : List NodeId} {body : Option NodeId}
      (hw : t.node? w = some (.forStat (some x) exprs body)) (written : Option Ty) :
      Declares t w ⟨t.nameText x, .parameter, x, t.loc x, written⟩ none
  | loopName {names exprs : List NodeId} {body : Option NodeId} {x : NodeId}
      (hw : t.node? w = some (.forRangeStat names exprs body)) (hx : x ∈ names)
      (written : Option Ty) :
      Declares t w ⟨t.nameText x, .parameter, x, t.loc x, written⟩ none
  | parameter {params : List NodeId} {body : Option NodeId} {x : NodeId}
      (hw : t.node? w = some (.closureExpr params body)) (hx : x ∈ params) (written : Option Ty) :
      Declares t w ⟨t.nameText x, .parameter, x, t.loc x, written⟩ none
  | docParameter {tag x type : NodeId} {nullable : Bool}
      (htag : t.node? tag = some (.docParam (some x) (some type) nullable)) (written : Option Ty) :
      Declares t w ⟨t.nameText x, .docParameter, x, t.loc x, written⟩ none
  | label {x : NodeId} (hw : t.node? w = some (.labelStat (some x))) :
      Declares t w { name := t.nameText x, kind := .label, node := w, loc := t.loc x } (some x)
  | genericParameter {param x : NodeId} {bound : Option NodeId}
      (hparam : t.node? param = some (.docGenericParam (some x) bound)) (written : Option Ty) :
      Declares t w ⟨t.nameText x, .genericParameter, param, t.loc x, written⟩ (some x)
  | tableField {key value : Option NodeId} {x table : NodeId} {name : String}
      (hw : t.node? w = some (.tableField key value)) (hx : key = some x)
      (hname : t.keyText? x = some name) (htable : t.parent? w = some table) :
      Declares t w { name, kind := .tableField, node := w, loc := t.loc x } (some x)
  | namedType {x : NodeId} (hw : t.isDefinition w = true) (hx : x ∈ t.namesAt w)
      (category : TypeCategory) (written : Option Ty) :
      Declares t w ⟨t.nameText x, .namedType category, x, t.loc x, written⟩ none
  | enumField {name : NodeId} {base : Option NodeId} {fields : List NodeId} {x : NodeId}
      (hw : t.node? w = some (.docEnum (some name) base fields)) (hx : x ∈ fields) (written : Option Ty) :
      Declares t w ⟨t.nameText x, .enumField, x, t.loc x, written⟩ none
  | docField {field : NodeId} {key : FieldKey NodeId} {type : Option NodeId} {nullable : Bool}
      (hfield : t.node? field = some (.docField (some key) type nullable))
      (hsite : field ∈ t.memberSites w) (name : String) (written : Option Ty) :
      Declares t w ⟨name, .docField, field, t.loc (key.token?.getD field), written⟩ key.token?

section
variable {t : SyntaxTree} {w : NodeId} {d : Declaration} {token : Option NodeId}

theorem SyntaxTree.isName_of_nameExpr {x : NodeId} {name : String}
    (h : t.node? x = some (.nameExpr name)) : t.isName x = true := by
  rw [isName, h]

theorem SyntaxTree.isName_of_name {x : NodeId} {name : String}
    (h : t.node? x = some (.name name)) : t.isName x = true := by
  rw [isName, h]

theorem SyntaxTree.part_of_namesAt {x : NodeId} (hx : x ∈ t.namesAt w) :
    ∃ n, t.node? w = some n ∧ x ∈ n.children := by
  unfold namesAt at hx
  split at hx
  · next hw => exact ⟨_, hw, List.mem_append_left _ hx⟩
  · next hw => exact ⟨_, hw, List.mem_append_left _ (List.mem_filter.1 hx).1⟩
  · next hw => exact ⟨_, hw, List.mem_append_left _ (List.mem_filter.1 hx).1⟩
  · next hw => exact ⟨_, hw, List.mem_append_left _ (List.mem_append_left _ hx)⟩
  · next hw => exact ⟨_, hw, List.mem_append_left _ (List.mem_append_left _ hx)⟩
  · next hw => exact ⟨_, hw, List.mem_append_left _ hx⟩
  · next hw =>
    exact ⟨_, hw, List.mem_append_left _ (List.mem_append_left _ (List.mem_append_left _ hx))⟩
  · next hw => exact ⟨_, hw, List.mem_append_left _ (List.mem_append_left _ hx)⟩
  · next hw => exact ⟨_, hw, List.mem_append_left _ hx⟩
  · cases hx

/-- A declaration that is referred to by name is made for a name of the node. -/
theorem Declares.named (h : Declares t w d token) (hnamed : d.kind.isNamed = true) :
    d.node ∈ t.namesAt w ∧ token = none ∧ d.loc = t.loc d.node := by
  cases h with
  | localVar hw hx => exact ⟨by rwa [SyntaxTree.namesAt, hw], rfl, rfl⟩
  | global hw hx hname =>
    refine ⟨?_, rfl, rfl⟩
    rw [SyntaxTree.namesAt, hw]
    exact List.mem_filter.2 ⟨hx, SyntaxTree.isName_of_nameExpr hname⟩
  | localFunction hw hname =>
    refine ⟨?_, rfl, rfl⟩
    rw [SyntaxTree.namesAt, hw]
    exact List.mem_filter.2 ⟨List.mem_cons_self, SyntaxTree.isName_of_name hname⟩
  | globalFunction hw hname =>
    refine ⟨?_, rfl, rfl⟩
    rw [SyntaxTree.namesAt, hw]
    exact List.mem_filter.2 ⟨List.mem_cons_self, SyntaxTree.isName_of_nameExpr hname⟩
  | counter hw =>
    refine ⟨?_, rfl, rfl⟩
    rw [SyntaxTree.namesAt, hw]
    exact List.mem_cons_self
  | loopName hw hx => exact ⟨by rwa [SyntaxTree.namesAt, hw], rfl, rfl⟩
  | parameter hw hx => exact ⟨by rwa [SyntaxTree.namesAt, hw], rfl, rfl⟩
  | namedType hw hx => exact ⟨hx, rfl, rfl⟩
  | index | fieldFunction | docParameter | label | genericParameter | tableField | enumField
  | docField => cases hnamed

/-- Unless a node assigns, its value declarations have the names that their nodes write. -/
theorem Declares.name_eq (h : Declares t w d token) (hvalue : d.kind.isValue = true)
    (hassigns : t.assigns w = false) : d.name = t.nameText d.node := by
  cases h with
  | localVar | counter | loopName | parameter => rfl
  | global hw hx hname =>
    rw [SyntaxTree.assigns, hw] at hassigns
    cases hassigns
  | localFunction hw hname =>
    rw [SyntaxTree.nameText, SyntaxTree.nameText?, hname]
    rfl
  | globalFunction hw hname =>
    rw [SyntaxTree.assigns, hw] at hassigns
    simp [SyntaxTree.nameText?, hname] at hassigns
  | index | fieldFunction | docParameter | label | genericParameter | tableField | enumField
  | docField | namedType => cases hvalue

/-- A declaration by name that is no value is that of a type. -/
theorem Declares.definition (h : Declares t w d token) (hnamed : d.kind.isNamed = true)
    (hvalue : d.kind.isValue = false) : t.isDefinition w = true := by
  cases h with
  | namedType hw => exact hw
  | localVar | global | localFunction | globalFunction | counter | loopName | parameter =>
    cases hvalue
  | index | fieldFunction | docParameter | label | genericParameter | tableField | enumField
  | docField => cases hnamed

end

/-- What a node may add to the entries of its file, when some declarations are made. -/
inductive Contributes (t : SyntaxTree) (w : NodeId) (decls : Array Declaration) :
    (Entries → Entries) → Prop where
  | global {name : String} {id : DeclId} {d : Declaration} (hd : decls[id]? = some d)
      (hname : d.name = name) (hkind : d.kind.isGlobal = true) :
      Contributes t w decls (·.addGlobal name id)
  | type {name : String} {id : DeclId} {category : TypeCategory} {d : Declaration}
      (hd : decls[id]? = some d) (hname : d.name = name) (hkind : d.kind = .namedType category) :
      Contributes t w decls (·.addType name id category)
  | member {owner : Owner} {id : DeclId} {d : Declaration} (hd : decls[id]? = some d)
      (hkind : d.kind.isMember = true) (hsite : d.node ∈ t.memberSites w)
      (howner : t.ownerAt? w = some owner) : Contributes t w decls (·.addMember owner id)
  | alias (name : String) (base : Ty) (id : DeclId) :
      Contributes t w decls (·.addAlias name base id)
  | super (name : String) (type : Ty) : Contributes t w decls (·.addSuper name type)
  | generic (name : String) (id : DeclId) : Contributes t w decls (·.addGeneric name id)
  | operator (owner : Owner) (overload : Overload) :
      Contributes t w decls (·.addOperator owner overload)
  | nameExpr {name : String} (hw : t.node? w = some (.nameExpr name)) :
      Contributes t w decls (·.addNameExpr name w)
  | indexExpr {field : String} (hw : t.fieldText? w = some field) :
      Contributes t w decls (·.addIndexExpr field w)
  | typeRef {name : String} (hw : t.node? w = some (.docNameType name)) :
      Contributes t w decls (·.addTypeRef name w)

/-- What a task is about, when some declarations are made: a declaration that is to be linked to an
owner is an assigned field, and a declaration that defines a type has it, with a value of the
statement that the type is defined above. -/
def Task.Concerns (t : SyntaxTree) (decls : Array Declaration) : Task → Prop
  | .declaration decl value todo definesType =>
    ∃ d, decls[decl]? = some d ∧
      (todo.owner = true → d.kind.isAssignedField = true ∧ d.kind.isField = false) ∧
      (definesType = true → ∃ name, d.written = some (.named name) ∧
        ∀ v ∈ value, t.Defines v.expr name)
  | .method _ | .source _ => True

namespace Outline

/-- `o'` comes from `o` by what the node `w` makes, the declarations in order. -/
inductive Makes (t : SyntaxTree) (w : NodeId) (o : Outline) :
    List (Declaration × Option NodeId) → Outline → Prop where
  | nothing : Makes t w o [] o
  | declare {made : List (Declaration × Option NodeId)} {o' : Outline} {d : Declaration}
      {token : Option NodeId} (h : Makes t w o made o') (hd : Declares t w d token) :
      Makes t w o (made ++ [(d, token)]) (o'.declare d token)
  | record {made : List (Declaration × Option NodeId)} {o' : Outline} {change : Entries → Entries}
      (h : Makes t w o made o') (hc : Contributes t w o'.decls change) :
      Makes t w o made (o'.record change)
  | schedule {made : List (Declaration × Option NodeId)} {o' : Outline} {task : Task}
      (h : Makes t w o made o') (htask : task.Concerns t o'.decls) :
      Makes t w o made (o'.schedule task)
  | method {made : List (Declaration × Option NodeId)} {o' : Outline} {m : Method}
      (h : Makes t w o made o') (hm : m.closure = w) :
      Makes t w o made { o' with methods := m :: o'.methods }

variable {t : SyntaxTree} {w : NodeId} {o o' o'' : Outline}
  {made made' : List (Declaration × Option NodeId)}

theorem Makes.trans (h : Makes t w o made o') (h' : Makes t w o' made' o'') :
    Makes t w o (made ++ made') o'' := by
  induction h' with
  | nothing => rwa [List.append_nil]
  | declare _ hd ih =>
    rw [← List.append_assoc]
    exact ih.declare hd
  | record _ hc ih => exact ih.record hc
  | schedule _ htask ih => exact ih.schedule htask
  | method _ hm ih => exact ih.method hm

theorem Makes.declares (h : Makes t w o made o') : ∀ e ∈ made, Declares t w e.1 e.2 := by
  induction h with
  | nothing => simp
  | declare _ hd ih => exact List.forall_mem_append.2 ⟨ih, by simpa using hd⟩
  | record _ _ ih => exact ih
  | schedule _ _ ih => exact ih
  | method _ _ ih => exact ih

theorem Makes.decls_eq (h : Makes t w o made o') :
    o'.decls = o.decls ++ (made.map Prod.fst).toArray := by
  induction h with
  | nothing => simp
  | declare _ _ ih => simp [Outline.declare, ih]
  | record _ _ ih => exact ih
  | schedule _ _ ih => exact ih
  | method _ _ ih => exact ih

/-- The parts for which declarations were made that are referred to by name. -/
def namedNodes (made : List (Declaration × Option NodeId)) : List NodeId :=
  (made.filter fun e => e.1.kind.isNamed).map (·.1.node)

theorem namedNodes_append (made made' : List (Declaration × Option NodeId)) :
    namedNodes (made ++ made') = namedNodes made ++ namedNodes made' := by
  simp [namedNodes]

/-- A step for each of some things makes what the steps make one after the other. -/
theorem makes_foldl {α : Type} {step : Outline → α → Outline} {named : α → List NodeId}
    {R : List NodeId → List NodeId → Prop} (nil : R [] [])
    (append : ∀ {a a' b b'}, R a b → R a' b' → R (a ++ a') (b ++ b')) (xs : List α) (o : Outline)
    (h : ∀ x ∈ xs, ∀ o, ∃ made, Makes t w o made (step o x) ∧ R (namedNodes made) (named x)) :
    ∃ made, Makes t w o made (xs.foldl step o) ∧ R (namedNodes made) (xs.flatMap named) := by
  induction xs generalizing o with
  | nil => exact ⟨[], .nothing, nil⟩
  | cons x xs ih =>
    obtain ⟨made, hmade, hnamed⟩ := h x List.mem_cons_self o
    obtain ⟨rest, hrest, hnamed'⟩ := ih (step o x) fun y hy => h y (List.mem_cons_of_mem _ hy)
    refine ⟨made ++ rest, hmade.trans hrest, ?_⟩
    rw [namedNodes_append, List.flatMap_cons]
    exact append hnamed hnamed'

/-- Steps that make exactly the named declarations of some nodes. -/
theorem makes_foldl_eq {α : Type} {step : Outline → α → Outline} {named : α → List NodeId}
    (xs : List α) (o : Outline)
    (h : ∀ x ∈ xs, ∀ o, ∃ made, Makes t w o made (step o x) ∧ namedNodes made = named x) :
    ∃ made, Makes t w o made (xs.foldl step o) ∧ namedNodes made = xs.flatMap named :=
  makes_foldl rfl (fun h h' => by rw [h, h']) xs o h

/-- Steps that make no named declaration. -/
theorem makes_foldl_nil {α : Type} {step : Outline → α → Outline} (xs : List α) (o : Outline)
    (h : ∀ x ∈ xs, ∀ o, ∃ made, Makes t w o made (step o x) ∧ namedNodes made = []) :
    ∃ made, Makes t w o made (xs.foldl step o) ∧ namedNodes made = [] := by
  obtain ⟨made, hmade, hnamed⟩ := makes_foldl_eq xs o h
  exact ⟨made, hmade, by rw [hnamed]; simp⟩

theorem makes_declare {d : Declaration} {token : Option NodeId} (hd : Declares t w d token)
    (o : Outline) : Makes t w o [(d, token)] (o.declare d token) :=
  Makes.nothing.declare hd

theorem flatMap_fst_zipIdx (xs : List NodeId) :
    xs.zipIdx.flatMap (fun e => [e.1]) = xs := by
  rw [← List.map_eq_flatMap]
  exact List.zipIdx_map_fst 0 xs

/-! ## Statements -/

theorem expr_mem_of_valueAt {exprs : List NodeId} {i : Nat} {v : ValueRef}
    (hv : v ∈ valueAt exprs i) : v.expr ∈ exprs := by
  unfold valueAt at hv
  split at hv
  · next e he =>
    obtain rfl := Option.some.inj hv
    exact List.mem_of_getElem? he
  · obtain ⟨e, he, rfl⟩ := Option.map_eq_some_iff.1 hv
    exact List.mem_of_getLast? he

/-- A target that is said to define a type has that type, and its value is part of the statement. -/
theorem defines_typeAt {n : Node NodeId} {exprs : List NodeId} {i : Nat}
    (hw : t.node? w = some n) (hexprs : ∀ e ∈ exprs, e ∈ n.children)
    (h : (typeAt (t.taggedTypes w) (t.definedType? w) i).2 = true) :
    ∃ name, (typeAt (t.taggedTypes w) (t.definedType? w) i).1 = some (.named name) ∧
      ∀ v ∈ valueAt exprs i, t.Defines v.expr name := by
  unfold typeAt at *
  split at h
  · next name hdefined =>
    refine ⟨name, rfl, fun v hv => ⟨w, ?_, hdefined⟩⟩
    exact SyntaxTree.part_mem_children hw (hexprs _ (expr_mem_of_valueAt hv))
  · cases h

theorem makes_localStat {names exprs : List NodeId}
    (hw : t.node? w = some (.localStat names exprs)) (o : Outline) :
    ∃ made, Makes t w o made (o.localStat t w names exprs) ∧ namedNodes made = names := by
  have hsteps : ∃ made, Makes t w o made (o.localStat t w names exprs) ∧
      namedNodes made = names.zipIdx.flatMap fun e => [e.1] := by
    -- One declaration for each name; the task that comes with it makes none.
    refine makes_foldl_eq names.zipIdx o fun (x, i) he o => ?_
    have hx : x ∈ names := List.fst_mem_of_mem_zipIdx he
    refine ⟨_, (makes_declare (.localVar hw hx _) o).schedule ?_, rfl⟩
    exact ⟨_, Array.getElem?_push_size, by simp,
      defines_typeAt hw (fun e he => List.mem_append_right _ he)⟩
  rwa [flatMap_fst_zipIdx] at hsteps

/-- Whether a declaration is the global that a name introduces when it is found nowhere. -/
def Introduces (t : SyntaxTree) (o : Outline) (x : NodeId) (d : Declaration) : Prop :=
  d.kind.isGlobal = true ∧ t.node? x = some (.nameExpr d.name) ∧ o.find? t x d.name = none

/-- A target that is a name becomes a global or is left alone. -/
theorem makes_assignTarget {targets exprs : List NodeId} {x : NodeId}
    (hw : t.node? w = some (.assignStat targets exprs)) (hx : x ∈ targets) (o : Outline)
    {value : Option ValueRef} {written : Option Ty} {definesType : Bool}
    (hdefines : definesType = true →
      ∃ name, written = some (.named name) ∧ ∀ v ∈ value, t.Defines v.expr name) :
    ∃ made, Makes t w o made (o.assignTarget t x value written definesType) ∧
      (namedNodes made).Sublist ([x].filter t.isName) ∧
      (∀ e ∈ made, e.1.kind.isValue = true → o.Introduces t x e.1) := by
  unfold assignTarget
  split
  · next name hname =>
    have hisName : t.isName x = true := by rw [SyntaxTree.isName, hname]
    split
    · exact ⟨_, .nothing, List.nil_sublist _, by simp⟩
    · next hfree =>
      have hd := makes_declare (.global hw hx hname written) o
      refine ⟨_, (hd.record (.global Array.getElem?_push_size rfl rfl)).schedule
        ⟨_, Array.getElem?_push_size, by simp, hdefines⟩, ?_, ?_⟩
      · simp [namedNodes, DeclKind.isNamed, DeclKind.isValue, hisName]
      · rintro e he -
        obtain rfl := List.mem_singleton.1 he
        exact ⟨rfl, hname, by simpa using hfree⟩
  · next key _ hindex =>
    split
    · next name hname =>
      have hd := makes_declare (.index hw hx hindex hname written) o
      refine ⟨_, hd.schedule ⟨_, Array.getElem?_push_size, fun _ => ⟨rfl, rfl⟩, hdefines⟩, ?_, ?_⟩
      · simp [namedNodes, DeclKind.isNamed, DeclKind.isValue]
      · simp [DeclKind.isValue]
    · exact ⟨_, .nothing, List.nil_sublist _, by simp⟩
  · exact ⟨_, .nothing, List.nil_sublist _, by simp⟩

theorem makes_assignStat {targets exprs : List NodeId}
    (hw : t.node? w = some (.assignStat targets exprs)) (o : Outline) :
    ∃ made, Makes t w o made (o.assignStat t w targets exprs) ∧
      (namedNodes made).Sublist (targets.filter t.isName) := by
  have hsteps : ∃ made, Makes t w o made (o.assignStat t w targets exprs) ∧
      (namedNodes made).Sublist (targets.zipIdx.flatMap fun e => [e.1].filter t.isName) := by
    refine makes_foldl List.Sublist.slnil List.Sublist.append targets.zipIdx o fun (x, i) he o => ?_
    obtain ⟨made, hmade, hnamed, -⟩ := makes_assignTarget hw (List.fst_mem_of_mem_zipIdx he) o
      (defines_typeAt (i := i) hw fun e he => List.mem_append_right _ he)
    exact ⟨made, hmade, hnamed⟩
  rwa [← List.filter_flatMap, flatMap_fst_zipIdx] at hsteps

theorem makes_funcStat {x closure : NodeId}
    (hw : t.node? w = some (.funcStat (some x) (some closure))) (o : Outline) :
    ∃ made, Makes t w o made (o.funcStat t x closure) ∧
      (namedNodes made).Sublist ([x].filter t.isName) ∧
      ((∃ text, t.node? x = some (.name text)) → namedNodes made = [x]) ∧
      (t.nameText? x = none → ∀ e ∈ made, e.1.kind.isValue = true → o.Introduces t x e.1) := by
  unfold funcStat
  dsimp only
  split
  · next name hname =>
    have hisName : t.isName x = true := by rw [SyntaxTree.isName, hname]
    have hd := makes_declare (.localFunction hw hname) o
    refine ⟨_, hd.schedule ⟨_, Array.getElem?_push_size, by simp⟩, ?_⟩
    simp [namedNodes, DeclKind.isNamed, DeclKind.isValue, hisName, SyntaxTree.nameText?, hname]
  · next name hname =>
    have hisName : t.isName x = true := by rw [SyntaxTree.isName, hname]
    split
    · exact ⟨_, .nothing, List.nil_sublist _, by simp [hname], by simp⟩
    · next hfree =>
      have hd := makes_declare (.globalFunction hw hname) o
      refine ⟨_, (hd.record (.global Array.getElem?_push_size rfl rfl)).schedule
        ⟨_, Array.getElem?_push_size, by simp⟩, ?_, ?_, ?_⟩
      · simp [namedNodes, DeclKind.isNamed, DeclKind.isValue, hisName]
      · simp [hname]
      · rintro - e he -
        obtain rfl := List.mem_singleton.1 he
        exact ⟨rfl, hname, by simpa using hfree⟩
  · next key _ hindex =>
    split
    · next name hname =>
      have hd := makes_declare (.fieldFunction hw hindex hname) o
      refine ⟨_, hd.schedule ⟨_, Array.getElem?_push_size, fun _ => ⟨rfl, rfl⟩, by simp⟩, ?_⟩
      simp [namedNodes, DeclKind.isNamed, DeclKind.isValue, hindex]
    · exact ⟨_, .nothing, List.nil_sublist _, by simp [hindex], by simp⟩
  · next hname _ _ =>
    exact ⟨_, .nothing, List.nil_sublist _, fun ⟨_, h⟩ => (hname _ h).elim, by simp⟩

theorem makes_declareParamTags (tags : List NodeId) (o : Outline) :
    ∃ made, Makes t w o made (o.declareParamTags t (paramTags t tags)) ∧ namedNodes made = [] := by
  unfold declareParamTags
  refine makes_foldl_nil _ o fun (x, type) hx o => ?_
  obtain ⟨tag, -, htag⟩ := List.mem_filterMap.1 hx
  split at htag
  · next name type nullable htag' =>
    obtain ⟨rfl, rfl⟩ := Prod.mk.inj (Option.some.inj htag)
    exact ⟨_, makes_declare (.docParameter htag' _) o, rfl⟩
  · cases htag

theorem makes_declareParams {names : List NodeId} (params : List (NodeId × Ty))
    (hnames : ∀ x ∈ names, ∀ written,
      Declares t w ⟨t.nameText x, .parameter, x, t.loc x, written⟩ none) (o : Outline) :
    ∃ made, Makes t w o made (o.declareParams t params names) ∧ namedNodes made = names := by
  have hsteps : ∃ made, Makes t w o made (o.declareParams t params names) ∧
      namedNodes made = names.flatMap fun x => [x] := by
    refine makes_foldl_eq names o fun x hx o => ?_
    exact ⟨_, makes_declare (hnames x hx _) o, rfl⟩
  rwa [List.flatMap_singleton'] at hsteps

theorem makes_forRangeStat {names exprs : List NodeId} {body : Option NodeId}
    (hw : t.node? w = some (.forRangeStat names exprs body)) (o : Outline) :
    ∃ made, Makes t w o made (o.forRangeStat t w names) ∧ namedNodes made = names := by
  obtain ⟨docs, hdocs, hnone⟩ := makes_declareParamTags (t := t) (w := w) (t.tags w) o
  obtain ⟨made, hmade, hnames⟩ := makes_declareParams (w := w) (paramTags t (t.tags w))
    (fun x hx written => .loopName hw hx written) (o.declareParamTags t (paramTags t (t.tags w)))
  exact ⟨_, hdocs.trans hmade, by rw [namedNodes_append, hnone, hnames, List.nil_append]⟩

theorem makes_genericParam (param : NodeId) (o : Outline) :
    ∃ made, Makes t w o made (o.genericParam t param) ∧ namedNodes made = [] := by
  unfold genericParam
  split
  · next hparam => exact ⟨_, makes_declare (.genericParameter hparam _) o, rfl⟩
  · exact ⟨_, .nothing, rfl⟩

theorem makes_closure {params : List NodeId} {body : Option NodeId} (config : Config)
    (hw : t.node? w = some (.closureExpr params body)) (o : Outline) :
    ∃ made, Makes t w o made (o.closure config t w params body) ∧ namedNodes made = params := by
  let tags := ((t.enclosingStat? w).map t.tags).getD []
  obtain ⟨generics, hgenerics, hnone⟩ := makes_foldl_nil (t := t) (w := w) (genericParams t tags) o
    fun param _ o => makes_genericParam param o
  obtain ⟨docs, hdocs, hnone'⟩ := makes_declareParamTags (t := t) (w := w) tags
    ((genericParams t tags).foldl (fun o param => o.genericParam t param) o)
  obtain ⟨made, hmade, hnames⟩ := makes_declareParams (w := w) (paramTags t tags)
    (fun x hx written => .parameter hw hx written)
    (((genericParams t tags).foldl (fun o param => o.genericParam t param) o).declareParamTags t
      (paramTags t tags))
  have hall := (hgenerics.trans hdocs).trans hmade
  have hnamed : namedNodes ((generics ++ docs) ++ made) = params := by
    rw [namedNodes_append, namedNodes_append, hnone, hnone', hnames]
    rfl
  unfold closure
  dsimp only
  split
  · exact ⟨_, (hall.method rfl).schedule trivial, hnamed⟩
  · exact ⟨_, hall.method rfl, hnamed⟩

theorem makes_tableField {key value : Option NodeId}
    (hw : t.node? w = some (.tableField key value)) (o : Outline) :
    ∃ made, Makes t w o made (o.tableField t w key value) ∧ namedNodes made = [] := by
  unfold tableField
  split
  · next table htable =>
    split
    · next name hname =>
      have hd := makes_declare (.tableField hw rfl hname htable) o
      have hsite : w ∈ t.memberSites w := by
        rw [SyntaxTree.memberSites, hw]
        exact List.mem_cons_self
      have howner : t.ownerAt? w = some (.anonymous (t.syntaxId table)) := by
        simp only [SyntaxTree.ownerAt?, hw, htable, Option.map_some]
      exact ⟨_, (hd.record (.member Array.getElem?_push_size rfl hsite howner)).schedule
        ⟨_, Array.getElem?_push_size, by simp⟩, rfl⟩
    · exact ⟨_, .nothing, rfl⟩
  · exact ⟨_, .nothing, rfl⟩

/-! ## Definitions of types -/

theorem makes_namedType {x : NodeId} (category : TypeCategory) (hw : t.isDefinition w = true)
    (hx : x ∈ t.namesAt w) (o : Outline) :
    ∃ made, Makes t w o made (o.namedType t x category) ∧ namedNodes made = [x] := by
  have hd := makes_declare (.namedType hw hx category (some (.named (t.nameText x)))) o
  exact ⟨_, hd.record (.type Array.getElem?_push_size rfl rfl), rfl⟩

theorem makes_docField {owner : Owner} {field : NodeId} (hsite : field ∈ t.memberSites w)
    (howner : t.ownerAt? w = some owner) (o : Outline) :
    ∃ made, Makes t w o made (o.docField t owner field) ∧ namedNodes made = [] := by
  unfold docField
  split
  · next key type nullable hfield =>
    dsimp only
    split
    · refine ⟨_, (makes_declare (.docField hfield hsite _ _) o).record ?_, rfl⟩
      exact .member Array.getElem?_push_size rfl hsite howner
    · refine ⟨_, (makes_declare (.docField hfield hsite _ _) o).record ?_, rfl⟩
      exact .member Array.getElem?_push_size rfl hsite howner
    · exact ⟨_, Makes.nothing.record (.operator _ _), rfl⟩
  · exact ⟨_, .nothing, rfl⟩

theorem makes_operator (owner : Owner) (tag : NodeId) (o : Outline) :
    ∃ made, Makes t w o made (o.operator t owner tag) ∧ namedNodes made = [] := by
  unfold operator
  split
  · split
    · exact ⟨_, Makes.nothing.record (.operator _ _), rfl⟩
    · exact ⟨_, .nothing, rfl⟩
  · exact ⟨_, .nothing, rfl⟩

theorem makes_classTag {owner : Owner} {tag : NodeId} (hsite : tag ∈ t.memberSites w)
    (howner : t.ownerAt? w = some owner) (o : Outline) :
    ∃ made, Makes t w o made (o.classTag t owner tag) ∧ namedNodes made = [] := by
  unfold classTag
  split
  · exact makes_docField hsite howner o
  · exact makes_operator owner tag o
  · exact ⟨_, .nothing, rfl⟩

theorem makes_classGenerics (name : String) (generics : Option NodeId) (o : Outline) :
    ∃ made, Makes t w o made (o.classGenerics t name generics) ∧ namedNodes made = [] := by
  unfold classGenerics
  split
  · refine makes_foldl_nil _ o fun param _ o => ?_
    split
    · obtain ⟨made, hmade, hnone⟩ := makes_genericParam (t := t) (w := w) param o
      exact ⟨made, hmade.record (.generic _ _), hnone⟩
    · exact ⟨_, .nothing, rfl⟩
  · exact ⟨_, .nothing, rfl⟩

theorem makes_docClass {kind : ClassKind} {name : NodeId} {generics : Option NodeId}
    {supers : List NodeId} {body : Option NodeId}
    (hw : t.node? w = some (.docClass kind (some name) generics supers body)) (o : Outline) :
    ∃ made, Makes t w o made (o.docClass t w kind name generics supers body) ∧
      namedNodes made = [name] := by
  have hdefinition : t.isDefinition w = true := by rw [SyntaxTree.isDefinition, hw]
  have hname : name ∈ t.namesAt w := by simp [SyntaxTree.namesAt, hw]
  have howner : t.ownerAt? w = some (.named (t.nameText name)) := by rw [SyntaxTree.ownerAt?, hw]
  have hsites : t.memberSites w = t.followingTags w ++ bodyFields t body := by
    rw [SyntaxTree.memberSites, hw]
  unfold docClass
  dsimp only
  obtain ⟨made₁, h₁, hnamed₁⟩ := makes_namedType _ hdefinition hname o
  obtain ⟨made₂, h₂, hnamed₂⟩ := makes_foldl_nil (t := t) (w := w) (t.followingTags w) _
    fun tag htag o => makes_classTag (hsites ▸ List.mem_append_left _ htag) howner o
  obtain ⟨made₃, h₃, hnamed₃⟩ := makes_foldl_nil (t := t) (w := w) (bodyFields t body) _
    fun field hfield o => makes_docField (hsites ▸ List.mem_append_right _ hfield) howner o
  obtain ⟨made₄, h₄, hnamed₄⟩ := makes_foldl_nil (t := t) (w := w) supers _
    fun super _ o => ⟨_, Makes.nothing.record (.super (t.nameText name) (t.annotatedType super)), rfl⟩
  obtain ⟨made₅, h₅, hnamed₅⟩ := makes_classGenerics (t := t) (w := w) (t.nameText name) generics _
  refine ⟨_, (((h₁.trans h₂).trans h₃).trans h₄).trans h₅, ?_⟩
  simp only [namedNodes_append, hnamed₁, hnamed₂, hnamed₃, hnamed₄, hnamed₅, List.append_nil]

theorem makes_docEnum {name : NodeId} {base : Option NodeId} {fields : List NodeId}
    (hw : t.node? w = some (.docEnum (some name) base fields)) (o : Outline) :
    ∃ made, Makes t w o made (o.docEnum t name base fields) ∧ namedNodes made = [name] := by
  have hdefinition : t.isDefinition w = true := by rw [SyntaxTree.isDefinition, hw]
  have hname : name ∈ t.namesAt w := by simp [SyntaxTree.namesAt, hw]
  have howner : t.ownerAt? w = some (.named (t.nameText name)) := by rw [SyntaxTree.ownerAt?, hw]
  have hsites : t.memberSites w = fields := by rw [SyntaxTree.memberSites, hw]
  obtain ⟨made, hmade, hnamed⟩ := makes_namedType .enumType hdefinition hname o
  have hfields : ∃ rest, Makes t w (o.namedType t name .enumType) rest
      (o.docEnum t name base fields) ∧ namedNodes rest = [] := by
    refine makes_foldl_nil fields _ fun field hfield o => ?_
    refine ⟨_, (makes_declare (.enumField hw hfield _) o).record ?_, rfl⟩
    exact .member Array.getElem?_push_size rfl (hsites ▸ hfield) howner
  obtain ⟨rest, hrest, hnone⟩ := hfields
  refine ⟨_, hmade.trans hrest, ?_⟩
  rw [namedNodes_append, hnamed, hnone, List.append_nil]

theorem makes_docAlias {name type : NodeId}
    (hw : t.node? w = some (.docAlias (some name) (some type))) (o : Outline) :
    ∃ made, Makes t w o made (o.docAlias t name type) ∧ namedNodes made = [name] := by
  have hdefinition : t.isDefinition w = true := by rw [SyntaxTree.isDefinition, hw]
  have hname : name ∈ t.namesAt w := by simp [SyntaxTree.namesAt, hw]
  obtain ⟨made, hmade, hnamed⟩ := makes_namedType .aliasType hdefinition hname o
  exact ⟨made, hmade.record (.alias _ _ _), hnamed⟩

/-! ## Entering a node -/

theorem makes_occurrence (o : Outline) :
    ∃ made, Makes t w o made (o.occurrence t w) ∧ namedNodes made = [] := by
  unfold occurrence
  split
  · next hname => exact ⟨_, Makes.nothing.record (.nameExpr hname), rfl⟩
  · split
    · next hfield => exact ⟨_, Makes.nothing.record (.indexExpr hfield), rfl⟩
    · exact ⟨_, .nothing, rfl⟩
  · next hname => exact ⟨_, Makes.nothing.record (.typeRef hname), rfl⟩
  · exact ⟨_, .nothing, rfl⟩

/-- Every node makes its named declarations for its own names, each once, and for all of them unless
it assigns to names. -/
theorem makes_declareAt (config : Config) (o : Outline) :
    ∃ made, Makes t w o made (o.declareAt config t w) ∧
      (namedNodes made).Sublist (t.namesAt w) ∧
      (t.assigns w = false → namedNodes made = t.namesAt w) := by
  have hexact {o' : Outline} {names : List NodeId} (hnames : t.namesAt w = names)
      (h : ∃ made, Makes t w o made o' ∧ namedNodes made = names) :
      ∃ made, Makes t w o made o' ∧ (namedNodes made).Sublist (t.namesAt w) ∧
        (t.assigns w = false → namedNodes made = t.namesAt w) := by
    obtain ⟨made, hmade, hnamed⟩ := h
    refine ⟨made, hmade, ?_, fun _ => ?_⟩
    · rw [hnames, hnamed]
    · rw [hnames, hnamed]
  unfold declareAt
  split
  · next hw =>
    refine hexact (by rw [SyntaxTree.namesAt, hw]) ?_
    split
    · exact ⟨_, Makes.nothing.schedule trivial, rfl⟩
    · exact ⟨_, .nothing, rfl⟩
  · next hw => exact hexact (by rw [SyntaxTree.namesAt, hw]) (makes_localStat hw o)
  · next hw =>
    obtain ⟨made, hmade, hsublist⟩ := makes_assignStat hw o
    refine ⟨made, hmade, ?_, fun hassigns => ?_⟩
    · rwa [SyntaxTree.namesAt, hw]
    · rw [SyntaxTree.assigns, hw] at hassigns
      cases hassigns
  · next target closure hw =>
    obtain ⟨made, hmade, hsublist, hname, -⟩ := makes_funcStat hw o
    refine ⟨made, hmade, ?_, fun hassigns => ?_⟩
    · rwa [SyntaxTree.namesAt, hw]
    · rw [SyntaxTree.assigns, hw] at hassigns
      cases hnode : t.node? target with
      | none => simp [SyntaxTree.nameText?, hnode] at hassigns
      | some n =>
        cases n
        case name text =>
          rw [hname ⟨text, hnode⟩]
          simp [SyntaxTree.namesAt, hw, SyntaxTree.isName, hnode]
        all_goals simp [SyntaxTree.nameText?, hnode] at hassigns
  · next var exprs body hw =>
    have hvar : t.namesAt w = [var] := by rw [SyntaxTree.namesAt, hw]
    refine hexact hvar ?_
    exact ⟨_, makes_declare (.counter hw _) o, rfl⟩
  · next hw => exact hexact (by rw [SyntaxTree.namesAt, hw]) (makes_forRangeStat hw o)
  · next hw =>
    refine hexact (by rw [SyntaxTree.namesAt, hw]) ?_
    exact ⟨_, makes_declare (.label hw) o, rfl⟩
  · next hw => exact hexact (by rw [SyntaxTree.namesAt, hw]) (makes_tableField hw o)
  · next hw => exact hexact (by rw [SyntaxTree.namesAt, hw]) (makes_closure config hw o)
  · next name _ _ _ hw =>
    have hname : t.namesAt w = [name] := by rw [SyntaxTree.namesAt, hw]
    exact hexact hname (makes_docClass hw o)
  · next name _ _ hw =>
    have hname : t.namesAt w = [name] := by rw [SyntaxTree.namesAt, hw]
    exact hexact hname (makes_docEnum hw o)
  · next name _ hw =>
    have hname : t.namesAt w = [name] := by rw [SyntaxTree.namesAt, hw]
    exact hexact hname (makes_docAlias hw o)
  · next fields hw =>
    refine hexact (by rw [SyntaxTree.namesAt, hw]) ?_
    have howner : t.ownerAt? w = some (.anonymous (t.syntaxId w)) := by
      rw [SyntaxTree.ownerAt?, hw]
    have hsites : t.memberSites w = fields := by rw [SyntaxTree.memberSites, hw]
    exact makes_foldl_nil fields o fun field hfield o =>
      makes_docField (hsites ▸ hfield) howner o
  · next hw =>
    refine hexact (by rw [SyntaxTree.namesAt, hw]) ?_
    split
    · exact makes_occurrence o
    · exact ⟨_, .nothing, rfl⟩
  · next hw =>
    refine hexact (by rw [SyntaxTree.namesAt, hw]) ?_
    split
    · exact makes_occurrence o
    · exact ⟨_, .nothing, rfl⟩
  · next hw =>
    refine hexact (by rw [SyntaxTree.namesAt, hw]) ?_
    split
    · exact makes_occurrence o
    · exact ⟨_, .nothing, rfl⟩
  · -- Nodes of all other forms have no names of their own.
    refine ⟨[], .nothing, List.nil_sublist _, fun _ => ?_⟩
    unfold SyntaxTree.namesAt
    clear hexact
    split <;> first | rfl | grind

end Outline

end LuaAnalysis
