import LuaAnalysis.Proofs.Project.NameReferences
import LuaAnalysis.Proofs.Project.OwnPlace

/-!
# The references of a field

A field that is annotated and a field of a table are one symbol when they have the same name and an
owner. A field has at most two owners, a table and the type that the table defines, and the fields of
one table have the same two. So to share an owner is transitive, and all fields of one symbol have
the same references.

Main statement: `references_of_one_field`.
-/

namespace LuaAnalysis

namespace ProjectIndex

variable {config : Config} {idx : ProjectIndex} {a b c : DeclRef}

/-- The owners of a declaration are those that have it as a member. -/
theorem Faithful.mem_ownersOf (h : idx.Faithful config) {owner : Owner} :
    owner ∈ idx.ownersOf a ↔ a ∈ idx.members owner := by
  unfold ownersOf members
  rw [mem_refs]
  constructor
  · intro howner
    split at howner
    · next f hfile =>
      obtain ⟨hf, hsource⟩ := (file?_eq_some h.sorted).1 hfile
      split at howner
      · next hgeneration =>
        refine ⟨f, hf, a.decl, (Grouped.mem_keysOf (h.files f hf).homed.keys).1 howner, ?_⟩
        rw [FileModel.ref, hgeneration, show f.model.source = a.source from hsource]
      · cases howner
    · cases howner
  · rintro ⟨f, hf, i, hi, rfl⟩
    have hfile : idx.file? (f.model.ref i).source = some f := (file?_eq_some h.sorted).2 ⟨hf, rfl⟩
    rw [hfile]
    dsimp only
    rw [if_pos (show f.model.generation = (f.model.ref i).generation from rfl)]
    exact (Grouped.mem_keysOf (h.files f hf).homed.keys).2 hi

/-- A live field with its declaration. -/
def Field (idx : ProjectIndex) (a : DeclRef) (d : Declaration) : Prop :=
  (∃ m, idx.decl? a = some (m, d)) ∧ d.kind.isField = true

theorem Field.unique {d d' : Declaration} (h : idx.Field a d) (h' : idx.Field a d') : d = d' := by
  obtain ⟨⟨m, hd⟩, -⟩ := h
  obtain ⟨⟨m', hd'⟩, -⟩ := h'
  exact (Prod.mk.inj (Option.some.inj (hd.symm.trans hd'))).2

/-- A field in the file that declares it. -/
theorem Faithful.field_mem (h : idx.Faithful config) {d : Declaration} {owner : Owner}
    (ha : idx.Field a d) (howner : a ∈ idx.members owner) :
    ∃ f ∈ idx.files, ∃ i, a = f.model.ref i ∧ f.model.decls[i]? = some d ∧
      i ∈ f.entries.members.values owner := by
  obtain ⟨f, hf, i, hi, rfl⟩ := mem_refs.1 howner
  obtain ⟨⟨m, hd⟩, -⟩ := ha
  rw [decl?_ref h.sorted hf] at hd
  obtain ⟨e, he, heq⟩ := Option.map_eq_some_iff.1 hd
  obtain ⟨rfl, rfl⟩ := Prod.mk.inj heq
  exact ⟨f, hf, i, rfl, he, hi⟩

/-- Two owners of a field are a table and the type that it defines. -/
theorem Faithful.owners_cases (h : idx.Faithful config) {d : Declaration} {o o' : Owner}
    (ha : idx.Field a d) (ho : a ∈ idx.members o) (ho' : a ∈ idx.members o') :
    o = o' ∨ (∃ id name, o = .anonymous id ∧ o' = .named name) ∨
      ∃ id name, o = .named name ∧ o' = .anonymous id := by
  obtain ⟨f, hf, i, rfl, hd, hi⟩ := h.field_mem ha ho
  obtain ⟨g, hg, j, href, hd', hj⟩ := h.field_mem ha ho'
  obtain rfl : f = g := h.sorted.unique hf hg (congrArg DeclRef.source href)
  obtain rfl : i = j := congrArg DeclRef.decl href
  have hhomed := (h.files f hf).homed
  exact (hhomed.home hi hd ha.2).cases (h.files f hf).proper (hhomed.home hj hd ha.2)

/-- The fields of one table are members of the same types. -/
theorem Faithful.together (h : idx.Faithful config) {d d' : Declaration} (ha : idx.Field a d)
    (hb : idx.Field b d') {table : SyntaxId} {name : String}
    (hatable : a ∈ idx.members (.anonymous table)) (hbtable : b ∈ idx.members (.anonymous table))
    (haname : a ∈ idx.members (.named name)) : b ∈ idx.members (.named name) := by
  obtain ⟨f, hf, i, rfl, hd, hi⟩ := h.field_mem ha hatable
  obtain ⟨g, hg, j, rfl, hd', hj⟩ := h.field_mem hb hbtable
  obtain ⟨f', hf', i', href, -, hi'⟩ := h.field_mem ha haname
  obtain rfl : f = f' := h.sorted.unique hf hf' (congrArg DeclRef.source href)
  obtain rfl : i = i' := congrArg DeclRef.decl href
  have hhomed := (h.files f hf).homed
  -- The table belongs to one file.
  obtain rfl : f = g := h.sorted.unique hf hg
    ((hhomed.home hi hd ha.2).source.symm.trans ((h.files g hg).homed.home hj hd' hb.2).source)
  exact mem_refs.2 ⟨f, hf, j, hhomed.together hd ha.2 hd' hb.2 hi hj hi', rfl⟩

/-- Whether two declarations are members of one owner. -/
def ShareOwner (idx : ProjectIndex) (a b : DeclRef) : Prop :=
  ∃ owner, a ∈ idx.members owner ∧ b ∈ idx.members owner

theorem ShareOwner.symm (h : idx.ShareOwner a b) : idx.ShareOwner b a := by
  obtain ⟨owner, ha, hb⟩ := h
  exact ⟨owner, hb, ha⟩

/-- Of the two owners of a field, every other field that has the table has the type as well. -/
theorem Faithful.shareOwner_trans (h : idx.Faithful config) {da db dc : Declaration}
    (ha : idx.Field a da) (hb : idx.Field b db) (hc : idx.Field c dc)
    (hab : idx.ShareOwner a b) (hbc : idx.ShareOwner b c) : idx.ShareOwner a c := by
  obtain ⟨o, hao, hbo⟩ := hab
  obtain ⟨o', hbo', hco'⟩ := hbc
  -- The field in the middle has the same owner twice, or a table with the type it defines.
  rcases h.owners_cases hb hbo hbo' with rfl | ⟨table, name, rfl, rfl⟩ | ⟨table, name, rfl, rfl⟩
  · exact ⟨o, hao, hco'⟩
  · exact ⟨.named name, h.together hb ha hbo hao hbo', hco'⟩
  · exact ⟨.named name, hao, h.together hb hc hbo' hco' hbo⟩

end ProjectIndex

namespace Project

variable {config : Config} {p : Project} {ref ref' s : DeclRef} {m : FileModel}
  {d d' sd : Declaration}

/-- Whether a field of some name is one symbol with a declaration. -/
structure OneSymbol (p : Project) (ref : DeclRef) (name : String) (s : DeclRef)
    (sd : Declaration) : Prop where
  field : p.index.Field s sd
  name : sd.name = name
  share : p.index.ShareOwner ref s

/-- What the search for siblings makes of a member. -/
def siblingStep (p : Project) (ref : DeclRef) (name : String)
    (found : List (DeclRef × Declaration)) (member : DeclRef) : List (DeclRef × Declaration) :=
  if member = ref ∨ member ∈ found.map Prod.fst then found
  else
    match p.index.decl? member with
    | some (_, s) => if s.kind.isField ∧ s.name = name then found ++ [(member, s)] else found
    | none => found

/-- A member is added if it is another field of the name that is not found yet. -/
theorem mem_siblingStep {name : String} {found : List (DeclRef × Declaration)} {member : DeclRef}
    (hfound : ∀ e ∈ found, p.index.Field e.1 e.2 ∧ e.2.name = name) :
    (s, sd) ∈ p.siblingStep ref name found member ↔
      (s, sd) ∈ found ∨ s = member ∧ s ≠ ref ∧ p.index.Field s sd ∧ sd.name = name := by
  unfold siblingStep
  split
  · next hskip =>
    -- The declaration itself is left out, and so is what is found already.
    refine (or_iff_left_of_imp ?_).symm
    rintro ⟨rfl, hne, hfield, -⟩
    rcases hskip with rfl | hskip
    · exact absurd rfl hne
    · obtain ⟨⟨s', sd'⟩, he, rfl⟩ := List.mem_map.1 hskip
      obtain rfl := hfield.unique (hfound _ he).1
      exact he
  · next hnew =>
    split
    · next m' s' hdecl =>
      split
      · next hgood =>
        have hfield : p.index.Field member s' := ⟨⟨m', hdecl⟩, hgood.1⟩
        rw [List.mem_append, List.mem_singleton, Prod.mk.injEq]
        refine or_congr_right ⟨?_, ?_⟩
        · rintro ⟨rfl, rfl⟩
          exact ⟨rfl, fun heq => hnew (.inl heq), hfield, hgood.2⟩
        · rintro ⟨rfl, -, hsfield, -⟩
          exact ⟨rfl, hsfield.unique hfield⟩
      · next hbad =>
        refine (or_iff_left_of_imp ?_).symm
        rintro ⟨rfl, -, ⟨⟨m'', hdecl'⟩, hkind⟩, hname⟩
        obtain ⟨-, rfl⟩ := Prod.mk.inj (Option.some.inj (hdecl.symm.trans hdecl'))
        exact absurd ⟨hkind, hname⟩ hbad
    · next hdecl =>
      -- A reference that leads nowhere is no field.
      refine (or_iff_left_of_imp ?_).symm
      rintro ⟨rfl, -, ⟨⟨m'', hdecl'⟩, -⟩, -⟩
      cases hdecl.symm.trans hdecl'

theorem mem_foldl_siblingStep {name : String} (members : List DeclRef)
    (found : List (DeclRef × Declaration))
    (hfound : ∀ e ∈ found, p.index.Field e.1 e.2 ∧ e.2.name = name) :
    (s, sd) ∈ members.foldl (p.siblingStep ref name) found ↔
      (s, sd) ∈ found ∨ s ∈ members ∧ s ≠ ref ∧ p.index.Field s sd ∧ sd.name = name := by
  induction members generalizing found with
  | nil => simp
  | cons member members ih =>
    have hfound' : ∀ e ∈ p.siblingStep ref name found member,
        p.index.Field e.1 e.2 ∧ e.2.name = name := by
      rintro ⟨s, sd⟩ he
      rcases (mem_siblingStep hfound).1 he with he | ⟨-, -, hgood⟩
      · exact hfound _ he
      · exact hgood
    rw [List.foldl_cons, ih _ hfound', mem_siblingStep hfound, List.mem_cons, or_assoc,
      ← or_and_right]

theorem mem_siblings (h : p.index.Faithful config) (hfield : d.kind.isField = true) :
    (s, sd) ∈ p.siblings ref d ↔ s ≠ ref ∧ p.OneSymbol ref d.name s sd := by
  have hsiblings : p.siblings ref d =
      ((p.index.ownersOf ref).flatMap p.index.members).foldl (p.siblingStep ref d.name) [] := by
    unfold siblings
    exact if_pos hfield
  rw [hsiblings, mem_foldl_siblingStep _ [] (by simp), List.mem_flatMap]
  simp only [List.not_mem_nil, false_or]
  constructor
  · rintro ⟨⟨owner, howner, hs⟩, hne, hsfield, hname⟩
    exact ⟨hne, hsfield, hname, owner, h.mem_ownersOf.1 howner, hs⟩
  · rintro ⟨hne, hsfield, hname, owner, howner, hs⟩
    exact ⟨⟨owner, h.mem_ownersOf.2 howner, hs⟩, hne, hsfield, hname⟩

/-- The place of a field refers to the field. -/
theorem canonical_of_isField (h : p.index.Faithful config) (hd : p.index.decl? ref = some (m, d))
    (hfield : d.kind.isField = true) : p.canonical ref = ref := by
  obtain ⟨f, hf, rfl, href, hdecl⟩ := (ProjectIndex.decl?_eq_some h.sorted).1 hd
  obtain ⟨revision, generation, hanalysed⟩ := (h.files f hf).analysed
  have hproper := (h.files f hf).proper
  have hmember : d.kind.isMember = true := by
    cases hkind : d.kind <;> rw [hkind] at hfield <;> first | rfl | cases hfield
  have hanchor := FileModel.anchored_member hproper hanalysed hdecl hmember
  obtain ⟨w, -, token, hdeclares⟩ := FileModel.declares_of_decl? hproper hanalysed hdecl
  -- Nothing is assigned to, so look-up at the place does not depend on any type.
  have hbase : f.model.assignedBase? ref.decl = none := by
    rw [FileModel.assignedBase?, hdecl, Option.bind_some]
    cases hdeclares with
    | tableField hw => simp [hw]
    | docField hnode => simp [hnode]
    | _ => cases hfield
  have hplace := declaration?_place h hf hdecl hanchor
  rw [assignedMember?, hbase, Option.bind_none, Option.getD_none, ← href] at hplace
  exact canonical_of_leads_back hd hplace

theorem references_of_isField (h : p.index.Faithful config)
    (hd : p.index.decl? ref = some (m, d)) (hfield : d.kind.isField = true) :
    p.references ref = distinctReferences (d.reference :: p.fieldReferences ref d) := by
  unfold references
  dsimp only
  rw [canonical_of_isField h hd hfield, hd]
  dsimp only
  cases hkind : d.kind <;> rw [hkind] at hfield <;> first | rfl | cases hfield

/-- A field that has an owner is of one symbol with itself and with its siblings. -/
theorem mem_cons_siblings (h : p.index.Faithful config) (hd : p.index.decl? ref = some (m, d))
    (hfield : d.kind.isField = true) (howner : p.index.ShareOwner ref ref) :
    (s, sd) ∈ (ref, d) :: p.siblings ref d ↔ p.OneSymbol ref d.name s sd := by
  have hself : p.OneSymbol ref d.name ref d := ⟨⟨⟨m, hd⟩, hfield⟩, rfl, howner⟩
  rw [List.mem_cons, Prod.mk.injEq, mem_siblings h hfield]
  constructor
  · rintro (⟨rfl, rfl⟩ | ⟨-, hs⟩)
    · exact hself
    · exact hs
  · intro hs
    by_cases heq : s = ref
    · subst heq
      exact .inl ⟨rfl, hs.field.unique hself.field⟩
    · exact .inr ⟨heq, hs⟩

/-- The references of a field are the places of the fields of its symbol and the index expressions
that lead to one of them. -/
theorem mem_references_of_isField (h : p.index.Faithful config)
    (hd : p.index.decl? ref = some (m, d)) (hfield : d.kind.isField = true)
    (howner : p.index.ShareOwner ref ref) {r : Reference} :
    r ∈ p.references ref ↔ ∃ s sd, p.OneSymbol ref d.name s sd ∧ (r = sd.reference ∨
      ∃ m x, (m, x) ∈ p.index.indexExprs d.name ∧ p.declaration? m x = some s ∧
        r = keyReference m x) := by
  have hsymbol {s : DeclRef} {sd : Declaration} :
      (s, sd) ∈ (ref, d) :: p.siblings ref d ↔ p.OneSymbol ref d.name s sd :=
    mem_cons_siblings h hd hfield howner
  rw [references_of_isField h hd hfield, mem_distinctReferences, fieldReferences,
    ← List.cons_append, List.mem_append]
  -- The places are those of the field and its siblings, and so is what index expressions lead to.
  constructor
  · rintro (hr | hr)
    · obtain ⟨⟨s, sd⟩, hs, rfl⟩ :=
        List.mem_map.1 (show r ∈ ((ref, d) :: p.siblings ref d).map fun s => s.2.reference from hr)
      exact ⟨s, sd, hsymbol.1 hs, .inl rfl⟩
    · obtain ⟨⟨m', x⟩, hx, rfl⟩ := List.mem_map.1 hr
      obtain ⟨hentry, hfound⟩ := List.mem_filter.1 hx
      dsimp only at hfound
      split at hfound
      · next found hleads =>
        have hfound : found ∈ ((ref, d) :: p.siblings ref d).map Prod.fst := of_decide_eq_true hfound
        obtain ⟨⟨s, sd⟩, hs, rfl⟩ := List.mem_map.1 hfound
        exact ⟨s, sd, hsymbol.1 hs, .inr ⟨m', x, hentry, hleads, rfl⟩⟩
      · cases hfound
  · rintro ⟨s, sd, hs, rfl | ⟨m', x, hx, hleads, rfl⟩⟩
    · have hplace : sd.reference ∈ ((ref, d) :: p.siblings ref d).map fun s => s.2.reference :=
        List.mem_map.2 ⟨(s, sd), hsymbol.2 hs, rfl⟩
      exact .inl hplace
    · have hfamily : s ∈ ((ref, d) :: p.siblings ref d).map Prod.fst :=
        List.mem_map.2 ⟨(s, sd), hsymbol.2 hs, rfl⟩
      refine .inr (List.mem_map.2 ⟨(m', x), List.mem_filter.2 ⟨hx, ?_⟩, rfl⟩)
      dsimp only
      rw [hleads]
      exact decide_eq_true hfamily

end Project

/-- In any compilation that comes about, two fields of one name that share an owner have the same
references, and the places of both are among them. -/
theorem references_of_one_field {config : Config} {c : Compilation}
    (h : Compilation.Reached config c) {ref ref' : DeclRef} {m m' : FileModel} {d d' : Declaration}
    (hd : c.index.decl? ref = some (m, d)) (hd' : c.index.decl? ref' = some (m', d'))
    (hfield : d.kind.isField = true) (hfield' : d'.kind.isField = true) (hname : d.name = d'.name)
    {owner : Owner} (howner : owner ∈ c.index.ownersOf ref)
    (howner' : owner ∈ c.index.ownersOf ref') :
    (∀ r, r ∈ c.project.references ref ↔ r ∈ c.project.references ref') ∧
      ∀ r ∈ [d.reference, d'.reference],
        r ∈ c.project.references ref ∧ r ∈ c.project.references ref' := by
  obtain ⟨-, hfaithful⟩ := h.faithful
  have hmember := hfaithful.mem_ownersOf.1 howner
  have hmember' := hfaithful.mem_ownersOf.1 howner'
  have hlive : c.index.Field ref d := ⟨⟨m, hd⟩, hfield⟩
  have hlive' : c.index.Field ref' d' := ⟨⟨m', hd'⟩, hfield'⟩
  have hshare : c.index.ShareOwner ref ref' := ⟨owner, hmember, hmember'⟩
  have hmem {r : Reference} := Project.mem_references_of_isField (p := c.project) hfaithful hd
    hfield ⟨owner, hmember, hmember⟩ (r := r)
  have hmem' {r : Reference} := Project.mem_references_of_isField (p := c.project) hfaithful hd'
    hfield' ⟨owner, hmember', hmember'⟩ (r := r)
  -- The two are of one symbol with the same fields.
  have hsame {s : DeclRef} {sd : Declaration} :
      c.project.OneSymbol ref d.name s sd ↔ c.project.OneSymbol ref' d'.name s sd := by
    constructor
    · rintro ⟨hs, hsname, hrest⟩
      exact ⟨hs, hsname.trans hname, hfaithful.shareOwner_trans hlive' hlive hs hshare.symm hrest⟩
    · rintro ⟨hs, hsname, hrest⟩
      exact ⟨hs, hsname.trans hname.symm, hfaithful.shareOwner_trans hlive hlive' hs hshare hrest⟩
  have hagree : ∀ r, r ∈ c.project.references ref ↔ r ∈ c.project.references ref' := by
    intro r
    rw [hmem, hmem']
    refine exists_congr fun s => exists_congr fun sd => and_congr hsame ?_
    rw [hname]
  have hown : d.reference ∈ c.project.references ref :=
    hmem.2 ⟨ref, d, ⟨hlive, rfl, owner, hmember, hmember⟩, .inl rfl⟩
  have hown' : d'.reference ∈ c.project.references ref' :=
    hmem'.2 ⟨ref', d', ⟨hlive', rfl, owner, hmember', hmember'⟩, .inl rfl⟩
  refine ⟨hagree, fun r hr => ?_⟩
  simp only [List.mem_cons, List.not_mem_nil, or_false] at hr
  rcases hr with rfl | rfl
  · exact ⟨hown, (hagree _).1 hown⟩
  · exact ⟨(hagree _).2 hown', hown'⟩

/-- `---@class Point ---@field x integer` above `local Point = {x = 1}` -/
def definesPoint : Sketch :=
  .block [.node (.comment [.classTag "Point" [], .docField "x" "integer"]),
    .declare ["Point"] [.node (.tableExpr [.entry (.name "x") (.literal (.integer 1))])]]

/-- `---@class Point ---@field x number` above `local q` -/
def extendsPoint : Sketch :=
  .block [.node (.comment [.classTag "Point" [], .docField "x" "number"]), .declare ["q"] []]

/-- A class that is defined in two files. -/
def partialClass : Compilation :=
  .ofUpdate [.ofSketch 0 (some definesPoint), .ofSketch 1 (some extendsPoint)]

theorem reached_partialClass : Compilation.Reached {} partialClass := by
  exact Compilation.reached_ofUpdate (by decide) (by decide)

/-- The field of the table in the one file and the annotated field in the other one. -/
theorem references_of_partial_class :
    ∃ m d m' d', partialClass.index.decl? ⟨0, 1, 3⟩ = some (m, d) ∧ d.kind = .tableField ∧
      partialClass.index.decl? ⟨1, 1, 1⟩ = some (m', d') ∧ d'.kind = .docField ∧
      (∀ r, r ∈ partialClass.project.references ⟨0, 1, 3⟩ ↔
        r ∈ partialClass.project.references ⟨1, 1, 1⟩) ∧
      ∀ r ∈ [d.reference, d'.reference], r ∈ partialClass.project.references ⟨0, 1, 3⟩ ∧
        r ∈ partialClass.project.references ⟨1, 1, 1⟩ := by
  have hfound : (partialClass.index.decl? ⟨0, 1, 3⟩).map (fun e => (e.2.kind, e.2.name)) =
      some (.tableField, "x") := by decide +kernel
  have hfound' : (partialClass.index.decl? ⟨1, 1, 1⟩).map (fun e => (e.2.kind, e.2.name)) =
      some (.docField, "x") := by decide +kernel
  have howner : Owner.named "Point" ∈ partialClass.index.ownersOf ⟨0, 1, 3⟩ := by decide +kernel
  have howner' : Owner.named "Point" ∈ partialClass.index.ownersOf ⟨1, 1, 1⟩ := by decide +kernel
  obtain ⟨⟨m, d⟩, hd, heq⟩ := Option.map_eq_some_iff.1 hfound
  obtain ⟨⟨m', d'⟩, hd', heq'⟩ := Option.map_eq_some_iff.1 hfound'
  have hkind : d.kind = .tableField := (Prod.mk.inj heq).1
  have hkind' : d'.kind = .docField := (Prod.mk.inj heq').1
  have hfield : d.kind.isField = true := by rw [hkind]; rfl
  have hfield' : d'.kind.isField = true := by rw [hkind']; rfl
  have hname : d.name = d'.name := (Prod.mk.inj heq).2.trans (Prod.mk.inj heq').2.symm
  exact ⟨m, d, m', d', hd, hkind, hd', hkind',
    references_of_one_field reached_partialClass hd hd' hfield hfield' hname howner howner'⟩

end LuaAnalysis
