import LuaAnalysis.Proofs.File.Contributions
import LuaAnalysis.Proofs.File.Sites

/-!
# Whose members fields are

A member belongs to the owner that its place is in. When a table defines a type, the fields of the
table become members of the type as well, all of them at once; and no other owner ever gets a field.
So two fields of one table have the same owners.

Main statements: `Outline.atHome`, `Entries.Homed.shareMembers`.
-/

namespace LuaAnalysis

variable {t : SyntaxTree} {decls decls' : Array Declaration} {e : Entries}

namespace SyntaxTree

/-- Whether a field at a place may have an owner: that of the place, or the type that the table of
the place defines. -/
def MayOwn (t : SyntaxTree) (owner : Owner) (x : NodeId) : Prop :=
  ∃ w, x ∈ t.memberSites w ∧ (t.ownerAt? w = some owner ∨
    ∃ expr name, t.ownerAt? w = some (.anonymous (t.syntaxId expr)) ∧ t.Defines expr name ∧
      owner = .named name)

/-- A table defines at most one type. -/
theorem Defines.unique (h : t.Proper) {expr : NodeId} {name name' : String}
    (hdefines : t.Defines expr name) (hdefines' : t.Defines expr name') : name = name' := by
  obtain ⟨stat, hstat, hname⟩ := hdefines
  obtain ⟨stat', hstat', hname'⟩ := hdefines'
  obtain rfl := childOf_unique h hstat hstat'
  exact Option.some.inj (hname.symm.trans hname')

theorem source_of_ownerAt? {w : NodeId} {id : SyntaxId}
    (h : t.ownerAt? w = some (.anonymous id)) : id.source = t.source := by
  unfold ownerAt? at h
  split at h
  · obtain ⟨table, -, heq⟩ := Option.map_eq_some_iff.1 h
    obtain rfl := Owner.anonymous.inj heq
    rfl
  · cases h
  · cases h
  · obtain rfl := Owner.anonymous.inj (Option.some.inj h)
    rfl
  · cases h

/-- The table that a field is written in belongs to the file of the field. -/
theorem MayOwn.source {id : SyntaxId} {x : NodeId} (h : t.MayOwn (.anonymous id) x) :
    id.source = t.source := by
  obtain ⟨w, -, howner | ⟨expr, name, -, -, heq⟩⟩ := h
  · exact source_of_ownerAt? howner
  · cases heq

/-- Two owners of a field are a table and the type that it defines. -/
theorem MayOwn.cases (h : t.Proper) {o o' : Owner} {x : NodeId} (ho : t.MayOwn o x)
    (ho' : t.MayOwn o' x) :
    o = o' ∨ (∃ id name, o = .anonymous id ∧ o' = .named name) ∨
      ∃ id name, o = .named name ∧ o' = .anonymous id := by
  obtain ⟨w, hx, ho⟩ := ho
  obtain ⟨w', hx', ho'⟩ := ho'
  obtain rfl := memberSites_unique h hx hx'
  rcases ho with ho | ⟨expr, name, hexpr, hdefines, rfl⟩
  · rcases ho' with ho' | ⟨expr, name, hexpr, -, rfl⟩
    · exact .inl (Option.some.inj (ho.symm.trans ho'))
    · obtain rfl := Option.some.inj (hexpr.symm.trans ho)
      exact .inr (.inl ⟨_, name, rfl, rfl⟩)
  · rcases ho' with ho' | ⟨expr', name', hexpr', hdefines', rfl⟩
    · obtain rfl := Option.some.inj (hexpr.symm.trans ho')
      exact .inr (.inr ⟨_, name, rfl, rfl⟩)
    · have hid := Owner.anonymous.inj (Option.some.inj (hexpr.symm.trans hexpr'))
      obtain rfl : expr = expr' := congrArg SyntaxId.node hid
      exact .inl (congrArg Owner.named (hdefines.unique h hdefines'))

/-- A field is written in one table at most. -/
theorem MayOwn.anonymous_unique (h : t.Proper) {id id' : SyntaxId} {x : NodeId}
    (hid : t.MayOwn (.anonymous id) x) (hid' : t.MayOwn (.anonymous id') x) : id = id' := by
  rcases hid.cases h hid' with heq | ⟨_, _, -, heq⟩ | ⟨_, _, heq, -⟩
  · exact Owner.anonymous.inj heq
  · cases heq
  · cases heq

end SyntaxTree

/-! ## After the analysis -/

/-- Whether every member is one of the owner that its place is in. -/
structure Entries.AtHome (t : SyntaxTree) (decls : Array Declaration) (e : Entries) : Prop where
  keys : e.members.keys.Nodup
  home : ∀ {owner : Owner} {i : DeclId}, i ∈ e.members.values owner →
    ∃ d, decls[i]? = some d ∧ ∃ w, d.node ∈ t.memberSites w ∧ t.ownerAt? w = some owner

namespace Outline

variable {config : Config} {o o' : Outline} {w : NodeId}
  {made : List (Declaration × Option NodeId)}

theorem Contributes.atHome {change : Entries → Entries} (h : e.AtHome t decls)
    (hc : Contributes t w decls change) : (change e).AtHome t decls := by
  cases hc with
  | member hd _ hsite howner =>
    refine ⟨Grouped.nodup_keys_addNew h.keys _ _, fun hj => ?_⟩
    rcases Grouped.mem_values_addNew.1 hj with hj | ⟨rfl, rfl⟩
    · exact h.home hj
    · exact ⟨_, hd, w, hsite, howner⟩
  | _ => exact ⟨h.keys, h.home⟩

theorem Makes.atHome (h : Makes t w o made o') (ho : o.entries.AtHome t o.decls) :
    o'.entries.AtHome t o'.decls := by
  induction h with
  | nothing => exact ho
  | @declare made o' d token _ _ ih =>
    refine ⟨ih.keys, fun hi => ?_⟩
    obtain ⟨e, he, hhome⟩ := ih.home hi
    refine ⟨e, ?_, hhome⟩
    rw [Outline.declare, Array.getElem?_push,
      if_neg (Nat.ne_of_lt (Array.getElem?_eq_some_iff.1 he).1), he]
  | record _ hc ih => exact Contributes.atHome ih hc
  | schedule _ _ ih => exact ih
  | method _ _ ih => exact ih

theorem atHome (config : Config) (h : t.Proper) :
    (t.outline config).entries.AtHome t (t.outline config).decls := by
  refine outline_induction (P := fun _ o => o.entries.AtHome t o.decls) h ?_ ?_ ?_
  · intro seen o x _ _ ho
    obtain ⟨o₁, made, hdecls, -, hentries, -, -, hmakes, -⟩ := makes_enter config t x o
    exact hmakes.atHome (by rwa [hdecls, hentries])
  · intro seen o x _ ho
    obtain ⟨hdecls, -, hentries, -⟩ := leave_eq o x
    rwa [hdecls, hentries]
  · exact ⟨List.nodup_nil, by simp⟩

end Outline

/-! ## After tables have been linked -/

namespace Entries

/-- Whether the owners of fields are those that they may have, and the fields of one table have the
same. -/
structure Homed (t : SyntaxTree) (decls : Array Declaration) (e : Entries) : Prop where
  keys : e.members.keys.Nodup
  home : ∀ {owner : Owner} {i : DeclId} {d : Declaration}, i ∈ e.members.values owner →
    decls[i]? = some d → d.kind.isField = true → t.MayOwn owner d.node
  together : ∀ {table : SyntaxId} {name : String} {i j : DeclId} {d d' : Declaration},
    decls[i]? = some d → d.kind.isField = true → decls[j]? = some d' → d'.kind.isField = true →
    i ∈ e.members.values (.anonymous table) → j ∈ e.members.values (.anonymous table) →
    i ∈ e.members.values (.named name) → j ∈ e.members.values (.named name)

theorem AtHome.homed (h : t.Proper) (he : e.AtHome t decls) : e.Homed t decls := by
  refine ⟨he.keys, fun hi hd _ => ?_, fun _ _ _ _ hi _ hi' => ?_⟩
  · obtain ⟨d, hd', w, hsite, howner⟩ := he.home hi
    obtain rfl := Option.some.inj (hd'.symm.trans hd)
    exact ⟨w, hsite, .inl howner⟩
  · -- No table has been linked, so no field of a table is one of a type.
    obtain ⟨d, hd, w, hsite, howner⟩ := he.home hi
    obtain ⟨d', hd', w', hsite', howner'⟩ := he.home hi'
    obtain rfl := Option.some.inj (hd.symm.trans hd')
    obtain rfl := SyntaxTree.memberSites_unique h hsite hsite'
    cases howner.symm.trans howner'

/-- A member that is no field may have any owner. -/
theorem Homed.addMember (he : e.Homed t decls) (owner : Owner) {i : DeclId} {d : Declaration}
    (hd : decls[i]? = some d) (hfield : d.kind.isField = false) :
    (e.addMember owner i).Homed t decls := by
  have hold {owner' : Owner} {j : DeclId} {d' : Declaration}
      (hj : j ∈ (e.addMember owner i).members.values owner') (hd' : decls[j]? = some d')
      (hfield' : d'.kind.isField = true) : j ∈ e.members.values owner' := by
    rcases Grouped.mem_values_addNew.1 hj with hj | ⟨-, rfl⟩
    · exact hj
    · obtain rfl := Option.some.inj (hd.symm.trans hd')
      rw [hfield] at hfield'
      cases hfield'
  refine ⟨Grouped.nodup_keys_addNew he.keys _ _, fun hj hd' hfield' => ?_, ?_⟩
  · exact he.home (hold hj hd' hfield') hd' hfield'
  · intro table name j k d' d'' hd' hfield' hd'' hfield'' hj hk hj'
    refine Grouped.mem_values_addNew.2 (.inl ?_)
    exact he.together hd' hfield' hd'' hfield'' (hold hj hd' hfield') (hold hk hd'' hfield'')
      (hold hj' hd' hfield')

theorem nodup_keys_addMembers (he : e.members.keys.Nodup) (owner : Owner) (added : List DeclId) :
    (e.addMembers owner added).members.keys.Nodup := by
  unfold addMembers
  induction added generalizing e with
  | nil => exact he
  | cons i added ih => exact ih (Grouped.nodup_keys_addNew he owner i)

theorem mem_values_addMembers {owner owner' : Owner} {added : List DeclId} {j : DeclId} :
    j ∈ (e.addMembers owner added).members.values owner' ↔
      j ∈ e.members.values owner' ∨ owner' = owner ∧ j ∈ added := by
  unfold addMembers
  induction added generalizing e with
  | nil => simp
  | cons i added ih =>
    rw [List.foldl_cons, ih, addMember, Grouped.mem_values_addNew, List.mem_cons, or_assoc,
      ← and_or_left]

/-- Makes every member of a table a member of a named type. -/
def shareMembers (table : SyntaxId) (name : String) (e : Entries) : Entries :=
  e.addMembers (.named name) (e.members.values (.anonymous table))

/-- When a table is linked to the type that it defines, all of its fields get the type as an
owner. -/
theorem Homed.shareMembers (h : t.Proper) (he : e.Homed t decls) {expr : NodeId} {name : String}
    (hdefines : t.Defines expr name) : (e.shareMembers (t.syntaxId expr) name).Homed t decls := by
  refine ⟨nodup_keys_addMembers he.keys _ _, fun hj hd hfield => ?_, ?_⟩
  · rcases mem_values_addMembers.1 hj with hold | ⟨rfl, hlinked⟩
    · exact he.home hold hd hfield
    · obtain ⟨w, hsite, howner | ⟨expr', name', -, -, heq⟩⟩ := he.home hlinked hd hfield
      · exact ⟨w, hsite, .inr ⟨expr, name, howner, hdefines, rfl⟩⟩
      · cases heq
  · intro table name' i j d d' hd hfield hd' hfield' hi hj hi'
    have hold {k : DeclId}
        (hk : k ∈ (e.shareMembers (t.syntaxId expr) name).members.values (.anonymous table)) :
        k ∈ e.members.values (.anonymous table) := by
      rcases mem_values_addMembers.1 hk with hk | ⟨heq, -⟩
      · exact hk
      · cases heq
    rcases mem_values_addMembers.1 hi' with hi' | ⟨heq, hi'⟩
    · exact mem_values_addMembers.2
        (.inl (he.together hd hfield hd' hfield' (hold hi) (hold hj) hi'))
    · -- The field has one table only, so the other one is linked with it.
      obtain rfl := (he.home (hold hi) hd hfield).anonymous_unique h (he.home hi' hd hfield)
      exact mem_values_addMembers.2 (.inr ⟨heq, hold hj⟩)

end Entries

end LuaAnalysis
