import LuaAnalysis.Proofs.File.Anchors

/-!
# What a file contributes

What stands in the entries of a file is what the nodes of its tree contribute: every global and type
is under its name, every member is a field, and the occurrences of names and types are exactly those
in the tree.

Main statements: `Entries.Sound`, `Outline.contributed`.
-/

namespace LuaAnalysis

variable {t : SyntaxTree} {seen : List NodeId} {decls decls' : Array Declaration} {e : Entries}

/-- Whether the entries of a file say of its declarations and nodes what holds of them. -/
structure Entries.Sound (t : SyntaxTree) (seen : List NodeId) (decls : Array Declaration)
    (e : Entries) : Prop where
  globals : ∀ {name : String} {i : DeclId}, i ∈ e.globals.values name →
    ∃ d, decls[i]? = some d ∧ d.name = name ∧ d.kind.isGlobal = true
  types : ∀ {name : String} {entry : DeclId × TypeCategory}, entry ∈ e.types.values name →
    ∃ d category, decls[entry.1]? = some d ∧ d.name = name ∧ d.kind = .namedType category
  members : ∀ {owner : Owner} {i : DeclId}, i ∈ e.members.values owner →
    ∃ d, decls[i]? = some d ∧ d.kind.isMember = true
  nameExprs : ∀ {name : String} {x : NodeId}, x ∈ e.nameExprs.values name →
    x ∈ seen ∧ t.node? x = some (.nameExpr name)
  typeRefs : ∀ {name : String} {x : NodeId}, x ∈ e.typeRefs.values name →
    x ∈ seen ∧ t.node? x = some (.docNameType name)

namespace Entries

theorem Sound.empty : Sound t seen decls {} := by
  constructor <;> simp

theorem Sound.mono {seen' : List NodeId} (h : Sound t seen decls e)
    (hdecls : ∀ {i : DeclId} {d : Declaration}, decls[i]? = some d → decls'[i]? = some d)
    (hseen : ∀ x ∈ seen, x ∈ seen') : Sound t seen' decls' e where
  globals hi := by
    obtain ⟨d, hd, hname, hkind⟩ := h.globals hi
    exact ⟨d, hdecls hd, hname, hkind⟩
  types hi := by
    obtain ⟨d, category, hd, hname, hkind⟩ := h.types hi
    exact ⟨d, category, hdecls hd, hname, hkind⟩
  members hi := by
    obtain ⟨d, hd, hkind⟩ := h.members hi
    exact ⟨d, hdecls hd, hkind⟩
  nameExprs hx := ⟨hseen _ (h.nameExprs hx).1, (h.nameExprs hx).2⟩
  typeRefs hx := ⟨hseen _ (h.typeRefs hx).1, (h.typeRefs hx).2⟩

/-- A new member is a field. -/
theorem Sound.addMember (h : Sound t seen decls e) (owner : Owner) {i : DeclId} {d : Declaration}
    (hd : decls[i]? = some d) (hkind : d.kind.isMember = true) :
    Sound t seen decls (e.addMember owner i) := by
  refine ⟨h.globals, h.types, fun {owner' j} hj => ?_, h.nameExprs, h.typeRefs⟩
  rcases Grouped.mem_values_addNew.1 hj with hj | ⟨-, rfl⟩
  · exact h.members hj
  · exact ⟨d, hd, hkind⟩

/-- Makes some declarations members of an owner. -/
def addMembers (e : Entries) (owner : Owner) (added : List DeclId) : Entries :=
  added.foldl (fun e member => e.addMember owner member) e

theorem exists_members_addMembers (e : Entries) (owner : Owner) (added : List DeclId) :
    ∃ members, e.addMembers owner added = { e with members } := by
  unfold addMembers
  induction added generalizing e with
  | nil => exact ⟨e.members, rfl⟩
  | cons i added ih =>
    obtain ⟨members, hmembers⟩ := ih (e.addMember owner i)
    exact ⟨members, hmembers⟩

theorem Sound.addMembers (h : Sound t seen decls e) (owner : Owner) {added : List DeclId}
    (hadded : ∀ i ∈ added, ∃ d, decls[i]? = some d ∧ d.kind.isMember = true) :
    Sound t seen decls (e.addMembers owner added) := by
  unfold Entries.addMembers
  induction added generalizing e with
  | nil => exact h
  | cons i added ih =>
    obtain ⟨d, hd, hkind⟩ := hadded i List.mem_cons_self
    exact ih (h.addMember owner hd hkind) fun j hj => hadded j (List.mem_cons_of_mem _ hj)

theorem Sound.contribute {w : NodeId} {change : Entries → Entries} (h : Sound t seen decls e)
    (hw : w ∈ seen) (hc : Contributes t w decls change) : Sound t seen decls (change e) := by
  -- A change concerns one of the lists; what it adds there is what the constructor says.
  cases hc with
  | @global name i d hd hname hkind =>
    refine ⟨fun hj => ?_, h.types, h.members, h.nameExprs, h.typeRefs⟩
    rcases Grouped.mem_values_add.1 hj with hj | ⟨rfl, rfl⟩
    · exact h.globals hj
    · exact ⟨d, hd, hname, hkind⟩
  | @type name i category d hd hname hkind =>
    refine ⟨h.globals, fun hentry => ?_, h.members, h.nameExprs, h.typeRefs⟩
    rcases Grouped.mem_values_add.1 hentry with hentry | ⟨rfl, rfl⟩
    · exact h.types hentry
    · exact ⟨d, category, hd, hname, hkind⟩
  | member hd hkind => exact h.addMember _ hd hkind
  | @nameExpr name hname =>
    refine ⟨h.globals, h.types, h.members, fun hx => ?_, h.typeRefs⟩
    rcases Grouped.mem_values_add.1 hx with hx | ⟨rfl, rfl⟩
    · exact h.nameExprs hx
    · exact ⟨hw, hname⟩
  | @typeRef name hname =>
    refine ⟨h.globals, h.types, h.members, h.nameExprs, fun hx => ?_⟩
    rcases Grouped.mem_values_add.1 hx with hx | ⟨rfl, rfl⟩
    · exact h.typeRefs hx
    · exact ⟨hw, hname⟩
  | _ => exact ⟨h.globals, h.types, h.members, h.nameExprs, h.typeRefs⟩

end Entries

/-- No contribution takes an occurrence away. -/
theorem Contributes.keeps {w : NodeId} {change : Entries → Entries}
    (hc : Contributes t w decls change) (e : Entries) :
    (∀ name, ∀ x ∈ e.nameExprs.values name, x ∈ (change e).nameExprs.values name) ∧
      ∀ name, ∀ x ∈ e.typeRefs.values name, x ∈ (change e).typeRefs.values name := by
  cases hc with
  | nameExpr => exact ⟨fun _ _ hx => Grouped.mem_values_add.2 (.inl hx), fun _ _ hx => hx⟩
  | typeRef => exact ⟨fun _ _ hx => hx, fun _ _ hx => Grouped.mem_values_add.2 (.inl hx)⟩
  | _ => exact ⟨fun _ _ hx => hx, fun _ _ hx => hx⟩

theorem Task.Concerns.mono {task : Task} (h : task.Concerns t decls)
    (hdecls : ∀ {i : DeclId} {d : Declaration}, decls[i]? = some d → decls'[i]? = some d) :
    task.Concerns t decls' := by
  cases task with
  | declaration decl value todo definesType =>
    obtain ⟨d, hd, hrest⟩ := h
    exact ⟨d, hdecls hd, hrest⟩
  | _ => trivial

namespace Outline

variable {config : Config} {o o' : Outline} {w : NodeId}
  {made : List (Declaration × Option NodeId)}

/-- What holds of the entries and tasks when some nodes have been entered. -/
structure Contributed (t : SyntaxTree) (config : Config) (seen : List NodeId) (o : Outline) :
    Prop where
  sound : o.entries.Sound t seen o.decls
  names : config.indexNameExprs = true → ∀ x ∈ seen, ∀ name,
    t.node? x = some (.nameExpr name) → x ∈ o.entries.nameExprs.values name
  types : config.indexNameExprs = true → ∀ x ∈ seen, ∀ name,
    t.node? x = some (.docNameType name) → x ∈ o.entries.typeRefs.values name
  tasks : ∀ task, some task ∈ o.worklist.places → task.Concerns t o.decls

/-- What a node makes keeps the entries sound, loses no occurrence and adds tasks that concern what
there is. -/
theorem Makes.contributes (h : Makes t w o made o') (hw : w ∈ seen)
    (hsound : o.entries.Sound t seen o.decls)
    (htasks : ∀ task, some task ∈ o.worklist.places → task.Concerns t o.decls) :
    o'.entries.Sound t seen o'.decls ∧
      (∀ task, some task ∈ o'.worklist.places → task.Concerns t o'.decls) ∧
      (∀ name, ∀ x ∈ o.entries.nameExprs.values name, x ∈ o'.entries.nameExprs.values name) ∧
      ∀ name, ∀ x ∈ o.entries.typeRefs.values name, x ∈ o'.entries.typeRefs.values name := by
  induction h with
  | nothing => exact ⟨hsound, htasks, fun _ _ hx => hx, fun _ _ hx => hx⟩
  | @declare made o' d token _ hd ih =>
    obtain ⟨hsound', htasks', hkeeps⟩ := ih
    have hpush {i : DeclId} {e : Declaration} (he : o'.decls[i]? = some e) :
        (o'.decls.push d)[i]? = some e := by
      rw [Array.getElem?_push, if_neg (Nat.ne_of_lt (Array.getElem?_eq_some_iff.1 he).1), he]
    exact ⟨hsound'.mono hpush fun _ hx => hx, fun task htask => (htasks' task htask).mono hpush,
      hkeeps⟩
  | @record made o' change _ hc ih =>
    obtain ⟨hsound', htasks', hnames, htypes⟩ := ih
    obtain ⟨hnames', htypes'⟩ := hc.keeps o'.entries
    exact ⟨hsound'.contribute hw hc, htasks', fun name x hx => hnames' name x (hnames name x hx),
      fun name x hx => htypes' name x (htypes name x hx)⟩
  | @schedule made o' task _ htask ih =>
    obtain ⟨hsound', htasks', hkeeps⟩ := ih
    refine ⟨hsound', fun task' htask' => ?_, hkeeps⟩
    rw [Outline.schedule, Worklist.push, List.mem_append, List.mem_singleton] at htask'
    rcases htask' with hold | hnew
    · exact htasks' task' hold
    · obtain rfl := Option.some.inj hnew
      exact htask
  | method _ _ ih => exact ih

theorem Contributed.enter (h : Contributed t config seen o) (w : NodeId) :
    Contributed t config (seen ++ [w]) (o.enter config t w) := by
  obtain ⟨o₁, made, hdecls, -, hentries, hworklist, henter, hmakes, -⟩ := makes_enter config t w o
  have hsound : o₁.entries.Sound t (seen ++ [w]) o₁.decls := by
    rw [hdecls, hentries]
    exact h.sound.mono (fun hd => hd) fun x hx => List.mem_append_left _ hx
  obtain ⟨hsound', htasks', hnames, htypes⟩ := hmakes.contributes (by simp) hsound (by
    rw [hworklist, hdecls]
    exact h.tasks)
  rw [hentries] at hnames htypes
  -- Of the occurrences only that of `w` is new.
  refine ⟨hsound', fun hindex x hx name hname => ?_, fun hindex x hx name hname => ?_, htasks'⟩
  · rcases List.mem_append.1 hx with hx | hx
    · exact hnames name x (h.names hindex x hx name hname)
    · obtain rfl := List.mem_singleton.1 hx
      rw [henter, declareAt, hname]
      dsimp only
      rw [if_pos hindex, occurrence, hname]
      exact Grouped.mem_values_add.2 (.inr ⟨rfl, rfl⟩)
  · rcases List.mem_append.1 hx with hx | hx
    · exact htypes name x (h.types hindex x hx name hname)
    · obtain rfl := List.mem_singleton.1 hx
      rw [henter, declareAt, hname]
      dsimp only
      rw [if_pos hindex, occurrence, hname]
      exact Grouped.mem_values_add.2 (.inr ⟨rfl, rfl⟩)

theorem contributed (config : Config) (h : t.Proper) :
    Contributed t config (t.below t.root) (t.outline config) := by
  refine outline_induction h (fun seen o x _ _ ho => ho.enter x) (fun seen o x _ ho => ?_) ?_
  · obtain ⟨hdecls, -, hentries, hworklist⟩ := leave_eq o x
    refine ⟨?_, ?_, ?_, ?_⟩
    · rw [hdecls, hentries]
      exact ho.sound
    · rw [hentries]
      exact ho.names
    · rw [hentries]
      exact ho.types
    · rw [hdecls, hworklist]
      exact ho.tasks
  · exact ⟨.empty, by simp, by simp, by simp⟩

end Outline

end LuaAnalysis
