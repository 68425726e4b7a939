import LuaAnalysis.Proofs.Project.MemberLevels
import LuaAnalysis.Proofs.Resolve.LateTasks

/-!
# Members that are found as before

Tasks put new members of an owner behind those that it has (`ProjectIndex.Grows`). A member that is
found among more members was found among fewer, if it was one of them: it came before the others
then as it does now. So a look-up keeps its answer as long as what it finds is no member that has
been added in between.

Main statements: `Project.grows_events`, `ProjectIndex.Grows.memberOfType?_eq`.
-/

namespace LuaAnalysis

/-! ## Where a member is found -/

/-- The member with a name that a value of a type has, behind the owner in which it is found: the
first with such a member that the search comes to. -/
def Lookup.found? (l : Lookup) (type : Ty) (name : String) : Option (Owner × DeclRef) :=
  (l.ownersOfType type).findSome? fun owner =>
    (l.levelsTo l.maxSuperDepth [owner]).findSome? fun above =>
      (l.directMember? above name).map (above, ·)

theorem Project.memberOfType?_eq_found? (p : Project) (type : Ty) (name : String) :
    p.memberOfType? type name = (p.found? type name).map Prod.snd := by
  unfold memberOfType? Lookup.found?
  rw [List.map_findSome?]
  congr 1
  funext owner
  rw [Function.comp_apply, List.map_findSome?, Lookup.member?_eq_findSome?]
  congr 1
  funext above
  rw [Function.comp_apply, Option.map_map]
  exact (congrFun Option.map_id _).symm

theorem Lookup.levelsTo_congr {l l' : Lookup} (h : l.index.SameNames l'.index)
    (hdepth : l.maxSuperDepth = l'.maxSuperDepth) (levels : Nat) (owners : List Owner) :
    l.levelsTo levels owners = l'.levelsTo levels owners := by
  have hlevel (k : Nat) : l.level k owners = l'.level k owners := by
    induction k with
    | zero => rfl
    | succ k ih =>
      rw [level_succ_eq, level_succ_eq, ih]
      exact List.flatMap_congr fun owner _ => superOwners_congr h hdepth owner
  exact List.flatMap_congr fun k _ => hlevel k

/-- A search through a list has the same result, if its steps have the same as long as they find
nothing but what is kept. -/
theorem findSome?_eq_of_kept {α β : Type} {f f' : α → Option β} {kept : β → Prop} {xs : List α}
    (hsame : ∀ a ∈ xs, (∀ b ∈ f' a, kept b) → f a = f' a)
    (hkept : ∀ b ∈ xs.findSome? f', kept b) : xs.findSome? f = xs.findSome? f' := by
  induction xs with
  | nil => rfl
  | cons a xs ih =>
    obtain ⟨hfirst, hrest⟩ := List.forall_mem_cons.1 hsame
    rw [List.findSome?_cons] at hkept ⊢
    cases hfound : f' a with
    | some b =>
      rw [hfound] at hkept hfirst
      rw [hfirst hkept, List.findSome?_cons, hfound]
    | none =>
      rw [hfound] at hkept hfirst
      rw [hfirst (by simp), List.findSome?_cons, hfound]
      exact ih hrest hkept

/-! ## Entries with more members -/

/-- The new members of every owner stand behind the old ones. -/
def Entries.Extends (e e' : Entries) : Prop :=
  ∀ owner, ∃ added, e'.members.values owner = e.members.values owner ++ added ∧
    ∀ i ∈ added, i ∉ e.members.values owner

namespace Entries.Extends

variable {e e' e'' : Entries}

theorem refl (e : Entries) : e.Extends e :=
  fun _ => ⟨[], (List.append_nil _).symm, List.forall_mem_nil _⟩

theorem trans (h : e.Extends e') (h' : e'.Extends e'') : e.Extends e'' := by
  intro owner
  obtain ⟨added, hvalues, hadded⟩ := h owner
  obtain ⟨added', hvalues', hadded'⟩ := h' owner
  refine ⟨added ++ added', by rw [hvalues', hvalues, List.append_assoc], fun i hi hold => ?_⟩
  rcases List.mem_append.1 hi with hi | hi
  · exact hadded i hi hold
  · exact hadded' i hi (hvalues ▸ List.mem_append_left _ hold)

theorem addMember (e : Entries) (owner : Owner) (i : DeclId) : e.Extends (e.addMember owner i) := by
  intro owner'
  unfold Entries.addMember
  dsimp only
  rw [Grouped.values_addNew]
  split
  · next hnew =>
    obtain ⟨rfl, hnew⟩ := hnew
    exact ⟨[i], rfl, List.forall_mem_singleton.2 hnew⟩
  · exact refl e owner'

theorem addMembers (e : Entries) (owner : Owner) (added : List DeclId) :
    e.Extends (e.addMembers owner added) := by
  unfold Entries.addMembers
  induction added generalizing e with
  | nil => exact refl e
  | cons i added ih => exact (addMember e owner i).trans (ih (e.addMember owner i))

end Entries.Extends

/-! ## Indexes with more members -/

/-- The same files with more members. Those that there were stand among the others in the order in
which they stood. -/
structure ProjectIndex.Grows (idx idx' : ProjectIndex) : Prop where
  models : idx'.models = idx.models
  members : ∀ owner, idx.members owner = (idx'.members owner).filter (· ∈ idx.members owner)

namespace ProjectIndex.Grows

variable {idx idx' idx'' : ProjectIndex}

theorem refl (idx : ProjectIndex) : idx.Grows idx :=
  ⟨rfl, fun _ => (List.filter_eq_self.2 fun _ href => decide_eq_true href).symm⟩

theorem subset (h : idx.Grows idx') (owner : Owner) : idx.members owner ⊆ idx'.members owner := by
  rw [h.members owner]
  exact fun _ href => (List.mem_filter.1 href).1

theorem trans (h : idx.Grows idx') (h' : idx'.Grows idx'') : idx.Grows idx'' := by
  refine ⟨h'.models.trans h.models, fun owner => ?_⟩
  calc idx.members owner
    _ = (idx'.members owner).filter (· ∈ idx.members owner) := h.members owner
    _ = ((idx''.members owner).filter (· ∈ idx'.members owner)).filter
        (· ∈ idx.members owner) := by rw [← h'.members owner]
    _ = (idx''.members owner).filter (· ∈ idx.members owner) := by
      rw [List.filter_filter]
      refine List.filter_congr fun ref _ => ?_
      by_cases href : ref ∈ idx.members owner
      · simp [href, h.subset owner href]
      · simp [href]

theorem amend (h : idx.Sorted) (source : SourceId) {change : Entries → Entries}
    (hchange : ∀ e : Entries, e.Extends (change e)) : idx.Grows (idx.amend source change) := by
  refine ⟨idx.models_amend source change, fun owner => ?_⟩
  -- Both lists go through the files, of which one has changed.
  have hfile : ∀ f ∈ idx.files, (f.entries.members.values owner).map f.model.ref =
      (((if f.source = source then change f.entries else f.entries).members.values owner).map
        f.model.ref).filter (· ∈ idx.members owner) := by
    intro f hf
    have hextends : f.entries.Extends
        (if f.source = source then change f.entries else f.entries) := by
      split
      · exact hchange f.entries
      · exact .refl f.entries
    obtain ⟨added, hvalues, hadded⟩ := hextends owner
    have hmem : (fun i => decide (f.model.ref i ∈ idx.members owner)) =
        fun i => decide (i ∈ f.entries.members.values owner) :=
      funext fun i => decide_eq_decide.2 (ref_mem_members h hf)
    -- Of the values now, the filter leaves those from before and none of the added ones.
    rw [hvalues, List.filter_map, Function.comp_def, hmem, List.filter_append,
      List.filter_eq_self.2 fun i hi => decide_eq_true hi,
      List.filter_eq_nil_iff.2 fun i hi => by simpa using hadded i hi, List.append_nil]
  show idx.files.flatMap _ = ((idx.files.map _).flatMap _).filter _
  rw [List.flatMap_map, List.filter_flatMap]
  refine List.flatMap_congr fun f hf => (hfile f hf).trans ?_
  dsimp only
  split <;> rfl

/-! ## Look-ups in them -/

section
variable {l l' : Lookup} (h : l.index.Grows l'.index) {owner : Owner} {name : String}
include h

theorem membersNamed_eq : l.membersNamed owner name =
    (l'.membersNamed owner name).filter fun member => member.1 ∈ l.index.members owner := by
  unfold Lookup.membersNamed
  conv_lhs => rw [h.members owner, List.filterMap_filter]
  rw [List.filter_filterMap]
  refine List.filterMap_congr fun ref _ => ?_
  rw [decl?_congr h.models]
  cases l.index.decl? ref with
  | none => simp
  | some found =>
    dsimp only
    by_cases hname : found.2.name = name
    · by_cases href : ref ∈ l.index.members owner <;> simp [Option.filter, hname, href]
    · simp [hname]

/-- What an owner has under a name is the same, if it has not been added since. -/
theorem directMember?_eq
    (hkept : ∀ ref ∈ l'.directMember? owner name, ref ∈ l.index.members owner) :
    l.directMember? owner name = l'.directMember? owner name := by
  cases hfound : l'.directMember? owner name with
  | none =>
    rw [Lookup.directMember?_eq_none] at hfound ⊢
    rw [h.membersNamed_eq, hfound, List.filter_nil]
  | some ref =>
    obtain ⟨d, hleast⟩ := Lookup.directMember?_eq_some_iff.1 hfound
    refine Lookup.directMember?_eq_some_iff.2 ⟨d, ?_⟩
    rw [h.membersNamed_eq]
    exact hleast.filter (decide_eq_true (hkept ref hfound))

theorem found?_eq (hnames : l.index.SameNames l'.index)
    (hdepth : l.maxSuperDepth = l'.maxSuperDepth) {type : Ty}
    (hkept : ∀ found ∈ l'.found? type name, found.2 ∈ l.index.members found.1) :
    l.found? type name = l'.found? type name := by
  unfold Lookup.found? at hkept ⊢
  rw [Lookup.ownersOfType_congr hnames hdepth]
  -- The owners and the levels above them depend on names, which are the same.
  refine findSome?_eq_of_kept (fun owner _ hkept => ?_) hkept
  rw [Lookup.levelsTo_congr hnames hdepth, hdepth]
  refine findSome?_eq_of_kept (fun above _ hkept => ?_) hkept
  rw [h.directMember?_eq fun ref href => hkept (above, ref) (by rw [Option.mem_def.1 href]; rfl)]

end

/-- The member that a value of a type has under a name is the same, if it has not been added to its
owner since. -/
theorem memberOfType?_eq {p q : Project} (h : p.index.Grows q.index)
    (hnames : p.index.SameNames q.index) (hdepth : p.maxSuperDepth = q.maxSuperDepth) {type : Ty}
    {name : String} (hkept : ∀ found ∈ q.found? type name, found.2 ∈ p.index.members found.1) :
    p.memberOfType? type name = q.memberOfType? type name := by
  rw [p.memberOfType?_eq_found?, q.memberOfType?_eq_found?, h.found?_eq hnames hdepth hkept]

end ProjectIndex.Grows

/-! ## Tasks -/

namespace Project

variable {p q : Project} {m : FileModel} {task : Task}

theorem Writes.grows (h : Writes m task p q) (hsorted : p.index.Sorted) :
    p.index.Grows q.index := by
  induction h with
  | nothing => exact .refl p.index
  | type _ _ _ ih | returns _ _ _ ih | moduleReturns _ _ ih => exact ih
  | table h _ _ _ ih =>
    exact ih.trans (.amend (hsorted.of_models h.models) m.source fun e => .addMembers e _ _)
  | field h _ _ _ ih =>
    exact ih.trans (.amend (hsorted.of_models h.models) m.source fun e => .addMember e _ _)

theorem grows_events (p : Project) (hsorted : p.index.Sorted) (events : List TaskEvent) :
    p.index.Grows (events.foldl TaskEvent.apply p).index := by
  induction events generalizing p with
  | nil => exact .refl p.index
  | cons e events ih =>
    have hwrites := p.writes_apply e
    exact (hwrites.grows hsorted).trans (ih (e.apply p) (hsorted.of_models hwrites.models))

end Project

end LuaAnalysis
