import LuaAnalysis.Proofs.Project.FirstLeast
import LuaAnalysis.Proofs.Project.Reached
import LuaAnalysis.Syntax.Shorthand
import Mathlib.Data.List.Basic
import Mathlib.Logic.Relation

/-!
# The levels that a search for a member goes through

Level 0 of an owner is the owner itself, and the owners that the supertypes of one level have are
the level above it. An owner may stand in many levels, and more than once in one of them.
`Lookup.member?` looks at each owner once, where it meets it first. That loses nothing: what an
owner leads to when it is met again is in a lower level already (`Thin.flatMap`), so the search
finds what all levels, one after the other and with every repetition, have first
(`memberAbove?_eq_findSome?`).

The search runs as a loop over a queue as well, in which every owner carries the level of the one
that put it there and is marked only when it is taken out (`Lookup.turn`). The queue holds the rest
of one level and the start of the next (`runs_level`), so the loop comes to its end with the same
answer.

Main statement: `Lookup.member?_nearest_first`.
-/

namespace LuaAnalysis

/-! ## Dropping what has no effect -/

/-- The first list is the second one without some elements, each of which is known or stands in the
list before. -/
inductive Thin {α : Type} : List α → List α → List α → Prop where
  | nil {known : List α} : Thin known [] []
  | keep {known xs ys : List α} (a : α) (h : Thin (a :: known) xs ys) :
      Thin known (a :: xs) (a :: ys)
  | drop {known xs ys : List α} {a : α} (ha : a ∈ known) (h : Thin known xs ys) :
      Thin known xs (a :: ys)

namespace Thin

variable {α β : Type} {known known' xs ys zs : List α}

theorem mono (h : Thin known xs ys) (hsub : known ⊆ known') : Thin known' xs ys := by
  induction h generalizing known' with
  | nil => exact .nil
  | keep a _ ih => exact .keep a (ih (List.cons_subset_cons a hsub))
  | drop ha _ ih => exact .drop (hsub ha) (ih hsub)

theorem trans (h : Thin known xs ys) (h' : Thin known ys zs) : Thin known xs zs := by
  induction h' generalizing xs with
  | nil => exact h
  | @keep known ys zs a _ ih =>
    cases h with
    | keep _ h => exact .keep a (ih h)
    | drop ha h =>
      -- What is dropped here is known, so it makes no difference that it was kept there.
      refine .drop ha ((ih (h.mono (List.subset_cons_self a known))).mono ?_)
      exact List.cons_subset.2 ⟨ha, List.Subset.refl known⟩
  | drop ha _ ih => exact .drop ha (ih h)

theorem append_left (front : List α) (h : Thin (front ++ known) xs ys) :
    Thin known (front ++ xs) (front ++ ys) := by
  induction front generalizing known with
  | nil => exact h
  | cons a front ih =>
    refine .keep a (ih (h.mono ?_))
    rw [List.cons_append]
    exact List.perm_middle.symm.subset

theorem drop_append {front : List α} (hfront : front ⊆ known) (h : Thin known xs ys) :
    Thin known xs (front ++ ys) := by
  induction front with
  | nil => exact h
  | cons a front ih =>
    obtain ⟨ha, hfront⟩ := List.cons_subset.1 hfront
    exact .drop ha (ih hfront)

/-- What the elements lead to is thinned as they are, if what is known leads to what is known
then. -/
theorem flatMap {f : α → List β} {reached : List β} (h : Thin known xs ys)
    (hreached : ∀ a ∈ known, f a ⊆ reached) : Thin reached (xs.flatMap f) (ys.flatMap f) := by
  induction h generalizing reached with
  | nil => exact .nil
  | keep a _ ih =>
    rw [List.flatMap_cons, List.flatMap_cons]
    refine append_left (f a) (ih (List.forall_mem_cons.2 ⟨List.subset_append_left _ _, ?_⟩))
    exact fun b hb => List.subset_append_of_subset_right _ (hreached b hb)
  | drop ha _ ih =>
    rw [List.flatMap_cons]
    exact drop_append (hreached _ ha) (ih hreached)

/-- Nothing is found among the known elements, so the same one is found first. -/
theorem findSome? {f : α → Option β} (h : Thin known xs ys) (hnone : ∀ a ∈ known, f a = none) :
    xs.findSome? f = ys.findSome? f := by
  induction h with
  | nil => rfl
  | keep a _ ih =>
    rw [List.findSome?_cons, List.findSome?_cons]
    cases ha : f a with
    | none => exact ih (List.forall_mem_cons.2 ⟨ha, hnone⟩)
    | some b => rfl
  | drop ha _ ih =>
    rw [List.findSome?_cons, hnone _ ha]
    exact ih hnone

end Thin

namespace Lookup

variable {l : Lookup} {name : String} {owner : Owner}

/-! ## The members of one owner -/

/-- The members of an owner with a name, with their declarations. -/
def membersNamed (l : Lookup) (owner : Owner) (name : String) : List (DeclRef × Declaration) :=
  (l.index.members owner).filterMap fun ref =>
    match l.index.decl? ref with
    | some (_, d) => if d.name = name then some (ref, d) else none
    | none => none

theorem mem_membersNamed {ref : DeclRef} {d : Declaration} :
    (ref, d) ∈ l.membersNamed owner name ↔
      ref ∈ l.index.members owner ∧ (∃ m, l.index.decl? ref = some (m, d)) ∧ d.name = name := by
  unfold membersNamed
  rw [List.mem_filterMap]
  constructor
  · rintro ⟨ref', href, hfound⟩
    split at hfound
    · next m d' hd =>
      split at hfound
      · next hname =>
        obtain ⟨rfl, rfl⟩ := Prod.mk.inj (Option.some.inj hfound)
        exact ⟨href, ⟨m, hd⟩, hname⟩
      · cases hfound
    · cases hfound
  · rintro ⟨href, ⟨m, hd⟩, hname⟩
    exact ⟨ref, href, by rw [hd]; exact if_pos hname⟩

/-- Members are compared by the rank of their kind, then by source, then by position. -/
def memberKey (member : DeclRef × Declaration) : Nat ×ₗ Nat ×ₗ Nat :=
  toLex (member.2.kind.memberRank, toLex (member.1.source, member.2.position))

theorem directMember?_eq :
    l.directMember? owner name =
      (firstLeast? tripleBefore (fun e => (e.2.kind.memberRank, e.1.source, e.2.position))
        (l.membersNamed owner name)).map Prod.fst := by
  have hplaced : ((l.index.members owner).filterMap fun ref =>
      match l.index.decl? ref with
      | some (_, d) =>
        if d.name = name then some (ref, d.kind.memberRank, ref.source, d.position) else none
      | none => none) =
      (l.membersNamed owner name).map fun e =>
        (e.1, e.2.kind.memberRank, e.1.source, e.2.position) := by
    rw [membersNamed, List.map_filterMap]
    refine List.filterMap_congr fun ref _ => ?_
    cases l.index.decl? ref with
    | none => rfl
    | some found =>
      dsimp only
      split <;> rfl
  refine (congrArg (fun placed => (firstLeast? tripleBefore Prod.snd placed).map Prod.fst)
    hplaced).trans ?_
  rw [firstLeast?_map tripleBefore _ Prod.snd _ fun _ => rfl, Option.map_map]
  rfl

theorem directMember?_eq_none :
    l.directMember? owner name = none ↔ l.membersNamed owner name = [] := by
  rw [directMember?_eq, Option.map_eq_none_iff, firstLeast?_eq_none]

theorem directMember?_eq_some_iff {ref : DeclRef} :
    l.directMember? owner name = some ref ↔
      ∃ d, FirstLeast memberKey (l.membersNamed owner name) (ref, d) := by
  have hleast (e : DeclRef × Declaration) :
      firstLeast? tripleBefore (fun e => (e.2.kind.memberRank, e.1.source, e.2.position))
          (l.membersNamed owner name) = some e ↔
        FirstLeast memberKey (l.membersNamed owner name) e :=
    firstLeast?_eq_some_iff fun _ _ => tripleBefore_iff
  rw [directMember?_eq, Option.map_eq_some_iff]
  constructor
  · rintro ⟨⟨_, d⟩, h, rfl⟩
    exact ⟨d, (hleast _).1 h⟩
  · rintro ⟨d, h⟩
    exact ⟨(ref, d), (hleast _).2 h, rfl⟩

/-- Where no two members of a name have one key, it does not matter in which order the members of an
owner stand. -/
theorem directMember?_of_mem_iff {l' : Lookup}
    (hmem : ∀ member, member ∈ l'.membersNamed owner name ↔ member ∈ l.membersNamed owner name)
    (hapart : ∀ member ∈ l.membersNamed owner name, ∀ other ∈ l.membersNamed owner name,
      memberKey member = memberKey other → member = other) :
    l'.directMember? owner name = l.directMember? owner name := by
  refine Option.ext fun ref => ?_
  rw [directMember?_eq_some_iff, directMember?_eq_some_iff]
  refine exists_congr fun d => ⟨fun h => h.of_mem_iff (fun member => (hmem member).symm) ?_,
    fun h => h.of_mem_iff hmem hapart⟩
  simp only [hmem]
  exact hapart

/-! ## Levels -/

/-- The types that an owner extends. A table extends none. -/
def supertypes (l : Lookup) : Owner → List Ty
  | .named name => l.index.supers name
  | .anonymous _ => []

/-- The owners some levels above the given ones: those that the supertypes of the level below
have. -/
def level (l : Lookup) : Nat → List Owner → List Owner
  | 0, owners => owners
  | k + 1, owners => ((level l k owners).flatMap l.supertypes).flatMap l.ownersOfType

/-- The owners of the lowest levels, level by level. -/
def levelsTo (l : Lookup) (levels : Nat) (owners : List Owner) : List Owner :=
  (List.range (levels + 1)).flatMap fun k => l.level k owners

variable {seen xs ys : List Owner} {levels k : Nat}

/-- The search looks for the owners above one where its supertypes have them. -/
theorem superOwners_eq (a : Owner) :
    l.superOwners a = (l.supertypes a).flatMap l.ownersOfType := by
  cases a <;> rfl

theorem level_succ_eq (k : Nat) (owners : List Owner) :
    l.level (k + 1) owners = (l.level k owners).flatMap l.superOwners := by
  rw [level, List.flatMap_assoc]
  exact List.flatMap_congr fun a _ => (superOwners_eq a).symm

theorem level_succ (k : Nat) (owners : List Owner) :
    l.level (k + 1) owners = l.level k (owners.flatMap l.superOwners) := by
  induction k with
  | zero => exact level_succ_eq 0 owners
  | succ k ih => rw [level_succ_eq, ih, level_succ_eq]

theorem levelsTo_zero : l.levelsTo 0 xs = xs :=
  List.append_nil xs

theorem levelsTo_succ :
    l.levelsTo (levels + 1) xs = xs ++ l.levelsTo levels (xs.flatMap l.superOwners) := by
  rw [levelsTo, List.range_succ_eq_map, List.flatMap_cons, List.flatMap_map]
  exact congrArg (xs ++ ·) (List.flatMap_congr fun k _ => level_succ k xs)

theorem mem_levelsTo {a : Owner} : a ∈ l.levelsTo levels xs ↔ ∃ k ≤ levels, a ∈ l.level k xs := by
  simp only [levelsTo, List.mem_flatMap, List.mem_range, Nat.lt_succ_iff]

/-! ## The search level by level -/

theorem thin_unseen (seen xs : List Owner) : Thin seen (unseen seen xs) xs := by
  induction xs generalizing seen with
  | nil => exact .nil
  | cons a xs ih =>
    rw [unseen]
    split
    · next ha => exact .drop ha (ih seen)
    · exact .keep a (ih (a :: seen))

theorem subset_unseen_append (seen xs : List Owner) : xs ⊆ unseen seen xs ++ seen := by
  induction xs generalizing seen with
  | nil => exact List.nil_subset _
  | cons a xs ih =>
    rw [unseen]
    split
    · next ha => exact List.cons_subset.2 ⟨List.mem_append_right _ ha, ih seen⟩
    · refine List.cons_subset.2 ⟨List.mem_cons_self, fun b hb => ?_⟩
      exact List.perm_middle.subset (ih (a :: seen) hb)

/-- Only what is in the list of seen owners matters. -/
theorem unseen_congr {seen' : List Owner} (h : ∀ a, a ∈ seen ↔ a ∈ seen') (xs : List Owner) :
    unseen seen xs = unseen seen' xs := by
  induction xs generalizing seen seen' with
  | nil => rfl
  | cons a xs ih =>
    have hrest : unseen (a :: seen) xs = unseen (a :: seen') xs :=
      ih fun b => by simp only [List.mem_cons, h b]
    rw [unseen, unseen, ih h, hrest]
    exact if_congr (h a) rfl rfl

theorem memberAbove?_zero :
    l.memberAbove? name 0 seen xs = (unseen seen xs).findSome? (l.directMember? · name) := by
  rw [memberAbove?]
  split
  · next h => exact h.symm
  · next h => exact h.symm

/-- Where a level has no such member, it makes no difference whether it has any new owner. -/
theorem memberAbove?_succ :
    l.memberAbove? name (levels + 1) seen xs =
      ((unseen seen xs).findSome? (l.directMember? · name)).or
        (l.memberAbove? name levels (unseen seen xs ++ seen)
          ((unseen seen xs).flatMap l.superOwners)) := by
  rw [memberAbove?]
  split
  · next h =>
    rw [h]
    rfl
  · next h =>
    rw [h, Option.none_or]
    split
    · next hempty => rw [List.isEmpty_iff.1 hempty, List.flatMap_nil, memberAbove?_nil]
    · rfl

/-- The owners looked at so far have no such member, and what they lead to has been looked at or is
about to be. -/
structure Accounted (l : Lookup) (name : String) (seen level : List Owner) : Prop where
  without : ∀ a ∈ seen, l.directMember? a name = none
  leads : ∀ a ∈ seen, l.superOwners a ⊆ level ++ seen

theorem Accounted.next (h : l.Accounted name seen xs)
    (hnone : (unseen seen xs).findSome? (l.directMember? · name) = none) :
    l.Accounted name (unseen seen xs ++ seen) ((unseen seen xs).flatMap l.superOwners) where
  without a ha := by
    obtain ha | ha := List.mem_append.1 ha
    · exact List.findSome?_eq_none_iff.1 hnone a ha
    · exact h.without a ha
  leads a ha b hb := by
    obtain ha | ha := List.mem_append.1 ha
    · exact List.mem_append_left _ (List.mem_flatMap.2 ⟨a, ha, hb⟩)
    · refine List.mem_append_right _ ?_
      obtain hb | hb := List.mem_append.1 (h.leads a ha hb)
      · exact subset_unseen_append seen xs hb
      · exact List.mem_append_right _ hb

/-- The search finds what all levels have first, whatever it drops of them. -/
theorem memberAbove?_eq_findSome? (haccounted : l.Accounted name seen xs)
    (hthin : Thin seen xs ys) :
    l.memberAbove? name levels seen xs =
      (l.levelsTo levels ys).findSome? (l.directMember? · name) := by
  induction levels generalizing seen xs ys with
  | zero =>
    rw [memberAbove?_zero, levelsTo_zero]
    exact ((thin_unseen seen xs).trans hthin).findSome? haccounted.without
  | succ levels ih =>
    have hnew : Thin seen (unseen seen xs) ys := (thin_unseen seen xs).trans hthin
    rw [memberAbove?_succ, levelsTo_succ, List.findSome?_append,
      hnew.findSome? haccounted.without]
    cases hfound : ys.findSome? (l.directMember? · name) with
    | some found => rfl
    | none =>
      have hnone := (hnew.findSome? haccounted.without).trans hfound
      have hnext := haccounted.next hnone
      rw [Option.none_or, Option.none_or]
      refine ih hnext (hnew.flatMap fun a ha b hb => ?_)
      obtain hb | hb := List.mem_append.1 (haccounted.leads a ha hb)
      · exact subset_unseen_append seen xs hb
      · exact List.mem_append_right _ hb

theorem member?_eq_findSome? :
    l.member? owner name =
      (l.levelsTo l.maxSuperDepth [owner]).findSome? (l.directMember? · name) :=
  memberAbove?_eq_findSome?
    ⟨fun _ ha => absurd ha List.not_mem_nil, fun _ ha => absurd ha List.not_mem_nil⟩
    (.keep owner .nil)

/-! ## The search as a loop -/

/-- The state of the loop: the owners to look at, each with its level, and those looked at; or the
answer. -/
inductive Hunt where
  | looking (queue : List (Owner × Nat)) (seen : List Owner)
  | ended (found : Option DeclRef)

/-- One turn of the loop. -/
def turn (l : Lookup) (name : String) : Hunt → Option Hunt
  | .ended _ => none
  | .looking [] _ => some (.ended none)
  | .looking ((owner, depth) :: queue) seen =>
    if owner ∈ seen then some (.looking queue seen)
    else
      match l.directMember? owner name with
      | some found => some (.ended (some found))
      | none =>
        if l.maxSuperDepth ≤ depth then some (.looking queue (owner :: seen))
        else
          let owners := (l.supertypes owner).flatMap l.ownersOfType
          some (.looking (queue ++ owners.map (·, depth + 1)) (owner :: seen))

/-- The turns that the loop may take one after the other. -/
abbrev Runs (l : Lookup) (name : String) : Hunt → Hunt → Prop :=
  Relation.ReflTransGen fun s s' => l.turn name s = some s'

/-- What the next level gets from the owners of one level. -/
def above (l : Lookup) (depth : Nat) (owners : List Owner) : List Owner :=
  if l.maxSuperDepth ≤ depth then [] else owners.flatMap l.superOwners

theorem above_cons {depth : Nat} {a : Owner} :
    l.above depth [a] ++ l.above depth xs = l.above depth (a :: xs) := by
  unfold above
  split <;> simp

/-- The loop goes through the rest of a level: it ends with the first member there is, or it comes
to the next level with all that the new owners lead to. -/
theorem runs_level (depth : Nat) (xs ys seen : List Owner) :
    l.Runs name (.looking (xs.map (·, depth) ++ ys.map (·, depth + 1)) seen)
      (match (unseen seen xs).findSome? (l.directMember? · name) with
      | some found => .ended (some found)
      | none => .looking ((ys ++ l.above depth (unseen seen xs)).map (·, depth + 1))
          ((unseen seen xs).reverse ++ seen)) := by
  induction xs generalizing ys seen with
  | nil =>
    have hnil : l.above depth [] = [] := by simp [above]
    simp only [unseen, List.findSome?_nil, List.map_nil, List.nil_append, List.reverse_nil, hnil,
      List.append_nil]
    exact .refl
  | cons a xs ih =>
    by_cases ha : a ∈ seen
    · rw [unseen, if_pos ha]
      exact .head (if_pos ha) (ih ys seen)
    rw [unseen, if_neg ha, List.findSome?_cons]
    cases hdirect : l.directMember? a name with
    | some found =>
      refine .single ((if_neg ha).trans ?_)
      rw [hdirect]
    | none =>
      -- The queue grows at its end, so what was there of the next level stays in front.
      have hturn : l.turn name
          (.looking ((a :: xs).map (·, depth) ++ ys.map (·, depth + 1)) seen) =
          some (.looking (xs.map (·, depth) ++
            (ys ++ l.above depth [a]).map (·, depth + 1)) (a :: seen)) := by
        refine (if_neg ha).trans ?_
        rw [hdirect]
        unfold above
        dsimp only
        rw [← superOwners_eq]
        split <;> simp
      have hrest := ih (ys ++ l.above depth [a]) (a :: seen)
      rw [List.append_assoc, above_cons] at hrest
      refine .head hturn ?_
      simpa using hrest

theorem runs_whole_level {seen' : List Owner} (hseen : ∀ a, a ∈ seen ↔ a ∈ seen') (depth : Nat) :
    l.Runs name (.looking (xs.map (·, depth)) seen)
      (match (unseen seen' xs).findSome? (l.directMember? · name) with
      | some found => .ended (some found)
      | none => .looking ((l.above depth (unseen seen' xs)).map (·, depth + 1))
          ((unseen seen' xs).reverse ++ seen)) := by
  rw [← unseen_congr hseen]
  simpa using runs_level depth xs [] seen

/-- The loop ends with what the search level by level finds. -/
theorem runs_memberAbove? {seen' : List Owner} {depth : Nat}
    (hdepth : depth + levels = l.maxSuperDepth) (hseen : ∀ a, a ∈ seen ↔ a ∈ seen') :
    l.Runs name (.looking (xs.map (·, depth)) seen)
      (.ended (l.memberAbove? name levels seen' xs)) := by
  induction levels generalizing seen seen' xs depth with
  | zero =>
    refine (runs_whole_level hseen depth).trans ?_
    have habove : l.above depth (unseen seen' xs) = [] := if_pos (Nat.le_of_eq hdepth.symm)
    rw [habove, memberAbove?_zero]
    cases (unseen seen' xs).findSome? (l.directMember? · name) with
    | some found => exact .refl
    | none => exact .single rfl
  | succ levels ih =>
    refine (runs_whole_level hseen depth).trans ?_
    have habove : l.above depth (unseen seen' xs) = (unseen seen' xs).flatMap l.superOwners :=
      if_neg (by omega)
    rw [habove, memberAbove?_succ]
    cases (unseen seen' xs).findSome? (l.directMember? · name) with
    | some found => exact .refl
    | none =>
      rw [Option.none_or]
      refine ih (by omega) fun a => ?_
      simp only [List.mem_append, List.mem_reverse, hseen a]

/-! ## What is found -/

/-- The search for a member comes to an end. It finds nothing just where no owner of the levels up
to the bound has such a member. What it finds is a member of the first owner that has one, by level
and in the order of the supertypes, and among the members of this owner the first of those with the
least rank, then the least source, then the least position. -/
theorem member?_nearest_first (l : Lookup) (owner : Owner) (name : String) :
    (l.Runs name (.looking [(owner, 0)] []) (.ended (l.member? owner name)) ∧
        l.turn name (.ended (l.member? owner name)) = none) ∧
      (l.member? owner name = none ↔
        ∀ k ≤ l.maxSuperDepth, ∀ a ∈ l.level k [owner], l.membersNamed a name = []) ∧
      (∀ ref, l.member? owner name = some ref ↔
        ∃ before a after, l.levelsTo l.maxSuperDepth [owner] = before ++ a :: after ∧
          (∀ b ∈ before, l.membersNamed b name = []) ∧
          ∃ d, FirstLeast memberKey (l.membersNamed a name) (ref, d)) ∧
      ∀ feature closure, ([.docField, .enumField, .method feature closure, .tableField, .index].map
        DeclKind.memberRank).Pairwise (· < ·) := by
  refine ⟨⟨?_, rfl⟩, ?_, fun ref => ?_, fun feature closure => ?_⟩
  · show l.Runs name (.looking ([owner].map (·, 0)) []) _
    exact runs_memberAbove? (Nat.zero_add _) fun _ => Iff.rfl
  · rw [member?_eq_findSome?, List.findSome?_eq_none_iff]
    simp only [mem_levelsTo, directMember?_eq_none]
    exact ⟨fun h k hk a ha => h a ⟨k, hk, ha⟩, fun h a ⟨k, hk, ha⟩ => h k hk a ha⟩
  · rw [member?_eq_findSome?, List.findSome?_eq_some_iff]
    simp only [directMember?_eq_none, directMember?_eq_some_iff]
    constructor
    · rintro ⟨before, a, after, hsplit, hleast, hbefore⟩
      exact ⟨before, a, after, hsplit, hbefore, hleast⟩
    · rintro ⟨before, a, after, hsplit, hbefore, hleast⟩
      exact ⟨before, a, after, hsplit, hleast, hbefore⟩
  · simp [DeclKind.memberRank]

/-- The classes `A: D`, with a field `x`, `B: A`, `C` with a field `x`, and `D: B, C` -/
def twoFields : Sketch :=
  .block [.node (.comment [.classTag "A" ["D"], .docField "x" "integer", .classTag "B" ["A"],
    .classTag "C" [], .docField "x" "string", .classTag "D" ["B", "C"]]), .declare ["d"] []]

def hierarchy : Compilation :=
  .ofUpdate [.ofSketch 0 (some twoFields), .ofSketch 1 none]

/-- `D` inherits `x` from `C`, which is nearer than `A`, though `A` is what the first supertype of
`D` leads to. From `A` the levels begin anew. -/
theorem inherited_from_nearest :
    let l := hierarchy.project.toLookup
    Compilation.Reached {} hierarchy ∧ l.level 1 [.named "D"] = [.named "B", .named "C"] ∧
      l.level 2 [.named "D"] = [.named "A"] ∧ l.level 3 [.named "D"] = [.named "D"] ∧
      l.membersNamed (.named "A") "x" ≠ [] ∧
      ∃ ref ∈ l.index.members (.named "C"), l.member? (.named "D") "x" = some ref := by
  intro l
  have hreached : Compilation.Reached {} hierarchy := Compilation.reached_ofUpdate (by decide)
    (by decide)
  obtain ⟨-, -, hfound, -⟩ := member?_nearest_first l (.named "D") "x"
  have hone : (l.membersNamed (.named "C") "x").length = 1 := by decide +kernel
  obtain ⟨⟨ref, d⟩, hfield⟩ := List.length_eq_one_iff.1 hone
  have hmem : (ref, d) ∈ l.membersNamed (.named "C") "x" := by simp [hfield]
  have hleast : FirstLeast memberKey (l.membersNamed (.named "C") "x") (ref, d) := by
    rw [hfield]
    exact ⟨[], [], rfl, by simp, by simp⟩
  refine ⟨hreached, by decide +kernel, by decide +kernel, by decide +kernel, by decide +kernel,
    ref, (mem_membersNamed.1 hmem).1, (hfound ref).2 ⟨[.named "D", .named "B"], .named "C",
      (l.levelsTo l.maxSuperDepth [.named "D"]).drop 3, by decide +kernel, by decide +kernel, d,
      hleast⟩⟩

end Lookup

end LuaAnalysis
