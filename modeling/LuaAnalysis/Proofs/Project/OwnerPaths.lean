import LuaAnalysis.Proofs.Project.Reached

/-!
# Paths from a type to its owners

A union leads to its alternatives, and a name to the bases of its aliases. `Lookup.ownersOfType`
goes along these steps in depth, at most a number of them, and it goes into no owner twice. What it
lists is at the end of a path that is short enough.

The other way it need not hold. An owner that the search meets first at the end of a long path is
not gone into, and a shorter path that comes to it later finds it listed already
(`owner_behind_limit`). Nothing is lost where all paths that meet no owner twice are short enough
(`blocked_of_not_mem_collectOwners`).

Main statement: `Lookup.ownersOfType_paths`.
-/

namespace LuaAnalysis

/-- The owner that a type is by itself. -/
def Ty.owner? : Ty → Option Owner
  | .named name | .genericApp name _ => some (.named name)
  | .tableLiteral id => some (.anonymous id)
  | _ => none

namespace Lookup

/-- The types one step away from a type. -/
def nextTypes (l : Lookup) : Ty → List Ty
  | .named name | .genericApp name _ => (l.index.aliases name).map Prod.fst
  | .union alternatives => alternatives
  | _ => []

/-- From the type, the path goes step by step to a type that is the owner. -/
def Leads (l : Lookup) (o : Owner) : Ty → List Ty → Prop
  | type, [] => type.owner? = some o
  | type, next :: path => next ∈ l.nextTypes type ∧ Leads l o next path

/-- The owners that a path from a type meets. -/
def met (type : Ty) (path : List Ty) : List Owner :=
  (type :: path).filterMap Ty.owner?

variable {l : Lookup} {o a : Owner} {type next : Ty} {path : List Ty} {owners : List Owner}
  {levels : Nat}

/-! ## Paths -/

theorem met_nil : met type [] = type.owner?.toList := by
  unfold met
  rw [List.filterMap_cons]
  cases type.owner? <;> rfl

theorem met_cons : met type (next :: path) = type.owner?.toList ++ met next path := by
  unfold met
  rw [List.filterMap_cons]
  cases type.owner? <;> rfl

theorem nodup_met_cons (hnodup : (met next path).Nodup)
    (h : ∀ a, type.owner? = some a → a ∉ met next path) : (met type (next :: path)).Nodup := by
  rw [met_cons]
  refine List.nodup_append'.2 ⟨?_, hnodup, fun a ha => h a (Option.mem_toList.1 ha)⟩
  cases type.owner? <;> simp

theorem mem_met_self (h : type.owner? = some a) : a ∈ met type path :=
  List.mem_filterMap.2 ⟨type, List.mem_cons_self, h⟩

/-- What follows a type depends on its owner only. -/
theorem nextTypes_congr {type' : Ty} (h : type.owner? = some a) (h' : type'.owner? = some a) :
    l.nextTypes type = l.nextTypes type' := by
  unfold Ty.owner? at h h'
  split at h <;> split at h' <;> cases h <;> cases h' <;> rfl

theorem Leads.congr {type' : Ty} (h : l.Leads o type path) (ha : type.owner? = some a)
    (ha' : type'.owner? = some a) : l.Leads o type' path := by
  cases path with
  | nil => exact ha'.trans (ha.symm.trans h)
  | cons next path => exact ⟨nextTypes_congr ha ha' ▸ h.1, h.2⟩

theorem met_congr {type' : Ty} (ha : type.owner? = some a) (ha' : type'.owner? = some a) :
    met type path = met type' path := by
  simp only [met, List.filterMap_cons, ha, ha']

/-- A path goes on from each owner that it meets. -/
theorem Leads.exists_suffix (h : l.Leads o type path) (ha : a ∈ met type path) :
    ∃ type' path', type'.owner? = some a ∧ l.Leads o type' path' ∧
      met type' path' <:+ met type path := by
  induction path generalizing type with
  | nil =>
    rw [met_nil] at ha
    exact ⟨type, [], Option.mem_toList.1 ha, h, List.suffix_refl _⟩
  | cons next path ih =>
    rw [met_cons] at ha ⊢
    obtain hself | hrest := List.mem_append.1 ha
    · rw [← met_cons]
      exact ⟨type, next :: path, Option.mem_toList.1 hself, h, List.suffix_refl _⟩
    · obtain ⟨type', path', ha', hleads, hsuffix⟩ := ih h.2 hrest
      exact ⟨type', path', ha', hleads, hsuffix.trans (List.suffix_append _ _)⟩

/-- A path can go on along a path from the owner that it ends with. -/
theorem Leads.append {type' : Ty} {path' : List Ty} (h : l.Leads a type path)
    (ha : type'.owner? = some a) (h' : l.Leads o type' path') :
    l.Leads o type (path ++ path') ∧
      ∀ b ∈ met type (path ++ path'), b ∈ met type path ∨ b ∈ met type' path' := by
  induction path generalizing type with
  | nil =>
    refine ⟨h'.congr ha h, fun b hb => .inr ?_⟩
    rwa [met_congr ha h]
  | cons next path ih =>
    obtain ⟨hleads, hmet⟩ := ih h.2
    refine ⟨⟨h.1, hleads⟩, fun b hb => ?_⟩
    rw [List.cons_append, met_cons] at hb
    rw [met_cons]
    obtain hself | hrest := List.mem_append.1 hb
    · exact .inl (List.mem_append_left _ hself)
    · exact (hmet b hrest).imp_left (List.mem_append_right _)

/-- Where a path leads, one leads that meets no owner twice. -/
theorem Leads.exists_nodup (h : l.Leads o type path) :
    ∃ path', l.Leads o type path' ∧ (met type path').Nodup ∧ met type path' ⊆ met type path := by
  induction path generalizing type with
  | nil =>
    refine ⟨[], h, ?_, List.Subset.refl _⟩
    rw [met_nil, show type.owner? = some o from h]
    exact List.nodup_singleton o
  | cons next path ih =>
    obtain ⟨path', hleads, hnodup, hsub⟩ := ih h.2
    have htail : met next path ⊆ met type (next :: path) := by
      rw [met_cons]
      exact List.subset_append_right _ _
    by_cases hagain : ∃ a, type.owner? = some a ∧ a ∈ met next path'
    · -- The path comes back to where it starts, and goes on from there.
      obtain ⟨a, ha, hmem⟩ := hagain
      obtain ⟨type', rest, ha', hrest, hsuffix⟩ := hleads.exists_suffix hmem
      rw [met_congr ha' ha] at hsuffix
      exact ⟨rest, hrest.congr ha' ha, hnodup.sublist hsuffix.sublist,
        fun b hb => htail (hsub (hsuffix.subset hb))⟩
    · refine ⟨next :: path', ⟨h.1, hleads⟩,
        nodup_met_cons hnodup fun a ha hmem => hagain ⟨a, ha, hmem⟩, ?_⟩
      rw [met_cons, met_cons]
      exact List.append_subset.2 ⟨List.subset_append_left _ _,
        List.Subset.trans hsub (List.subset_append_right _ _)⟩

/-! ## One call of the search -/

/-- An owner that is listed is not gone into. -/
theorem collectOwners_of_listed (ha : type.owner? = some a) (hmem : a ∈ owners) :
    l.collectOwners levels type owners = owners := by
  cases levels with
  | zero => rfl
  | succ levels =>
    unfold Ty.owner? at ha
    split at ha <;> cases ha <;> exact if_pos hmem

/-- What is new is listed, and then the search goes on to what is one step away. -/
theorem collectOwners_of_new (hnew : ∀ a, type.owner? = some a → a ∉ owners) :
    l.collectOwners (levels + 1) type owners =
      (l.nextTypes type).foldl (fun owners next => l.collectOwners levels next owners)
        (owners ++ type.owner?.toList) := by
  cases type with
  | named name =>
    rw [nextTypes, List.foldl_map]
    exact if_neg (hnew _ rfl)
  | genericApp name args =>
    rw [nextTypes, List.foldl_map]
    exact if_neg (hnew _ rfl)
  | tableLiteral id => exact if_neg (hnew _ rfl)
  | _ => simp [collectOwners, nextTypes, Ty.owner?]

/-- What holds of a list of owners whenever a new one is listed holds after the search. -/
theorem collectOwners_induction {P : List Owner → Prop}
    (hadd : ∀ owners a, P owners → a ∉ owners → P (owners ++ [a])) (h : P owners) :
    P (l.collectOwners levels type owners) := by
  induction levels generalizing type owners with
  | zero => exact h
  | succ levels ih =>
    by_cases hlisted : ∃ a, type.owner? = some a ∧ a ∈ owners
    · obtain ⟨a, ha, hmem⟩ := hlisted
      rwa [collectOwners_of_listed ha hmem]
    · rw [collectOwners_of_new fun a ha hmem => hlisted ⟨a, ha, hmem⟩]
      refine List.foldlRecOn _ _ ?_ fun _ hacc _ _ => ih hacc
      cases ha : type.owner? with
      | none => rwa [Option.toList_none, List.append_nil]
      | some a => exact hadd owners a h fun hmem => hlisted ⟨a, ha, hmem⟩

theorem subset_collectOwners : owners ⊆ l.collectOwners levels type owners :=
  collectOwners_induction (P := (owners ⊆ ·))
    (fun _ _ h _ => List.subset_append_of_subset_left _ h) (List.Subset.refl _)

theorem nodup_collectOwners (h : owners.Nodup) : (l.collectOwners levels type owners).Nodup :=
  collectOwners_induction (fun _ _ h ha => by rw [← List.concat_eq_append]; exact h.concat ha) h

/-! ## What the search lists is reached -/

/-- Whatever is new in the list is reached within the number of levels, by a path that meets nothing
listed before. -/
theorem exists_leads_of_mem_collectOwners (h : a ∈ l.collectOwners levels type owners)
    (hnew : a ∉ owners) :
    ∃ path, l.Leads a type path ∧ path.length < levels ∧ ∀ b ∈ met type path, b ∉ owners := by
  induction levels generalizing type owners with
  | zero => exact absurd h hnew
  | succ levels ih =>
    by_cases hlisted : ∃ b, type.owner? = some b ∧ b ∈ owners
    · obtain ⟨b, hb, hmem⟩ := hlisted
      rw [collectOwners_of_listed hb hmem] at h
      exact absurd h hnew
    have hself : ∀ b, type.owner? = some b → b ∉ owners := fun b hb hmem => hlisted ⟨b, hb, hmem⟩
    rw [collectOwners_of_new hself] at h
    generalize hstart : owners ++ type.owner?.toList = start at h
    -- The search of a later type may know more, so its paths meet even less of the start.
    have hfold : ∀ types : List Ty, ∀ acc, start ⊆ acc →
        a ∈ types.foldl (fun owners next => l.collectOwners levels next owners) acc →
        a ∈ acc ∨ ∃ next ∈ types, ∃ path, l.Leads a next path ∧ path.length < levels ∧
          ∀ b ∈ met next path, b ∉ start := by
      intro types
      induction types with
      | nil => exact fun acc _ h => .inl h
      | cons next types ihtypes =>
        intro acc hacc h
        obtain h | ⟨next', hnext, hpath⟩ :=
          ihtypes _ (List.Subset.trans hacc subset_collectOwners) h
        · by_cases hmem : a ∈ acc
          · exact .inl hmem
          · obtain ⟨path, hleads, hlength, hmet⟩ := ih h hmem
            exact .inr ⟨next, List.mem_cons_self, path, hleads, hlength,
              fun b hb hstart => hmet b hb (hacc hstart)⟩
        · exact .inr ⟨next', List.mem_cons_of_mem _ hnext, hpath⟩
    obtain h | ⟨next, hnext, path, hleads, hlength, hmet⟩ :=
      hfold _ start (List.Subset.refl _) h
    · rw [← hstart] at h
      have ha : type.owner? = some a :=
        Option.mem_toList.1 ((List.mem_append.1 h).resolve_left hnew)
      refine ⟨[], ha, Nat.succ_pos levels, fun b hb => ?_⟩
      rw [met_nil] at hb
      exact hself b (Option.mem_toList.1 hb)
    · refine ⟨next :: path, ⟨hnext, hleads⟩, Nat.succ_lt_succ hlength, fun b hb => ?_⟩
      rw [met_cons] at hb
      obtain hb | hb := List.mem_append.1 hb
      · exact hself b (Option.mem_toList.1 hb)
      · intro hmem
        exact hmet b hb (hstart ▸ List.mem_append_left _ hmem)

/-! ## What the search leaves out -/

/-- Every path from the type to the owner meets one of the given owners. -/
def Blocked (l : Lookup) (o : Owner) (owners : List Owner) (type : Ty) : Prop :=
  ∀ path, l.Leads o type path → ∃ a ∈ met type path, a ∈ owners

/-- Nothing in the list has a way to the owner but through the start. -/
def Shut (l : Lookup) (o : Owner) (start owners : List Owner) : Prop :=
  ∀ a ∈ owners, ∀ type : Ty, type.owner? = some a → l.Blocked o start type

variable {start : List Owner}

/-- A path that meets the list goes on to meet the start. -/
theorem Blocked.shrink (h : l.Blocked o owners type) (hshut : l.Shut o start owners) :
    l.Blocked o start type := by
  intro path hleads
  obtain ⟨a, hmet, ha⟩ := h path hleads
  obtain ⟨type', path', ha', hleads', hsuffix⟩ := hleads.exists_suffix hmet
  obtain ⟨b, hb, hstart⟩ := hshut a ha type' ha' path' hleads'
  exact ⟨b, hsuffix.subset hb, hstart⟩

/-- What one search lists stays shut: a way on from there would be one from where the search
began. -/
theorem Shut.collectOwners (hshut : l.Shut o start owners) (h : l.Blocked o owners type) :
    l.Shut o start (l.collectOwners levels type owners) := by
  intro a ha type' ha'
  by_cases hmem : a ∈ owners
  · exact hshut a hmem type' ha'
  refine Blocked.shrink (fun path' hleads' => ?_) hshut
  obtain ⟨path, hleads, -, hmet⟩ := exists_leads_of_mem_collectOwners ha hmem
  obtain ⟨happend, hparts⟩ := hleads.append ha' hleads'
  obtain ⟨b, hb, hlisted⟩ := h _ happend
  exact ⟨b, (hparts b hb).resolve_left fun hb => hmet b hb hlisted, hlisted⟩

/-- If each search blocks the type that it is about, then all of them together block all types. -/
theorem blocked_of_foldl {types : List Ty}
    (hsearch : ∀ next ∈ types, ∀ acc, start ⊆ acc → o ∉ l.collectOwners levels next acc →
      l.Blocked o acc next) (hsub : start ⊆ owners) (hshut : l.Shut o start owners)
    (ho : o ∉ types.foldl (fun owners next => l.collectOwners levels next owners) owners) :
    ∀ next ∈ types, l.Blocked o start next := by
  induction types generalizing owners with
  | nil => exact fun _ hnext => absurd hnext List.not_mem_nil
  | cons next types ih =>
    have hlater : l.collectOwners levels next owners ⊆
        types.foldl (fun owners next => l.collectOwners levels next owners)
          (l.collectOwners levels next owners) :=
      List.foldlRecOn types _ (List.Subset.refl _) fun _ hacc _ _ =>
        List.Subset.trans hacc subset_collectOwners
    have hblocked : l.Blocked o owners next :=
      hsearch next List.mem_cons_self owners hsub fun h => ho (hlater h)
    refine List.forall_mem_cons.2 ⟨hblocked.shrink hshut, ?_⟩
    exact ih (fun next' hnext => hsearch next' (List.mem_cons_of_mem _ hnext))
      (List.Subset.trans hsub subset_collectOwners) (hshut.collectOwners hblocked) ho

/-- An owner that the search does not list is behind what was listed before, if the levels are
enough for every path to it that meets no owner twice and none listed before. -/
theorem blocked_of_not_mem_collectOwners
    (hshort : ∀ path, l.Leads o type path → (met type path).Nodup →
      (∀ a ∈ met type path, a ∉ owners) → path.length < levels)
    (ho : o ∉ l.collectOwners levels type owners) : l.Blocked o owners type := by
  induction levels generalizing type owners with
  | zero =>
    intro path hleads
    by_contra hfree
    obtain ⟨path', hleads', hnodup, hsub⟩ := hleads.exists_nodup
    exact Nat.not_lt_zero _ (hshort path' hleads' hnodup fun a ha hmem => hfree ⟨a, hsub ha, hmem⟩)
  | succ levels ih =>
    by_cases hlisted : ∃ a, type.owner? = some a ∧ a ∈ owners
    · obtain ⟨a, ha, hmem⟩ := hlisted
      exact fun path _ => ⟨a, mem_met_self ha, hmem⟩
    have hself : ∀ a, type.owner? = some a → a ∉ owners := fun a ha hmem => hlisted ⟨a, ha, hmem⟩
    rw [collectOwners_of_new hself] at ho
    generalize hstart : owners ++ type.owner?.toList = start at ho
    have hblocked : ∀ next ∈ l.nextTypes type, l.Blocked o start next := by
      refine blocked_of_foldl (fun next hnext acc hacc ho => ih (fun path hleads hnodup hfree => ?_)
        ho) (List.Subset.refl _) (fun a ha type' ha' path _ => ⟨a, mem_met_self ha', ha⟩) ho
      -- The path goes from the type as well, and there it is one step longer.
      have hfree' : ∀ a ∈ met next path, a ∉ owners ++ type.owner?.toList := fun a ha hmem =>
        hfree a ha (hacc (hstart ▸ hmem))
      refine Nat.lt_of_succ_lt_succ (hshort (next :: path) ⟨hnext, hleads⟩
        (nodup_met_cons hnodup fun a ha hmem =>
          hfree' a hmem (List.mem_append_right _ (Option.mem_toList.2 ha))) fun a ha hmem => ?_)
      rw [met_cons] at ha
      obtain ha | ha := List.mem_append.1 ha
      · exact hself a (Option.mem_toList.1 ha) hmem
      · exact hfree' a ha (List.mem_append_left _ hmem)
    intro path hleads
    by_contra hfree
    obtain ⟨path', hleads', hnodup, hsub⟩ := hleads.exists_nodup
    cases path' with
    | nil =>
      have hmem : o ∈ start :=
        hstart ▸ List.mem_append_right _ (Option.mem_toList.2 hleads')
      exact ho (List.foldlRecOn (motive := (o ∈ ·)) _ _ hmem fun _ hacc _ _ =>
        subset_collectOwners hacc)
    | cons next path' =>
      obtain ⟨a, ha, hmem⟩ := hblocked next hleads'.1 path' hleads'.2
      rw [met_cons] at hnodup hsub
      rw [← hstart] at hmem
      obtain hmem | hmem := List.mem_append.1 hmem
      · exact hfree ⟨a, hsub (List.mem_append_right _ ha), hmem⟩
      · exact (List.nodup_append'.1 hnodup).2.2 hmem ha

/-! ## The owners of a type -/

/-- No owner of a type is listed twice, and each of them is reached in at most as many steps as
there are levels. An owner that is reached is listed, if there are levels enough for every path to
it that meets no owner twice. -/
theorem ownersOfType_paths (l : Lookup) (type : Ty) :
    (l.ownersOfType type).Nodup ∧
      (∀ o ∈ l.ownersOfType type, ∃ path, l.Leads o type path ∧ path.length ≤ l.maxSuperDepth) ∧
      ∀ o, (∀ path, l.Leads o type path → (met type path).Nodup → path.length ≤ l.maxSuperDepth) →
        (o ∈ l.ownersOfType type ↔
          ∃ path, l.Leads o type path ∧ path.length ≤ l.maxSuperDepth) := by
  have hsound : ∀ o ∈ l.ownersOfType type,
      ∃ path, l.Leads o type path ∧ path.length ≤ l.maxSuperDepth := by
    intro o ho
    obtain ⟨path, hleads, hlength, -⟩ := exists_leads_of_mem_collectOwners ho List.not_mem_nil
    exact ⟨path, hleads, Nat.le_of_lt_succ hlength⟩
  refine ⟨nodup_collectOwners List.nodup_nil, hsound, fun o hshort => ⟨hsound o, ?_⟩⟩
  rintro ⟨path, hleads, -⟩
  by_contra ho
  have hblocked : l.Blocked o [] type :=
    blocked_of_not_mem_collectOwners (fun path hleads hnodup _ =>
      Nat.lt_succ_of_le (hshort path hleads hnodup)) ho
  obtain ⟨a, -, hnil⟩ := hblocked path hleads
  exact List.not_mem_nil hnil

/-! ## An owner that is lost -/

/-- `---@alias A B` and `---@alias B C` above `local x` -/
def aliasOfAlias : Sketch :=
  .block [.node (.comment [.aliasTag "A" "B", .aliasTag "B" "C"]), .declare ["x"] []]

/-- A project with the two aliases, which searches two levels. -/
def twoLevels : Compilation :=
  match (({ config := { maxSuperDepth := 2 } } : Compilation).register "/a.lua").2.update
      [.ofSketch 0 (some aliasOfAlias)] with
  | .ok (_, c) => c
  | .error _ => { config := { maxSuperDepth := 2 } }

/-- `A|B` leads to `C` by way of its second alternative in two steps. The first alternative comes to
`B` in two steps as well, so that `B` is listed and is not gone into again. -/
theorem owner_behind_limit :
    let l := twoLevels.project.toLookup
    let type := Ty.union [.named "A", .named "B"]
    Compilation.Reached { maxSuperDepth := 2 } twoLevels ∧
      (∃ path, l.Leads (.named "C") type path ∧ path.length ≤ l.maxSuperDepth) ∧
      l.ownersOfType type = [.named "A", .named "B"] := by
  intro l type
  have hproper : ∀ t ∈ [SyntaxTree.ofSketch 0 (some aliasOfAlias)], t.Proper :=
    List.forall_mem_singleton.2 (SyntaxTree.proper_ofSketch 0 _ (by decide))
  have hreached : Compilation.Reached { maxSuperDepth := 2 } twoLevels := by
    unfold twoLevels
    split
    · next hupdate => exact (Compilation.Reached.start.register "/a.lua").update hproper hupdate
    · exact .start
  refine ⟨hreached, ⟨[.named "B", .named "C"], ⟨by decide, ?_, rfl⟩, by decide +kernel⟩, ?_⟩
  · decide +kernel
  · decide +kernel

end Lookup

end LuaAnalysis
