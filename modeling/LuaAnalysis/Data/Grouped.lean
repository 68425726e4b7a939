/-!
# Values grouped under keys

A `Grouped` table keeps, for every key, the values put under it. Keys stand in the order of their
first use and the values of a key in the order in which they came.

The view of a table is `values`; `values_add` and `values_addNew` say what the two operations do to
it.
-/

namespace LuaAnalysis

structure Grouped (κ α : Type) where
  groups : List (κ × List α) := []
deriving DecidableEq

namespace Grouped

variable {κ α : Type} [DecidableEq κ]

/-- The values of a key in a list of groups. -/
def valuesIn (k : κ) : List (κ × List α) → List α
  | [] => []
  | (key, vs) :: rest => if key = k then vs else valuesIn k rest

/-- Puts a value behind those that its key has already. -/
def addTo (k : κ) (a : α) : List (κ × List α) → List (κ × List α)
  | [] => [(k, [a])]
  | (key, vs) :: rest => if key = k then (key, vs ++ [a]) :: rest else (key, vs) :: addTo k a rest

/-- Everything put under `k`. -/
def values (g : Grouped κ α) (k : κ) : List α :=
  valuesIn k g.groups

def add (g : Grouped κ α) (k : κ) (a : α) : Grouped κ α :=
  ⟨addTo k a g.groups⟩

/-- Adds a value unless its key has it already. -/
def addNew [DecidableEq α] (g : Grouped κ α) (k : κ) (a : α) : Grouped κ α :=
  if a ∈ g.values k then g else g.add k a

def keys (g : Grouped κ α) : List κ :=
  g.groups.map Prod.fst

/-- The keys under which a value stands. -/
def keysOf [DecidableEq α] (g : Grouped κ α) (a : α) : List κ :=
  (g.groups.filter fun group => a ∈ group.2).map Prod.fst

theorem valuesIn_addTo (k k' : κ) (a : α) (groups : List (κ × List α)) :
    valuesIn k' (addTo k a groups) =
      if k' = k then valuesIn k' groups ++ [a] else valuesIn k' groups := by
  induction groups with
  | nil => by_cases h : k' = k <;> simp [addTo, valuesIn, h, Ne.symm]
  | cons group rest ih =>
    obtain ⟨key, vs⟩ := group
    by_cases hk : key = k
    · subst hk
      by_cases h : k' = key
      · simp [addTo, valuesIn, h]
      · simp [addTo, valuesIn, h, Ne.symm h]
    · by_cases h : k' = k
      · subst h
        simpa [addTo, valuesIn, hk] using ih
      · by_cases h' : key = k' <;> simp_all [addTo, valuesIn]

@[simp] theorem values_empty (k : κ) : ({} : Grouped κ α).values k = [] :=
  rfl

theorem values_add (g : Grouped κ α) (k k' : κ) (a : α) :
    (g.add k a).values k' = if k' = k then g.values k' ++ [a] else g.values k' :=
  valuesIn_addTo k k' a g.groups

theorem values_addNew [DecidableEq α] (g : Grouped κ α) (k k' : κ) (a : α) :
    (g.addNew k a).values k' =
      if k' = k ∧ a ∉ g.values k then g.values k' ++ [a] else g.values k' := by
  by_cases h : a ∈ g.values k <;> simp [addNew, h, values_add]

theorem mem_values_add {g : Grouped κ α} {k k' : κ} {a b : α} :
    b ∈ (g.add k a).values k' ↔ b ∈ g.values k' ∨ k' = k ∧ b = a := by
  rw [values_add]
  split <;> simp [*]

theorem mem_values_addNew [DecidableEq α] {g : Grouped κ α} {k k' : κ} {a b : α} :
    b ∈ (g.addNew k a).values k' ↔ b ∈ g.values k' ∨ k' = k ∧ b = a := by
  rw [values_addNew]
  by_cases hk : k' = k
  · by_cases ha : a ∈ g.values k
    · simp only [ha, not_true_eq_false, and_false, if_false, hk, true_and]
      exact ⟨Or.inl, fun h => h.elim id fun h => h ▸ ha⟩
    · simp [hk, ha]
  · simp [hk]

/-! ## Keys -/

theorem mem_map_fst_addTo {k k' : κ} {a : α} {groups : List (κ × List α)} :
    k' ∈ (addTo k a groups).map Prod.fst ↔ k' = k ∨ k' ∈ groups.map Prod.fst := by
  induction groups with
  | nil => simp [addTo]
  | cons group rest ih =>
    obtain ⟨key, vs⟩ := group
    by_cases hk : key = k
    · subst hk
      simp [addTo]
    · rw [addTo, if_neg hk, List.map_cons, List.mem_cons, ih, List.map_cons, List.mem_cons]
      exact or_left_comm

/-- Every key has one group. -/
theorem nodup_keys_add {g : Grouped κ α} (h : g.keys.Nodup) (k : κ) (a : α) :
    (g.add k a).keys.Nodup := by
  obtain ⟨groups⟩ := g
  unfold keys add at *
  dsimp only at *
  induction groups with
  | nil => simp [addTo]
  | cons group rest ih =>
    obtain ⟨key, vs⟩ := group
    obtain ⟨hkey, hrest⟩ := List.nodup_cons.1 h
    by_cases hk : key = k
    · rwa [addTo, if_pos hk]
    · rw [addTo, if_neg hk, List.map_cons, List.nodup_cons]
      refine ⟨fun hmem => ?_, ih hrest⟩
      exact (mem_map_fst_addTo.1 hmem).elim hk hkey

theorem nodup_keys_addNew [DecidableEq α] {g : Grouped κ α} (h : g.keys.Nodup) (k : κ) (a : α) :
    (g.addNew k a).keys.Nodup := by
  unfold addNew
  split
  · exact h
  · exact nodup_keys_add h k a

/-- A value stands under the keys that have it. -/
theorem mem_keysOf [DecidableEq α] {g : Grouped κ α} (h : g.keys.Nodup) {k : κ} {a : α} :
    k ∈ g.keysOf a ↔ a ∈ g.values k := by
  obtain ⟨groups⟩ := g
  unfold keys keysOf values at *
  dsimp only at *
  induction groups with
  | nil => simp [valuesIn]
  | cons group rest ih =>
    obtain ⟨key, vs⟩ := group
    obtain ⟨hkey, hrest⟩ := List.nodup_cons.1 h
    have ih := ih hrest
    by_cases hk : key = k
    · subst hk
      have hnone : key ∉ (rest.filter fun group => a ∈ group.2).map Prod.fst := fun hmem =>
        hkey (((List.filter_sublist).map Prod.fst).mem hmem)
      rw [valuesIn, if_pos rfl, List.filter_cons]
      split
      · next ha => simpa using ha
      · next ha => simpa [hnone] using ha
    · rw [valuesIn, if_neg hk, ← ih, List.filter_cons]
      split
      · rw [List.map_cons, List.mem_cons]
        exact or_iff_right fun heq => hk heq.symm
      · rfl

end Grouped

end LuaAnalysis
