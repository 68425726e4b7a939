import LuaAnalysis.Project.Lookup
import Mathlib.Data.Prod.Lex

/-!
# The first of the least values

`firstLeast?` compares values by keys. Where the comparison is that of a linear order, it finds the
first of the values that no other is less than (`FirstLeast`), and there is just one such value.

Main statement: `firstLeast?_eq_some_iff`.
-/

namespace LuaAnalysis

/-! ## Any comparison -/

section

variable {α κ : Type} {before : κ → κ → Bool} {key : α → κ} {xs : List α} {x : α}

theorem firstLeast?_eq_none : firstLeast? before key xs = none ↔ xs = [] := by
  cases xs with
  | nil => simp [firstLeast?]
  | cons a xs =>
    rw [firstLeast?]
    split <;> try split
    all_goals simp

theorem mem_of_firstLeast? (h : firstLeast? before key xs = some x) : x ∈ xs := by
  induction xs generalizing x with
  | nil => cases h
  | cons a rest ih =>
    unfold firstLeast? at h
    split at h
    · next b hb =>
      split at h
      · obtain rfl := Option.some.inj h
        exact List.mem_cons_of_mem _ (ih hb)
      · obtain rfl := Option.some.inj h
        exact List.mem_cons_self
    · obtain rfl := Option.some.inj h
      exact List.mem_cons_self

theorem firstLeast?_map {α β κ : Type} (before : κ → κ → Bool) (key : α → κ) (key' : β → κ)
    (f : α → β) (hkey : ∀ a, key' (f a) = key a) (as : List α) :
    firstLeast? before key' (as.map f) = (firstLeast? before key as).map f := by
  induction as with
  | nil => rfl
  | cons a rest ih =>
    rw [List.map_cons, firstLeast?, firstLeast?, ih]
    cases firstLeast? before key rest with
    | none => rfl
    | some b =>
      simp only [Option.map_some, hkey]
      split <;> rfl

end

/-! ## A linear order -/

section FirstLeast

variable {α κ κ' : Type} [LinearOrder κ'] {before : κ → κ → Bool} {key : α → κ} {rank : α → κ'}
  {xs : List α} {x : α}

/-- A value with the least rank, and the first of them. -/
def FirstLeast (rank : α → κ') (xs : List α) (x : α) : Prop :=
  ∃ front back, xs = front ++ x :: back ∧ (∀ a ∈ front, rank x < rank a) ∧
    ∀ a ∈ back, rank x ≤ rank a

theorem FirstLeast.le (h : FirstLeast rank xs x) {a : α} (ha : a ∈ xs) : rank x ≤ rank a := by
  obtain ⟨front, back, rfl, hfront, hback⟩ := h
  obtain ha | ha := List.mem_append.1 ha
  · exact (hfront a ha).le
  · obtain rfl | ha := List.mem_cons.1 ha
    · exact le_rfl
    · exact hback a ha

theorem FirstLeast.unique {y : α} (hx : FirstLeast rank xs x) (hy : FirstLeast rank xs y) :
    x = y := by
  induction xs with
  | nil =>
    obtain ⟨front, back, hnil, -⟩ := hx
    simp at hnil
  | cons a xs ih =>
    obtain ⟨front, back, hxs, hfront, hback⟩ := id hx
    obtain ⟨front', back', hxs', hfront', hback'⟩ := id hy
    -- Either the head is the first least one, or the rest has the same one.
    rcases front with _ | ⟨b, front⟩ <;> rcases front' with _ | ⟨b', front'⟩
    · obtain ⟨rfl, -⟩ := List.cons.inj hxs
      exact (List.cons.inj hxs').1
    · obtain ⟨rfl, -⟩ := List.cons.inj hxs
      obtain ⟨rfl, -⟩ := List.cons.inj hxs'
      have hmem : y ∈ a :: xs := hxs' ▸ List.mem_append_right _ List.mem_cons_self
      exact absurd (hx.le hmem) (hfront' a List.mem_cons_self).not_ge
    · obtain ⟨rfl, -⟩ := List.cons.inj hxs'
      obtain ⟨rfl, -⟩ := List.cons.inj hxs
      have hmem : x ∈ a :: xs := hxs ▸ List.mem_append_right _ List.mem_cons_self
      exact absurd (hy.le hmem) (hfront a List.mem_cons_self).not_ge
    · refine ih ⟨front, back, (List.cons.inj hxs).2, ?_, hback⟩
        ⟨front', back', (List.cons.inj hxs').2, ?_, hback'⟩
      · exact fun c hc => hfront c (List.mem_cons_of_mem _ hc)
      · exact fun c hc => hfront' c (List.mem_cons_of_mem _ hc)

/-- The first least value stays the first least one when others are left out. -/
theorem FirstLeast.filter {p : α → Bool} (h : FirstLeast rank xs x) (hx : p x = true) :
    FirstLeast rank (xs.filter p) x := by
  obtain ⟨front, back, rfl, hfront, hback⟩ := h
  refine ⟨front.filter p, back.filter p, ?_, fun a ha => hfront a (List.mem_filter.1 ha).1,
    fun a ha => hback a (List.mem_filter.1 ha).1⟩
  rw [List.filter_append, List.filter_cons_of_pos hx]

/-- Where no two values have one rank, it does not matter in which order the values stand. -/
theorem FirstLeast.of_mem_iff {ys : List α} (hmem : ∀ a, a ∈ ys ↔ a ∈ xs)
    (hapart : ∀ a ∈ xs, ∀ b ∈ xs, rank a = rank b → a = b) (h : FirstLeast rank xs x) :
    FirstLeast rank ys x := by
  have hx : x ∈ xs := by
    obtain ⟨front, back, rfl, -⟩ := h
    exact List.mem_append_right _ List.mem_cons_self
  obtain ⟨front, back, hys, hfirst⟩ := List.eq_append_cons_of_mem ((hmem x).2 hx)
  have hold {a : α} (ha : a ∈ front ∨ a ∈ back) : a ∈ xs := by
    rw [← hmem, hys, List.mem_append, List.mem_cons]
    exact ha.imp_right .inr
  refine ⟨front, back, hys, fun a ha => ?_, fun a ha => h.le (hold (.inr ha))⟩
  refine lt_of_le_of_ne (h.le (hold (.inl ha))) fun hrank => hfirst ?_
  rwa [hapart x hx a (hold (.inl ha)) hrank]

/-- If keys are compared as ranks are, the first value with the least key has the least rank. -/
theorem firstLeast_of_firstLeast?
    (hbefore : ∀ a b, before (key a) (key b) = true ↔ rank a < rank b)
    (h : firstLeast? before key xs = some x) : FirstLeast rank xs x := by
  induction xs generalizing x with
  | nil => cases h
  | cons a xs ih =>
    unfold firstLeast? at h
    split at h
    · next b hb =>
      have hleast := ih hb
      split at h
      · next hlt =>
        obtain rfl := Option.some.inj h
        obtain ⟨front, back, rfl, hfront, hback⟩ := hleast
        exact ⟨a :: front, back, rfl, List.forall_mem_cons.2 ⟨(hbefore _ _).1 hlt, hfront⟩, hback⟩
      · next hlt =>
        obtain rfl := Option.some.inj h
        have hle : rank a ≤ rank b := not_lt.1 fun hlt' => hlt ((hbefore _ _).2 hlt')
        exact ⟨[], xs, rfl, fun _ hc => absurd hc List.not_mem_nil,
          fun c hc => hle.trans (hleast.le hc)⟩
    · next hnone =>
      obtain rfl := Option.some.inj h
      obtain rfl := firstLeast?_eq_none.1 hnone
      exact ⟨[], [], rfl, fun _ hc => absurd hc List.not_mem_nil,
        fun _ hc => absurd hc List.not_mem_nil⟩

theorem firstLeast?_eq_some_iff
    (hbefore : ∀ a b, before (key a) (key b) = true ↔ rank a < rank b) :
    firstLeast? before key xs = some x ↔ FirstLeast rank xs x := by
  refine ⟨firstLeast_of_firstLeast? hbefore, fun h => ?_⟩
  cases hfound : firstLeast? before key xs with
  | none =>
    obtain ⟨front, back, hxs, -⟩ := h
    rw [firstLeast?_eq_none.1 hfound] at hxs
    simp at hxs
  | some y => rw [(firstLeast_of_firstLeast? hbefore hfound).unique h]

theorem tripleBefore_iff {a b : Nat × Nat × Nat} :
    tripleBefore a b = true ↔ toLex (a.1, toLex a.2) < toLex (b.1, toLex b.2) := by
  simp [tripleBefore, Prod.Lex.toLex_lt_toLex]

/-- What has the least key has no greater first part than anything else. -/
theorem le_of_firstLeast? {key : α → Nat × Nat × Nat} {a : α}
    (h : firstLeast? tripleBefore key xs = some x) (ha : a ∈ xs) : (key x).1 ≤ (key a).1 := by
  have hle := (firstLeast_of_firstLeast? (fun _ _ => tripleBefore_iff) h).le ha
  obtain hlt | ⟨heq, -⟩ := Prod.Lex.toLex_le_toLex.1 hle
  · exact Nat.le_of_lt hlt
  · exact Nat.le_of_eq heq

end FirstLeast

end LuaAnalysis

