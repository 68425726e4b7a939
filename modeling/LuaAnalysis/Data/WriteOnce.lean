/-!
# Cells that are written once

A `WriteOnce` store has one cell for every key. A cell is empty until something is put into it, and
what is put into a cell that is not empty is dropped.
-/

namespace LuaAnalysis

structure WriteOnce (κ α : Type) where
  written : List (κ × α) := []
deriving DecidableEq

namespace WriteOnce

variable {κ α : Type} [DecidableEq κ]

/-- What the cell of a key holds. -/
def get? (w : WriteOnce κ α) (k : κ) : Option α :=
  (w.written.find? fun cell => cell.1 = k).map Prod.snd

def put (w : WriteOnce κ α) (k : κ) (a : α) : WriteOnce κ α :=
  if (w.get? k).isSome then w else ⟨(k, a) :: w.written⟩

@[simp] theorem get?_empty (k : κ) : ({} : WriteOnce κ α).get? k = none :=
  rfl

theorem get?_put (w : WriteOnce κ α) (k k' : κ) (a : α) :
    (w.put k a).get? k' = if k' = k then some ((w.get? k).getD a) else w.get? k' := by
  unfold put
  cases h : w.get? k with
  | some b =>
    by_cases hk : k' = k
    · subst hk; simp [h]
    · simp [hk]
  | none =>
    by_cases hk : k' = k
    · subst hk; simp [get?]
    · simp [get?, hk, Ne.symm hk]

theorem get?_put_of_ne (w : WriteOnce κ α) {k k' : κ} (a : α) (h : k' ≠ k) :
    (w.put k a).get? k' = w.get? k' := by
  rw [get?_put, if_neg h]

/-- A full cell keeps what it holds. -/
theorem get?_put_of_some {w : WriteOnce κ α} {k k' : κ} {a b : α} (h : w.get? k' = some b) :
    (w.put k a).get? k' = some b := by
  rw [get?_put]
  split
  · next hk => subst hk; simp [h]
  · exact h

end WriteOnce

end LuaAnalysis
