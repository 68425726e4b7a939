import LuaAnalysis.File.Model

/-!
# What a look-up finds

Whatever scopes there are, a look-up finds declarations that its use sees: values of the name that it
looks for, made before it.

Main statements: `ScopeTree.find?_sound`, `FileModel.find?_sound`.
-/

namespace LuaAnalysis

namespace ScopeTree

variable {t : ScopeTree} {decls : Array Declaration} {name : String} {position : Nat} {i : DeclId}

/-- Whether an id is that of a declaration which a use sees. -/
def Seen (decls : Array Declaration) (name : String) (position : Nat) (i : DeclId) : Prop :=
  ∃ d, decls[i]? = some d ∧ sees name position d = true

theorem lastSeen?_sound {ids : List DeclId} (h : lastSeen? decls name position ids = some i) :
    Seen decls name position i := by
  have hseen := List.find?_some h
  cases hd : decls[i]? with
  | none =>
    rw [hd] at hseen
    cases hseen
  | some d =>
    rw [hd, Option.any_some] at hseen
    exact ⟨d, hd, hseen⟩

theorem shownByEnded?_sound {inner : ScopeId}
    (h : t.shownByEnded? decls name position inner = some i) : Seen decls name position i := by
  unfold shownByEnded? at h
  split at h
  · split at h
    · exact lastSeen?_sound h
    · cases h
  · cases h

/-- A scope gives what is seen, when the scopes inside show what is seen. -/
theorem findItem?_sound {shown? : ScopeId → Option DeclId} {s : Scope}
    (hshown : ∀ {inner i}, shown? inner = some i → Seen decls name position i)
    (h : findItem? decls name position shown? s = some i) : Seen decls name position i := by
  obtain ⟨x, -, hx⟩ := List.exists_of_findSome?_eq_some h
  cases x with
  | decl id => exact lastSeen?_sound hx
  | scope inner => exact hshown hx

theorem shownToCondition?_sound {inner : ScopeId}
    (h : t.shownToCondition? decls name position inner = some i) : Seen decls name position i := by
  unfold shownToCondition? at h
  split at h
  · split at h
    · exact findItem?_sound (fun h => shownByEnded?_sound h) h
    · exact shownByEnded?_sound h
  · cases h

theorem findAround?_sound {s : Scope} (h : t.findAround? decls name position s = some i) :
    Seen decls name position i := by
  have hfind (h : findItem? decls name position (t.shownByEnded? decls name position) s = some i) :
      Seen decls name position i :=
    findItem?_sound (fun h => shownByEnded?_sound h) h
  unfold findAround? at h
  dsimp only at h
  split at h
  · cases h
  · split at h
    · cases h
    · exact hfind h
  · split at h
    · cases h
    · exact hfind h
  · exact findItem?_sound (fun h => shownToCondition?_sound h) h
  · exact hfind h

theorem findWithin?_sound {steps : Nat} {id : ScopeId}
    (h : t.findWithin? decls name position steps id = some i) : Seen decls name position i := by
  induction steps generalizing id with
  | zero => cases h
  | succ steps ih =>
    unfold findWithin? at h
    split at h
    · next s _ =>
      split at h
      · next found hfound =>
        obtain rfl := Option.some.inj h
        exact findAround?_sound hfound
      · obtain ⟨p, -, hp⟩ := Option.bind_eq_some_iff.1 h
        exact ih hp
    · cases h

theorem find?_sound {id : ScopeId} (h : t.find? decls name position id = some i) :
    Seen decls name position i :=
  findWithin?_sound h

end ScopeTree

/-- A use of a name finds a value of this name that stands before it. -/
theorem FileModel.find?_sound {m : FileModel} {u : NodeId} {name : String} {i : DeclId}
    (h : m.find? u name = some i) : ∃ d, m.decl? i = some d ∧ d.kind.isValue = true ∧
      d.name = name ∧ d.position < (m.tree.span u).start := by
  obtain ⟨sid, -, hfind⟩ := Option.bind_eq_some_iff.1 h
  obtain ⟨d, hd, hsees⟩ := ScopeTree.find?_sound hfind
  simp only [ScopeTree.sees, Bool.and_eq_true, beq_iff_eq, decide_eq_true_eq] at hsees
  exact ⟨d, hd, hsees.1.1, hsees.1.2, hsees.2⟩

end LuaAnalysis
