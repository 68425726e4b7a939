import LuaAnalysis.Proofs.Syntax.Descent
import LuaAnalysis.Syntax.Walk

/-!
# The events of a walk

A walk enters a node, walks its children from left to right and leaves it. Whenever it enters a node
that is in a proper tree, the nodes that it has entered and not left are those above the node.

Main statement: `events_induction`, an induction over the events of a walk that knows the nodes
entered so far and those not left yet.
-/

namespace LuaAnalysis.SyntaxTree

variable {t : SyntaxTree}

/-- The events of a walk from `id`, at most a number of levels down. -/
def eventsWithin (t : SyntaxTree) : Nat → NodeId → List WalkEvent
  | 0, _ => []
  | levels + 1, id =>
    .enter id :: (t.children id).flatMap (t.eventsWithin levels) ++ [.exit id]

/-- The events of a walk from `id`. -/
def walkEvents (t : SyntaxTree) (id : NodeId) : List WalkEvent :=
  t.eventsWithin (id + 1) id

theorem eventsWithin_stable (h : t.Proper) (k l : Nat) (id : NodeId) (hk : id < k) (hl : id < l) :
    t.eventsWithin k id = t.eventsWithin l id := by
  refine levels_stable (fun k l id hsame => ?_) hk hl
  rw [eventsWithin, eventsWithin]
  congr 2
  exact List.flatMap_congr fun c hc => hsame c (h.child_lt hc)

theorem walkEvents_eq (h : t.Proper) (id : NodeId) :
    t.walkEvents id = .enter id :: (t.children id).flatMap t.walkEvents ++ [.exit id] := by
  rw [walkEvents, eventsWithin]
  congr 2
  apply List.flatMap_congr
  intro c hc
  exact eventsWithin_stable h id (c + 1) c (h.child_lt hc) (Nat.lt_succ_self c)

/-- Nothing is above the root: no node has a source as a part, and a source is no comment. -/
theorem ancestors_root (h : t.Proper) : t.ancestors t.root = [] := by
  obtain ⟨block, hroot⟩ := h.root
  have hparent : t.parent? t.root = none := by
    by_contra hsome
    obtain ⟨p, hp⟩ := Option.ne_none_iff_exists'.1 hsome
    obtain ⟨n, hn, hpart | ⟨_, _, stat, _, hcomment⟩⟩ := mem_children (h.parent?_eq.1 hp)
    · obtain ⟨sort, -, m, hm, hadmits⟩ := h.is_of_part hn hpart
      rw [hroot, Option.some.injEq] at hm
      subst hm
      cases sort <;> cases hadmits
    · obtain ⟨tags, htags⟩ := h.comments hcomment
      rw [hroot] at htags
      cases htags
  cases hsize : t.size with
  | zero => rw [ancestors, hsize, ancestorsWithin]
  | succ n => rw [ancestors, hsize, ancestorsWithin, hparent]

section
variable {σ : Type} {step : σ → WalkEvent → σ} {P : List NodeId → List NodeId → σ → Prop}

/-- What holds of the nodes entered, the nodes not left and a state holds after a walk, when entering
a node that has not been entered preserves it, and leaving the last one that is open does. -/
theorem events_induction (h : t.Proper) {id : NodeId}
    (enter : ∀ entered s x, x ∈ t.below id → x ∉ entered → P entered (t.ancestors x) s →
      P (entered ++ [x]) (x :: t.ancestors x) (step s (.enter x)))
    (exit : ∀ entered s x, x ∈ t.below id → x ∈ entered → P entered (x :: t.ancestors x) s →
      P entered (t.ancestors x) (step s (.exit x)))
    (entered : List NodeId) (s : σ) (hfresh : ∀ x ∈ t.below id, x ∉ entered)
    (hs : P entered (t.ancestors id) s) :
    P (entered ++ t.below id) (t.ancestors id) ((t.walkEvents id).foldl step s) := by
  induction id using Nat.strongRecOn generalizing entered s with
  | _ id ih =>
    have hid : id ∈ t.below id := by
      rw [below_eq h]
      exact List.mem_cons_self
    have hbelow {c x : NodeId} (hc : c ∈ t.children id) (hx : x ∈ t.below c) : x ∈ t.below id := by
      rw [below_eq h]
      exact List.mem_cons_of_mem _ (List.mem_flatMap.2 ⟨c, hc, hx⟩)
    have hnodup := t.nodup_below h id
    rw [below_eq h, List.nodup_cons] at hnodup
    -- The children are walked one after the other, each below the open node.
    have hall : ∀ (cs : List NodeId) (entered : List NodeId) (s : σ),
        (∀ c ∈ cs, c ∈ t.children id) → (cs.flatMap t.below).Nodup →
        (∀ x ∈ cs.flatMap t.below, x ∉ entered) → P entered (id :: t.ancestors id) s →
        P (entered ++ cs.flatMap t.below) (id :: t.ancestors id)
          ((cs.flatMap t.walkEvents).foldl step s) := by
      intro cs
      induction cs with
      | nil =>
        intro entered s _ _ _ hs
        rwa [List.flatMap_nil, List.append_nil]
      | cons c cs ihcs =>
        intro entered s hcs hnodup hfresh hs
        rw [List.flatMap_cons, List.nodup_append] at hnodup
        rw [List.flatMap_cons] at hfresh
        obtain ⟨-, hrest, hdisjoint⟩ := hnodup
        have hc := hcs c List.mem_cons_self
        have hwalk := ih c (h.child_lt hc)
          (fun entered s x hx => enter entered s x (hbelow hc hx))
          (fun entered s x hx => exit entered s x (hbelow hc hx)) entered s
          (fun x hx => hfresh x (List.mem_append_left _ hx)) (by rwa [ancestors_child h hc])
        rw [ancestors_child h hc] at hwalk
        rw [List.flatMap_cons, List.flatMap_cons, List.foldl_append, ← List.append_assoc]
        refine ihcs _ _ (fun d hd => hcs d (List.mem_cons_of_mem _ hd)) hrest ?_ hwalk
        intro x hx hmem
        rcases List.mem_append.1 hmem with hmem | hmem
        · exact hfresh x (List.mem_append_right _ hx) hmem
        · exact hdisjoint x hmem x hx rfl
    have henter := enter entered s id hid (hfresh id hid) hs
    have hchildren := hall (t.children id) (entered ++ [id]) (step s (.enter id)) (fun _ hc => hc)
      hnodup.2 (fun x hx hmem => by
        rcases List.mem_append.1 hmem with hmem | hmem
        · obtain ⟨c, hc, hx⟩ := List.mem_flatMap.1 hx
          exact hfresh x (hbelow hc hx) hmem
        · obtain rfl := List.mem_singleton.1 hmem
          exact hnodup.1 hx) henter
    rw [walkEvents_eq h, below_eq h, List.cons_append, List.foldl_cons, List.foldl_append,
      ← List.singleton_append, ← List.append_assoc]
    exact exit _ _ id hid (by simp) hchildren

end

end LuaAnalysis.SyntaxTree
