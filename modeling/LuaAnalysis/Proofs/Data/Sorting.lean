import LuaAnalysis.Data.DependencyGraph
import Mathlib.Data.List.Basic
import Mathlib.Data.List.Nodup
import Mathlib.Data.List.Perm.Subperm
import Mathlib.Logic.Relation

/-!
# Sorting dependency graphs

The depth-first search of `DependencyGraph.sort` keeps one invariant, `Walking`: what is listed is
listed once, is not on the path being walked, and has everything it depends on listed before it
unless it lies on a reported cycle.

Main statements: the order lists every node once (`nodup_order_sort`, `mem_order_sort`), a node that
lies on no reported cycle stands behind all it depends on (`settled_sort`), and a graph without
cycles has none reported (`cycles_sort`).
-/

namespace LuaAnalysis.DependencyGraph

variable {α : Type} [DecidableEq α]

/-! ## Building a graph -/

/-- Nodes are listed once, and edges join listed nodes. -/
structure WellFormed (g : DependencyGraph α) : Prop where
  nodup : g.nodes.Nodup
  ends : ∀ e ∈ g.edges, e.1 ∈ g.nodes ∧ e.2 ∈ g.nodes

theorem mem_nodes_addNode {g : DependencyGraph α} {a x : α} :
    x ∈ (g.addNode a).nodes ↔ x ∈ g.nodes ∨ x = a := by
  unfold addNode
  split
  next ha =>
    constructor
    · exact Or.inl
    · rintro (hx | rfl)
      · exact hx
      · exact ha
  next => simp

@[simp] theorem edges_addNode (g : DependencyGraph α) (a : α) : (g.addNode a).edges = g.edges := by
  unfold addNode
  split <;> rfl

theorem mem_nodes_addDependency {g : DependencyGraph α} {a b x : α} :
    x ∈ (g.addDependency a b).nodes ↔ x ∈ g.nodes ∨ x = a ∨ x = b := by
  have hnodes : (g.addDependency a b).nodes = ((g.addNode a).addNode b).nodes := by
    simp only [addDependency]
    split <;> rfl
  rw [hnodes, mem_nodes_addNode, mem_nodes_addNode, or_assoc]

theorem mem_edges_addDependency {g : DependencyGraph α} {a b : α} {e : α × α} :
    e ∈ (g.addDependency a b).edges ↔ e ∈ g.edges ∨ e = (a, b) := by
  simp only [addDependency, edges_addNode]
  split
  next h =>
    constructor
    · intro he
      exact Or.inl (by simpa using he)
    · rintro (he | rfl)
      · simpa using he
      · simpa using h
  next => simp

omit [DecidableEq α] in
theorem wellFormed_empty : ({} : DependencyGraph α).WellFormed :=
  ⟨List.nodup_nil, by simp⟩

theorem WellFormed.addNode {g : DependencyGraph α} (hg : g.WellFormed) (a : α) :
    (g.addNode a).WellFormed := by
  refine ⟨?_, fun e he => ?_⟩
  · unfold DependencyGraph.addNode
    split
    next => exact hg.nodup
    next ha => exact hg.nodup.append (List.nodup_singleton a) (by simpa using ha)
  · rw [edges_addNode] at he
    exact ⟨mem_nodes_addNode.2 (Or.inl (hg.ends e he).1),
      mem_nodes_addNode.2 (Or.inl (hg.ends e he).2)⟩

theorem WellFormed.addDependency {g : DependencyGraph α} (hg : g.WellFormed) (a b : α) :
    (g.addDependency a b).WellFormed := by
  refine ⟨?_, fun e he => ?_⟩
  · have h := ((hg.addNode a).addNode b).nodup
    simp only [DependencyGraph.addDependency]
    split <;> exact h
  · rw [mem_edges_addDependency] at he
    rw [mem_nodes_addDependency, mem_nodes_addDependency]
    rcases he with he | rfl
    · exact ⟨Or.inl (hg.ends e he).1, Or.inl (hg.ends e he).2⟩
    · exact ⟨Or.inr (Or.inl rfl), Or.inr (Or.inr rfl)⟩

theorem mem_dependenciesOf {g : DependencyGraph α} {a b : α} :
    b ∈ g.dependenciesOf a ↔ (a, b) ∈ g.edges := by
  simp only [dependenciesOf, List.mem_map, List.mem_filter, decide_eq_true_eq]
  constructor
  · rintro ⟨⟨x, y⟩, ⟨he, rfl⟩, rfl⟩
    exact he
  · intro he
    exact ⟨(a, b), ⟨he, rfl⟩, rfl⟩

/-! ## The search -/

/-- Every listed node has what it depends on before it, unless it lies on a reported cycle. -/
def Settled (g : DependencyGraph α) (s : SortedNodes α) : Prop :=
  ∀ before a after, s.order = before ++ a :: after →
    ∀ b, (a, b) ∈ g.edges → b ∈ before ∨ a ∈ s.cycles.flatten

/-- The invariant of the search while `path` is being walked. -/
structure Walking (g : DependencyGraph α) (path : List α) (s : SortedNodes α) : Prop where
  nodup : s.order.Nodup
  listed : s.order ⊆ g.nodes
  apart : ∀ a ∈ path, a ∉ s.order
  settled : g.Settled s

/-- Nothing that was listed or reported is taken back. -/
structure Grows (s s' : SortedNodes α) : Prop where
  order : s.order <+: s'.order
  cycles : s.cycles <+: s'.cycles

omit [DecidableEq α] in
theorem Grows.refl (s : SortedNodes α) : Grows s s :=
  ⟨List.prefix_rfl, List.prefix_rfl⟩

omit [DecidableEq α] in
theorem Grows.trans {s s' s'' : SortedNodes α} (h : Grows s s') (h' : Grows s' s'') :
    Grows s s'' :=
  ⟨h.order.trans h'.order, h.cycles.trans h'.cycles⟩

omit [DecidableEq α] in
theorem Grows.mem_cycles {s s' : SortedNodes α} (h : Grows s s') {a : α}
    (ha : a ∈ s.cycles.flatten) : a ∈ s'.cycles.flatten := by
  obtain ⟨more, hmore⟩ := h.cycles
  rw [← hmore, List.flatten_append]
  exact List.mem_append_left _ ha

/-- What the search does with one thing that the last node of `here` depends on. -/
def follow (g : DependencyGraph α) (steps : Nat) (here : List α) (s : SortedNodes α) (b : α) :
    SortedNodes α :=
  if b ∈ here then { s with cycles := s.cycles ++ [here.dropWhile (· ≠ b) ++ [b]] }
  else if b ∈ s.order then s
  else g.visit steps here b s

theorem visit_succ (g : DependencyGraph α) (steps : Nat) (path : List α) (a : α)
    (s : SortedNodes α) :
    g.visit (steps + 1) path a s =
      let s := (g.dependenciesOf a).foldl (g.follow steps (path ++ [a])) s
      { s with order := s.order ++ [a] } :=
  rfl

/-- A cycle that is closed begins somewhere on the path and goes on to its end. -/
theorem mem_closed {path : List α} {a b : α} (hb : b ∈ path ++ [a]) :
    a ∈ (path ++ [a]).dropWhile (· ≠ b) := by
  induction path with
  | nil =>
    obtain rfl : b = a := by simpa using hb
    simp
  | cons x path ih =>
    rw [List.cons_append, List.dropWhile_cons]
    split
    next hx =>
      apply ih
      have hne : b ≠ x := fun h => by simp [h] at hx
      simpa [hne] using hb
    next => simp

/-- What is dropped from the path stands before the node that the cycle begins with. -/
theorem dropWhile_closed {path : List α} {a b : α} (hb : b ∈ path ++ [a]) :
    ∃ inner, (path ++ [a]).dropWhile (· ≠ b) = b :: inner := by
  obtain ⟨x, inner, hx⟩ := List.exists_cons_of_ne_nil (List.ne_nil_of_mem (mem_closed hb))
  have hhead := List.head?_dropWhile_not (· ≠ b) (path ++ [a])
  rw [hx] at hhead
  obtain rfl : x = b := by simpa using hhead
  exact ⟨inner, hx⟩

omit [DecidableEq α] in
/-- What has been listed stays apart from a path that goes on to a new node. -/
theorem Walking.onto {g : DependencyGraph α} {path : List α} {a : α} {s : SortedNodes α}
    (hs : g.Walking path s) (hnew : a ∉ s.order) : g.Walking (path ++ [a]) s := by
  refine ⟨hs.nodup, hs.listed, fun x hx => ?_, hs.settled⟩
  rcases List.mem_append.1 hx with hx | hx
  · exact hs.apart x hx
  · obtain rfl := List.mem_singleton.1 hx
    exact hnew

omit [DecidableEq α] in
theorem settled_report {g : DependencyGraph α} {s : SortedNodes α} (hs : g.Settled s)
    (cycle : List α) : g.Settled { s with cycles := s.cycles ++ [cycle] } := by
  intro before a after h b hb
  refine (hs before a after h b hb).imp id fun ha => ?_
  rw [List.flatten_append]
  exact List.mem_append_left _ ha

omit [DecidableEq α] in
theorem settled_list {g : DependencyGraph α} {s : SortedNodes α} {a : α} (hs : g.Settled s)
    (ha : ∀ b, (a, b) ∈ g.edges → b ∈ s.order ∨ a ∈ s.cycles.flatten) :
    g.Settled { s with order := s.order ++ [a] } := by
  intro before x after h b hb
  -- The node in question is the new one or one of those listed already.
  rcases List.eq_nil_or_concat after with rfl | ⟨init, last, rfl⟩
  · obtain ⟨rfl, hx⟩ := List.append_inj' h rfl
    obtain rfl : a = x := by simpa using hx
    exact ha b hb
  · have h' : s.order ++ [a] = (before ++ x :: init) ++ [last] := by simpa using h
    exact hs before x init (List.append_inj' h' rfl).1 b hb

section
variable {g : DependencyGraph α} {path : List α} {a : α} {steps : Nat}

/-- Following the edges of `a` keeps the invariant, when visits of `steps` keep it. -/
theorem foldl_follow (hg : g.WellFormed)
    (hvisit : ∀ b s, g.Walking (path ++ [a]) s → b ∈ g.nodes → b ∉ path ++ [a] → b ∉ s.order →
      g.Walking (path ++ [a]) (g.visit steps (path ++ [a]) b s) ∧
        Grows s (g.visit steps (path ++ [a]) b s) ∧
        b ∈ (g.visit steps (path ++ [a]) b s).order)
    (bs : List α) (hbs : ∀ b ∈ bs, (a, b) ∈ g.edges) (s : SortedNodes α)
    (hs : g.Walking (path ++ [a]) s) :
    let s' := bs.foldl (g.follow steps (path ++ [a])) s
    g.Walking (path ++ [a]) s' ∧ Grows s s' ∧
      ∀ b ∈ bs, b ∈ s'.order ∨ a ∈ s'.cycles.flatten := by
  induction bs generalizing s with
  | nil => exact ⟨hs, Grows.refl s, by simp⟩
  | cons b bs ih =>
    have hedge := hbs b List.mem_cons_self
    have hstep : g.Walking (path ++ [a]) (g.follow steps (path ++ [a]) s b) ∧
        Grows s (g.follow steps (path ++ [a]) s b) ∧
        (b ∈ (g.follow steps (path ++ [a]) s b).order ∨
          a ∈ (g.follow steps (path ++ [a]) s b).cycles.flatten) := by
      -- A dependency is on the path and closes a cycle, or it is listed, or it is visited.
      unfold follow
      split
      next hb =>
        refine ⟨⟨hs.nodup, hs.listed, hs.apart, settled_report hs.settled _⟩,
          ⟨List.prefix_rfl, List.prefix_append _ _⟩, Or.inr ?_⟩
        rw [List.flatten_append]
        exact List.mem_append_right _ (by simpa using Or.inl (mem_closed hb))
      next hb =>
        split
        next hlisted => exact ⟨hs, Grows.refl s, Or.inl hlisted⟩
        next hlisted =>
          obtain ⟨hw, hgrow, hmem⟩ := hvisit b s hs (hg.ends _ hedge).2 hb hlisted
          exact ⟨hw, hgrow, Or.inl hmem⟩
    obtain ⟨hw, hgrow, hmem⟩ := hstep
    obtain ⟨hw', hgrow', hmem'⟩ := ih (fun x hx => hbs x (List.mem_cons_of_mem _ hx)) _ hw
    refine ⟨hw', hgrow.trans hgrow', fun x hx => ?_⟩
    rcases List.mem_cons.1 hx with rfl | hx
    · exact hmem.imp (fun h => hgrow'.order.subset h) hgrow'.mem_cycles
    · exact hmem' x hx

end

/-- A visit keeps the invariant and lists its node. The path never repeats a node, so the steps
cannot run out as long as they and the path cover all nodes. -/
theorem visit_spec {g : DependencyGraph α} (hg : g.WellFormed) (steps : Nat) (path : List α) (a : α)
    (s : SortedNodes α) (hs : g.Walking path s) (hpath : (path ++ [a]).Nodup)
    (hsub : path ++ [a] ⊆ g.nodes) (hnew : a ∉ s.order)
    (hsteps : g.nodes.length ≤ path.length + steps) :
    g.Walking path (g.visit steps path a s) ∧ Grows s (g.visit steps path a s) ∧
      a ∈ (g.visit steps path a s).order := by
  induction steps generalizing path a s with
  | zero =>
    -- A path without duplicates is no longer than there are nodes, so steps are left.
    have hle : (path ++ [a]).length ≤ g.nodes.length := (hpath.subperm hsub).length_le
    rw [List.length_append, List.length_singleton] at hle
    omega
  | succ steps ih =>
    have hhere : g.Walking (path ++ [a]) s := hs.onto hnew
    have hvisit : ∀ b s, g.Walking (path ++ [a]) s → b ∈ g.nodes → b ∉ path ++ [a] →
        b ∉ s.order →
        g.Walking (path ++ [a]) (g.visit steps (path ++ [a]) b s) ∧
          Grows s (g.visit steps (path ++ [a]) b s) ∧
          b ∈ (g.visit steps (path ++ [a]) b s).order := by
      intro b s hs hb hfresh hlisted
      apply ih _ _ _ hs
      · exact hpath.append (List.nodup_singleton b) (by simpa using hfresh)
      · exact List.append_subset.2 ⟨hsub, by simpa using hb⟩
      · exact hlisted
      · rw [List.length_append, List.length_singleton]
        omega
    obtain ⟨hw, hgrow, hdeps⟩ := foldl_follow hg hvisit (g.dependenciesOf a)
      (fun b hb => mem_dependenciesOf.1 hb) s hhere
    have ha : a ∈ path ++ [a] := by simp
    -- The node itself is listed last, when all that it depends on has been followed.
    rw [visit_succ]
    refine ⟨⟨?_, ?_, ?_, ?_⟩, ?_, by simp⟩
    · exact hw.nodup.append (List.nodup_singleton a) (by simpa using hw.apart a ha)
    · exact List.append_subset.2 ⟨hw.listed, by simpa using hsub ha⟩
    · intro x hx hmem
      rcases List.mem_append.1 hmem with hmem | hmem
      · exact hw.apart x (List.mem_append_left _ hx) hmem
      · obtain rfl : x = a := by simpa using hmem
        exact (List.disjoint_of_nodup_append hpath hx) (by simp)
    · exact settled_list hw.settled fun b hb => hdeps b (mem_dependenciesOf.2 hb)
    · exact ⟨hgrow.order.trans (List.prefix_append _ _), hgrow.cycles⟩

/-! ## The order -/

theorem foldl_visit_spec {g : DependencyGraph α} (hg : g.WellFormed) (as : List α)
    (has : as ⊆ g.nodes) (s : SortedNodes α) (hs : g.Walking [] s) :
    let s' := as.foldl
      (fun s a => if a ∈ s.order then s else g.visit g.nodes.length [] a s) s
    g.Walking [] s' ∧ Grows s s' ∧ as ⊆ s'.order := by
  induction as generalizing s with
  | nil => exact ⟨hs, Grows.refl s, by simp⟩
  | cons a as ih =>
    have hstep : ∃ s₁, (if a ∈ s.order then s else g.visit g.nodes.length [] a s) = s₁ ∧
        g.Walking [] s₁ ∧ Grows s s₁ ∧ a ∈ s₁.order := by
      refine ⟨_, rfl, ?_⟩
      split
      next ha => exact ⟨hs, Grows.refl s, ha⟩
      next ha =>
        apply visit_spec hg _ _ _ _ hs (List.nodup_singleton a) _ ha (by simp)
        simpa using has List.mem_cons_self
    obtain ⟨s₁, hs₁, hw, hgrow, ha⟩ := hstep
    rw [List.foldl_cons, hs₁]
    obtain ⟨hw', hgrow', hmem⟩ := ih (fun x hx => has (List.mem_cons_of_mem _ hx)) s₁ hw
    exact ⟨hw', hgrow.trans hgrow', List.cons_subset.2 ⟨hgrow'.order.subset ha, hmem⟩⟩

theorem sort_spec {g : DependencyGraph α} (hg : g.WellFormed) :
    g.Walking [] g.sort ∧ g.nodes ⊆ g.sort.order := by
  have hempty : g.Walking [] {} :=
    ⟨List.nodup_nil, by simp, by simp, fun before a after h => by simp at h⟩
  obtain ⟨hw, _, hmem⟩ := foldl_visit_spec hg g.nodes (List.Subset.refl _) {} hempty
  exact ⟨hw, hmem⟩

theorem nodup_order_sort {g : DependencyGraph α} (hg : g.WellFormed) : g.sort.order.Nodup :=
  (sort_spec hg).1.nodup

theorem mem_order_sort {g : DependencyGraph α} (hg : g.WellFormed) {a : α} :
    a ∈ g.sort.order ↔ a ∈ g.nodes :=
  ⟨fun h => (sort_spec hg).1.listed h, fun h => (sort_spec hg).2 h⟩

theorem settled_sort {g : DependencyGraph α} (hg : g.WellFormed) : g.Settled g.sort :=
  (sort_spec hg).1.settled

/-! ## Graphs without cycles -/

/-- Whether `a` depends on `b`, maybe through others. -/
abbrev Needs (g : DependencyGraph α) : α → α → Prop :=
  Relation.TransGen fun a b => (a, b) ∈ g.edges

def Acyclic (g : DependencyGraph α) : Prop :=
  ∀ a, ¬g.Needs a a

/-- Where there is no cycle, a visit reports none: the nodes on its path need the one it visits. -/
theorem cycles_visit {g : DependencyGraph α} (hg : g.Acyclic) (steps : Nat) (path : List α) (a : α)
    (s : SortedNodes α) (hpath : ∀ x ∈ path, g.Needs x a) :
    (g.visit steps path a s).cycles = s.cycles := by
  induction steps generalizing path a s with
  | zero => rfl
  | succ steps ih =>
    rw [visit_succ]
    have hdeps : ∀ b ∈ g.dependenciesOf a, (a, b) ∈ g.edges := fun b => mem_dependenciesOf.1
    generalize g.dependenciesOf a = bs at hdeps
    show (bs.foldl (g.follow steps (path ++ [a])) s).cycles = s.cycles
    induction bs generalizing s with
    | nil => rfl
    | cons b bs ihbs =>
      have hedge : (a, b) ∈ g.edges := hdeps b List.mem_cons_self
      -- Everything on the longer path needs `b`, so `b` is not on it.
      have hneeds : ∀ x ∈ path ++ [a], g.Needs x b := by
        intro x hx
        rcases List.mem_append.1 hx with hx | hx
        · exact (hpath x hx).tail hedge
        · obtain rfl := List.mem_singleton.1 hx
          exact .single hedge
      rw [List.foldl_cons, ihbs _ fun x hx => hdeps x (List.mem_cons_of_mem _ hx), follow,
        if_neg fun hb => hg b (hneeds b hb)]
      split
      next => rfl
      next => exact ih _ _ _ hneeds

theorem cycles_sort {g : DependencyGraph α} (hg : g.Acyclic) : g.sort.cycles = [] := by
  have hfold (as : List α) (s : SortedNodes α) :
      (as.foldl (fun s a => if a ∈ s.order then s else g.visit g.nodes.length [] a s) s).cycles =
        s.cycles := by
    induction as generalizing s with
    | nil => rfl
    | cons a as ih =>
      rw [List.foldl_cons, ih]
      split
      next => rfl
      next => exact cycles_visit hg _ _ _ _ (by simp)
  exact hfold g.nodes {}

end LuaAnalysis.DependencyGraph
