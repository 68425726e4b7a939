import LuaAnalysis.Proofs.Data.Sorting
import Mathlib.Data.List.Chain

/-!
# The cycles that a sort reports

The search reports one cycle for every edge that leads back to the path being walked. So what it
reports are cycles (`closed_of_mem_cycles_sort`), and no cycle goes without a reported node
(`exists_reported_of_closed`). It does not report every node that lies on a cycle: where two cycles
meet in a node that has been listed already, the second one is never closed. Where a node has at
most one dependency that needs it back, the reported nodes are those on a cycle (`reported_iff`).
-/

namespace LuaAnalysis.DependencyGraph

variable {α : Type} [DecidableEq α]

/-- Whether `a` depends on `b` itself. -/
abbrev DependsOn (g : DependencyGraph α) (a b : α) : Prop :=
  (a, b) ∈ g.edges

/-- A list of nodes that begins and ends with one node, each depending on the next. -/
def Closed (g : DependencyGraph α) (cycle : List α) : Prop :=
  cycle.IsChain g.DependsOn ∧ ∃ a inner, cycle = a :: inner ++ [a]

/-- Whether a sort reports a node on a cycle. -/
def Reported (g : DependencyGraph α) (a : α) : Prop :=
  a ∈ g.sort.cycles.flatten

/-! ## Going around a cycle -/

section
variable {g : DependencyGraph α} {cycle : List α} {a : α}

omit [DecidableEq α] in
/-- Every two nodes on a cycle lead to each other. -/
theorem Closed.leads {b : α} (h : g.Closed cycle) (ha : a ∈ cycle) (hb : b ∈ cycle) :
    Relation.ReflTransGen g.DependsOn a b := by
  obtain ⟨hchain, start, inner, rfl⟩ := h
  have hto : ∀ x ∈ start :: inner ++ [start], Relation.ReflTransGen g.DependsOn x start :=
    hchain.backwards_induction _ _ (fun _ _ hxy hy => .head hxy hy) fun hne => by
      rw [List.getLast_append_singleton]
  have hfrom : ∀ x ∈ start :: inner ++ [start], Relation.ReflTransGen g.DependsOn start x :=
    hchain.induction _ _ (fun _ _ hxy hx => hx.tail hxy) fun _ => .refl
  exact (hto a ha).trans (hfrom b hb)

omit [DecidableEq α] in
/-- A node on a cycle depends on one that is on the cycle too. -/
theorem Closed.next (h : g.Closed cycle) (ha : a ∈ cycle) : ∃ b ∈ cycle, g.DependsOn a b := by
  obtain ⟨hchain, start, inner, rfl⟩ := h
  have ha' : a ∈ start :: inner := by
    rcases List.mem_append.1 ha with ha | ha
    · exact ha
    · obtain rfl := List.mem_singleton.1 ha
      exact List.mem_cons_self
  obtain ⟨front, back, hsplit⟩ := List.append_of_mem ha'
  -- At the end of the list the start follows.
  obtain ⟨b, rest, hb⟩ : ∃ b rest, back ++ [start] = b :: rest := by
    cases back with
    | nil => exact ⟨start, [], rfl⟩
    | cons b back => exact ⟨b, back ++ [start], rfl⟩
  have hlist : start :: inner ++ [start] = front ++ a :: b :: rest := by
    rw [hsplit, List.append_assoc, List.cons_append, hb]
  rw [hlist] at hchain ⊢
  exact ⟨b, by simp, (List.isChain_append_cons_cons.1 hchain).2.1⟩

omit [DecidableEq α] in
theorem Closed.needs (h : g.Closed cycle) (ha : a ∈ cycle) : g.Needs a a := by
  obtain ⟨b, hb, hedge⟩ := h.next ha
  exact .head' hedge (h.leads hb ha)

omit [DecidableEq α] in
/-- A node that needs itself lies on a cycle. -/
theorem exists_closed (h : g.Needs a a) : ∃ cycle, g.Closed cycle ∧ a ∈ cycle := by
  obtain ⟨b, hedge, hback⟩ := Relation.TransGen.head'_iff.1 h
  obtain ⟨rest, hchain, hlast⟩ := List.exists_isChain_cons_of_relationReflTransGen hback
  refine ⟨a :: b :: rest, ⟨hchain.cons_cons hedge, a, (b :: rest).dropLast, ?_⟩,
    List.mem_cons_self⟩
  rw [List.cons_append, ← hlast, List.dropLast_append_getLast]

end

/-! ## What is reported is a cycle -/

/-- Visits that close only cycles close only cycles on a longer path. -/
theorem closed_visit {g : DependencyGraph α} (steps : Nat) (path : List α) (a : α)
    (s : SortedNodes α) (hpath : (path ++ [a]).IsChain g.DependsOn)
    (hs : ∀ cycle ∈ s.cycles, g.Closed cycle) :
    ∀ cycle ∈ (g.visit steps path a s).cycles, g.Closed cycle := by
  induction steps generalizing path a s with
  | zero => exact hs
  | succ steps ih =>
    rw [visit_succ]
    have hdeps : ∀ b ∈ g.dependenciesOf a, g.DependsOn a b := fun b => mem_dependenciesOf.1
    generalize g.dependenciesOf a = bs at hdeps
    show ∀ cycle ∈ (bs.foldl (g.follow steps (path ++ [a])) s).cycles, g.Closed cycle
    induction bs generalizing s with
    | nil => exact hs
    | cons b bs ihbs =>
      have hedge : g.DependsOn a b := hdeps b List.mem_cons_self
      have hlonger : (path ++ [a] ++ [b]).IsChain g.DependsOn :=
        hpath.append (List.isChain_singleton b) (by simpa using hedge)
      rw [List.foldl_cons]
      refine ihbs _ ?_ fun x hx => hdeps x (List.mem_cons_of_mem _ hx)
      unfold follow
      split
      next hb =>
        obtain ⟨inner, hinner⟩ := dropWhile_closed hb
        have hsuffix : b :: inner ++ [b] <:+ path ++ [a] ++ [b] := by
          obtain ⟨front, hfront⟩ := List.dropWhile_suffix (l := path ++ [a]) (· ≠ b)
          exact ⟨front, by rw [← List.append_assoc, ← hinner, hfront]⟩
        intro cycle hcycle
        rcases List.mem_append.1 hcycle with hcycle | hcycle
        · exact hs cycle hcycle
        · obtain rfl := List.mem_singleton.1 hcycle
          rw [hinner]
          exact ⟨hlonger.suffix hsuffix, b, inner, rfl⟩
      next =>
        split
        next => exact hs
        next => exact ih _ _ _ hlonger hs

/-- What a sort reports are cycles. -/
theorem closed_of_mem_cycles_sort (g : DependencyGraph α) :
    ∀ cycle ∈ g.sort.cycles, g.Closed cycle := by
  have hfold (as : List α) (s : SortedNodes α) (hs : ∀ cycle ∈ s.cycles, g.Closed cycle) :
      ∀ cycle ∈ (as.foldl
        (fun s a => if a ∈ s.order then s else g.visit g.nodes.length [] a s) s).cycles,
        g.Closed cycle := by
    induction as generalizing s with
    | nil => exact hs
    | cons a as ih =>
      rw [List.foldl_cons]
      apply ih
      split
      next => exact hs
      next => exact closed_visit _ _ _ _ (List.isChain_singleton a) hs
  exact hfold g.nodes {} (by simp)

theorem Reported.exists_closed {g : DependencyGraph α} {a : α} (h : g.Reported a) :
    ∃ cycle, g.Closed cycle ∧ a ∈ cycle ∧ ∀ b ∈ cycle, g.Reported b := by
  obtain ⟨cycle, hcycle, ha⟩ := List.mem_flatten.1 h
  exact ⟨cycle, g.closed_of_mem_cycles_sort cycle hcycle, ha,
    fun b hb => List.mem_flatten.2 ⟨cycle, hcycle, hb⟩⟩

theorem Reported.needs {g : DependencyGraph α} {a : α} (h : g.Reported a) : g.Needs a a := by
  obtain ⟨cycle, hclosed, ha, -⟩ := h.exists_closed
  exact hclosed.needs ha

/-! ## Every cycle is met -/

section
variable {g : DependencyGraph α} (hg : g.WellFormed)
include hg

/-- A node that is not reported stands behind what it depends on. -/
theorem idxOf_lt_of_not_reported {a b : α} (hedge : g.DependsOn a b) (ha : ¬g.Reported a) :
    g.sort.order.idxOf b < g.sort.order.idxOf a := by
  have hmem : a ∈ g.sort.order := (mem_order_sort hg).2 (hg.ends _ hedge).1
  obtain ⟨before, after, horder⟩ := List.append_of_mem hmem
  have hb : b ∈ before := (settled_sort hg _ _ _ horder b hedge).resolve_right ha
  have hnodup := nodup_order_sort hg
  rw [horder] at hnodup ⊢
  have ha' : a ∉ before := fun h =>
    List.disjoint_of_nodup_append hnodup h List.mem_cons_self
  calc (before ++ a :: after).idxOf b
    _ = before.idxOf b := List.idxOf_append_of_mem hb
    _ < before.length := List.idxOf_lt_length_iff.2 hb
    _ = (before ++ a :: after).idxOf a := by
      rw [List.idxOf_append_of_notMem ha', List.idxOf_cons_self, Nat.add_zero]

/-- Every cycle has a reported node on it. -/
theorem exists_reported_of_closed {cycle : List α} (h : g.Closed cycle) :
    ∃ a ∈ cycle, g.Reported a := by
  by_contra hnone
  have hnone : ∀ x ∈ cycle, ¬g.Reported x := fun x hx hreported => hnone ⟨x, hx, hreported⟩
  obtain ⟨hchain, a, inner, rfl⟩ := h
  -- Without one the nodes would stand further and further to the front.
  have hdesc : (a :: inner ++ [a]).IsChain
      fun x y => g.sort.order.idxOf y < g.sort.order.idxOf x :=
    hchain.imp_of_mem_imp fun x y hx _ hxy => idxOf_lt_of_not_reported hg hxy (hnone x hx)
  have hpos : ∀ x ∈ inner ++ [a], g.sort.order.idxOf x < g.sort.order.idxOf a := by
    have hcons : (a :: (inner ++ [a])).IsChain
        fun x y => g.sort.order.idxOf y < g.sort.order.idxOf x := hdesc
    have : Trans (fun x y : α => g.sort.order.idxOf y < g.sort.order.idxOf x)
        (fun x y => g.sort.order.idxOf y < g.sort.order.idxOf x)
        (fun x y => g.sort.order.idxOf y < g.sort.order.idxOf x) := ⟨fun h h' => h'.trans h⟩
    exact fun x hx => hcons.rel_cons hx
  exact Nat.lt_irrefl _ (hpos a (by simp))

/-- Nothing is reported just where there is nothing to report. -/
theorem cycles_sort_eq_nil_iff : g.sort.cycles = [] ↔ g.Acyclic := by
  refine ⟨fun hnil a ha => ?_, cycles_sort⟩
  obtain ⟨cycle, hclosed, -⟩ := exists_closed ha
  obtain ⟨b, -, hb⟩ := exists_reported_of_closed hg hclosed
  rw [Reported, hnil] at hb
  cases hb

/-- Every node has at most one dependency that needs it back: cycles do not meet. -/
def CyclesApart (g : DependencyGraph α) : Prop :=
  ∀ {a b c : α}, g.DependsOn a b → g.DependsOn a c → g.Needs b a → g.Needs c a → b = c

omit hg in
/-- Where cycles do not meet, a reported node has the next one on its cycle reported with it. -/
theorem Reported.next (hapart : g.CyclesApart) {a b : α} (ha : g.Reported a)
    (hedge : g.DependsOn a b) (hback : Relation.ReflTransGen g.DependsOn b a) : g.Reported b := by
  obtain ⟨cycle, hclosed, hmem, hreported⟩ := ha.exists_closed
  obtain ⟨c, hc, hnext⟩ := hclosed.next hmem
  have hneeds {x : α} (hx : g.DependsOn a x) (hxback : Relation.ReflTransGen g.DependsOn x a) :
      g.Needs x a := .trans_right hxback (.head' hx hxback)
  rw [hapart hedge hnext (hneeds hedge hback) (hneeds hnext (hclosed.leads hc hmem))]
  exact hreported c hc

omit hg in
/-- The reports go on from a node to every node that leads back to it. -/
theorem Reported.of_leads (hapart : g.CyclesApart) {r a : α} (hr : g.Reported r)
    (hra : Relation.ReflTransGen g.DependsOn r a) (har : Relation.ReflTransGen g.DependsOn a r) :
    g.Reported a := by
  induction hra using Relation.ReflTransGen.head_induction_on with
  | refl => exact hr
  | head hrs hsa ih => exact ih (hr.next hapart hrs (hsa.trans har)) (har.tail hrs)

/-- Where cycles do not meet, the reported nodes are those that lie on a cycle. -/
theorem reported_iff (hapart : g.CyclesApart) {a : α} : g.Reported a ↔ g.Needs a a := by
  refine ⟨Reported.needs, fun h => ?_⟩
  obtain ⟨cycle, hclosed, ha⟩ := exists_closed h
  obtain ⟨r, hr, hreported⟩ := exists_reported_of_closed hg hclosed
  exact hreported.of_leads hapart (hclosed.leads hr ha) (hclosed.leads ha hr)

end

end LuaAnalysis.DependencyGraph
