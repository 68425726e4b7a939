import LuaAnalysis.Proofs.Data.Cycles
import Mathlib.Logic.Function.Basic

/-!
# Sorting by a loop

`DependencyGraph.sort` walks a graph by recursion. The same search runs as a loop that keeps its own
path: every node on it stands with the number of its dependencies that have been followed, and every
node that has been met carries a mark. A turn of the loop (`DependencyGraph.step`) follows one
dependency, or lists a node whose dependencies have all been followed.

One invariant, `Search.Sound`, ties the marks, the path and what has been listed and reported. The
loop comes to its end with what the recursion finds (`runs_sort`), so the invariant tells what a
sort is: whatever a node depends on stands before it, unless the edge to it closed a cycle that has
been reported, and a reported cycle goes through each of its nodes once.

Main statement: `sort_ofAdditions`.
-/

namespace LuaAnalysis.DependencyGraph

/-- What a search knows of a node that it has met. -/
inductive Mark where
  | onPath
  | done
deriving DecidableEq

/-- The state of the loop. The path has its innermost node first, each node with the number of its
dependencies that have been followed. -/
structure Search (α : Type) where
  roots : List α
  path : List (α × Nat) := []
  marks : α → Option Mark := fun _ => none
  sorted : SortedNodes α := {}

/-- The nodes of a path, the outermost first. -/
def walked {α : Type} (path : List (α × Nat)) : List α :=
  (path.map Prod.fst).reverse

variable {α : Type} [DecidableEq α]

/-- One turn of the loop; there is none when no root is left. -/
def step (g : DependencyGraph α) (s : Search α) : Option (Search α) :=
  match s.path with
  | [] =>
    match s.roots with
    | [] => none
    | root :: roots =>
      if (s.marks root).isSome then some { s with roots }
      else some { s with
        roots
        path := [(root, 0)]
        marks := Function.update s.marks root (some .onPath) }
  | (a, next) :: path =>
    match (g.dependenciesOf a)[next]? with
    | none => some { s with
        path
        marks := Function.update s.marks a (some .done)
        sorted := { s.sorted with order := s.sorted.order ++ [a] } }
    | some b =>
      let here := (a, next + 1) :: path
      match s.marks b with
      | none => some { s with
          path := (b, 0) :: here
          marks := Function.update s.marks b (some .onPath) }
      | some .onPath => some { s with
          path := here
          sorted := { s.sorted with
            cycles := s.sorted.cycles ++ [(walked here).dropWhile (· ≠ b) ++ [b]] } }
      | some .done => some { s with path := here }

/-- The turns that a loop may take one after the other. -/
abbrev Runs (g : DependencyGraph α) : Search α → Search α → Prop :=
  Relation.ReflTransGen fun s s' => g.step s = some s'

/-! ## What a turn can do -/

/-- The turns of the loop: a root is passed over or started from; the innermost node is listed, or
one of its dependencies is entered, closes a cycle, or has been listed before. -/
inductive Turn (g : DependencyGraph α) : Search α → Search α → Prop where
  | skip {root : α} {roots : List α} {marks : α → Option Mark} {sorted : SortedNodes α}
      (hmark : (marks root).isSome = true) :
      Turn g ⟨root :: roots, [], marks, sorted⟩ ⟨roots, [], marks, sorted⟩
  | start {root : α} {roots : List α} {marks : α → Option Mark} {sorted : SortedNodes α}
      (hmark : marks root = none) :
      Turn g ⟨root :: roots, [], marks, sorted⟩
        ⟨roots, [(root, 0)], Function.update marks root (some .onPath), sorted⟩
  | list {a : α} {next : Nat} {path : List (α × Nat)} {roots : List α} {marks : α → Option Mark}
      {sorted : SortedNodes α} (hend : (g.dependenciesOf a)[next]? = none) :
      Turn g ⟨roots, (a, next) :: path, marks, sorted⟩
        ⟨roots, path, Function.update marks a (some .done),
          { sorted with order := sorted.order ++ [a] }⟩
  | enter {a b : α} {next : Nat} {path : List (α × Nat)} {roots : List α}
      {marks : α → Option Mark} {sorted : SortedNodes α}
      (hnext : (g.dependenciesOf a)[next]? = some b) (hmark : marks b = none) :
      Turn g ⟨roots, (a, next) :: path, marks, sorted⟩
        ⟨roots, (b, 0) :: (a, next + 1) :: path, Function.update marks b (some .onPath), sorted⟩
  | close {a b : α} {next : Nat} {path : List (α × Nat)} {roots : List α}
      {marks : α → Option Mark} {sorted : SortedNodes α}
      (hnext : (g.dependenciesOf a)[next]? = some b) (hmark : marks b = some .onPath) :
      Turn g ⟨roots, (a, next) :: path, marks, sorted⟩
        ⟨roots, (a, next + 1) :: path, marks,
          { sorted with
            cycles := sorted.cycles ++ [(walked ((a, next + 1) :: path)).dropWhile (· ≠ b) ++ [b]] }⟩
  | pass {a b : α} {next : Nat} {path : List (α × Nat)} {roots : List α}
      {marks : α → Option Mark} {sorted : SortedNodes α}
      (hnext : (g.dependenciesOf a)[next]? = some b) (hmark : marks b = some .done) :
      Turn g ⟨roots, (a, next) :: path, marks, sorted⟩ ⟨roots, (a, next + 1) :: path, marks, sorted⟩

theorem step_eq_some_iff {g : DependencyGraph α} {s s' : Search α} :
    g.step s = some s' ↔ g.Turn s s' := by
  constructor
  · intro h
    obtain ⟨roots, path, marks, sorted⟩ := s
    unfold step at h
    rcases path with _ | ⟨⟨a, next⟩, path⟩
    · rcases roots with _ | ⟨root, roots⟩
      · cases h
      · dsimp only at h
        split at h
        · next hmark =>
          obtain rfl := Option.some.inj h
          exact .skip hmark
        · next hmark =>
          obtain rfl := Option.some.inj h
          exact .start (by simpa using hmark)
    · dsimp only at h
      split at h
      · next hend =>
        obtain rfl := Option.some.inj h
        exact .list hend
      · next b hnext =>
        split at h
        · next hmark =>
          obtain rfl := Option.some.inj h
          exact .enter hnext hmark
        · next hmark =>
          obtain rfl := Option.some.inj h
          exact .close hnext hmark
        · next hmark =>
          obtain rfl := Option.some.inj h
          exact .pass hnext hmark
  · intro h
    cases h with
    | skip hmark => simp [step, hmark]
    | start hmark => simp [step, hmark]
    | list hend => simp [step, hend]
    | enter hnext hmark => simp [step, hnext, hmark]
    | close hnext hmark => simp [step, hnext, hmark]
    | pass hnext hmark => simp [step, hnext, hmark]

theorem Turn.runs {g : DependencyGraph α} {s s' : Search α} (h : g.Turn s s') : g.Runs s s' :=
  .single (step_eq_some_iff.2 h)

omit [DecidableEq α] in
@[simp] theorem walked_cons (a : α) (next : Nat) (path : List (α × Nat)) :
    walked ((a, next) :: path) = walked path ++ [a] := by
  simp [walked]

/-! ## Marks -/

/-- The marks that belong to a path and to what has been listed. -/
def marksOf (path : List (α × Nat)) (s : SortedNodes α) (a : α) : Option Mark :=
  if a ∈ s.order then some .done else if a ∈ walked path then some .onPath else none

section
variable {path : List (α × Nat)} {s : SortedNodes α} {a b : α} {next : Nat}

theorem marksOf_eq_none : marksOf path s b = none ↔ b ∉ s.order ∧ b ∉ walked path := by
  unfold marksOf
  split
  · next h => simp [h]
  · next h => split <;> simp_all

theorem marksOf_eq_onPath : marksOf path s b = some .onPath ↔ b ∉ s.order ∧ b ∈ walked path := by
  unfold marksOf
  split
  · next h => simp [h]
  · next h => split <;> simp_all

theorem marksOf_eq_done : marksOf path s b = some .done ↔ b ∈ s.order := by
  unfold marksOf
  split
  · next h => simp [h]
  · next h => split <;> simp_all

/-- A node is put on the path. -/
theorem update_marksOf_onPath (ha : a ∉ s.order) :
    Function.update (marksOf path s) a (some .onPath) = marksOf ((a, next) :: path) s := by
  funext x
  by_cases hx : x = a
  · subst hx
    simp [marksOf, ha]
  · simp [marksOf, hx]

/-- A node goes from the path to what is listed. -/
theorem update_marksOf_done (ha : a ∉ walked path) :
    Function.update (marksOf ((a, next) :: path) s) a (some .done) =
      marksOf path { s with order := s.order ++ [a] } := by
  funext x
  by_cases hx : x = a
  · subst hx
    simp [marksOf]
  · simp [marksOf, hx]

end

/-! ## The loop runs as the recursion does -/

section
variable {g : DependencyGraph α} {path : List α} {a : α} {steps : Nat} {s : SortedNodes α}

/-- Following one dependency keeps the invariant, when the steps that are left reach every node. -/
theorem Walking.follow (hg : g.WellFormed) (hs : g.Walking (path ++ [a]) s)
    (hpath : (path ++ [a]).Nodup) (hsub : path ++ [a] ⊆ g.nodes)
    (hsteps : g.nodes.length ≤ (path ++ [a]).length + steps) {b : α} (hedge : g.DependsOn a b) :
    g.Walking (path ++ [a]) (g.follow steps (path ++ [a]) s b) := by
  have hfold := foldl_follow hg (fun b s hs hb hfresh hlisted => visit_spec hg steps (path ++ [a]) b
    s hs (hpath.append (List.nodup_singleton b) (by simpa using hfresh))
    (List.append_subset.2 ⟨hsub, by simpa using hb⟩) hlisted hsteps) [b] (by simpa using hedge) s hs
  exact hfold.1

end

/-- The state of the loop at a path, with the marks that belong to it. -/
def Search.on (roots : List α) (path : List (α × Nat)) (s : SortedNodes α) : Search α :=
  ⟨roots, path, marksOf path s, s⟩

section
variable {g : DependencyGraph α} {roots : List α} {path : List (α × Nat)} {a b : α}
  {steps next : Nat} {s : SortedNodes α}

/-- A dependency that has not been met is entered. -/
theorem runs_enter (hnext : (g.dependenciesOf a)[next]? = some b) (hlisted : b ∉ s.order)
    (hb : b ∉ walked path ++ [a]) :
    g.Runs (.on roots ((a, next) :: path) s) (.on roots ((b, 0) :: (a, next + 1) :: path) s) := by
  have hmark : marksOf ((a, next) :: path) s b = none :=
    marksOf_eq_none.2 ⟨hlisted, by rwa [walked_cons]⟩
  have hmarks : Function.update (marksOf ((a, next) :: path) s) b (some .onPath) =
      marksOf ((b, 0) :: (a, next + 1) :: path) s := update_marksOf_onPath hlisted
  rw [Search.on, Search.on, ← hmarks]
  exact (Turn.enter hnext hmark).runs

/-- A dependency on the path closes a cycle. -/
theorem runs_close (hnext : (g.dependenciesOf a)[next]? = some b) (hlisted : b ∉ s.order)
    (hb : b ∈ walked path ++ [a]) :
    g.Runs (.on roots ((a, next) :: path) s) (.on roots ((a, next + 1) :: path)
      { s with cycles := s.cycles ++ [(walked path ++ [a]).dropWhile (· ≠ b) ++ [b]] }) := by
  have hmark : marksOf ((a, next) :: path) s b = some .onPath :=
    marksOf_eq_onPath.2 ⟨hlisted, by rwa [walked_cons]⟩
  rw [← walked_cons a (next + 1) path]
  exact (Turn.close hnext hmark).runs

/-- A node whose dependencies have all been followed is listed. -/
theorem runs_list (hend : (g.dependenciesOf a)[next]? = none) (ha : a ∉ walked path) :
    g.Runs (.on roots ((a, next) :: path) s)
      (.on roots path { s with order := s.order ++ [a] }) := by
  rw [Search.on, Search.on, ← update_marksOf_done ha]
  exact (Turn.list hend).runs

/-- The loop follows what is left of the dependencies of `a` as the recursion does, when it visits
other nodes as the recursion does. -/
theorem runs_follow
    (hkeeps : ∀ {b s}, g.Walking (walked path ++ [a]) s → g.DependsOn a b →
      g.Walking (walked path ++ [a]) (g.follow steps (walked path ++ [a]) s b))
    (hvisit : ∀ {b s} next, g.Walking (walked path ++ [a]) s → g.DependsOn a b →
      b ∉ walked path ++ [a] → b ∉ s.order →
      g.Runs (.on roots ((b, 0) :: (a, next) :: path) s)
        (.on roots ((a, next) :: path) (g.visit steps (walked path ++ [a]) b s)))
    (bs followed : List α) (hdeps : g.dependenciesOf a = followed ++ bs) (s : SortedNodes α)
    (hs : g.Walking (walked path ++ [a]) s) :
    g.Runs (.on roots ((a, followed.length) :: path) s)
      (.on roots ((a, (g.dependenciesOf a).length) :: path)
        (bs.foldl (g.follow steps (walked path ++ [a])) s)) := by
  induction bs generalizing followed s with
  | nil => rw [hdeps, List.append_nil, List.foldl_nil]
  | cons b bs ih =>
    have hnext : (g.dependenciesOf a)[followed.length]? = some b := by
      rw [hdeps, List.getElem?_append_right (Nat.le_refl _), Nat.sub_self, List.getElem?_cons_zero]
    have hedge : g.DependsOn a b := mem_dependenciesOf.1 (List.mem_of_getElem? hnext)
    have hrest := ih (followed ++ [b]) (by simp [hdeps]) _ (hkeeps hs hedge)
    rw [List.length_append, List.length_singleton] at hrest
    refine .trans ?_ hrest
    unfold follow
    split
    next hb => exact runs_close hnext (hs.apart b hb) hb
    next hb =>
      split
      next hlisted => exact (Turn.pass hnext (marksOf_eq_done.2 hlisted)).runs
      next hlisted =>
        exact .trans (runs_enter hnext hlisted hb)
          (hvisit (followed.length + 1) hs hedge hb hlisted)

/-- The loop visits a node as the recursion does, under the conditions of `visit_spec`. -/
theorem runs_visit (hg : g.WellFormed) (steps : Nat) (path : List (α × Nat)) (a : α)
    (s : SortedNodes α) (hs : g.Walking (walked path) s) (hpath : (walked path ++ [a]).Nodup)
    (hsub : walked path ++ [a] ⊆ g.nodes) (hnew : a ∉ s.order)
    (hsteps : g.nodes.length ≤ (walked path).length + steps) :
    g.Runs (.on roots ((a, 0) :: path) s)
      (.on roots path (g.visit steps (walked path) a s)) := by
  induction steps generalizing path a s with
  | zero =>
    have hle : (walked path ++ [a]).length ≤ g.nodes.length := (hpath.subperm hsub).length_le
    rw [List.length_append, List.length_singleton] at hle
    omega
  | succ steps ih =>
    have hhere : g.Walking (walked path ++ [a]) s := hs.onto hnew
    have hle : g.nodes.length ≤ (walked path ++ [a]).length + steps := by
      rw [List.length_append, List.length_singleton]
      omega
    have hkeeps {b : α} {s : SortedNodes α} (hs : g.Walking (walked path ++ [a]) s)
        (hedge : g.DependsOn a b) := hs.follow hg hpath hsub hle hedge
    have hvisit {b : α} {s : SortedNodes α} (next : Nat) (hs : g.Walking (walked path ++ [a]) s)
        (hedge : g.DependsOn a b) (hb : b ∉ walked path ++ [a]) (hlisted : b ∉ s.order) :
        g.Runs (.on roots ((b, 0) :: (a, next) :: path) s)
          (.on roots ((a, next) :: path) (g.visit steps (walked path ++ [a]) b s)) := by
      have hvisited := ih ((a, next) :: path) b s
      rw [walked_cons] at hvisited
      apply hvisited hs _ _ hlisted hle
      · exact hpath.append (List.nodup_singleton b) (by simpa using hb)
      · exact List.append_subset.2 ⟨hsub, by simpa using (hg.ends _ hedge).2⟩
    refine .trans (runs_follow hkeeps hvisit (g.dependenciesOf a) [] rfl s hhere) ?_
    exact runs_list (by simp) fun ha => List.disjoint_of_nodup_append hpath ha (by simp)

/-- From root to root the loop finds what the recursion finds. -/
theorem runs_roots (hg : g.WellFormed) (roots : List α) (hroots : roots ⊆ g.nodes)
    (s : SortedNodes α) (hs : g.Walking [] s) :
    g.Runs (.on roots [] s) (.on [] [] (roots.foldl
      (fun s a => if a ∈ s.order then s else g.visit g.nodes.length [] a s) s)) := by
  induction roots generalizing s with
  | nil => exact .refl
  | cons root roots ih =>
    have hroot : root ∈ g.nodes := hroots List.mem_cons_self
    have hrest : roots ⊆ g.nodes := fun x hx => hroots (List.mem_cons_of_mem _ hx)
    rw [List.foldl_cons]
    split
    next hlisted =>
      have hmark : (marksOf [] s root).isSome = true := by simp [marksOf, hlisted]
      exact .trans (Turn.skip hmark).runs (ih hrest s hs)
    next hlisted =>
      have hmark : marksOf [] s root = none := by simp [marksOf, hlisted, walked]
      have hstart : g.Runs (.on (root :: roots) [] s) (.on roots [(root, 0)] s) := by
        rw [Search.on, Search.on, ← update_marksOf_onPath hlisted]
        exact (Turn.start hmark).runs
      have hnodup : ([] ++ [root]).Nodup := List.nodup_singleton root
      have hsub : [] ++ [root] ⊆ g.nodes := by simpa using hroot
      have hvisited := visit_spec hg g.nodes.length [] root s hs hnodup hsub hlisted (by simp)
      exact .trans hstart (.trans (runs_visit hg g.nodes.length [] root s hs hnodup hsub hlisted
        (by simp [walked])) (ih hrest _ hvisited.1))

end

/-- The loop ends, and then it has found what `sort` finds. -/
theorem runs_sort {g : DependencyGraph α} (hg : g.WellFormed) :
    g.Runs { roots := g.nodes } (.on [] [] g.sort) := by
  have hempty : g.Walking [] {} :=
    ⟨List.nodup_nil, by simp, by simp, fun before a after h => by simp at h⟩
  have hstart : ({ roots := g.nodes } : Search α) = .on g.nodes [] {} := by
    simp only [Search.on, Search.mk.injEq, true_and, and_true]
    funext a
    simp [marksOf, walked]
  rw [hstart]
  exact runs_roots hg g.nodes (List.Subset.refl _) {} hempty

/-! ## The invariant -/

/-- Whether a reported cycle ends with an edge. -/
def Closes (s : SortedNodes α) (a b : α) : Prop :=
  ∃ cycle ∈ s.cycles, [a, b] <:+ cycle

/-- A cycle that goes through each of its nodes once. -/
def SimpleCycle (g : DependencyGraph α) (cycle : List α) : Prop :=
  cycle.IsChain g.DependsOn ∧ ∃ a inner, cycle = a :: inner ++ [a] ∧ (a :: inner).Nodup

/-- What has been followed from the nodes on a path is listed, lies further in on the path, or has
closed a cycle. `inner` are the nodes further in. -/
def Followed (g : DependencyGraph α) (s : SortedNodes α) : List α → List (α × Nat) → Prop
  | _, [] => True
  | inner, (a, next) :: path =>
    (∀ b ∈ (g.dependenciesOf a).take next, b ∈ s.order ∨ b ∈ inner ∨ Closes s a b) ∧
      Followed g s (a :: inner) path

/-- The invariant of the loop. -/
structure Search.Sound (g : DependencyGraph α) (s : Search α) : Prop where
  marks : s.marks = marksOf s.path s.sorted
  nodup : (s.sorted.order ++ walked s.path).Nodup
  chain : (walked s.path).IsChain g.DependsOn
  followed : g.Followed s.sorted [] s.path
  settled : ∀ before a after, s.sorted.order = before ++ a :: after →
    ∀ b, g.DependsOn a b → b ∈ before ∨ Closes s.sorted a b
  cycles : ∀ cycle ∈ s.sorted.cycles, g.SimpleCycle cycle

section
variable {g : DependencyGraph α} {s s' : SortedNodes α} {inner inner' : List α}
  {path : List (α × Nat)} {a b : α} {next : Nat}

omit [DecidableEq α] in
theorem Closes.mono (hgrow : Grows s s') (h : Closes s a b) : Closes s' a b := by
  obtain ⟨cycle, hcycle, hends⟩ := h
  exact ⟨cycle, hgrow.cycles.subset hcycle, hends⟩

/-- What has been followed stays so when more is listed and reported, and when nodes that were
further in are listed. -/
theorem Followed.mono (hgrow : Grows s s') (hinner : ∀ b ∈ inner, b ∈ s'.order ∨ b ∈ inner')
    (h : g.Followed s inner path) : g.Followed s' inner' path := by
  induction path generalizing inner inner' with
  | nil => trivial
  | cons entry path ih =>
    obtain ⟨hdeps, hrest⟩ := h
    refine ⟨fun b hb => ?_, ih (fun b hb => ?_) hrest⟩
    · rcases hdeps b hb with hb | hb | hb
      · exact .inl (hgrow.order.subset hb)
      · exact (hinner b hb).imp_right .inl
      · exact .inr (.inr (hb.mono hgrow))
    · rcases List.mem_cons.1 hb with rfl | hb
      · exact .inr List.mem_cons_self
      · exact (hinner b hb).imp_right (List.mem_cons_of_mem _)

/-- One more dependency of the innermost node has been followed. -/
theorem Followed.follow (hnext : (g.dependenciesOf a)[next]? = some b)
    (hb : b ∈ s.order ∨ b ∈ inner ∨ Closes s a b) (h : g.Followed s inner ((a, next) :: path)) :
    g.Followed s inner ((a, next + 1) :: path) := by
  refine ⟨fun x hx => ?_, h.2⟩
  rw [List.take_add_one, hnext, Option.toList_some, List.mem_append, List.mem_singleton] at hx
  rcases hx with hx | rfl
  · exact h.1 x hx
  · exact hb

omit [DecidableEq α] in
/-- A node is listed when what it depends on has been met. -/
theorem settled_concat
    (hs : ∀ before x after, s.order = before ++ x :: after →
      ∀ b, g.DependsOn x b → b ∈ before ∨ Closes s x b)
    (ha : ∀ b, g.DependsOn a b → b ∈ s.order ∨ Closes s a b) :
    ∀ before x after, s.order ++ [a] = before ++ x :: after →
      ∀ b, g.DependsOn x b → b ∈ before ∨ Closes s x b := by
  intro before x after h b hb
  -- The node in question is the new one or one of those listed already.
  rcases List.eq_nil_or_concat after with rfl | ⟨init, last, rfl⟩
  · obtain ⟨rfl, hx⟩ := List.append_inj' h rfl
    obtain rfl : a = x := by simpa using hx
    exact ha b hb
  · have h' : s.order ++ [a] = (before ++ x :: init) ++ [last] := by simpa using h
    exact hs before x init (List.append_inj' h' rfl).1 b hb

/-- An edge from the end of a path back to a node on it closes a cycle. -/
theorem simpleCycle_dropWhile {path : List α} (hchain : (path ++ [a]).IsChain g.DependsOn)
    (hnodup : (path ++ [a]).Nodup) (hedge : g.DependsOn a b) (hb : b ∈ path ++ [a]) :
    g.SimpleCycle ((path ++ [a]).dropWhile (· ≠ b) ++ [b]) ∧
      [a, b] <:+ (path ++ [a]).dropWhile (· ≠ b) ++ [b] := by
  have hsuffix : (path ++ [a]).dropWhile (· ≠ b) <:+ path ++ [a] := List.dropWhile_suffix _
  obtain ⟨inner, hinner⟩ := dropWhile_closed hb
  obtain ⟨front, hfront⟩ : ∃ front, (path ++ [a]).dropWhile (· ≠ b) = front ++ [a] := by
    obtain ⟨dropped, hdropped⟩ := hsuffix
    rcases List.eq_nil_or_concat ((path ++ [a]).dropWhile (· ≠ b)) with hnil | ⟨front, last, hlast⟩
    · rw [hnil] at hinner
      cases hinner
    · rw [List.concat_eq_append] at hlast
      rw [hlast, ← List.append_assoc] at hdropped
      obtain rfl : last = a := by simpa using (List.append_inj' hdropped rfl).2
      exact ⟨front, hlast⟩
  refine ⟨⟨?_, b, inner, by rw [hinner], ?_⟩, front, by rw [hfront]; simp⟩
  · rw [hfront]
    have hpart : (front ++ [a]).IsChain g.DependsOn := hfront ▸ hchain.suffix hsuffix
    exact hpart.append (List.isChain_singleton b) (by simpa using hedge)
  · rw [← hinner]
    exact hnodup.sublist hsuffix.sublist

end

/-- A turn of the loop keeps the invariant. -/
theorem Search.Sound.turn {g : DependencyGraph α} {s s' : Search α} (h : s.Sound g)
    (hturn : g.Turn s s') : s'.Sound g := by
  cases hturn with
  | skip => exact ⟨h.marks, h.nodup, h.chain, trivial, h.settled, h.cycles⟩
  | @start root roots marks sorted hmark =>
    obtain rfl : marks = marksOf [] sorted := h.marks
    have hnew : root ∉ sorted.order := (marksOf_eq_none.1 hmark).1
    have hnodup : sorted.order.Nodup := h.nodup.of_append_left
    refine ⟨update_marksOf_onPath hnew, ?_, List.isChain_singleton root, ⟨by simp, trivial⟩,
      h.settled, h.cycles⟩
    exact hnodup.append (List.nodup_singleton root) (by simpa [walked] using hnew)
  | @list a next path roots marks sorted hend =>
    obtain rfl : marks = marksOf ((a, next) :: path) sorted := h.marks
    obtain ⟨hdeps, hrest⟩ := h.followed
    have hnodup : (sorted.order ++ (walked path ++ [a])).Nodup := walked_cons a next path ▸ h.nodup
    have hchain : (walked path ++ [a]).IsChain g.DependsOn := walked_cons a next path ▸ h.chain
    have ha : a ∉ walked path := fun hmem =>
      List.disjoint_of_nodup_append hnodup.of_append_right hmem (by simp)
    have hgrow : Grows sorted { sorted with order := sorted.order ++ [a] } :=
      ⟨List.prefix_append _ _, List.prefix_rfl⟩
    refine ⟨update_marksOf_done ha, ?_, hchain.left_of_append,
      hrest.mono hgrow fun b hb => .inl (List.mem_append_right _ hb), ?_, h.cycles⟩
    · refine (List.Perm.nodup_iff ?_).1 hnodup
      rw [List.append_assoc]
      exact List.perm_append_comm.append_left _
    · -- All that the node depends on has been followed, with nothing further in.
      refine settled_concat h.settled fun b hb => ?_
      have hall : (g.dependenciesOf a).take next = g.dependenciesOf a :=
        List.take_of_length_le (List.getElem?_eq_none_iff.1 hend)
      have hmet := hdeps b (by rwa [hall, mem_dependenciesOf])
      exact hmet.imp_right fun hb => hb.resolve_left List.not_mem_nil
  | @enter a b next path roots marks sorted hnext hmark =>
    obtain rfl : marks = marksOf ((a, next) :: path) sorted := h.marks
    obtain ⟨hnew, hfresh⟩ := marksOf_eq_none.1 hmark
    have hedge : g.DependsOn a b := mem_dependenciesOf.1 (List.mem_of_getElem? hnext)
    have hchain : (walked path ++ [a]).IsChain g.DependsOn := walked_cons a next path ▸ h.chain
    have hlonger : walked ((b, 0) :: (a, next + 1) :: path) = walked ((a, next) :: path) ++ [b] := by
      simp
    -- The node is at the end of the path now, and what led to it counts as followed.
    refine ⟨update_marksOf_onPath hnew, ?_, ?_, ⟨by simp, ?_⟩, h.settled, h.cycles⟩
    · show (sorted.order ++ walked ((b, 0) :: (a, next + 1) :: path)).Nodup
      rw [hlonger, ← List.append_assoc]
      refine h.nodup.append (List.nodup_singleton b) ?_
      simpa using ⟨hnew, by simpa using hfresh⟩
    · show (walked ((b, 0) :: (a, next + 1) :: path)).IsChain g.DependsOn
      rw [hlonger, walked_cons]
      exact hchain.append (List.isChain_singleton b) (by simpa using hedge)
    · have hinner : g.Followed sorted [b] ((a, next) :: path) :=
        h.followed.mono (Grows.refl sorted) (by simp)
      exact hinner.follow hnext (.inr (.inl List.mem_cons_self))
  | @close a b next path roots marks sorted hnext hmark =>
    obtain rfl : marks = marksOf ((a, next) :: path) sorted := h.marks
    have hedge : g.DependsOn a b := mem_dependenciesOf.1 (List.mem_of_getElem? hnext)
    have hb : b ∈ walked path ++ [a] := walked_cons a next path ▸ (marksOf_eq_onPath.1 hmark).2
    have hnodup : (walked path ++ [a]).Nodup := walked_cons a next path ▸ h.nodup.of_append_right
    have hchain : (walked path ++ [a]).IsChain g.DependsOn := walked_cons a next path ▸ h.chain
    -- The path from the earlier occurrence on is the cycle that is reported.
    obtain ⟨hcycle, hends⟩ := simpleCycle_dropWhile hchain hnodup hedge hb
    rw [walked_cons]
    have hgrow : Grows sorted { sorted with
        cycles := sorted.cycles ++ [(walked path ++ [a]).dropWhile (· ≠ b) ++ [b]] } :=
      ⟨List.prefix_rfl, List.prefix_append _ _⟩
    refine ⟨rfl, h.nodup, h.chain, ?_, fun before x after horder c hc => ?_, fun cycle hmem => ?_⟩
    · refine (h.followed.mono hgrow (by simp)).follow hnext (.inr (.inr ?_))
      exact ⟨_, by simp, hends⟩
    · exact (h.settled before x after horder c hc).imp_right (·.mono hgrow)
    · rcases List.mem_append.1 hmem with hmem | hmem
      · exact h.cycles cycle hmem
      · rwa [List.mem_singleton.1 hmem]
  | @pass a b next path roots marks sorted hnext hmark =>
    obtain rfl : marks = marksOf ((a, next) :: path) sorted := h.marks
    exact ⟨rfl, h.nodup, h.chain, h.followed.follow hnext (.inl (marksOf_eq_done.1 hmark)),
      h.settled, h.cycles⟩

theorem Search.Sound.runs {g : DependencyGraph α} {s s' : Search α} (h : s.Sound g)
    (hruns : g.Runs s s') : s'.Sound g := by
  induction hruns with
  | refl => exact h
  | tail _ hstep ih => exact ih.turn (step_eq_some_iff.1 hstep)

/-- What a sort comes to meets the invariant. -/
theorem sound_sort {g : DependencyGraph α} (hg : g.WellFormed) :
    (Search.on [] [] g.sort).Sound g := by
  have hstart : ({ roots := g.nodes } : Search α).Sound g :=
    ⟨by funext a; simp [marksOf, walked], List.nodup_nil, List.isChain_nil, trivial,
      fun before a after horder => by simp at horder, by simp⟩
  exact hstart.runs (runs_sort hg)

/-! ## Graphs that are built -/

/-- What is added to a graph: a node, or that one node depends on another. -/
inductive Addition (α : Type) where
  | node (a : α)
  | dependency (a b : α)

/-- The nodes that an addition names. -/
def Addition.nodes {α : Type} : Addition α → List α
  | node a => [a]
  | dependency a b => [a, b]

def add (g : DependencyGraph α) : Addition α → DependencyGraph α
  | .node a => g.addNode a
  | .dependency a b => g.addDependency a b

/-- The graph that some additions make, one after the other. -/
def ofAdditions (additions : List (Addition α)) : DependencyGraph α :=
  additions.foldl add {}

theorem wellFormed_ofAdditions (additions : List (Addition α)) :
    (ofAdditions additions).WellFormed := by
  have hfold (g : DependencyGraph α) (hg : g.WellFormed) : (additions.foldl add g).WellFormed := by
    induction additions generalizing g with
    | nil => exact hg
    | cons x additions ih =>
      apply ih
      cases x with
      | node a => exact hg.addNode a
      | dependency a b => exact hg.addDependency a b
  exact hfold {} wellFormed_empty

/-- The nodes are those that the additions name. -/
theorem mem_nodes_ofAdditions {additions : List (Addition α)} {a : α} :
    a ∈ (ofAdditions additions).nodes ↔ ∃ x ∈ additions, a ∈ x.nodes := by
  have hfold (g : DependencyGraph α) :
      a ∈ (additions.foldl add g).nodes ↔ a ∈ g.nodes ∨ ∃ x ∈ additions, a ∈ x.nodes := by
    induction additions generalizing g with
    | nil => simp
    | cons x additions ih =>
      have hadd : a ∈ (g.add x).nodes ↔ a ∈ g.nodes ∨ a ∈ x.nodes := by
        cases x with
        | node b => simp [add, mem_nodes_addNode, Addition.nodes]
        | dependency b c => simp [add, mem_nodes_addDependency, Addition.nodes]
      rw [List.foldl_cons, ih, hadd, or_assoc, List.exists_mem_cons_iff]
  simpa [ofAdditions] using hfold {}

/-- The edges are the dependencies that were added. -/
theorem dependsOn_ofAdditions {additions : List (Addition α)} {a b : α} :
    (ofAdditions additions).DependsOn a b ↔ .dependency a b ∈ additions := by
  have hfold (g : DependencyGraph α) :
      (a, b) ∈ (additions.foldl add g).edges ↔ (a, b) ∈ g.edges ∨ .dependency a b ∈ additions := by
    induction additions generalizing g with
    | nil => simp
    | cons x additions ih =>
      rw [List.foldl_cons, ih, List.mem_cons, ← or_assoc]
      cases x with
      | node c => simp [add]
      | dependency c d => simp [add, mem_edges_addDependency]
  simpa [ofAdditions, DependsOn] using hfold {}

/-- Sorting a graph comes to an end, whatever was added to it. Then every node stands in the order
once; a node stands behind what it depends on, unless the edge closes a reported cycle; what is
reported are cycles, each from a node back to it with no other node twice; and nothing is reported
just where the graph has no cycle. -/
theorem sort_ofAdditions (additions : List (Addition α)) :
    let g := ofAdditions additions
    (g.Runs { roots := g.nodes } (.on [] [] g.sort) ∧ g.step (.on [] [] g.sort) = none) ∧
      (g.sort.order.Nodup ∧ ∀ a, a ∈ g.sort.order ↔ ∃ x ∈ additions, a ∈ x.nodes) ∧
      (∀ u v, .dependency u v ∈ additions →
        [v, u].Sublist g.sort.order ∨ ∃ cycle ∈ g.sort.cycles, [u, v] <:+ cycle) ∧
      (∀ cycle ∈ g.sort.cycles, g.SimpleCycle cycle) ∧
      (g.sort.cycles = [] ↔ g.Acyclic) := by
  intro g
  have hg : g.WellFormed := wellFormed_ofAdditions additions
  have hsound := sound_sort hg
  refine ⟨⟨runs_sort hg, rfl⟩, ⟨nodup_order_sort hg, fun a => ?_⟩, fun u v hadded => ?_,
    hsound.cycles, cycles_sort_eq_nil_iff hg⟩
  · rw [mem_order_sort hg, mem_nodes_ofAdditions]
  · have hedge : g.DependsOn u v := dependsOn_ofAdditions.2 hadded
    obtain ⟨before, after, horder⟩ :=
      List.append_of_mem ((mem_order_sort hg).2 (hg.ends _ hedge).1)
    refine (hsound.settled before u after horder v hedge).imp_left fun hv => ?_
    rw [horder]
    exact (List.singleton_sublist.2 hv).append (List.singleton_sublist.2 List.mem_cons_self)

end LuaAnalysis.DependencyGraph
