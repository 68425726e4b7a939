import LuaAnalysis.Proofs.Syntax.Descent
import LuaAnalysis.Syntax.Shorthand
import LuaAnalysis.Syntax.Walk

/-!
# The walk with a stack is the walk by recursion

The stack of a walk holds what is still to be entered and left. Each event on it stands for a piece
of the recursion (`SyntaxTree.workOff`), and working off the stack does these pieces one after the
other, until a piece ends the walk. The visitor may answer as it likes, and what it answers may
depend on what it was asked before: `Visitor.logged` writes down what a visitor is asked.

Main statement: `SyntaxTree.walk_is_traversal`.
-/

namespace LuaAnalysis

/-- What a walk asks a visitor. -/
inductive VisitorCall where
  | enter (id : NodeId)
  | descend (id : NodeId)
  | exit (id : NodeId)
deriving DecidableEq

namespace VisitorCall

def event? : VisitorCall → Option WalkEvent
  | enter id => some (.enter id)
  | descend _ => none
  | exit id => some (.exit id)

def entered? : VisitorCall → Option NodeId
  | enter id => some id
  | descend _ | exit _ => none

end VisitorCall

/-- Whether nodes are entered and left like brackets that are opened and closed. -/
inductive WalkEvent.Balanced : List WalkEvent → Prop
  | nil : Balanced []
  | node {id : NodeId} {inner rest : List WalkEvent} (hinner : Balanced inner)
      (hrest : Balanced rest) : Balanced (.enter id :: (inner ++ .exit id :: rest))

theorem WalkEvent.Balanced.append {xs ys : List WalkEvent} (hxs : Balanced xs) (hys : Balanced ys) :
    Balanced (xs ++ ys) := by
  induction hxs with
  | nil => exact hys
  | @node id inner rest hinner _ _ ih =>
    rw [List.cons_append, List.append_assoc, List.cons_append]
    exact .node hinner ih

namespace Visitor

variable {σ β : Type}

/-- The same visitor, writing down behind its state what it is asked. -/
def logged (v : Visitor σ β) : Visitor (σ × List VisitorCall) β where
  enter id s := ((v.enter id s.1).1, (v.enter id s.1).2, s.2 ++ [.enter id])
  descend id s := ((v.descend id s.1).1, (v.descend id s.1).2, s.2 ++ [.descend id])
  exit id s := ((v.exit id s.1).1, (v.exit id s.1).2, s.2 ++ [.exit id])

/-- Whether a visitor never ends a walk and keeps it out of no node. -/
structure Open (v : Visitor σ β) : Prop where
  enter : ∀ id s, (v.enter id s).1 = none
  descend : ∀ id s, (v.descend id s).1 = true
  exit : ∀ id s, (v.exit id s).1 = none

variable {v : Visitor σ β}

theorem Open.enter_logged (h : v.Open) (id : NodeId) (s : σ) (log : List VisitorCall) :
    v.logged.enter id (s, log) = (none, (v.enter id s).2, log ++ [.enter id]) :=
  Prod.ext (h.enter id s) rfl

theorem Open.descend_logged (h : v.Open) (id : NodeId) (s : σ) (log : List VisitorCall) :
    v.logged.descend id (s, log) = (true, (v.descend id s).2, log ++ [.descend id]) :=
  Prod.ext (h.descend id s) rfl

theorem Open.exit_logged (h : v.Open) (id : NodeId) (s : σ) (log : List VisitorCall) :
    v.logged.exit id (s, log) = (none, (v.exit id s).2, log ++ [.exit id]) :=
  Prod.ext (h.exit id s) rfl

end Visitor

namespace SyntaxTree

variable {t : SyntaxTree} {σ β : Type} {v : Visitor σ β} {id : NodeId} {s : σ}

/-! ## Pieces of a walk -/

/-- What comes next, unless the walk has ended. -/
def goOn (r : Option β × σ) (next : σ → Option β × σ) : Option β × σ :=
  match r with
  | (some b, s) => (some b, s)
  | (none, s) => next s

@[simp] theorem goOn_none (next : σ → Option β × σ) : goOn (none, s) next = next s :=
  rfl

@[simp] theorem goOn_some (b : β) (next : σ → Option β × σ) :
    goOn (some b, s) next = (some b, s) :=
  rfl

theorem goOn_assoc (r : Option β × σ) (next after : σ → Option β × σ) :
    goOn (goOn r next) after = goOn r fun s => goOn (next s) after := by
  rcases r with ⟨_ | b, s⟩ <;> rfl

theorem goOn_end (r : Option β × σ) : goOn r (fun s => (none, s)) = r := by
  rcases r with ⟨_ | b, s⟩ <;> rfl

/-- Enters a node and goes through its children, if the visitor lets it. -/
def enterWith (t : SyntaxTree) (v : Visitor σ β) (go : NodeId → σ → Option β × σ) (id : NodeId)
    (s : σ) : Option β × σ :=
  goOn (v.enter id s) fun s =>
    untilEnded go (if (v.descend id s).1 then t.children id else []) (v.descend id s).2

/-- The recursion: enters a node, goes through its children from left to right, and leaves it. -/
def visitWith (t : SyntaxTree) (v : Visitor σ β) (go : NodeId → σ → Option β × σ) (id : NodeId)
    (s : σ) : Option β × σ :=
  goOn (t.enterWith v go id s) (v.exit id)

theorem untilEnded_cons (go : NodeId → σ → Option β × σ) (ids : List NodeId) :
    untilEnded go (id :: ids) s = goOn (go id s) (untilEnded go ids) := by
  rw [untilEnded]
  rcases go id s with ⟨_ | b, s⟩ <;> rfl

theorem untilEnded_congr {go go' : NodeId → σ → Option β × σ} {ids : List NodeId}
    (h : ∀ c ∈ ids, go c = go' c) (s : σ) : untilEnded go ids s = untilEnded go' ids s := by
  induction ids generalizing s with
  | nil => rfl
  | cons c ids ih =>
    obtain ⟨hc, hids⟩ := List.forall_mem_cons.1 h
    rw [untilEnded_cons, untilEnded_cons, hc]
    exact congrArg (goOn _) (funext fun s => ih hids s)

theorem traverseWithin_succ (levels : Nat) :
    t.traverseWithin v (levels + 1) id s = t.visitWith v (t.traverseWithin v levels) id s := by
  rw [traverseWithin, visitWith, enterWith]
  rcases v.enter id s with ⟨_ | b, s⟩
  · dsimp only [goOn_none]
    rcases untilEnded (t.traverseWithin v levels)
      (if (v.descend id s).1 = true then t.children id else []) (v.descend id s).2 with ⟨_ | b, s⟩ <;>
      rfl
  · rfl

theorem BottomUp.visitWith_congr (h : t.BottomUp) {go go' : NodeId → σ → Option β × σ}
    (hsame : ∀ c < id, go c = go' c) (s : σ) :
    t.visitWith v go id s = t.visitWith v go' id s := by
  have hchildren : ∀ within : Bool, ∀ c ∈ (if within then t.children id else []), go c = go' c := by
    intro within c hc
    cases within with
    | true => exact hsame c (h.child_lt hc)
    | false => exact absurd hc (List.not_mem_nil)
  have henter : t.enterWith v go id s = t.enterWith v go' id s :=
    congrArg (goOn _) (funext fun s => untilEnded_congr (hchildren _) _)
  rw [visitWith, visitWith, henter]

/-- There are levels enough for the recursion. -/
theorem BottomUp.traverseWithin_stable (h : t.BottomUp) {k l : Nat} {id : NodeId} (hk : id < k)
    (hl : id < l) : t.traverseWithin v k id = t.traverseWithin v l id := by
  refine levels_stable (f := t.traverseWithin v) (fun k l id hsame => ?_) hk hl
  funext s
  rw [traverseWithin_succ, traverseWithin_succ]
  exact h.visitWith_congr hsame s

theorem BottomUp.traverse_eq (h : t.BottomUp) (v : Visitor σ β) (id : NodeId) (s : σ) :
    t.traverse v id s = t.visitWith v (t.traverse v) id s := by
  rw [traverse, traverseWithin_succ]
  exact h.visitWith_congr (fun c hc => h.traverseWithin_stable hc (Nat.lt_succ_self c)) s

/-! ## Working off a stack -/

/-- What the events on a stack stand for, done one after the other. -/
def workOff (t : SyntaxTree) (v : Visitor σ β) : List WalkEvent → σ → Option β × σ
  | [], s => (none, s)
  | .enter id :: stack, s => goOn (t.enterWith v (t.traverse v) id s) (t.workOff v stack)
  | .exit id :: stack, s => goOn (v.exit id s) (t.workOff v stack)

theorem workOff_append (stack more : List WalkEvent) (s : σ) :
    t.workOff v (stack ++ more) s = goOn (t.workOff v stack s) (t.workOff v more) := by
  induction stack generalizing s with
  | nil => rfl
  | cons event stack ih =>
    have hrest : t.workOff v (stack ++ more) = fun s =>
        goOn (t.workOff v stack s) (t.workOff v more) := funext ih
    cases event with
    | enter id => rw [List.cons_append, workOff, workOff, goOn_assoc, hrest]
    | exit id => rw [List.cons_append, workOff, workOff, goOn_assoc, hrest]

/-- A node on the stack stands for the recursion at the node. -/
theorem workOff_eventsOf (h : t.BottomUp) (id : NodeId) (s : σ) :
    t.workOff v (eventsOf id) s = t.traverse v id s := by
  have hexit : t.workOff v [.exit id] = v.exit id := funext fun s => goOn_end _
  rw [h.traverse_eq, visitWith, eventsOf, workOff, hexit]

theorem workOff_flatMap_eventsOf (h : t.BottomUp) (ids : List NodeId) (s : σ) :
    t.workOff v (ids.flatMap eventsOf) s = untilEnded (t.traverse v) ids s := by
  induction ids generalizing s with
  | nil => rfl
  | cons id ids ih =>
    rw [List.flatMap_cons, workOff_append, workOff_eventsOf h, untilEnded_cons]
    exact congrArg (goOn _) (funext ih)

/-- How many events an event makes, when everything is entered, with itself. -/
def weight (t : SyntaxTree) : WalkEvent → Nat
  | .enter id => 2 * ((t.children id).flatMap t.below).length + 1
  | .exit _ => 1

def pending (t : SyntaxTree) : List WalkEvent → Nat
  | [] => 0
  | event :: stack => t.weight event + t.pending stack

theorem pending_append (stack more : List WalkEvent) :
    t.pending (stack ++ more) = t.pending stack + t.pending more := by
  induction stack with
  | nil => exact (Nat.zero_add _).symm
  | cons event stack ih => rw [List.cons_append, pending, pending, ih, Nat.add_assoc]

theorem pending_eventsOf (h : t.BottomUp) (id : NodeId) :
    t.pending (eventsOf id) = 2 * (t.below id).length := by
  rw [h.below_eq id, List.length_cons]
  simp only [eventsOf, pending, weight]
  omega

theorem pending_flatMap_eventsOf (h : t.BottomUp) (ids : List NodeId) :
    t.pending (ids.flatMap eventsOf) = 2 * (ids.flatMap t.below).length := by
  induction ids with
  | nil => rfl
  | cons id ids ih =>
    rw [List.flatMap_cons, pending_append, pending_eventsOf h, ih, List.flatMap_cons,
      List.length_append, Nat.mul_add]

/-- The loop does what the stack stands for, when it may take as many steps as there can be. -/
theorem walkStack_eq_workOff (h : t.BottomUp) (steps : Nat) (stack : List WalkEvent) (s : σ)
    (hsteps : t.pending stack ≤ steps) : t.walkStack v steps stack s = t.workOff v stack s := by
  induction steps generalizing stack s with
  | zero =>
    -- Every event weighs something, so nothing is left on the stack.
    cases stack with
    | nil => rfl
    | cons event stack =>
      rw [pending] at hsteps
      cases event <;> simp only [weight] at hsteps <;> omega
  | succ steps ih =>
    cases stack with
    | nil => rfl
    | cons event stack =>
      rw [pending] at hsteps
      cases event with
      | enter id =>
        rw [weight] at hsteps
        rw [walkStack, workOff, enterWith, goOn_assoc]
        rcases v.enter id s with ⟨_ | b, s⟩
        · dsimp only [goOn_none]
          rcases v.descend id s with ⟨_ | _, s⟩
          · exact ih stack s (by omega)
          · -- The children of the node come onto the stack, less than the node weighed.
            have hchildren : t.pending ((t.children id).flatMap eventsOf ++ stack) ≤ steps := by
              rw [pending_append, pending_flatMap_eventsOf h]
              omega
            dsimp only
            rw [ih _ s hchildren, workOff_append, workOff_flatMap_eventsOf h]
            rfl
        · rfl
      | exit id =>
        rw [weight] at hsteps
        rw [walkStack, workOff]
        rcases v.exit id s with ⟨_ | b, s⟩
        · exact ih stack s (by omega)
        · rfl

theorem BottomUp.walkStack_eq_traverse (h : t.BottomUp) (v : Visitor σ β) (id : NodeId) (s : σ)
    {steps : Nat} (hsteps : 2 * t.visits id ≤ steps) :
    t.walkStack v steps (eventsOf id) s = t.traverse v id s := by
  rw [walkStack_eq_workOff h, workOff_eventsOf h]
  rwa [pending_eventsOf h, ← visits_eq]

theorem BottomUp.walk_eq_traverse (h : t.BottomUp) (v : Visitor σ β) (id : NodeId) (s : σ) :
    t.walk v id s = t.traverse v id s :=
  h.walkStack_eq_traverse v id s (Nat.le_refl _)

/-! ## What a visitor is asked -/

/-- What a walk asks a visitor, in order. -/
def walkCalls (t : SyntaxTree) (v : Visitor σ β) (id : NodeId) (s : σ) : List VisitorCall :=
  (t.walk v.logged id (s, [])).2.2

/-- What the recursion asks a visitor, in order. -/
def traverseCalls (t : SyntaxTree) (v : Visitor σ β) (id : NodeId) (s : σ) : List VisitorCall :=
  (t.traverse v.logged id (s, [])).2.2

/-- Writing down what a visitor is asked changes nothing else. -/
theorem walkStack_logged (steps : Nat) (stack : List WalkEvent) (s : σ)
    (log : List VisitorCall) :
    (t.walkStack v.logged steps stack (s, log)).1 = (t.walkStack v steps stack s).1 ∧
      (t.walkStack v.logged steps stack (s, log)).2.1 = (t.walkStack v steps stack s).2 := by
  induction steps generalizing stack s log with
  | zero => exact ⟨rfl, rfl⟩
  | succ steps ih =>
    cases stack with
    | nil => exact ⟨rfl, rfl⟩
    | cons event stack =>
      cases event with
      | enter id =>
        simp only [walkStack, Visitor.logged]
        rcases v.enter id s with ⟨_ | b, s⟩
        · dsimp only
          rcases v.descend id s with ⟨_ | _, s⟩
          · exact ih _ _ _
          · exact ih _ _ _
        · exact ⟨rfl, rfl⟩
      | exit id =>
        simp only [walkStack, Visitor.logged]
        rcases v.exit id s with ⟨_ | b, s⟩
        · exact ih _ _ _
        · exact ⟨rfl, rfl⟩

theorem walk_logged (v : Visitor σ β) (id : NodeId) (s : σ) : t.walk v.logged id (s, []) =
    ((t.walk v id s).1, (t.walk v id s).2, t.walkCalls v id s) := by
  obtain ⟨hended, hstate⟩ := walkStack_logged (v := v) (2 * t.visits id) (eventsOf id) s []
  exact Prod.ext hended (Prod.ext hstate rfl)

/-! ## Walks that nothing keeps out -/

def events (calls : List VisitorCall) : List WalkEvent :=
  calls.filterMap VisitorCall.event?

def entered (calls : List VisitorCall) : List NodeId :=
  calls.filterMap VisitorCall.entered?

/-- Whether a piece of a logged walk goes to its end and adds calls that enter some nodes, each left
again. -/
def Enters (nodes : List NodeId) (go : σ × List VisitorCall → Option β × σ × List VisitorCall) :
    Prop :=
  ∀ s log, ∃ s' calls, go (s, log) = (none, s', log ++ calls) ∧
    WalkEvent.Balanced (events calls) ∧ entered calls = nodes

theorem enters_untilEnded {go : NodeId → σ × List VisitorCall → Option β × σ × List VisitorCall}
    {ids : List NodeId} (h : ∀ c ∈ ids, Enters (t.below c) (go c)) :
    Enters (ids.flatMap t.below) (untilEnded go ids) := by
  induction ids with
  | nil =>
    intro s log
    exact ⟨s, [], by rw [List.append_nil]; rfl, .nil, rfl⟩
  | cons c ids ih =>
    intro s log
    obtain ⟨hc, hids⟩ := List.forall_mem_cons.1 h
    obtain ⟨s₁, first, hfirst, hbalanced, hentered⟩ := hc s log
    obtain ⟨s₂, rest, hrest, hbalanced', hentered'⟩ := ih hids s₁ (log ++ first)
    refine ⟨s₂, first ++ rest, ?_, ?_, ?_⟩
    · rw [untilEnded_cons, hfirst, goOn_none, hrest, List.append_assoc]
    · rw [events, List.filterMap_append]
      exact hbalanced.append hbalanced'
    · rw [entered, List.filterMap_append, List.flatMap_cons]
      exact congrArg₂ (· ++ ·) hentered hentered'

/-- What a visitor is asked at a node, around what it is asked at the children. -/
def nodeCalls (id : NodeId) (calls : List VisitorCall) : List VisitorCall :=
  .enter id :: .descend id :: (calls ++ [.exit id])

theorem events_nodeCalls (id : NodeId) (calls : List VisitorCall) :
    events (nodeCalls id calls) = .enter id :: (events calls ++ [.exit id]) := by
  simp [events, nodeCalls, VisitorCall.event?, List.filterMap_cons]

theorem entered_nodeCalls (id : NodeId) (calls : List VisitorCall) :
    entered (nodeCalls id calls) = id :: entered calls := by
  simp [entered, nodeCalls, VisitorCall.entered?, List.filterMap_cons]

theorem enters_traverse (h : t.BottomUp) (hopen : v.Open) (id : NodeId) :
    Enters (t.below id) (t.traverse v.logged id) := by
  induction id using Nat.strongRecOn with
  | _ id ih =>
    intro s log
    have hchildren : Enters ((t.children id).flatMap t.below)
        (untilEnded (t.traverse v.logged) (t.children id)) :=
      enters_untilEnded fun c hc => ih c (h.child_lt hc)
    obtain ⟨s', calls, hcalls, hbalanced, hentered⟩ := hchildren
      (v.descend id (v.enter id s).2).2 (log ++ [.enter id] ++ [.descend id])
    refine ⟨(v.exit id s').2, nodeCalls id calls, ?_, ?_, ?_⟩
    · rw [h.traverse_eq, visitWith, enterWith, hopen.enter_logged, goOn_none, hopen.descend_logged,
        if_pos rfl, hcalls, goOn_none, hopen.exit_logged]
      simp only [nodeCalls, List.append_assoc, List.cons_append, List.nil_append]
    · rw [events_nodeCalls]
      exact .node hbalanced .nil
    · rw [entered_nodeCalls, hentered, h.below_eq]

/-- The walk with a stack asks every visitor what the recursion asks it, in the same order, and ends
with the same value and state; its number of steps never cuts it short, nor does it cut the list of
descendants. The recursion enters a node, goes through its children if the visitor lets it, and
leaves it, until the visitor ends it. When the visitor neither ends it nor keeps it out of a node,
every node that is entered is left again around what is entered in between, and the start and then
its descendants are entered in order. -/
theorem walk_is_traversal (h : t.BottomUp) (v : Visitor σ β) (id : NodeId) (s : σ) :
    t.walk v id s = t.traverse v id s ∧
    t.walkCalls v id s = t.traverseCalls v id s ∧
    t.walk v.logged id (s, []) = ((t.walk v id s).1, (t.walk v id s).2, t.walkCalls v id s) ∧
    (∀ steps, 2 * t.visits id ≤ steps → t.walkStack v steps (eventsOf id) s = t.walk v id s) ∧
    t.traverse v id s = t.visitWith v (t.traverse v) id s ∧
    (∀ steps, t.visits id ≤ steps → t.unstack steps (t.children id) = t.descendants id) ∧
    (v.Open → (t.walk v id s).1 = none ∧
      WalkEvent.Balanced (events (t.walkCalls v id s)) ∧
      entered (t.walkCalls v id s) = id :: t.descendants id) := by
  have hsame : t.walk v id s = t.traverse v id s := h.walk_eq_traverse v id s
  have hcalls : t.walk v.logged id (s, []) = t.traverse v.logged id (s, []) :=
    h.walk_eq_traverse v.logged id (s, [])
  refine ⟨hsame, congrArg (·.2.2) hcalls, walk_logged v id s, fun steps hsteps => ?_,
    h.traverse_eq v id s, fun steps hsteps => ?_, fun hopen => ?_⟩
  · rw [h.walkStack_eq_traverse v id s hsteps, hsame]
  · rw [visits_eq, h.below_eq, List.length_cons] at hsteps
    rw [h.unstack_eq steps _ (Nat.le_of_succ_le hsteps), h.descendants_eq]
  · obtain ⟨s', calls, htraverse, hbalanced, hentered⟩ := enters_traverse h hopen id s []
    have hlogged : t.walk v.logged id (s, []) = (none, s', calls) := by
      rw [hcalls, htraverse, List.nil_append]
    have hwalk := walk_logged (t := t) v id s
    rw [hlogged, Prod.mk.injEq, Prod.mk.injEq] at hwalk
    obtain ⟨hended, -, rfl⟩ := hwalk
    exact ⟨hended.symm, hbalanced, by rw [hentered, h.below_eq_descendants]⟩

/-- `local f = function() end return 1` -/
def closureThenReturn : Sketch :=
  .block [.declare ["f"] [.closure [] []], .node (.returnStat [.literal (.integer 1)])]

/-- Lists the nodes that it enters, stays out of the closure and stops at the literal. -/
def stopsAtLiteral : Visitor (List NodeId) NodeId where
  enter id s := (if id = 4 then some id else none, s ++ [id])
  descend id s := (id ≠ 2, s)

theorem walk_is_traversal_stopsAtLiteral :
    let t := ofSketch 0 (some closureThenReturn)
    t.walk stopsAtLiteral 7 [] = (some 4, [7, 6, 3, 0, 2, 5, 4]) ∧
      entered (t.walkCalls ({} : Visitor Unit Unit) 7 ()) = [7, 6, 3, 0, 2, 1, 5, 4] := by
  intro t
  have h : t.BottomUp := (proper_ofSketch 0 (some closureThenReturn) (by decide)).bottomUp
  obtain ⟨hwalk, -⟩ := walk_is_traversal h stopsAtLiteral 7 []
  obtain ⟨-, -, -, -, -, -, hopen⟩ := walk_is_traversal h ({} : Visitor Unit Unit) 7 ()
  obtain ⟨-, -, hentered⟩ := hopen ⟨fun _ _ => rfl, fun _ _ => rfl, fun _ _ => rfl⟩
  have htraverse : t.traverse stopsAtLiteral 7 [] = (some 4, [7, 6, 3, 0, 2, 5, 4]) := by
    decide +kernel
  have hdescendants : t.descendants 7 = [6, 3, 0, 2, 1, 5, 4] := by decide +kernel
  exact ⟨hwalk.trans htraverse, by rw [hentered, hdescendants]⟩

end SyntaxTree

end LuaAnalysis
