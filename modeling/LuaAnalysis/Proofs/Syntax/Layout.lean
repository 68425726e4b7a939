import LuaAnalysis.Proofs.Syntax.Documented
import LuaAnalysis.Proofs.Syntax.SourceOrder

/-!
# Where inserted nodes stand

Nodes that are inserted without pins (`Draft.Inserted`) each stand around their parts, or behind
everything that has been inserted before them when they have none (`Draft.Laid`). When they are
inserted in post order, two nodes of which none is above the other stand in the order in which they
were inserted.

Main statement: `SyntaxTree.layout_of_postOrder`.
-/

namespace LuaAnalysis

namespace Draft

/-- Whether a draft comes from inserting nodes without pins, each behind its parts and comments. -/
inductive Inserted : Draft → Prop
  | empty : Inserted {}
  | insert {d : Draft} (n : Node NodeId) (comments : List NodeId) : Inserted d →
      (∀ c ∈ n.children ++ comments, c < d.placed.size) → Inserted (d.insert n none comments).2
  | hold {d : Draft} (held : List NodeId) : Inserted d → Inserted { d with held }

/-- Where an inserted node stands: behind its parts in the row, and in the text around them and
before the cursor. It begins where one of its parts does, or behind all earlier nodes. -/
structure Laid (d : Draft) (i : NodeId) (p : PlacedNode) : Prop where
  below : ∀ c ∈ p.node.children ++ p.comments, c < i
  nonempty : p.span.start < p.span.stop
  passed : p.span.stop < d.cursor
  within : ∀ c ∈ p.node.children, p.span.contains (d.spanOf c) = true
  start : (∃ c ∈ p.node.children, p.span.start = (d.spanOf c).start) ∨
    ∀ k < i, (d.spanOf k).stop < p.span.start

theorem Laid.mono {d d' : Draft} {i : NodeId} {p : PlacedNode} (h : d.Laid i p)
    (hi : d.placed[i]? = some p) (hkept : d.Kept d') (hcursor : d.cursor ≤ d'.cursor) :
    d'.Laid i p := by
  have hspan {k : NodeId} (hk : k < i) : d'.spanOf k = d.spanOf k :=
    hkept.spanOf_eq (Nat.lt_trans hk (Array.getElem?_eq_some_iff.1 hi).1)
  have hpart {c : NodeId} (hc : c ∈ p.node.children) : d'.spanOf c = d.spanOf c :=
    hspan (h.below c (List.mem_append_left _ hc))
  refine ⟨h.below, h.nonempty, Nat.lt_of_lt_of_le h.passed hcursor, fun c hc => ?_, ?_⟩
  · rw [hpart hc]
    exact h.within c hc
  · rcases h.start with ⟨c, hc, hstart⟩ | hbehind
    · exact .inl ⟨c, hc, by rw [hpart hc, hstart]⟩
    · exact .inr fun k hk => by rw [hspan hk]; exact hbehind k hk

/-- Inserting a node leaves the others where they stand, and the new one stands as they do. -/
theorem laid_insert {d : Draft} {n : Node NodeId} {comments : List NodeId}
    (h : ∀ (i : NodeId) (p : PlacedNode), d.placed[i]? = some p → d.Laid i p)
    (hbelow : ∀ c ∈ n.children ++ comments, c < d.placed.size) {i : NodeId} {p : PlacedNode}
    (hp : (d.insert n none comments).2.placed[i]? = some p) :
    (d.insert n none comments).2.Laid i p := by
  have hspan {k : NodeId} (hk : k < d.placed.size) :
      (d.spanOf k).start < (d.spanOf k).stop ∧ (d.spanOf k).stop < d.cursor := by
    have hk' := h k _ (Array.getElem?_eq_getElem hk)
    rw [spanOf_of_some (Array.getElem?_eq_getElem hk)]
    exact ⟨hk'.nonempty, hk'.passed⟩
  have hpart {c : NodeId} (hc : c ∈ n.children) : c < d.placed.size :=
    hbelow c (List.mem_append_left _ hc)
  obtain ⟨span, cursor, hinsert, hplace⟩ := d.insert_unpinned n comments
  rw [hinsert] at hp ⊢
  have hkept : d.Kept { d with placed := d.placed.push ⟨n, span, comments⟩, cursor } :=
    fun _ _ hq => getElem?_push_of_some hq
  have hold {k : NodeId} (hk : k < d.placed.size) := hkept.spanOf_eq hk
  have hcursor : d.cursor ≤ cursor := by
    rcases hplace with ⟨-, hstart, hnonempty, hpassed⟩ | ⟨rfl, -⟩ <;> omega
  rw [Array.getElem?_push] at hp
  split at hp
  · next heq =>
    obtain rfl := Option.some.inj hp
    subst heq
    rcases hplace with ⟨hnil, hstart, hnonempty, hpassed⟩ |
      ⟨rfl, hwithin, ⟨a, ha, hstart⟩, b, hb, hstop⟩
    -- Without parts it begins at the cursor, which everything lies before.
    · refine ⟨hbelow, hnonempty, hpassed, by simp [hnil], .inr fun k hk => ?_⟩
      rw [hold hk]
      dsimp only
      rw [hstart]
      exact (hspan hk).2
    -- Around its parts it stops where one of them does, so before the cursor.
    · have ha' := hspan (hpart ha)
      have hb' := hspan (hpart hb)
      have hab := Span.contains_iff.1 (hwithin a ha)
      have hnonempty : span.start < span.stop := by omega
      have hpassed : span.stop < d.cursor := by omega
      refine ⟨hbelow, hnonempty, hpassed, fun c hc => ?_, .inl ⟨a, ha, ?_⟩⟩
      · rw [hold (hpart hc)]
        exact hwithin c hc
      · rw [hold (hpart ha)]
        exact hstart
  · exact (h i p hp).mono hp hkept hcursor

theorem Inserted.laid {d : Draft} (h : d.Inserted) (i : NodeId) (p : PlacedNode)
    (hp : d.placed[i]? = some p) : d.Laid i p := by
  induction h generalizing i p with
  | empty => simp at hp
  | insert n comments _ hbelow ih => exact laid_insert ih hbelow hp
  | hold held _ ih => exact (ih i p hp).mono hp (fun _ _ hq => hq) (Nat.le_refl _)

end Draft

namespace Sketch

mutual
/-- A sketch without pins is written by inserting nodes. -/
theorem inserted_write (s : Sketch) (d : Draft) (hd : d.Sound) (h : d.Inserted)
    (hs : s.proper = true) (hpins : s.unpinned = true) : (s.write d).2.Inserted := by
  cases s with
  | mk form pin parts =>
    rw [proper, Bool.and_eq_true] at hs
    rw [unpinned, Bool.and_eq_true, Option.isNone_iff_eq_none] at hpins
    obtain ⟨hfit, hparts⟩ := hs
    obtain ⟨rfl, hpins⟩ := hpins
    have hsound := Draft.sound_taking hd form
    have hw := wrote_writeAll parts (d.taking form) hsound hparts
    have htaking : (d.taking form).Inserted := by
      unfold Draft.taking
      split
      · exact h.hold []
      · exact h
    have hwritten := inserted_writeAll parts (d.taking form) hsound htaking hparts hpins
    have hbelow : ∀ c ∈ (form.fill (writeAll (d.taking form) parts).1).children ++ d.taken form,
        c < (writeAll (d.taking form) parts).2.placed.size := by
      intro c hc
      rw [form.children_fill _ (hw.length_eq hfit)] at hc
      rcases List.mem_append.1 hc with hpart | hcomment
      · exact Draft.lt_of_forms hw.forms c hpart
      -- A comment that is taken was held before the parts were written.
      · have hheld : c ∈ d.held := by
          rw [← d.held_taking form]
          exact List.mem_append_right _ hcomment
        have hlt := (hd.held c hheld).lt
        rw [← d.placed_taking form] at hlt
        exact Nat.lt_of_lt_of_le hlt hw.size
    have hplaced := hwritten.insert _ _ hbelow
    rw [write_mk]
    dsimp only
    split
    · exact hplaced.hold _
    · exact hplaced

theorem inserted_writeAll (parts : List Sketch) (d : Draft) (hd : d.Sound) (h : d.Inserted)
    (hs : allProper parts = true) (hpins : allUnpinned parts = true) :
    (writeAll d parts).2.Inserted := by
  cases parts with
  | nil => exact h
  | cons s rest =>
    rw [allProper, Bool.and_eq_true] at hs
    rw [allUnpinned, Bool.and_eq_true] at hpins
    have hw := wrote_write s d hd hs.1
    rw [writeAll_cons]
    exact inserted_writeAll rest _ hw.sound (inserted_write s d hd h hs.1 hpins.1) hs.2 hpins.2
end

end Sketch

namespace SyntaxTree

variable {source : SourceId} {d : Draft} {root : NodeId}

theorem bottomUp_of_inserted (h : d.Inserted) : (ofPlaced source d.placed root).BottomUp := by
  constructor
  intro id c hc
  obtain ⟨p, hp, hpart | ⟨stats, hstats, stat, hstat, hcomment⟩⟩ := PlacedNode.mem_childrenIn hc
  · exact (h.laid _ _ hp).below c (List.mem_append_left _ hpart)
  · obtain ⟨q, hq, hcomment⟩ := PlacedNode.mem_commentsIn.1 hcomment
    have hstat : stat ∈ p.node.children := by rwa [hstats]
    have hlt := (h.laid _ _ hp).below stat (List.mem_append_left _ hstat)
    exact Nat.lt_trans ((h.laid _ _ hq).below c (List.mem_append_right _ hcomment)) hlt

/-- A node stands behind all nodes that were inserted before everything below it. -/
theorem stop_lt_start (h : d.Inserted) {i j : NodeId} (hj : j < d.placed.size)
    (hbefore : ∀ x, (ofPlaced source d.placed root).Under x j → i < x) :
    (d.spanOf i).stop < (d.spanOf j).start := by
  induction j using Nat.strongRecOn with
  | _ j ih =>
    have hp := Array.getElem?_eq_getElem hj
    have hlaid := h.laid _ _ hp
    rw [Draft.spanOf_of_some hp]
    rcases hlaid.start with ⟨c, hc, hstart⟩ | hbehind
    -- It begins where one of its parts begins, which stands behind those nodes too.
    · have hlt : c < j := hlaid.below c (List.mem_append_left _ hc)
      have hchild : (ofPlaced source d.placed root).ChildOf c j :=
        PlacedNode.part_mem_childrenIn hp hc
      rw [hstart]
      exact ih c hlt (Nat.lt_trans hlt hj) fun x hx => hbefore x (hx.tail hchild)
    · exact hbehind i (hbefore j .refl)

/-- In a tree that is built in post order without pins the span of a node is around those of its
parts, and of two nodes of which none is above the other the one that was inserted first ends before
the other begins. -/
theorem layout_of_postOrder (source : SourceId) (h : d.Inserted)
    (hpost : (ofPlaced source d.placed root).postOrder root = List.range d.placed.size) :
    let t := ofPlaced source d.placed root
    (∀ id n c, t.node? id = some n → c ∈ n.children → (t.span id).contains (t.span c) = true) ∧
    ∀ i j, i < j → t.contains j = true → i ∉ t.ancestors j → j ∉ t.ancestors i →
      (t.span i).stop < (t.span j).start := by
  intro t
  have hordered : t.PostOrdered := ⟨bottomUp_of_inserted h, hpost⟩
  refine ⟨fun id n c hn hc => ?_, fun i j hij hj _ hapart => ?_⟩
  · obtain ⟨p, hp, rfl⟩ := Option.map_eq_some_iff.1 hn
    have hspan : t.span id = p.span := Draft.spanOf_of_some hp
    rw [hspan]
    exact (h.laid _ _ hp).within c hc
  · have hj : j < t.size := of_decide_eq_true hj
    have hcons : t.Consistent := hordered.consistent
    refine stop_lt_start h hj fun x hx => hordered.lt_of_under hj hij (fun hunder => hapart ?_) hx
    rw [hcons.mem_ancestors]
    rcases Relation.reflTransGen_iff_eq_or_transGen.1 hunder with heq | htrans
    · exact absurd heq (Nat.ne_of_gt hij)
    · exact htrans

theorem layout_of_postOrder_documentedLocal :
    let t := ofSketch 0 (some documentedLocal)
    (t.span 6).contains (t.span 5) = true ∧ (t.span 2).stop < (t.span 4).start ∧
      (t.span 6).stop < (t.span 8).start := by
  obtain ⟨root, ht, hlisted⟩ :=
    exists_root_ofSketch 0 (some documentedLocal) (by decide) (by decide)
  have hproper := proper_ofSketch 0 (some documentedLocal) (by decide)
  have hinserted := Sketch.inserted_write (.node (.source (some documentedLocal))) {} sound_empty
    .empty (by decide) (by decide)
  have h := layout_of_postOrder 0 hinserted hlisted
  rw [← ht] at h
  obtain ⟨hwithin, hbehind⟩ := h
  have hsize : (ofSketch 0 (some documentedLocal)).size = 11 := by decide +kernel
  have hin {i : NodeId} (hi : i < 11) : (ofSketch 0 (some documentedLocal)).contains i = true :=
    decide_eq_true (hsize ▸ hi)
  have hup {a c : NodeId} (hdown : c ∉ (ofSketch 0 (some documentedLocal)).descendants a) :
      a ∉ (ofSketch 0 (some documentedLocal)).ancestors c := fun ha =>
    hdown (hproper.bottomUp.mem_descendants.2 (hproper.consistent.mem_ancestors.1 ha))
  refine ⟨hwithin 6 (.doStat (some 5)) 5 (by decide +kernel) (by decide), ?_, ?_⟩
  · exact hbehind 2 4 (by decide) (hin (by decide)) (hup (by decide +kernel))
      (hup (by decide +kernel))
  · exact hbehind 6 8 (by decide) (hin (by decide)) (hup (by decide +kernel))
      (hup (by decide +kernel))

end SyntaxTree

end LuaAnalysis
