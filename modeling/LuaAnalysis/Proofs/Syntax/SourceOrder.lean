import LuaAnalysis.Proofs.Syntax.Descent

/-!
# Trees in the order of the source

Without fixed spans the parts of a node lie one behind the other in its span
(`SyntaxTree.InOrder`).

Main statement: `inOrder_ofSketch`.
-/

namespace LuaAnalysis

namespace Span

theorem foldl_hull_spec (rest : List Span) (s : Span) :
    (∀ x ∈ s :: rest, (rest.foldl hull s).contains x = true) ∧
      (∃ x ∈ s :: rest, (rest.foldl hull s).start = x.start) ∧
      ∃ x ∈ s :: rest, (rest.foldl hull s).stop = x.stop := by
  induction rest generalizing s with
  | nil => simp
  | cons r rest ih =>
    obtain ⟨hall, ⟨a, ha, hstart⟩, b, hb, hstop⟩ := ih (s.hull r)
    rw [List.foldl_cons]
    have hhull := hall (s.hull r) List.mem_cons_self
    refine ⟨?_, ?_, ?_⟩
    · intro x hx
      rcases List.mem_cons.1 hx with rfl | hx
      · exact contains_trans hhull (hull_contains_left x r)
      rcases List.mem_cons.1 hx with rfl | hx
      · exact contains_trans hhull (hull_contains_right s x)
      · exact hall x (List.mem_cons_of_mem _ hx)
    · rw [hstart]
      rcases List.mem_cons.1 ha with rfl | ha
      · rcases Nat.le_total s.start r.start with h | h
        · exact ⟨s, by simp, Nat.min_eq_left h⟩
        · exact ⟨r, by simp, Nat.min_eq_right h⟩
      · exact ⟨a, by simp [ha], rfl⟩
    · rw [hstop]
      rcases List.mem_cons.1 hb with rfl | hb
      · rcases Nat.le_total s.stop r.stop with h | h
        · exact ⟨r, by simp, Nat.max_eq_right h⟩
        · exact ⟨s, by simp, Nat.max_eq_left h⟩
      · exact ⟨b, by simp [hb], rfl⟩

/-- A covering span contains every span and reaches no further than the outermost of them. -/
theorem covering_spec {spans : List Span} {s : Span} (h : covering spans = some s) :
    (∀ x ∈ spans, s.contains x = true) ∧ (∃ x ∈ spans, s.start = x.start) ∧
      ∃ x ∈ spans, s.stop = x.stop := by
  cases spans with
  | nil => simp [covering] at h
  | cons r rest =>
    rw [covering, Option.some.injEq] at h
    subst h
    exact foldl_hull_spec rest r

end Span

theorem Node.leafWidth_pos {α : Type} (n : Node α) : 0 < n.leafWidth := by
  unfold leafWidth
  split <;> omega

namespace Draft

/-- Whether the nodes of a draft lie before its cursor, and the parts of each one behind the other
inside it. -/
structure Spaced (d : Draft) : Prop where
  nonempty : ∀ (i : NodeId) (p : PlacedNode), d.placed[i]? = some p → p.span.start < p.span.stop
  passed : ∀ (i : NodeId) (p : PlacedNode), d.placed[i]? = some p → p.span.stop < d.cursor
  within : ∀ (i : NodeId) (p : PlacedNode), d.placed[i]? = some p →
    ∀ c ∈ p.node.children, p.span.contains (d.spanOf c) = true
  ordered : ∀ (i : NodeId) (p : PlacedNode), d.placed[i]? = some p →
    p.node.children.Pairwise fun a b => (d.spanOf a).stop < (d.spanOf b).start

/-- What is written at the cursor lies behind it, one node behind the other. -/
structure Spaces (d : Draft) (ids : List NodeId) (d' : Draft) : Prop where
  spaced : d'.Spaced
  cursor : d.cursor ≤ d'.cursor
  behind : ∀ id ∈ ids, d.cursor ≤ (d'.spanOf id).start
  ordered : ids.Pairwise fun a b => (d'.spanOf a).stop < (d'.spanOf b).start

theorem spanOf_of_some {d : Draft} {id : NodeId} {p : PlacedNode} (h : d.placed[id]? = some p) :
    d.spanOf id = p.span := by
  simp [spanOf, h]

theorem Kept.spanOf_eq {d d' : Draft} (h : d.Kept d') {id : NodeId} (hid : id < d.placed.size) :
    d'.spanOf id = d.spanOf id := by
  have hold := Array.getElem?_eq_getElem hid
  rw [spanOf_of_some hold, spanOf_of_some (h id _ hold)]

theorem Spaces.append {d d' d'' : Draft} {forms forms' : List (Node Unit)} {ids ids' : List NodeId}
    (hw : d.Wrote forms ids d') (hw' : d'.Wrote forms' ids' d'') (h : d.Spaces ids d')
    (h' : d'.Spaces ids' d'') : d.Spaces (ids ++ ids') d'' where
  spaced := h'.spaced
  cursor := Nat.le_trans h.cursor h'.cursor
  behind := by
    intro id hid
    rcases List.mem_append.1 hid with hid | hid
    · rw [hw'.kept.spanOf_eq (lt_of_forms hw.forms id hid)]
      exact h.behind id hid
    · exact Nat.le_trans h.cursor (h'.behind id hid)
  ordered := by
    have hold : ∀ id ∈ ids, d''.spanOf id = d'.spanOf id := fun id hid =>
      hw'.kept.spanOf_eq (lt_of_forms hw.forms id hid)
    rw [List.pairwise_append]
    refine ⟨h.ordered.imp_of_mem fun {a b} ha hb hab => ?_, h'.ordered, fun a ha b hb => ?_⟩
    · rwa [hold a ha, hold b hb]
    · rw [hold a ha]
      have hlt := lt_of_forms hw.forms a ha
      have hp := Array.getElem?_eq_getElem hlt
      have hpassed := h.spaced.passed a _ hp
      rw [spanOf_of_some hp]
      exact Nat.lt_of_lt_of_le hpassed (h'.behind b hb)

theorem Spaced.push {d d' : Draft} {q : PlacedNode} (h : d.Spaced) (hsound : d.Sound)
    (hplaced : d'.placed = d.placed.push q) (hcursor : d.cursor ≤ d'.cursor)
    (hnonempty : q.span.start < q.span.stop) (hpassed : q.span.stop < d'.cursor)
    (hparts : ∀ c ∈ q.node.children, c < d.placed.size)
    (hwithin : ∀ c ∈ q.node.children, q.span.contains (d.spanOf c) = true)
    (hordered : q.node.children.Pairwise fun a b => (d.spanOf a).stop < (d.spanOf b).start) :
    d'.Spaced := by
  have hkept : d.Kept d' := by
    intro i p hp
    rw [hplaced]
    exact getElem?_push_of_some hp
  have hcases {i : NodeId} {p : PlacedNode} (hp : d'.placed[i]? = some p) :
      d.placed[i]? = some p ∨ p = q := by
    rw [hplaced, Array.getElem?_push] at hp
    split at hp
    · exact .inr (by simpa using hp.symm)
    · exact .inl hp
  -- Parts are placed before their node, so no span that counts has changed.
  have hold {i : NodeId} {p : PlacedNode} (hp : d.placed[i]? = some p) :
      ∀ c ∈ p.node.children, d'.spanOf c = d.spanOf c := fun c hc =>
    hkept.spanOf_eq (Nat.lt_trans (hsound.below i p hp c (List.mem_append_left _ hc))
      (Array.getElem?_eq_some_iff.1 hp).1)
  have hnew : ∀ c ∈ q.node.children, d'.spanOf c = d.spanOf c := fun c hc =>
    hkept.spanOf_eq (hparts c hc)
  refine ⟨fun i p hp => ?_, fun i p hp => ?_, fun i p hp => ?_, fun i p hp => ?_⟩
  · obtain hp | rfl := hcases hp
    · exact h.nonempty i p hp
    · exact hnonempty
  · obtain hp | rfl := hcases hp
    · exact Nat.lt_of_lt_of_le (h.passed i p hp) hcursor
    · exact hpassed
  · intro c hc
    obtain hp | rfl := hcases hp
    · rw [hold hp c hc]
      exact h.within i p hp c hc
    · rw [hnew c hc]
      exact hwithin c hc
  · obtain hp | rfl := hcases hp
    · refine (h.ordered i p hp).imp_of_mem fun {a b} ha hb hab => ?_
      rwa [hold hp a ha, hold hp b hb]
    · refine hordered.imp_of_mem fun {a b} ha hb hab => ?_
      rwa [hnew a ha, hnew b hb]

/-- A node without a pin goes to the cursor when it has no parts, else around them. -/
theorem insert_unpinned (d : Draft) (n : Node NodeId) (comments : List NodeId) :
    ∃ span cursor, d.insert n none comments =
        (d.placed.size, { d with placed := d.placed.push ⟨n, span, comments⟩, cursor }) ∧
      ((n.children = [] ∧ span.start = d.cursor ∧ span.start < span.stop ∧ span.stop < cursor) ∨
        (cursor = d.cursor ∧ (∀ c ∈ n.children, span.contains (d.spanOf c) = true) ∧
          (∃ c ∈ n.children, span.start = (d.spanOf c).start) ∧
          ∃ c ∈ n.children, span.stop = (d.spanOf c).stop)) := by
  cases hcover : Span.covering (n.children.map d.spanOf) with
  | some span =>
    obtain ⟨hall, ⟨x, hx, hstart⟩, y, hy, hstop⟩ := Span.covering_spec hcover
    obtain ⟨a, ha, rfl⟩ := List.mem_map.1 hx
    obtain ⟨b, hb, rfl⟩ := List.mem_map.1 hy
    refine ⟨span, d.cursor, ?_, .inr ⟨rfl, fun c hc => hall _ (List.mem_map_of_mem hc),
      ⟨a, ha, hstart⟩, b, hb, hstop⟩⟩
    simp only [Draft.insert, hcover]
  | none =>
    have hnil : n.children = [] := by
      cases hc : n.children with
      | nil => rfl
      | cons c rest => simp [hc, Span.covering] at hcover
    refine ⟨⟨d.cursor, d.cursor + n.leafWidth⟩, d.cursor + n.leafWidth + 1, ?_,
      .inl ⟨hnil, rfl, Nat.lt_add_of_pos_right n.leafWidth_pos, Nat.lt_succ_self _⟩⟩
    simp only [Draft.insert, hcover]

theorem Spaces.insert {d d' : Draft} {n : Node NodeId} (h : d.Spaces n.children d')
    (hsound : d'.Sound) (hparts : ∀ c ∈ n.children, c < d'.placed.size)
    (comments : List NodeId) :
    d.Spaces [(d'.insert n none comments).1] (d'.insert n none comments).2 := by
  have hspan {c : NodeId} (hc : c ∈ n.children) :
      (d'.spanOf c).start < (d'.spanOf c).stop ∧ (d'.spanOf c).stop < d'.cursor := by
    have hp := Array.getElem?_eq_getElem (hparts c hc)
    rw [spanOf_of_some hp]
    exact ⟨h.spaced.nonempty c _ hp, h.spaced.passed c _ hp⟩
  have hcursor := h.cursor
  obtain ⟨span, cursor, hinsert, ⟨hnil, hstart, hnonempty, hpassed⟩ |
    ⟨rfl, hwithin, ⟨a, ha, hstart⟩, b, hb, hstop⟩⟩ := d'.insert_unpinned n comments
  -- A node without parts begins at the cursor.
  · rw [hinsert]
    refine ⟨h.spaced.push hsound rfl (by dsimp only; omega) hnonempty hpassed hparts (by simp [hnil])
      h.ordered, by dsimp only; omega, ?_, List.pairwise_singleton _ _⟩
    intro id hid
    obtain rfl := List.mem_singleton.1 hid
    rw [spanOf_of_some (Array.getElem?_push_size), hstart]
    exact hcursor
  -- A node with parts begins where one of them begins and stops where one of them stops.
  · have ha' := hspan ha
    have hb' := hspan hb
    have hab := Span.contains_iff.1 (hwithin a ha)
    have hbehind := h.behind a ha
    rw [hinsert]
    refine ⟨h.spaced.push hsound rfl (Nat.le_refl _) (by dsimp only; omega) (by dsimp only; omega)
      hparts hwithin h.ordered, hcursor, ?_, List.pairwise_singleton _ _⟩
    intro id hid
    obtain rfl := List.mem_singleton.1 hid
    rw [spanOf_of_some (Array.getElem?_push_size), hstart]
    exact hbehind

theorem Spaced.of_placed {d d' : Draft} (h : d.Spaced) (hplaced : d'.placed = d.placed)
    (hcursor : d'.cursor = d.cursor) : d'.Spaced := by
  have hspan : d'.spanOf = d.spanOf := by
    funext id
    rw [spanOf, spanOf, hplaced]
  constructor
  · rw [hplaced]
    exact h.nonempty
  · rw [hplaced, hcursor]
    exact h.passed
  · rw [hplaced, hspan]
    exact h.within
  · rw [hplaced, hspan]
    exact h.ordered

end Draft

namespace Sketch

mutual
theorem spaces_write (s : Sketch) (d : Draft) (hd : d.Sound) (hspaced : d.Spaced)
    (hs : s.proper = true) (hpins : s.unpinned = true) :
    d.Spaces (s.write d).1 (s.write d).2 := by
  cases s with
  | mk form pin parts =>
    rw [proper, Bool.and_eq_true] at hs
    rw [unpinned, Bool.and_eq_true, Option.isNone_iff_eq_none] at hpins
    obtain ⟨hfit, hparts⟩ := hs
    obtain ⟨rfl, hpins⟩ := hpins
    have hcursor : (d.taking form).cursor = d.cursor := by
      unfold Draft.taking
      split <;> rfl
    have hsound := Draft.sound_taking hd form
    have hw := wrote_writeAll parts (d.taking form) hsound hparts
    have h := spaces_writeAll parts (d.taking form) hsound
      (hspaced.of_placed (d.placed_taking form) hcursor) hparts hpins
    have hchildren := form.children_fill _ (hw.length_eq hfit)
    rw [← hchildren] at h
    have hlt := Draft.lt_of_forms hw.forms
    rw [← hchildren] at hlt
    have hplaced := Draft.Spaces.insert h hw.sound hlt (d.taken form)
    rw [write_mk]
    dsimp only
    split
    · refine ⟨hplaced.spaced.of_placed rfl rfl, ?_, by simp, .nil⟩
      rw [← hcursor]
      exact hplaced.cursor
    · refine ⟨hplaced.spaced, ?_, ?_, hplaced.ordered⟩
      · rw [← hcursor]
        exact hplaced.cursor
      · rw [← hcursor]
        exact hplaced.behind

theorem spaces_writeAll (parts : List Sketch) (d : Draft) (hd : d.Sound) (hspaced : d.Spaced)
    (hparts : allProper parts = true) (hpins : allUnpinned parts = true) :
    d.Spaces (writeAll d parts).1 (writeAll d parts).2 := by
  cases parts with
  | nil => exact ⟨hspaced, Nat.le_refl _, by simp [writeAll], .nil⟩
  | cons s rest =>
    rw [allProper, Bool.and_eq_true] at hparts
    rw [allUnpinned, Bool.and_eq_true] at hpins
    have hw := wrote_write s d hd hparts.1
    have h := spaces_write s d hd hspaced hparts.1 hpins.1
    exact h.append hw (wrote_writeAll rest _ hw.sound hparts.2)
      (spaces_writeAll rest _ hw.sound h.spaced hparts.2 hpins.2)
end

end Sketch

namespace SyntaxTree

/-- Whether the nodes of a tree stand where a text has them: each around its parts, and these one
behind the other. Comments may stand anywhere. -/
structure InOrder (t : SyntaxTree) : Prop where
  nonempty : ∀ {id n}, t.node? id = some n → (t.span id).start < (t.span id).stop
  within : ∀ {id n c}, t.node? id = some n → c ∈ n.children →
    (t.span id).contains (t.span c) = true
  ordered : ∀ {id n}, t.node? id = some n →
    n.children.Pairwise fun a b => (t.span a).stop < (t.span b).start

theorem inOrder_ofSketch (source : SourceId) (block : Option Sketch)
    (h : (Sketch.node (.source block)).proper = true)
    (hpins : (Sketch.node (.source block)).unpinned = true) : (ofSketch source block).InOrder := by
  have hspaced := (Sketch.spaces_write _ _ sound_empty (by constructor <;> simp) h hpins).spaced
  have hnode {id : NodeId} {n : Node NodeId} (hn : (ofSketch source block).node? id = some n) :
      ∃ p, ((Sketch.node (.source block)).write {}).2.placed[id]? = some p ∧ p.node = n ∧
        (ofSketch source block).span id = p.span := by
    obtain ⟨p, hp, hn⟩ := Option.map_eq_some_iff.1 hn
    refine ⟨p, hp, hn, ?_⟩
    rw [span, show (ofSketch source block).placed[id]? = some p from hp]
    rfl
  refine ⟨fun hn => ?_, fun hn hc => ?_, fun hn => ?_⟩
  · obtain ⟨p, hp, -, hspan⟩ := hnode hn
    rw [hspan]
    exact hspaced.nonempty _ p hp
  · obtain ⟨p, hp, rfl, hspan⟩ := hnode hn
    rw [hspan]
    exact hspaced.within _ p hp _ hc
  · obtain ⟨p, hp, rfl, -⟩ := hnode hn
    exact hspaced.ordered _ p hp

/-! ## Code -/

variable {t : SyntaxTree}

/-- Whether a node belongs to the code. -/
def isCode (t : SyntaxTree) (id : NodeId) : Bool :=
  (t.node? id).any Node.isCode

theorem isCode_eq {id : NodeId} {n : Node NodeId} (hn : t.node? id = some n) :
    t.isCode id = n.isCode := by
  rw [isCode, hn, Option.any_some]

/-- Code is a part of code. -/
theorem Proper.part_of_code (h : t.Proper) {id c : NodeId} (hc : c ∈ t.children id)
    (hcode : t.isCode c = true) : ∃ n, t.node? id = some n ∧ n.isCode = true ∧ c ∈ n.children := by
  obtain ⟨n, hn, hpart | ⟨stats, -, stat, -, hcomment⟩⟩ := mem_children hc
  · refine ⟨n, hn, ?_, hpart⟩
    obtain ⟨sort, hsort, m, hm, hadmits⟩ := h.is_of_part hn hpart
    rw [isCode_eq hm] at hcode
    cases hnode : n.isCode with
    | true => rfl
    | false =>
      have hdoc := Node.not_isCode_of_part hnode hsort hadmits
      rw [hcode] at hdoc
      cases hdoc
  · obtain ⟨tags, htags⟩ := h.comments hcomment
    rw [isCode_eq htags] at hcode
    cases hcode

theorem Under.isCode (h : t.Proper) {u id : NodeId} (hu : t.Under u id)
    (hcode : t.isCode u = true) : t.isCode id = true := by
  induction hu with
  | refl => exact hcode
  | tail _ hc ih =>
    obtain ⟨n, hn, hnode, -⟩ := h.part_of_code hc ih
    rw [isCode_eq hn, hnode]

/-- Code stands inside the code that it belongs to. -/
theorem Under.within (h : t.Proper) (ho : t.InOrder) {u id : NodeId} (hu : t.Under u id)
    (hcode : t.isCode u = true) : (t.span id).contains (t.span u) = true := by
  induction hu with
  | refl => exact Span.contains_self _
  | tail hu hc ih =>
    obtain ⟨n, hn, -, hpart⟩ := h.part_of_code hc (Under.isCode h hu hcode)
    exact Span.contains_trans (ho.within hn hpart) ih

end SyntaxTree

end LuaAnalysis
