import LuaAnalysis.Proofs.Syntax.PostOrder

/-!
# Sketches are written in post order

A sketch is written from left to right and from the parts upwards. When its comments stand in blocks
and above statements (`Sketch.documented`), each is attached to the statement that follows it, and
the tree is one in post order.

Main statement: `SyntaxTree.postOrdered_ofSketch`.
-/

namespace LuaAnalysis

namespace Sketch

/-- Whether the comments among the parts of a node are above statements: only a block has comments,
and they do not end it. -/
def commentsLead (form : Node Unit) (parts : List Sketch) : Bool :=
  match form with
  | .block _ => !parts.getLast?.any isComment
  | _ => !parts.any isComment

mutual
/-- Whether every comment of a sketch is above a statement. -/
def documented : Sketch → Bool
  | mk form _ parts => commentsLead form parts && allDocumented parts

def allDocumented : List Sketch → Bool
  | [] => true
  | s :: rest => documented s && allDocumented rest
end

end Sketch

namespace Draft

variable {t : SyntaxTree} {d d' d'' : Draft} {ids ids' : List NodeId}

/-- Whether the nodes that have been written between two drafts are what some nodes list in post
order. -/
def Covers (t : SyntaxTree) (d : Draft) (ids : List NodeId) (d' : Draft) : Prop :=
  List.range d.placed.size ++ ids.flatMap t.postOrder = List.range d'.placed.size

theorem covers_nil : d.Covers t [] d :=
  List.append_nil _

theorem Covers.append (h : d.Covers t ids d') (h' : d'.Covers t ids' d'') :
    d.Covers t (ids ++ ids') d'' := by
  rw [Covers, List.flatMap_append, ← List.append_assoc, h, h']

theorem Covers.place (hb : t.BottomUp) (h : d.Covers t (t.children d'.placed.size) d')
    (hsize : d''.placed.size = d'.placed.size + 1) : d.Covers t [d'.placed.size] d'' := by
  rw [Covers, List.flatMap_singleton, hb.postOrder_eq, ← List.append_assoc, h, hsize,
    List.range_succ]

theorem covers_taking {form : Node Unit} :
    (d.taking form).Covers t ids d' ↔ d.Covers t ids d' := by
  rw [Covers, Covers, placed_taking]

theorem taking_of_not_isStat {form : Node Unit} (h : form.isStat = false) : d.taking form = d := by
  rw [taking, if_neg (by simp [h])]

theorem held_taking_of_isStat {form : Node Unit} (h : form.isStat = true) :
    (d.taking form).held = [] := by
  rw [taking, if_pos h]

theorem taken_of_isStat {form : Node Unit} (h : form.isStat = true) : d.taken form = d.held := by
  rw [taken, if_pos h]

end Draft

theorem Node.fill_block {α : Type} [Inhabited α] (stats : List Unit) (ids : List α)
    (h : ids.length = stats.length) : (Node.block stats).fill ids = .block ids := by
  simp [fill, mapM, run_mapM_next, h, take_all]

/-- A comment is neither a statement nor other code. -/
theorem Node.not_isCode_of_isComment {α : Type} {n : Node α} (h : n.isComment = true) :
    n.isCode = false ∧ n.isStat = false := by
  cases n with
  | comment tags => exact ⟨rfl, rfl⟩
  | _ => cases h

namespace Sketch

/-- What writing a sketch adds to what writing its parts adds. -/
theorem write_spec (form : Node Unit) (pin : Option Span) (parts : List Sketch) (d : Draft) :
    let written := writeAll (d.taking form) parts
    let s := mk form pin parts
    ∃ span, (s.write d).2.placed =
        written.2.placed.push ⟨form.fill written.1, span, d.taken form⟩ ∧
      (form.isComment = true ∧ (s.write d).1 = [] ∧
          (s.write d).2.held = written.2.held ++ [written.2.placed.size] ∨
        form.isComment = false ∧ (s.write d).1 = [written.2.placed.size] ∧
          (s.write d).2.held = written.2.held) := by
  intro written s
  obtain ⟨span, cursor, hinsert⟩ :=
    written.2.insert_eq (form.fill written.1) pin (d.taken form)
  refine ⟨span, ?_⟩
  simp only [s, write_mk, written, hinsert]
  cases form.isComment <;> simp

theorem writeAll_cons (d : Draft) (s : Sketch) (rest : List Sketch) :
    writeAll d (s :: rest) = ((s.write d).1 ++ (writeAll (s.write d).2 rest).1,
      (writeAll (s.write d).2 rest).2) := by
  rw [writeAll]

/-! ## The parts of a proper sketch -/

theorem exists_sort_of_admitAll {sorts : List PartSort} {nodes : List (Node Unit)}
    (h : PartSort.admitAll sorts nodes = true) {n : Node Unit} (hn : n ∈ nodes) :
    ∃ sort ∈ sorts, sort.admits n = true := by
  rw [PartSort.admitAll_iff] at h
  induction h with
  | nil => cases hn
  | cons hadmits _ ih =>
    rcases List.mem_cons.1 hn with rfl | hn
    · exact ⟨_, List.mem_cons_self, hadmits⟩
    · obtain ⟨sort, hsort, hadmits⟩ := ih hn
      exact ⟨sort, List.mem_cons_of_mem _ hsort, hadmits⟩

theorem exists_sort_of_part {form : Node Unit} {parts : List Sketch}
    (hfit : PartSort.admitAll form.expects (forms parts) = true) {s : Sketch} (hs : s ∈ parts)
    (hcomment : s.isComment = false) : ∃ sort ∈ form.expects, sort.admits s.form = true := by
  have hkept : s ∈ parts.filter fun s => !s.isComment :=
    List.mem_filter.2 ⟨hs, by rw [hcomment]; rfl⟩
  exact exists_sort_of_admitAll hfit (List.mem_map_of_mem hkept)

/-- The parts of a block are statements and comments. -/
theorem isStat_of_block_part {stats : List Unit} {parts : List Sketch}
    (hfit : PartSort.admitAll (Node.block stats).expects (forms parts) = true) {s : Sketch}
    (hs : s ∈ parts) (hcomment : s.isComment = false) : s.form.isStat = true := by
  obtain ⟨sort, hsort, hadmits⟩ := exists_sort_of_part hfit hs hcomment
  obtain ⟨-, -, rfl⟩ := List.mem_map.1 hsort
  exact hadmits

theorem not_isStat_of_part {form : Node Unit} {parts : List Sketch}
    (hfit : PartSort.admitAll form.expects (forms parts) = true)
    (hblock : ∀ stats, form ≠ .block stats) {s : Sketch} (hs : s ∈ parts)
    (hcomment : s.isComment = false) : s.form.isStat = false := by
  obtain ⟨sort, hsort, hadmits⟩ := exists_sort_of_part hfit hs hcomment
  exact Node.not_isStat_of_admits (Node.ne_stat_of_mem_expects hblock hsort) hadmits

theorem commentsLead_eq {form : Node Unit} (parts : List Sketch)
    (hblock : ∀ stats, form ≠ .block stats) : commentsLead form parts = !parts.any isComment := by
  cases form with
  | block stats => exact absurd rfl (hblock stats)
  | _ => rfl

/-! ## Writing in post order -/

section
variable {source : SourceId} {D : Draft} {root : NodeId}

/-- The node of a sketch in a tree that keeps what is written. -/
theorem kept_of_write (form : Node Unit) (pin : Option Span) (parts : List Sketch) {d : Draft}
    (hkept : ((mk form pin parts).write d).2.Kept D) :
    let written := writeAll (d.taking form) parts
    let t := SyntaxTree.ofPlaced source D.placed root
    written.2.Kept D ∧ t.node? written.2.placed.size = some (form.fill written.1) ∧
      t.comments written.2.placed.size = d.taken form := by
  intro written t
  obtain ⟨span, hplaced, -⟩ := write_spec form pin parts d
  have hnew : D.placed[written.2.placed.size]? =
      some ⟨form.fill written.1, span, d.taken form⟩ := by
    refine hkept _ _ ?_
    rw [hplaced, Array.getElem?_push_size]
  refine ⟨fun i p hp => hkept i p ?_, congrArg (Option.map _) hnew,
    congrArg (fun p => (p.map PlacedNode.comments).getD []) hnew⟩
  rw [hplaced]
  exact Draft.getElem?_push_of_some hp

mutual
/-- Writing a sketch adds what its own node lists. A comment is held back; a statement takes what is
held, and nothing else is written while a comment is held, but what is in comments. -/
theorem covers_write (hb : (SyntaxTree.ofPlaced source D.placed root).BottomUp) (s : Sketch)
    (d : Draft) (hd : d.Sound) (hs : s.proper = true) (hdoc : s.documented = true)
    (hheld : s.form.isCode = false ∨ s.form.isStat = true ∨ d.held = [])
    (hkept : (s.write d).2.Kept D) :
    ∃ id, d.Covers (.ofPlaced source D.placed root) [id] (s.write d).2 ∧
      (s.isComment = true ∧ (s.write d).1 = [] ∧ (s.write d).2.held = d.held ++ [id] ∨
        s.isComment = false ∧ (s.write d).1 = [id] ∧
          (s.write d).2.held = (d.taking s.form).held ∧
          (SyntaxTree.ofPlaced source D.placed root).comments id = d.taken s.form) := by
  cases s with
  | mk form pin parts =>
    rw [proper, Bool.and_eq_true] at hs
    rw [documented, Bool.and_eq_true] at hdoc
    obtain ⟨hfit, hparts⟩ := hs
    obtain ⟨hlead, hdocs⟩ := hdoc
    have hsound := Draft.sound_taking hd form
    have hw := wrote_writeAll parts (d.taking form) hsound hparts
    have hlength : (writeAll (d.taking form) parts).1.length = form.arity := hw.length_eq hfit
    obtain ⟨hinner, hnode, hcomments⟩ := kept_of_write form pin parts hkept
    -- Only what is in a comment is written while comments are held.
    have hfree : form.isCode = false ∨ (d.taking form).held = [] := by
      cases hstat : form.isStat with
      | true => exact .inr (Draft.held_taking_of_isStat hstat)
      | false =>
        rw [Draft.taking_of_not_isStat hstat]
        exact hheld.imp_right fun h => h.resolve_left (by simp [Sketch.form, hstat])
    have hcovers : (d.taking form).Covers (.ofPlaced source D.placed root)
          ((SyntaxTree.ofPlaced source D.placed root).children
            (writeAll (d.taking form) parts).2.placed.size)
          (writeAll (d.taking form) parts).2 ∧
        (writeAll (d.taking form) parts).2.held = (d.taking form).held := by
      by_cases hblock : ∃ stats, form = .block stats
      · obtain ⟨stats, rfl⟩ := hblock
        have hnone : (d.taking (.block stats)).held = [] :=
          hfree.resolve_left (by simp [Node.isCode])
        obtain ⟨new, hcovers, hrow, hlast⟩ := covers_items hb parts (d.taking (.block stats)) hsound
          hparts hdocs (fun s hs => isStat_of_block_part hfit hs) hinner
        have hended : (writeAll (d.taking (.block stats)) parts).2.held = [] :=
          hlast (by simpa [commentsLead] using hlead) (.inr hnone)
        rw [hnone, hended, List.nil_append, List.append_nil] at hrow
        rw [Node.fill_block stats _ hlength] at hnode
        rw [SyntaxTree.children_block hnode, ← hrow, hended, hnone]
        exact ⟨hcovers, rfl⟩
      · have hblock : ∀ stats, form ≠ .block stats := fun stats h => hblock ⟨stats, h⟩
        have hfill : ∀ stats, form.fill (writeAll (d.taking form) parts).1 ≠ .block stats := by
          intro stats h
          have hshape := form.shape_fill _ hlength
          rw [h] at hshape
          exact hblock _ hshape.symm
        rw [SyntaxTree.children_eq hnode hfill, form.children_fill _ hlength]
        rw [commentsLead_eq parts hblock, Bool.not_eq_true', List.any_eq_false] at hlead
        refine covers_parts hb parts (d.taking form) hsound hparts hdocs (fun s hs => ?_) hinner
        have hcomment : s.isComment = false := Bool.eq_false_iff.2 (hlead s hs)
        refine ⟨hcomment, not_isStat_of_part hfit hblock hs hcomment, hfree.imp_left fun hcode => ?_⟩
        obtain ⟨sort, hsort, hadmits⟩ := exists_sort_of_part hfit hs hcomment
        exact Node.not_isCode_of_part hcode hsort hadmits
    obtain ⟨span, hplaced, hanswer⟩ := write_spec form pin parts d
    have hsize : ((mk form pin parts).write d).2.placed.size =
        (writeAll (d.taking form) parts).2.placed.size + 1 := by
      rw [hplaced, Array.size_push]
    refine ⟨_, Draft.covers_taking.1 (hcovers.1.place hb hsize), ?_⟩
    rw [hcovers.2] at hanswer
    obtain ⟨hcomment, hids, hheld'⟩ | ⟨hcomment, hids, hheld'⟩ := hanswer
    · rw [Draft.taking_of_not_isStat (Node.not_isCode_of_isComment hcomment).2] at hheld' ⊢
      exact .inl ⟨hcomment, hids, hheld'⟩
    · exact .inr ⟨hcomment, hids, hheld', hcomments⟩

theorem covers_parts (hb : (SyntaxTree.ofPlaced source D.placed root).BottomUp)
    (parts : List Sketch) (d : Draft) (hd : d.Sound) (hs : allProper parts = true)
    (hdoc : allDocumented parts = true)
    (hplain : ∀ s ∈ parts, s.isComment = false ∧ s.form.isStat = false ∧
      (s.form.isCode = false ∨ d.held = []))
    (hkept : (writeAll d parts).2.Kept D) :
    d.Covers (.ofPlaced source D.placed root) (writeAll d parts).1 (writeAll d parts).2 ∧
      (writeAll d parts).2.held = d.held := by
  cases parts with
  | nil => exact ⟨Draft.covers_nil, rfl⟩
  | cons s rest =>
    rw [allProper, Bool.and_eq_true] at hs
    rw [allDocumented, Bool.and_eq_true] at hdoc
    obtain ⟨hcomment, hstat, hfree⟩ := hplain s List.mem_cons_self
    have hw := wrote_write s d hd hs.1
    have hrest := wrote_writeAll rest (s.write d).2 hw.sound hs.2
    obtain ⟨id, hcovers, ⟨hyes, -⟩ | ⟨-, hids, hheld, -⟩⟩ := covers_write hb s d hd hs.1 hdoc.1
      (hfree.imp_right .inr) fun i p hp => hkept i p (hrest.kept i p hp)
    · rw [hcomment] at hyes
      cases hyes
    · have hsame : (s.write d).2.held = d.held := by
        rw [hheld, Draft.taking_of_not_isStat hstat]
      obtain ⟨hcovers', hheld'⟩ := covers_parts hb rest (s.write d).2 hw.sound hs.2 hdoc.2
        (fun r hr => hsame ▸ hplain r (List.mem_cons_of_mem _ hr)) hkept
      rw [writeAll_cons, hids]
      exact ⟨hcovers.append hcovers', hheld'.trans hsame⟩

/-- The items of a block: what was held and what is written are the statements, each behind its
comments, and what is held then. -/
theorem covers_items (hb : (SyntaxTree.ofPlaced source D.placed root).BottomUp)
    (parts : List Sketch) (d : Draft) (hd : d.Sound) (hs : allProper parts = true)
    (hdoc : allDocumented parts = true)
    (hitems : ∀ s ∈ parts, s.isComment = false → s.form.isStat = true)
    (hkept : (writeAll d parts).2.Kept D) :
    ∃ new, d.Covers (.ofPlaced source D.placed root) new (writeAll d parts).2 ∧
      d.held ++ new = ((writeAll d parts).1.flatMap fun stat =>
        (SyntaxTree.ofPlaced source D.placed root).comments stat ++ [stat]) ++
          (writeAll d parts).2.held ∧
      (parts.getLast?.any isComment = false → parts ≠ [] ∨ d.held = [] →
        (writeAll d parts).2.held = []) := by
  cases parts with
  | nil => exact ⟨[], Draft.covers_nil, by simp [writeAll], fun _ h => h.resolve_left (absurd rfl)⟩
  | cons s rest =>
    rw [allProper, Bool.and_eq_true] at hs
    rw [allDocumented, Bool.and_eq_true] at hdoc
    have hw := wrote_write s d hd hs.1
    have hrest := wrote_writeAll rest (s.write d).2 hw.sound hs.2
    have hstat : s.form.isCode = false ∨ s.form.isStat = true := by
      cases hcomment : s.isComment with
      | true => exact .inl (Node.not_isCode_of_isComment hcomment).1
      | false => exact .inr (hitems s List.mem_cons_self hcomment)
    obtain ⟨id, hcovers, hanswer⟩ := covers_write hb s d hd hs.1 hdoc.1
      (hstat.imp_right .inl) fun i p hp => hkept i p (hrest.kept i p hp)
    obtain ⟨new, hcovers', hrow, hlast⟩ := covers_items hb rest (s.write d).2 hw.sound hs.2 hdoc.2
      (fun r hr => hitems r (List.mem_cons_of_mem _ hr)) hkept
    refine ⟨id :: new, hcovers.append hcovers', ?_, fun hend _ => ?_⟩
    · rw [writeAll_cons, List.flatMap_append, List.append_assoc, ← hrow]
      obtain ⟨-, hids, hheld⟩ | ⟨hcomment, hids, hheld, htaken⟩ := hanswer
      -- A comment joins those that are held.
      · rw [hids, hheld]
        simp
      -- A statement has taken them all.
      · have hstat : s.form.isStat = true := hitems s List.mem_cons_self hcomment
        rw [hids, hheld, Draft.held_taking_of_isStat hstat, List.flatMap_singleton, htaken,
          Draft.taken_of_isStat hstat]
        simp
    · rw [writeAll_cons]
      cases rest with
      | nil =>
        have hcomment : s.isComment = false := by simpa using hend
        refine hlast rfl (.inr ?_)
        obtain ⟨hyes, -⟩ | ⟨-, -, hheld, -⟩ := hanswer
        · rw [hcomment] at hyes
          cases hyes
        · rw [hheld, Draft.held_taking_of_isStat (hitems s List.mem_cons_self hcomment)]
      | cons r rest => exact hlast (by simpa using hend) (.inl (List.cons_ne_nil r rest))
end

end

end Sketch

namespace SyntaxTree

/-- What is written from a sketch is in post order when its comments are above statements. -/
theorem postOrdered_ofSketch (source : SourceId) (block : Option Sketch)
    (h : (Sketch.node (.source block)).proper = true)
    (hdoc : (Sketch.node (.source block)).documented = true) :
    (ofSketch source block).PostOrdered := by
  have hb : (ofSketch source block).BottomUp := (proper_ofSketch source block h).bottomUp
  obtain ⟨id, hcovers, ⟨hcomment, -⟩ | ⟨-, hids, -⟩⟩ := Sketch.covers_write hb _ {}
    sound_empty h hdoc (.inr (.inr rfl)) fun _ _ hp => hp
  · cases block <;> cases hcomment
  · have hroot : (ofSketch source block).root = id := congrArg (·.headD 0) hids
    refine ⟨hb, ?_⟩
    rw [hroot]
    rw [Draft.Covers, List.flatMap_singleton] at hcovers
    exact hcovers

theorem exists_root_ofSketch (source : SourceId) (block : Option Sketch)
    (h : (Sketch.node (.source block)).proper = true)
    (hdoc : (Sketch.node (.source block)).documented = true) :
    let d := ((Sketch.node (.source block)).write {}).2
    ∃ root, ofSketch source block = ofPlaced source d.placed root ∧
      (ofPlaced source d.placed root).postOrder root = List.range d.placed.size :=
  ⟨_, rfl, (postOrdered_ofSketch source block h hdoc).listed⟩

end SyntaxTree

end LuaAnalysis
