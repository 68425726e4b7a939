import LuaAnalysis.Proofs.Syntax.Sorts
import Mathlib.Data.List.Perm.Basic
import Mathlib.Data.List.Nodup

/-!
# Writing sketches

What one sketch adds to a draft: new nodes whose parts stand before them and are of the sorts that
their places ask for. Of the new nodes every one is adopted by another, held as a comment, or
answered, and none is two of these (`Draft.Wrote`).

Main statement: `Sketch.wrote_write`.
-/

namespace LuaAnalysis

namespace Draft

/-- The nodes that another node has as a part or as a comment. -/
def adopted (d : Draft) : List NodeId :=
  d.placed.toList.flatMap fun p => p.node.children ++ p.comments

def At (d : Draft) (id : NodeId) (good : Node NodeId → Prop) : Prop :=
  ∃ p, d.placed[id]? = some p ∧ good p.node

/-- Whether everything has been written from the parts upwards. -/
structure Sound (d : Draft) : Prop where
  below : ∀ (i : NodeId) (p : PlacedNode), d.placed[i]? = some p →
    ∀ c ∈ p.node.children ++ p.comments, c < i
  fits : ∀ (i : NodeId) (p : PlacedNode), d.placed[i]? = some p →
    p.node.Fits fun sort c => d.At c fun n => sort.admits n
  comments : ∀ (i : NodeId) (p : PlacedNode), d.placed[i]? = some p →
    ∀ c ∈ p.comments, p.node.isStat ∧ d.At c fun n => n.isComment
  held : ∀ c ∈ d.held, d.At c fun n => n.isComment

/-- Every node stays where it is. -/
def Kept (d d' : Draft) : Prop :=
  ∀ (i : NodeId) (p : PlacedNode), d.placed[i]? = some p → d'.placed[i]? = some p

/-- `d'` comes from `d` by writing nodes of some forms: the new nodes are the ids that are answered,
those that are held, and those that a new node has adopted. -/
structure Wrote (d : Draft) (forms : List (Node Unit)) (ids : List NodeId) (d' : Draft) :
    Prop where
  sound : d'.Sound
  kept : d.Kept d'
  size : d.placed.size ≤ d'.placed.size
  forms : List.Forall₂ (fun id form => d'.At id fun n => n.shape = form) ids forms
  adopted : (d'.adopted ++ d'.held ++ ids).Perm
    (d.adopted ++ d.held ++ List.range' d.placed.size (d'.placed.size - d.placed.size))

theorem At.imp {d d' : Draft} {id : NodeId} {good good' : Node NodeId → Prop} (h : d.At id good)
    (kept : d.Kept d')
    (hgood : ∀ n, good n → good' n) : d'.At id good' := by
  obtain ⟨p, hp, hn⟩ := h
  exact ⟨p, kept id p hp, hgood _ hn⟩

theorem At.lt {d : Draft} {id : NodeId} {good : Node NodeId → Prop} (h : d.At id good) :
    id < d.placed.size := by
  obtain ⟨p, hp, -⟩ := h
  exact (Array.getElem?_eq_some_iff.1 hp).1

theorem getElem?_push_of_some {d : Draft} {i : NodeId} {p q : PlacedNode}
    (h : d.placed[i]? = some p) : (d.placed.push q)[i]? = some p := by
  have hi := (Array.getElem?_eq_some_iff.1 h).1
  rw [Array.getElem?_push, if_neg (by omega), h]

theorem wrote_nil {d : Draft} (h : d.Sound) : d.Wrote [] [] d where
  sound := h
  kept _ _ h := h
  size := Nat.le_refl _
  forms := .nil
  adopted := by simp

theorem Wrote.append {d d' d'' : Draft} {forms forms' : List (Node Unit)} {ids ids' : List NodeId}
    (h : d.Wrote forms ids d') (h' : d'.Wrote forms' ids' d'') :
    d.Wrote (forms ++ forms') (ids ++ ids') d'' where
  sound := h'.sound
  kept i p hp := h'.kept i p (h.kept i p hp)
  size := Nat.le_trans h.size h'.size
  forms := by
    refine List.rel_append (h.forms.imp fun _ _ hid => ?_) h'.forms
    exact hid.imp h'.kept fun _ hn => hn
  adopted := by
    have h₁ := h.size
    have h₂ := h'.size
    have hrange : List.range' d.placed.size (d''.placed.size - d.placed.size) =
        List.range' d.placed.size (d'.placed.size - d.placed.size) ++
          List.range' d'.placed.size (d''.placed.size - d'.placed.size) := by
      rw [show d''.placed.size - d.placed.size =
        (d'.placed.size - d.placed.size) + (d''.placed.size - d'.placed.size) by omega,
        ← List.range'_append_1]
      congr 2
      omega
    rw [hrange]
    rw [List.perm_iff_count]
    intro a
    have hc := h.adopted.count_eq a
    have hc' := h'.adopted.count_eq a
    simp only [List.count_append] at hc hc' ⊢
    omega

theorem lt_of_forms {d : Draft} {forms : List (Node Unit)} {ids : List NodeId}
    (h : List.Forall₂ (fun id form => d.At id fun n => n.shape = form) ids forms) :
    ∀ id ∈ ids, id < d.placed.size := by
  induction h with
  | nil => simp
  | cons hid _ ih => exact List.forall_mem_cons.2 ⟨hid.lt, ih⟩

theorem forall₂_admits {d : Draft} {sorts : List PartSort} {forms : List (Node Unit)}
    {ids : List NodeId} (h : List.Forall₂ (fun sort n => sort.admits n = true) sorts forms)
    (hforms : List.Forall₂ (fun id form => d.At id fun n => n.shape = form) ids forms) :
    List.Forall₂ (fun sort id => d.At id fun n => sort.admits n) sorts ids := by
  induction h generalizing ids with
  | nil =>
    cases hforms
    exact .nil
  | cons hsort _ ih =>
    cases hforms with
    | cons hid hrest =>
      refine .cons (hid.imp (fun _ _ hp => hp) fun n hn => ?_) (ih hrest)
      rw [← Node.admits_shape, hn]
      exact hsort

/-- The nodes that a form asks for are as many as it has places. -/
theorem Wrote.length_eq {d d' : Draft} {form : Node Unit} {forms : List (Node Unit)}
    {ids : List NodeId} (h : d.Wrote forms ids d')
    (hfit : PartSort.admitAll form.expects forms = true) : ids.length = form.arity := by
  rw [← Node.length_expects, (PartSort.admitAll_iff.1 hfit).length_eq, h.forms.length_eq]

/-- Places a node whose parts are written. The comments that it takes were held before its parts
were written, and a comment is held itself instead of being answered. -/
theorem Wrote.place {d₀ d d' d'' : Draft} {forms : List (Node Unit)} {ids ids' : List NodeId}
    {form : Node Unit} {comments : List NodeId} (h : d.Wrote forms ids d') (span : Span)
    (hstart : d₀.placed = d.placed) (hheld : d₀.held.Perm (d.held ++ comments))
    (hfit : PartSort.admitAll form.expects forms = true)
    (hcomments : ∀ c ∈ comments, form.isStat ∧ d.At c fun n => n.isComment)
    (hplaced : d''.placed = d'.placed.push ⟨form.fill ids, span, comments⟩)
    (hnew : form.isComment = true ∧ d''.held = d'.held ++ [d'.placed.size] ∧ ids' = [] ∨
      form.isComment = false ∧ d''.held = d'.held ∧ ids' = [d'.placed.size]) :
    d₀.Wrote (if form.isComment then [] else [form]) ids' d'' := by
  have hlength : ids.length = form.arity := h.length_eq hfit
  have hchildren : (form.fill ids).children = ids := form.children_fill ids hlength
  have hshape : (form.fill ids).shape = form := form.shape_fill ids hlength
  have hkept : d'.Kept d'' := by
    intro i p hp
    rw [hplaced]
    exact getElem?_push_of_some hp
  have hid : d''.At d'.placed.size fun n => n.shape = form := by
    refine ⟨⟨form.fill ids, span, comments⟩, ?_, hshape⟩
    rw [hplaced, Array.getElem?_push_size]
  have hsize : d''.placed.size = d'.placed.size + 1 := by rw [hplaced, Array.size_push]
  -- A node of the longer row is an old one or the one just placed.
  have hcases {i : NodeId} {p : PlacedNode} (hp : d''.placed[i]? = some p) :
      d'.placed[i]? = some p ∨ i = d'.placed.size ∧ p = ⟨form.fill ids, span, comments⟩ := by
    rw [hplaced, Array.getElem?_push] at hp
    split at hp
    · exact .inr ⟨by assumption, by simpa using hp.symm⟩
    · exact .inl hp
  have hadmits := forall₂_admits (PartSort.admitAll_iff.1 hfit) h.forms
  have hcomments' : ∀ c ∈ comments, form.isStat ∧ d'.At c fun n => n.isComment := fun c hc =>
    ⟨(hcomments c hc).1, (hcomments c hc).2.imp h.kept fun _ hn => hn⟩
  refine ⟨⟨?below, ?fits, ?comments, ?held⟩, ?kept, ?size, ?forms, ?adopted⟩
  case below =>
    intro i p hp c hc
    obtain hp | ⟨rfl, rfl⟩ := hcases hp
    · exact h.sound.below i p hp c hc
    · rw [hchildren, List.mem_append] at hc
      obtain hc | hc := hc
      · exact lt_of_forms h.forms c hc
      · exact (hcomments' c hc).2.lt
  case fits =>
    intro i p hp
    obtain hp | ⟨rfl, rfl⟩ := hcases hp
    · exact (h.sound.fits i p hp).imp fun _ _ hc => hc.imp hkept fun _ hn => hn
    · show List.Forall₂ _ (form.fill ids).expects (form.fill ids).children
      rw [← Node.expects_shape, hshape, hchildren]
      exact hadmits.imp fun _ _ hc => hc.imp hkept fun _ hn => hn
  case comments =>
    intro i p hp c hc
    obtain hp | ⟨rfl, rfl⟩ := hcases hp
    · obtain ⟨hstat, hc⟩ := h.sound.comments i p hp c hc
      exact ⟨hstat, hc.imp hkept fun _ hn => hn⟩
    · obtain ⟨hstat, hc⟩ := hcomments' c hc
      refine ⟨?_, hc.imp hkept fun _ hn => hn⟩
      rwa [← Node.isStat_shape, hshape]
  case held =>
    intro c hc
    have hold : ∀ c ∈ d'.held, d''.At c fun n => n.isComment := fun c hc =>
      (h.sound.held c hc).imp hkept fun _ hn => hn
    obtain ⟨hcomment, hheld, -⟩ | ⟨-, hheld, -⟩ := hnew
    · rw [hheld, List.mem_append, List.mem_singleton] at hc
      obtain hc | rfl := hc
      · exact hold c hc
      · refine hid.imp (fun _ _ hp => hp) fun n hn => ?_
        rw [← Node.isComment_shape, hn, hcomment]
    · rw [hheld] at hc
      exact hold c hc
  case kept =>
    intro i p hp
    rw [hstart] at hp
    exact hkept i p (h.kept i p hp)
  case size =>
    have := h.size
    rw [hstart]
    omega
  case forms =>
    obtain ⟨hcomment, -, rfl⟩ | ⟨hcomment, -, rfl⟩ := hnew
    · simp [hcomment]
    · simpa [hcomment] using hid
  case adopted =>
    have hle := h.size
    have hadopted : d''.adopted = d'.adopted ++ (ids ++ comments) := by
      simp [Draft.adopted, hplaced, hchildren]
    have hrest : d''.held ++ ids' = d'.held ++ [d'.placed.size] := by
      obtain ⟨-, hheld, rfl⟩ | ⟨-, hheld, rfl⟩ := hnew <;> simp [hheld]
    have hrange : List.range' d.placed.size (d''.placed.size - d.placed.size) =
        List.range' d.placed.size (d'.placed.size - d.placed.size) ++ [d'.placed.size] := by
      rw [hsize, show d'.placed.size + 1 - d.placed.size =
        (d'.placed.size - d.placed.size) + 1 by omega, List.range'_1_concat]
      congr 2
      omega
    have hstart' : d₀.adopted = d.adopted := by rw [Draft.adopted, Draft.adopted, hstart]
    rw [List.append_assoc, hadopted, hrest, hstart', hstart, hrange, List.perm_iff_count]
    intro a
    have hc := h.adopted.count_eq a
    have hc' := hheld.count_eq a
    simp only [List.count_append] at hc hc' ⊢
    omega

theorem Sound.of_placed {d d' : Draft} (h : d.Sound) (hplaced : d'.placed = d.placed)
    (hheld : ∀ c ∈ d'.held, c ∈ d.held) : d'.Sound := by
  have hkept : d.Kept d' := by
    intro i p hp
    rw [hplaced]
    exact hp
  refine ⟨fun i p hp => ?_, fun i p hp => ?_, fun i p hp c hc => ?_, fun c hc => ?_⟩
  · rw [hplaced] at hp
    exact h.below i p hp
  · rw [hplaced] at hp
    exact (h.fits i p hp).imp fun _ _ hc => hc.imp hkept fun _ hn => hn
  · rw [hplaced] at hp
    exact ⟨(h.comments i p hp c hc).1, (h.comments i p hp c hc).2.imp hkept fun _ hn => hn⟩
  · exact (h.held c (hheld c hc)).imp hkept fun _ hn => hn

theorem insert_eq (d : Draft) (n : Node NodeId) (pin : Option Span) (comments : List NodeId) :
    ∃ span cursor, d.insert n pin comments =
      (d.placed.size, { d with placed := d.placed.push ⟨n, span, comments⟩, cursor }) := by
  unfold insert
  split <;> exact ⟨_, _, rfl⟩

/-- What is left of a draft when a node has taken its comments. -/
def taking (d : Draft) (form : Node Unit) : Draft :=
  if form.isStat then { d with held := [] } else d

/-- The comments that a node takes. -/
def taken (d : Draft) (form : Node Unit) : List NodeId :=
  if form.isStat then d.held else []

theorem held_taking (d : Draft) (form : Node Unit) :
    (d.taking form).held ++ d.taken form = d.held := by
  unfold taking taken
  split <;> simp

theorem placed_taking (d : Draft) (form : Node Unit) : (d.taking form).placed = d.placed := by
  unfold taking
  split <;> rfl

theorem sound_taking {d : Draft} (h : d.Sound) (form : Node Unit) : (d.taking form).Sound := by
  refine h.of_placed (d.placed_taking form) fun c hc => ?_
  unfold taking at hc
  split at hc
  · simp at hc
  · exact hc

end Draft

namespace Sketch

theorem write_mk (d : Draft) (form : Node Unit) (pin : Option Span) (parts : List Sketch) :
    (mk form pin parts).write d =
      let written := writeAll (d.taking form) parts
      let placed := written.2.insert (form.fill written.1) pin (d.taken form)
      if form.isComment then ([], { placed.2 with held := placed.2.held ++ [placed.1] })
      else ([placed.1], placed.2) := by
  rw [write]
  rfl

mutual
theorem wrote_write (s : Sketch) (d : Draft) (hd : d.Sound) (hs : s.proper = true) :
    d.Wrote (forms [s]) (s.write d).1 (s.write d).2 := by
  cases s with
  | mk form pin parts =>
    rw [proper, Bool.and_eq_true] at hs
    obtain ⟨hfit, hparts⟩ := hs
    have h := wrote_writeAll parts (d.taking form) (Draft.sound_taking hd form) hparts
    obtain ⟨span, cursor, hinsert⟩ := (writeAll (d.taking form) parts).2.insert_eq
      (form.fill (writeAll (d.taking form) parts).1) pin (d.taken form)
    have hheld : d.held.Perm ((d.taking form).held ++ d.taken form) := by rw [d.held_taking form]
    have hcomments : ∀ c ∈ d.taken form,
        form.isStat ∧ (d.taking form).At c fun n => n.isComment := by
      intro c hc
      unfold Draft.taken at hc
      split at hc
      · next hstat =>
        refine ⟨hstat, (hd.held c hc).imp ?_ fun _ hn => hn⟩
        intro i p hp
        rwa [d.placed_taking form]
      · simp at hc
    have hforms : forms [mk form pin parts] = if form.isComment then [] else [form] := by
      cases hcomment : form.isComment <;> simp [forms, isComment, Sketch.form, hcomment]
    simp only [write_mk, hinsert, hforms]
    refine h.place span (d.placed_taking form).symm hheld hfit hcomments ?_ ?_
    · split <;> rfl
    · cases hcomment : form.isComment <;> simp

theorem wrote_writeAll (parts : List Sketch) (d : Draft) (hd : d.Sound)
    (hparts : allProper parts = true) :
    d.Wrote (forms parts) (writeAll d parts).1 (writeAll d parts).2 := by
  cases parts with
  | nil => exact Draft.wrote_nil hd
  | cons s rest =>
    rw [allProper, Bool.and_eq_true] at hparts
    have h := wrote_write s d hd hparts.1
    have h' := wrote_writeAll rest (write d s).2 h.sound hparts.2
    have hforms : forms (s :: rest) = forms [s] ++ forms rest := by
      simp only [forms, ← List.map_append, ← List.filter_append, List.singleton_append]
    rw [hforms]
    exact h.append h'
end

end Sketch

end LuaAnalysis
