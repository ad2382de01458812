/-
  MailMerge.Proofs.Field.Anchors — where the anchors of a scanned field stand.

  A field is told by its marker (`mem_fields`), so the markers of a scan stand in document
  order (`markers_sublist`), each once. The marker stands within the first anchor, and the
  anchors are the first one and element siblings right behind it, none left out
  (`Field.Placed`).
-/

import Mathlib.Data.List.Basic
import MailMerge.Field.Scan
import MailMerge.Proofs.Tree.Order

namespace MailMerge

/-! ## Lists -/

theorem takeThrough?_eq_some {α : Type} {p : α → Bool} {l front : List α} (h : takeThrough? p l = some front) :
    ∃ rest, l = front ++ rest := by
  induction l generalizing front with
  | nil => cases h
  | cons a l ih =>
    rw [takeThrough?] at h
    split at h
    · cases h; exact ⟨l, rfl⟩
    · obtain ⟨front', hf, rfl⟩ := Option.map_eq_some_iff.mp h
      obtain ⟨rest, rfl⟩ := ih hf
      exact ⟨rest, rfl⟩

theorem takeThrough?_head {α : Type} {p : α → Bool} {a : α} {l front : List α}
    (h : takeThrough? p (a :: l) = some front) : ∃ rest, front = a :: rest := by
  rw [takeThrough?] at h
  split at h
  · cases h; exact ⟨[], rfl⟩
  · obtain ⟨front', -, rfl⟩ := Option.map_eq_some_iff.mp h
    exact ⟨front', rfl⟩

theorem dropWhile_ne_eq {α : Type} [DecidableEq α] {x : α} {before after : List α} (h : x ∉ before) :
    (before ++ x :: after).dropWhile (· != x) = x :: after := by
  induction before with
  | nil => simp
  | cons a before ih =>
    have hne : a ≠ x := fun he => h (he ▸ List.mem_cons_self)
    simp only [List.cons_append, List.dropWhile_cons, bne_iff_ne, ne_eq, hne, not_false_eq_true, if_true]
    exact ih fun hm => h (List.mem_cons_of_mem a hm)

theorem takeWhile_ne_eq {α : Type} [DecidableEq α] {x : α} {before after : List α} (h : x ∉ before) :
    (before ++ x :: after).takeWhile (· != x) = before := by
  induction before with
  | nil => simp
  | cons a before ih =>
    have hne : a ≠ x := fun he => h (he ▸ List.mem_cons_self)
    simp only [List.cons_append, List.takeWhile_cons, bne_iff_ne, ne_eq, hne, not_false_eq_true, if_true]
    rw [ih fun hm => h (List.mem_cons_of_mem a hm)]

/-- A list without repetitions is cut at an element in one way only. -/
theorem cut_unique {α : Type} [DecidableEq α] {l a b c d : List α} {x : α} (hnd : l.Nodup) (h : l = a ++ x :: b)
    (h' : l = c ++ x :: d) : a = c ∧ b = d := by
  have hnot : x ∉ a ∧ x ∉ b := by
    rw [h] at hnd
    exact ⟨fun ha => (List.nodup_append.mp hnd).2.2 x ha x List.mem_cons_self rfl,
      (List.nodup_cons.mp (List.nodup_append.mp hnd).2.1).1⟩
  obtain ⟨hac, -, hbd⟩ := (List.append_cons_inj_of_notMem hnot.1 hnot.2).mp (h.symm.trans h')
  exact ⟨hac, hbd⟩

namespace Tree.WellFormed

variable {t : Tree} (h : t.WellFormed)

include h

/-! ## Later siblings -/

theorem laterElements_eq {p x : NodeId} {before after : List NodeId} (hs : t.children p = before ++ x :: after) :
    t.laterElements x = after.filter t.isElement := by
  have hx : t.parent x = some p := h.parent_of_mem (by rw [hs]; simp)
  have hnd := h.distinct p
  rw [hs] at hnd
  have hnot : x ∉ before := fun hm => (List.nodup_append.mp hnd).2.2 x hm x List.mem_cons_self rfl
  simp only [laterElements, hx]
  rw [hs, dropWhile_ne_eq hnot]
  rfl

theorem mem_laterElements {x y : NodeId} (hy : y ∈ t.laterElements x) :
    t.parent y = t.parent x ∧ t.parent x ≠ none ∧ t.isElement y = true ∧ y ≠ x := by
  cases hp : t.parent x with
  | none => rw [laterElements, hp] at hy; cases hy
  | some p =>
    obtain ⟨before, after, hs⟩ := List.append_of_mem (h.mem_of_parent hp)
    rw [h.laterElements_eq hs, List.mem_filter] at hy
    have hnd := h.distinct p
    rw [hs] at hnd
    have hmem : y ∈ t.children p := by rw [hs]; simp [hy.1]
    refine ⟨h.parent_of_mem hmem, by simp, hy.2, ?_⟩
    rintro rfl
    exact (List.nodup_cons.mp (List.nodup_append.mp hnd).2.1).1 hy.1

theorem nodup_laterElements (x : NodeId) : (t.laterElements x).Nodup := by
  cases hp : t.parent x with
  | none => rw [laterElements, hp]; exact List.nodup_nil
  | some p =>
    obtain ⟨before, after, hs⟩ := List.append_of_mem (h.mem_of_parent hp)
    rw [h.laterElements_eq hs]
    have hnd := h.distinct p
    rw [hs] at hnd
    exact (List.nodup_cons.mp (List.nodup_append.mp hnd).2.1).2.filter _

/-- Behind a later sibling stand the rest of the later siblings. -/
theorem laterElements_of_mem {x y : NodeId} (hy : y ∈ t.laterElements x) :
    ∃ mid, t.laterElements x = mid ++ y :: t.laterElements y := by
  obtain ⟨-, hpx, hey, -⟩ := h.mem_laterElements hy
  obtain ⟨p, hp⟩ := Option.ne_none_iff_exists'.mp hpx
  obtain ⟨before, after, hs⟩ := List.append_of_mem (h.mem_of_parent hp)
  rw [h.laterElements_eq hs] at hy ⊢
  obtain ⟨c, c', rfl⟩ := List.append_of_mem (List.mem_filter.mp hy).1
  refine ⟨c.filter t.isElement, ?_⟩
  have hsy : t.children p = (before ++ x :: c) ++ y :: c' := by rw [hs]; simp
  rw [h.laterElements_eq hsy, List.filter_append, List.filter_cons_of_pos hey]

theorem laterElements_trans {x y z : NodeId} (hy : y ∈ t.laterElements x) (hz : z ∈ t.laterElements y) :
    z ∈ t.laterElements x := by
  obtain ⟨mid, hm⟩ := h.laterElements_of_mem hy
  rw [hm]
  exact List.mem_append_right _ (List.mem_cons_of_mem _ hz)

theorem not_mem_laterElements {x y : NodeId} (hy : y ∈ t.laterElements x) : x ∉ t.laterElements y := fun hx =>
  (h.mem_laterElements (h.laterElements_trans hy hx)).2.2.2 rfl

/-- Of two element siblings one is behind the other. -/
theorem laterElements_total {x y : NodeId} (hp : t.parent x = t.parent y) (hne : t.parent x ≠ none) (hxy : x ≠ y)
    (hx : t.isElement x = true) (hy : t.isElement y = true) : y ∈ t.laterElements x ∨ x ∈ t.laterElements y := by
  obtain ⟨p, hpx⟩ := Option.ne_none_iff_exists'.mp hne
  obtain ⟨before, after, hs⟩ := List.append_of_mem (h.mem_of_parent hpx)
  have hmem : y ∈ before ++ x :: after := hs ▸ h.mem_of_parent (hp ▸ hpx)
  rcases List.mem_append.mp hmem with hyb | hya
  · obtain ⟨c, c', rfl⟩ := List.append_of_mem hyb
    have hsy : t.children p = c ++ y :: (c' ++ x :: after) := by rw [hs]; simp
    rw [h.laterElements_eq hsy]
    exact Or.inr (List.mem_filter.mpr ⟨by simp, hx⟩)
  · rw [h.laterElements_eq hs]
    exact Or.inl (List.mem_filter.mpr ⟨(List.mem_cons.mp hya).resolve_left (Ne.symm hxy), hy⟩)

end Tree.WellFormed

/-! ## Fields of a scan -/

namespace Field

@[simp] theorem ofInstruction_marker (t : Tree) (m : NodeId) (s : String) (first : NodeId) (others : List NodeId)
    (shape : Shape) (whole : Bool) : (ofInstruction t m s first others shape whole).marker = m := by
  unfold ofInstruction; split <;> rfl

@[simp] theorem ofInstruction_anchors (t : Tree) (m : NodeId) (s : String) (first : NodeId) (others : List NodeId)
    (shape : Shape) (whole : Bool) : (ofInstruction t m s first others shape whole).anchors = first :: others := by
  unfold ofInstruction; split <;> rfl

@[simp] theorem ofInstruction_first (t : Tree) (m : NodeId) (s : String) (first : NodeId) (others : List NodeId)
    (shape : Shape) (whole : Bool) : (ofInstruction t m s first others shape whole).first = first := by
  unfold ofInstruction; split <;> rfl

@[simp] theorem ofInstruction_last (t : Tree) (m : NodeId) (s : String) (first : NodeId) (others : List NodeId)
    (shape : Shape) (whole : Bool) : (ofInstruction t m s first others shape whole).last = others.getLastD first := by
  unfold ofInstruction; split <;> rfl

@[simp] theorem ofInstruction_span (t : Tree) (m : NodeId) (s : String) (first : NodeId) (others : List NodeId)
    (shape : Shape) (whole : Bool) : (ofInstruction t m s first others shape whole).span =
      (t.span first).extendTo (t.span (others.getLastD first)).stop := by
  unfold ofInstruction; split <;> rfl

@[simp] theorem ofInstruction_shape (t : Tree) (m : NodeId) (s : String) (first : NodeId) (others : List NodeId)
    (shape : Shape) (whole : Bool) : (ofInstruction t m s first others shape whole).shape = shape := by
  unfold ofInstruction; split <;> rfl

/-- The marker stands at or directly below the first anchor, which begins a run of element
    siblings that are the anchors. -/
structure Placed (f : Field) (t : Tree) : Prop where
  marked : f.marker = f.first ∨ t.parent f.marker = some f.first
  run : ∃ rest, f.first :: t.laterElements f.first = f.anchors ++ rest

theorem simple?_eq_some {t : Tree} {id : NodeId} {f : Field} (h : simple? t id = some f) :
    f.marker = id ∧ f.first = id ∧ f.anchors = [id] := by
  obtain ⟨s, -, rfl⟩ := Option.map_eq_some_iff.mp h
  simp

theorem simple?_shape {t : Tree} {id : NodeId} {f : Field} (h : simple? t id = some f) : f.shape = .simple := by
  obtain ⟨s, -, rfl⟩ := Option.map_eq_some_iff.mp h
  simp

theorem complex?_eq_some {t : Tree} {id : NodeId} {f : Field} (h : complex? t id = some f) :
    f.marker = id ∧ t.parent id = some f.first ∧
      takeThrough? (t.holdsMarker .closing) (f.first :: t.laterElements f.first) = some f.anchors := by
  simp only [complex?, Option.bind_eq_bind, Option.bind_eq_some_iff, Option.some.injEq] at h
  obtain ⟨first, hp, anchors, ha, rfl⟩ := h
  obtain ⟨rest, rfl⟩ := takeThrough?_head ha
  simp [hp, ha]

theorem complex?_shape {t : Tree} {id : NodeId} {f : Field} (h : complex? t id = some f) : f.shape = .complex := by
  simp only [complex?, Option.bind_eq_bind, Option.bind_eq_some_iff, Option.some.injEq] at h
  obtain ⟨first, -, anchors, -, rfl⟩ := h
  simp

theorem ofMarker?_eq_some {t : Tree} {id : NodeId} {f : Field} (h : ofMarker? t id = some f) :
    f.marker = id ∧ t.opensField id = true ∧ f.Placed t := by
  unfold ofMarker? at h
  split at h
  · next hn =>
    obtain ⟨hm, hf, ha⟩ := simple?_eq_some h
    refine ⟨hm, by simp [Tree.opensField, hn], Or.inl (hm.trans hf.symm), t.laterElements f.first, ?_⟩
    rw [ha, hf]; rfl
  · split at h
    · next hn =>
      obtain ⟨hm, hp, ha⟩ := complex?_eq_some h
      obtain ⟨rest, hr⟩ := takeThrough?_eq_some ha
      exact ⟨hm, by simp [Tree.opensField, hn], Or.inr (hm.symm ▸ hp), rest, hr⟩
    · cases h

/-- The span of a field reaches from its first anchor to its last. -/
theorem span_of_ofMarker? {t : Tree} {id : NodeId} {f : Field} (h : ofMarker? t id = some f) :
    f.span = (t.span f.first).extendTo (t.span f.last).stop := by
  unfold ofMarker? at h
  split at h
  · obtain ⟨s, -, rfl⟩ := Option.map_eq_some_iff.mp h
    rw [ofInstruction_span, ofInstruction_first, ofInstruction_last]
  · split at h
    · simp only [complex?, Option.bind_eq_bind, Option.bind_eq_some_iff, Option.some.injEq] at h
      obtain ⟨first, -, anchors, -, rfl⟩ := h
      rw [ofInstruction_span, ofInstruction_first, ofInstruction_last]
    · cases h

end Field

namespace Tree

theorem mem_fields {t : Tree} {r : NodeId} {f : Field} :
    f ∈ t.fields r ↔ f.marker ∈ t.descendants r ∧ Field.ofMarker? t f.marker = some f ∧ f.valid = true := by
  simp only [fields, List.mem_filter, List.mem_filterMap]
  constructor
  · rintro ⟨⟨id, hid, hf⟩, hv⟩
    obtain rfl := (Field.ofMarker?_eq_some hf).1
    exact ⟨hid, hf, hv⟩
  · rintro ⟨hid, hf, hv⟩
    exact ⟨⟨_, hid, hf⟩, hv⟩

/-- A simple field is the element that is its marker. -/
theorem simple_of_mem_fields {t : Tree} {r : NodeId} {f : Field} (hf : f ∈ t.fields r) (hs : f.shape = .simple) :
    f.first = f.marker ∧ f.anchors = [f.first] ∧ t.isNamed Word.simpleField f.first = true := by
  obtain ⟨-, hof, -⟩ := mem_fields.mp hf
  unfold Field.ofMarker? at hof
  split at hof
  · next hn =>
    obtain ⟨-, hfirst, hanchors⟩ := Field.simple?_eq_some hof
    exact ⟨hfirst, hfirst.symm ▸ hanchors, hfirst.symm ▸ hn⟩
  · split at hof
    · rw [Field.complex?_shape hof] at hs
      cases hs
    · cases hof

theorem isElement_of_opensField {t : Tree} {id : NodeId} (h : t.opensField id = true) : t.isElement id = true := by
  simp only [opensField, isMarker, isNamed, Bool.or_eq_true, Bool.and_eq_true, beq_iff_eq] at h
  rcases h with h | ⟨h, -⟩ <;> simp [isElement, h]

theorem placed_of_mem_fields {t : Tree} {r : NodeId} {f : Field} (hf : f ∈ t.fields r) : f.Placed t :=
  (Field.ofMarker?_eq_some (mem_fields.mp hf).2.1).2.2

theorem isElement_marker {t : Tree} {r : NodeId} {f : Field} (hf : f ∈ t.fields r) : t.isElement f.marker = true :=
  isElement_of_opensField (Field.ofMarker?_eq_some (mem_fields.mp hf).2.1).2.1

/-- The markers of a scan's fields stand in document order. -/
theorem markers_sublist (t : Tree) (r : NodeId) : ((t.fields r).map Field.marker).Sublist (t.descendants r) := by
  refine (List.filter_sublist.map _).trans ?_
  induction t.descendants r with
  | nil => exact List.Sublist.refl _
  | cons id ids ih =>
    rw [List.filterMap_cons]
    split
    · exact ih.cons id
    · next f hf =>
      rw [List.map_cons, (Field.ofMarker?_eq_some hf).1]
      exact ih.cons_cons id

theorem WellFormed.nodup_markers {t : Tree} (h : t.WellFormed) (r : NodeId) : ((t.fields r).map Field.marker).Nodup :=
  (h.nodup_descendants r).sublist (t.markers_sublist r)

/-- The marker names the field. -/
theorem eq_of_marker_eq {t : Tree} {r r' : NodeId} {f g : Field} (hf : f ∈ t.fields r) (hg : g ∈ t.fields r')
    (he : f.marker = g.marker) : f = g := by
  have h1 := (mem_fields.mp hf).2.1
  have h2 := (mem_fields.mp hg).2.1
  rw [he, h2] at h1
  exact (Option.some.inj h1).symm

end Tree

namespace Field.Placed

variable {t : Tree} {f : Field}

theorem within_marker (hf : f.Placed t) : t.Within f.first f.marker := by
  rcases hf.marked with he | hp
  · rw [he]; exact Tree.within_refl t _
  · exact Tree.within_of_parent hp

theorem mem_others (hf : f.Placed t) {a : NodeId} (ha : a ∈ f.others) : a ∈ t.laterElements f.first := by
  obtain ⟨rest, hr⟩ := hf.run
  rw [anchors, List.cons_append, List.cons.injEq] at hr
  rw [hr.2]
  exact List.mem_append_left _ ha

theorem parent_anchor (hf : f.Placed t) (h : t.WellFormed) {a : NodeId} (ha : a ∈ f.anchors) : t.parent a = t.parent f.first := by
  rcases List.mem_cons.mp ha with rfl | ha
  · rfl
  · exact (h.mem_laterElements (hf.mem_others ha)).1

/-- The anchors end where the siblings behind the last one begin. -/
theorem later_last (hf : f.Placed t) (h : t.WellFormed) : t.laterElements f.first = f.others ++ t.laterElements f.last := by
  obtain ⟨rest, hr⟩ := hf.run
  rw [anchors, List.cons_append, List.cons.injEq] at hr
  rcases List.eq_nil_or_concat f.others with ho | ⟨os, a, ho⟩
  · rw [last, ho]; rfl
  · have hlast : f.last = a := by rw [last, ho]; simp
    have hmem : a ∈ t.laterElements f.first := hf.mem_others (by rw [ho]; simp)
    obtain ⟨mid, hm⟩ := h.laterElements_of_mem hmem
    obtain ⟨hmid, -⟩ := cut_unique (h.nodup_laterElements f.first) hm (by rw [hr.2, ho]; simp : _ = os ++ a :: rest)
    rw [hm, ho, hlast, hmid]
    simp

theorem not_mem_later_last (hf : f.Placed t) (h : t.WellFormed) {a : NodeId} (ha : a ∈ f.others) : a ∉ t.laterElements f.last := by
  intro hl
  have hnd := h.nodup_laterElements f.first
  rw [hf.later_last h] at hnd
  exact (List.nodup_append.mp hnd).2.2 a ha a hl rfl

/-- What contains the marker contains the first anchor, or is the marker standing in its parent. -/
theorem within_first_or (hf : f.Placed t) {n : NodeId} (hn : t.Within n f.marker) :
    t.Within n f.first ∨ t.Within f.first n := by
  rcases hf.marked with he | hp
  · exact Or.inl (he ▸ hn)
  · by_cases hm : f.marker = n
    · exact Or.inr (hm ▸ Tree.within_of_parent hp)
    · exact Or.inl (Tree.within_parent_of_ne hn hm hp)

end Field.Placed

namespace Field

theorem first_mem_anchors (f : Field) : f.first ∈ f.anchors := List.mem_cons_self

theorem last_mem_anchors (f : Field) : f.last ∈ f.anchors := by
  rw [last, List.getLastD_eq_getLast?]
  cases ho : f.others.getLast? with
  | none => exact f.first_mem_anchors
  | some a => exact List.mem_cons_of_mem _ (List.mem_of_getLast? ho)

end Field

end MailMerge
