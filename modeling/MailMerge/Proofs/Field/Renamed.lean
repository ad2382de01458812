/-
  MailMerge.Proofs.Field.Renamed — what a scan finds in a copy.

  The body of a block is copied to be merged: its nodes come to stand in another node under
  other names, and nothing else stands there (`Hosted`); for a block this is a container of its
  own (`Rehoused`). What stood around the body is not there any more: no later sibling of the
  last node, no ancestor above. A field that began in the body and ended behind it is no field
  of the copy.

  Proved: the fields of the copy are those of which the body holds all anchors, under their
  other names (`Hosted.fields`).
-/

import MailMerge.Block.Replace
import MailMerge.Proofs.Tree.Renamed

namespace MailMerge

open MailMerge.Tree

/-! ## Lists -/

theorem takeThrough?_map {α β : Type} {p : α → Bool} {q : β → Bool} {φ : α → β} {l : List α} (h : ∀ x ∈ l, q (φ x) = p x) :
    takeThrough? q (l.map φ) = (takeThrough? p l).map (·.map φ) := by
  induction l with
  | nil => rfl
  | cons a l ih =>
    rw [List.map_cons, takeThrough?, takeThrough?, h a List.mem_cons_self, ih fun x hx => h x (List.mem_cons_of_mem a hx)]
    split
    · rfl
    · rw [Option.map_map, Option.map_map]
      rfl

theorem takeThrough?_append_of_some {α : Type} {p : α → Bool} {l front : List α} (h : takeThrough? p l = some front)
    (rest : List α) : takeThrough? p (l ++ rest) = some front := by
  induction l generalizing front with
  | nil => cases h
  | cons a l ih =>
    rw [takeThrough?] at h
    rw [List.cons_append, takeThrough?]
    split at h
    · next ha => rw [if_pos ha, h]
    · next ha =>
      obtain ⟨front', hf, rfl⟩ := Option.map_eq_some_iff.mp h
      rw [if_neg ha, ih hf]
      rfl

theorem takeThrough?_append_of_none {α : Type} {p : α → Bool} {l : List α} (h : takeThrough? p l = none) (rest : List α) :
    takeThrough? p (l ++ rest) = (takeThrough? p rest).map (l ++ ·) := by
  induction l with
  | nil => simp
  | cons a l ih =>
    rw [takeThrough?] at h
    rw [List.cons_append, takeThrough?]
    split at h
    · cases h
    · next ha =>
      rw [if_neg ha, ih (Option.map_eq_none_iff.mp h), Option.map_map]
      rfl

/-- What is taken when the front does not do goes on behind it. -/
theorem exists_taken_behind {α : Type} {p : α → Bool} {l rest taken : List α} (hl : takeThrough? p l = none)
    (h : takeThrough? p (l ++ rest) = some taken) : ∃ x ∈ taken, x ∈ rest := by
  rw [takeThrough?_append_of_none hl, Option.map_eq_some_iff] at h
  obtain ⟨more, hmore, rfl⟩ := h
  obtain ⟨behind, hbehind⟩ := takeThrough?_eq_some hmore
  cases rest with
  | nil => cases hmore
  | cons x rest =>
    obtain ⟨more, rfl⟩ := takeThrough?_head hmore
    exact ⟨x, by simp, List.mem_cons_self⟩

theorem filter_mem_of_sublist {α : Type} [DecidableEq α] {l l' : List α} (h : l'.Sublist l) (hnd : l.Nodup) :
    l.filter (· ∈ l') = l' := by
  induction h with
  | slnil => rfl
  | @cons l₁ l₂ a hs ih =>
    obtain ⟨ha, hnd⟩ := List.nodup_cons.mp hnd
    rw [List.filter_cons_of_neg (by simpa using fun hm => ha (hs.subset hm)), ih hnd]
  | @cons_cons l₁ l₂ a hs ih =>
    obtain ⟨ha, hnd⟩ := List.nodup_cons.mp hnd
    rw [List.filter_cons_of_pos (by simp)]
    refine congrArg (a :: ·) (Eq.trans (List.filter_congr fun x hx => ?_) (ih hnd))
    have hne : x ≠ a := fun he => ha (he ▸ hx)
    simp [hne]

namespace Field

/-- The field under other names, in `u`. -/
def renamed (φ : NodeId → NodeId) (u : Tree) (f : Field) : Field :=
  { f with marker := φ f.marker, first := φ f.first, others := f.others.map φ,
           span := (u.span (φ f.first)).extendTo (u.span ((f.others.map φ).getLastD (φ f.first))).stop }

theorem ofInstruction_renamed (φ : NodeId → NodeId) (t u : Tree) (marker : NodeId) (instruction : String) (first : NodeId)
    (others : List NodeId) (shape : Shape) (whole : Bool) :
    ofInstruction u (φ marker) instruction (φ first) (others.map φ) shape whole =
      (ofInstruction t marker instruction first others shape whole).renamed φ u := by
  unfold ofInstruction renamed
  cases Instruction.directive? instruction <;> rfl

theorem last_renamed (φ : NodeId → NodeId) (u : Tree) (f : Field) : (f.renamed φ u).last = φ f.last := by
  show (f.others.map φ).getLastD (φ f.first) = φ (f.others.getLastD f.first)
  rw [List.getLastD_eq_getLast?, List.getLastD_eq_getLast?, List.getLast?_map]
  cases f.others.getLast? <;> rfl

theorem anchors_renamed (φ : NodeId → NodeId) (u : Tree) (f : Field) : (f.renamed φ u).anchors = f.anchors.map φ := rfl

end Field

namespace Field

/-- The field and its anchors are some of these nodes. -/
def standsIn (nodes : List NodeId) (f : Field) : Bool := (f.marker :: f.anchors).all (· ∈ nodes)

theorem standsIn_iff {nodes : List NodeId} {f : Field} :
    f.standsIn nodes = true ↔ f.marker ∈ nodes ∧ ∀ a ∈ f.anchors, a ∈ nodes := by
  simp [standsIn]

end Field

namespace Tree

theorem WellFormed.mem_subtrees {t : Tree} (ht : t.WellFormed) {ids : List NodeId} {x : NodeId} :
    x ∈ ids.flatMap t.subtree ↔ t.Under ids x := by
  simp only [List.mem_flatMap, ht.mem_subtree, Under]

/-- What stands behind an element among the elements in a node. -/
theorem WellFormed.laterElements_of_row {t : Tree} (ht : t.WellFormed) {p x : NodeId} {before after : List NodeId}
    (hrow : t.elementChildren p = before ++ x :: after) : t.laterElements x = after := by
  have hx : x ∈ t.elementChildren p := by rw [hrow]; simp
  obtain ⟨hmem, hel⟩ := List.mem_filter.mp hx
  obtain ⟨l, r, hs⟩ := List.append_of_mem hmem
  have hcut : t.elementChildren p = l.filter t.isElement ++ x :: r.filter t.isElement := by
    rw [elementChildren, hs, List.filter_append, List.filter_cons_of_pos hel]
  rw [ht.laterElements_eq hs]
  exact (cut_unique ((ht.distinct p).filter _) hcut hrow).2

/-- Elements in a row, and what stands below them, stand under other names as the only nodes in
    another node. -/
structure Hosted (t : Tree) (ids : List NodeId) (φ : NodeId → NodeId) (u : Tree) (c : NodeId) : Prop where
  renames : Renames t ids φ u
  children : u.children c = ids.map φ
  row : ∃ p before after, t.elementChildren p = before ++ (ids ++ after)

namespace Hosted

variable {t u : Tree} {ids : List NodeId} {φ : NodeId → NodeId} {c : NodeId} (h : Hosted t ids φ u c) (ht : t.WellFormed)
  (hu : u.WellFormed)

include h

theorem isElement {n : NodeId} (hn : n ∈ ids) : t.isElement n = true := by
  obtain ⟨p, before, after, hrow⟩ := h.row
  exact (List.mem_filter.mp (by rw [← elementChildren, hrow]; simp [hn] : n ∈ (t.children p).filter t.isElement)).2

include ht

theorem parent_eq {n m : NodeId} (hn : n ∈ ids) (hm : m ∈ ids) : t.parent n = t.parent m ∧ t.parent n ≠ none := by
  obtain ⟨p, before, after, hrow⟩ := h.row
  have hside : ∀ {x}, x ∈ ids → t.parent x = some p := fun {x} hx =>
    ht.parent_of_mem (List.mem_filter.mp (by rw [← elementChildren, hrow]; simp [hx] : x ∈ (t.children p).filter t.isElement)).1
  rw [hside hn, hside hm]
  exact ⟨rfl, nofun⟩

/-- No node stands below another one of the row. -/
theorem eq_of_within {n m x : NodeId} (hn : n ∈ ids) (hm : m ∈ ids) (hnx : t.Within n x) (hmx : t.Within m x) : n = m :=
  ht.eq_of_within_siblings (h.parent_eq ht hn hm).1 hnx hmx (h.parent_eq ht hn hm).2

include hu

/-- What is below the row has the same parent there, and the row has the container. -/
theorem parent_cases {x : NodeId} (hx : t.Under ids x) :
    (x ∈ ids ∧ u.parent (φ x) = some c) ∨ ∃ q, t.Under ids q ∧ t.parent x = some q ∧ u.parent (φ x) = some (φ q) := by
  by_cases hmem : x ∈ ids
  · exact Or.inl ⟨hmem, hu.parent_of_mem (by rw [h.children]; exact List.mem_map_of_mem hmem)⟩
  · right
    obtain ⟨n, hn, hw⟩ := hx
    rcases within_iff.mp hw with rfl | ⟨q, hq, hnq⟩
    · exact absurd hn hmem
    · exact ⟨q, ⟨n, hn, hnq⟩, hq, h.renames.parent ht hu ⟨n, hn, hnq⟩ hq⟩

theorem ne_container {x : NodeId} (hx : t.Under ids x) : φ x ≠ c := by
  obtain ⟨n, hn, hnx⟩ := hx
  have hp : u.parent (φ n) = some c := hu.parent_of_mem (by rw [h.children]; exact List.mem_map_of_mem hn)
  exact fun he => hu.not_within_of_parent hp (he ▸ h.renames.within_of ht hu (under_of_mem hn) hnx)

theorem parent_eq_iff {x y : NodeId} (hx : t.Under ids x) (hy : t.Under ids y) :
    u.parent (φ x) = u.parent (φ y) ↔ t.parent x = t.parent y := by
  -- a parent below the row is not that of a node in the row
  have hout : ∀ {n m q}, n ∈ ids → t.Under ids q → t.parent m = some q → t.parent n ≠ some q := by
    rintro n m q hn ⟨k, hk, hkq⟩ - hp
    obtain rfl := h.eq_of_within ht hn hk (within_refl t n) (within_parent hkq hp)
    exact ht.not_within_of_parent hp hkq
  rcases h.parent_cases ht hu hx with ⟨hxm, hxp⟩ | ⟨q, hq, hxp, hxp'⟩ <;>
    rcases h.parent_cases ht hu hy with ⟨hym, hyp⟩ | ⟨q', hq', hyp, hyp'⟩
  · rw [hxp, hyp, (h.parent_eq ht hxm hym).1]
    simp
  · rw [hxp, hyp', hyp, Option.some.injEq]
    exact ⟨fun he => absurd he.symm (h.ne_container ht hu hq'), fun he => absurd he (hout hxm hq' hyp)⟩
  · rw [hxp', hyp, hxp, Option.some.injEq]
    exact ⟨fun he => absurd he (h.ne_container ht hu hq), fun he => absurd he.symm (hout hym hq hxp)⟩
  · rw [hxp', hyp', hxp, hyp, Option.some.injEq, Option.some.injEq]
    exact ⟨h.renames.injective q q' hq hq', fun he => he ▸ rfl⟩

/-- Of the later siblings those are left that are below the row. -/
theorem laterElements {x : NodeId} (hx : t.Under ids x) : ∃ later rest, t.laterElements x = later ++ rest ∧
    u.laterElements (φ x) = later.map φ ∧ (∀ y ∈ later, t.Under ids y) ∧ ∀ y ∈ rest, ¬ t.Under ids y := by
  by_cases hmem : x ∈ ids
  · obtain ⟨p, front, rest, hrow⟩ := h.row
    have hnd : (t.elementChildren p).Nodup := (ht.distinct p).filter _
    obtain ⟨before, after, hs⟩ := List.append_of_mem hmem
    refine ⟨after, rest, ht.laterElements_of_row (by rw [hrow, hs]; simp : _ = (front ++ before) ++ x :: (after ++ rest)), ?_,
      fun y hy => under_of_mem (by rw [hs]; simp [hy]), ?_⟩
    · rw [hu.laterElements_eq (by rw [h.children, hs]; simp : u.children c = before.map φ ++ φ x :: after.map φ),
        List.filter_eq_self]
      intro y hy
      obtain ⟨z, hz, rfl⟩ := List.mem_map.mp hy
      have hzm : z ∈ ids := by rw [hs]; simp [hz]
      rw [(h.renames.reads z (under_of_mem hzm)).isElement]
      exact h.isElement hzm
    · rintro y hy ⟨n, hn, hny⟩
      have hin : ∀ {z}, z ∈ t.elementChildren p → t.parent z = some p := fun hz => ht.parent_of_mem (List.mem_filter.mp hz).1
      have hyp := hin (by rw [hrow]; simp [hy] : y ∈ _)
      have hnp := hin (by rw [hrow]; simp [hn] : n ∈ _)
      obtain rfl := ht.eq_of_within_siblings (hnp.trans hyp.symm) hny (within_refl t y) (by rw [hnp]; exact nofun)
      rw [hrow] at hnd
      exact (List.nodup_append.mp (List.nodup_append.mp hnd).2.1).2.2 n hn n hy rfl
  · rcases h.parent_cases ht hu hx with ⟨hin, -⟩ | ⟨q, hq, hp, -⟩
    · exact absurd hin hmem
    · refine ⟨t.laterElements x, [], by rw [List.append_nil], h.renames.laterElements ht hu hq hp, fun y hy => ?_, nofun⟩
      exact hq.of_child ht (ht.mem_of_parent ((ht.mem_laterElements hy).1.trans hp))

/-! ## Fields -/

theorem descendants : u.descendants c = (ids.flatMap t.subtree).map φ := by
  rw [hu.descendants_eq, h.children]
  exact h.renames.flatMap_subtree ht hu fun n hn => under_of_mem hn

/-- A field over several anchors is found if none of them is behind the row. -/
theorem complex? {x : NodeId} (hx : t.Under ids x) (hopen : x ∉ ids) :
    (Field.complex? u (φ x)).filter (·.valid) =
      ((Field.complex? t x).filter fun f => f.valid && f.standsIn (ids.flatMap t.subtree)).map (Field.renamed φ u) := by
  rcases h.parent_cases ht hu hx with ⟨hin, -⟩ | ⟨first, hfirst, hp, hp'⟩
  · exact absurd hin hopen
  obtain ⟨later, rest, hl, hl', hin, hout⟩ := h.laterElements ht hu hfirst
  have hall : ∀ y ∈ first :: later, t.Under ids y := fun y hy => (List.mem_cons.mp hy).elim (fun he => he ▸ hfirst) (hin y)
  have htake : takeThrough? (u.holdsMarker .closing) (φ first :: u.laterElements (φ first)) =
      (takeThrough? (t.holdsMarker .closing) (first :: later)).map (·.map φ) := by
    rw [hl', ← List.map_cons]
    exact takeThrough?_map fun y hy => h.renames.holdsMarker ht hu (hall y hy) .closing
  cases hcut : takeThrough? (t.holdsMarker .closing) (first :: later) with
  | some anchors =>
    obtain ⟨others, rfl⟩ := takeThrough?_head hcut
    have hold : takeThrough? (t.holdsMarker .closing) (first :: t.laterElements first) = some (first :: others) := by
      rw [hl, ← List.cons_append]
      exact takeThrough?_append_of_some hcut rest
    have hanchors : ∀ y ∈ first :: others, t.Under ids y := by
      obtain ⟨more, hmore⟩ := takeThrough?_eq_some hcut
      exact fun y hy => hall y (by rw [hmore]; exact List.mem_append_left more hy)
    have hfield : Field.complex? u (φ x) = (Field.complex? t x).map (Field.renamed φ u) := by
      rw [Field.complex?, Field.complex?, hp, hp']
      simp only [Option.bind_eq_bind, Option.bind_some, htake, hold, hcut, Option.map_some]
      rw [h.renames.instructionText ht hu hanchors, ← Field.ofInstruction_renamed, List.map_cons, List.drop_one, List.drop_one,
        List.tail_cons, List.tail_cons, ← List.map_cons, List.any_map]
      congr 2
      rw [Bool.eq_iff_iff, List.any_eq_true, List.any_eq_true]
      exact exists_congr fun y => and_congr_right fun hy => by
        rw [Function.comp_apply, h.renames.holdsMarker ht hu (hanchors y hy)]
    rw [hfield]
    cases hf : Field.complex? t x with
    | none => rfl
    | some f =>
      obtain ⟨hmark, hpf, htaken⟩ := Field.complex?_eq_some hf
      obtain rfl : first = f.first := Option.some.inj (hp.symm.trans hpf)
      have hstands : f.standsIn (ids.flatMap t.subtree) = true := by
        rw [Field.standsIn_iff, hmark, Option.some.inj (htaken.symm.trans hold)]
        exact ⟨ht.mem_subtrees.mpr hx, fun a ha => ht.mem_subtrees.mpr (hanchors a ha)⟩
      show Option.filter _ (some (f.renamed φ u)) = _
      cases hv : f.valid <;> simp [Option.filter, Field.renamed, hv, hstands]
  | none =>
    have hnone : Field.complex? u (φ x) = none := by
      rw [Field.complex?, hp']
      simp only [Option.bind_eq_bind, Option.bind_some, htake, hcut, Option.map_none, Option.bind_none]
    rw [hnone]
    cases hf : Field.complex? t x with
    | none => rfl
    | some f =>
      have hstands : f.standsIn (ids.flatMap t.subtree) = false := by
        rw [Bool.eq_false_iff]
        intro hs
        -- the field goes on behind the row
        obtain ⟨-, hpf, htaken⟩ := Field.complex?_eq_some hf
        obtain rfl : first = f.first := Option.some.inj (hp.symm.trans hpf)
        rw [hl, ← List.cons_append] at htaken
        obtain ⟨y, hy, hrest⟩ := exists_taken_behind hcut htaken
        exact hout y hrest (ht.mem_subtrees.mp ((Field.standsIn_iff.mp hs).2 y hy))
      simp [Option.filter, hstands]

theorem ofMarker? {x : NodeId} (hx : t.Under ids x) (hopen : x ∈ ids → t.isMarker .opening x = false) :
    (Field.ofMarker? u (φ x)).filter (·.valid) =
      ((Field.ofMarker? t x).filter fun f => f.valid && f.standsIn (ids.flatMap t.subtree)).map (Field.renamed φ u) := by
  have hreads := h.renames.reads x hx
  unfold Field.ofMarker?
  rw [hreads.isNamed, hreads.isMarker]
  by_cases hn : t.isNamed Word.simpleField x = true
  · simp only [hn, if_true]
    have hkind := hreads.kind_of_isNamed hn (by decide) (by decide)
    rw [Field.simple?, Field.simple?, attribute?_congr hkind]
    cases t.attribute? x Word.fieldInstruction with
    | none => rfl
    | some instruction =>
      have he := Field.ofInstruction_renamed φ t u x instruction x [] .simple true
      rw [List.map_nil] at he
      rw [Option.map_some, Option.map_some, he]
      have hstands : (Field.ofInstruction t x instruction x [] .simple true).standsIn (ids.flatMap t.subtree) = true := by
        have hmem := ht.mem_subtrees.mpr hx
        rw [Field.standsIn_iff, Field.ofInstruction_marker, Field.ofInstruction_anchors]
        exact ⟨hmem, fun a ha => List.mem_singleton.mp ha ▸ hmem⟩
      cases hv : (Field.ofInstruction t x instruction x [] .simple true).valid <;>
        simp [Option.filter, Field.renamed, hv, hstands]
  · simp only [hn, Bool.false_eq_true, if_false]
    by_cases ho : t.isMarker .opening x = true
    · simp only [ho, if_true]
      refine h.complex? ht hu hx fun hin => ?_
      rw [hopen hin] at ho
      cases ho
    · simp only [ho, Bool.false_eq_true, if_false]
      rfl

omit h hu in
/-- What stands below the row is met in the same order in a walk from above. -/
theorem subtrees_sublist (h : Hosted t ids φ u c) {id : NodeId} (hin : ∀ n ∈ ids, t.Within id n ∧ n ≠ id) :
    (ids.flatMap t.subtree).Sublist (t.descendants id) := by
  cases hids : ids with
  | nil => exact List.nil_sublist _
  | cons n ns =>
    have hn : n ∈ ids := by rw [hids]; exact List.mem_cons_self
    obtain ⟨p, before, after, hrow⟩ := h.row
    have hmem : n ∈ t.elementChildren p := by rw [hrow]; simp [hn]
    have hup : t.Within id p := within_parent_of_ne (hin n hn).1 (hin n hn).2 (ht.parent_of_mem (List.mem_filter.mp hmem).1)
    obtain ⟨l, l', hl⟩ := ht.exists_segments hup (by simp : t.children p = [] ++ t.children p ++ [])
    have hids' : ids.Sublist (t.children p) :=
      (hrow ▸ (List.sublist_append_left ids after).trans (List.sublist_append_right before _)).trans List.filter_sublist
    rw [← hids, hl, List.append_assoc]
    exact (hids'.flatMap _).trans ((List.sublist_append_left _ l').trans (List.sublist_append_right l _))

/-- The fields of the copies are those of which no part is outside of the row. -/
theorem fields {id : NodeId} (hin : ∀ n ∈ ids, t.Within id n ∧ n ≠ id) (hopen : ∀ n ∈ ids, t.isMarker .opening n = false) :
    u.fields c = ((t.fields id).filter (Field.standsIn (ids.flatMap t.subtree))).map (Field.renamed φ u) := by
  rw [Tree.fields, Tree.fields, List.filter_filterMap, List.filter_filterMap, h.descendants ht hu, List.filterMap_map,
    List.filter_filterMap, List.map_filterMap]
  conv_lhs => rw [← filter_mem_of_sublist (h.subtrees_sublist ht hin) (ht.nodup_descendants id), List.filterMap_filter]
  refine List.filterMap_congr fun x _ => ?_
  by_cases hx : x ∈ ids.flatMap t.subtree
  · have hone := h.ofMarker? ht hu (ht.mem_subtrees.mp hx) (hopen x)
    simp only [hx, decide_true, if_true, Function.comp_apply, hone]
    cases hf : Field.ofMarker? t x with
    | none => rfl
    | some f => cases hv : f.valid <;> cases hs : f.standsIn (ids.flatMap t.subtree) <;> simp [Option.filter, hv, hs]
  · simp only [hx, decide_false, Bool.false_eq_true, if_false]
    cases hf : Field.ofMarker? t x with
    | none => rfl
    | some f =>
      obtain rfl := (Field.ofMarker?_eq_some hf).1
      have hs : f.standsIn (ids.flatMap t.subtree) = false := by
        rw [Bool.eq_false_iff, ne_eq, Field.standsIn_iff]
        exact fun hs => hx hs.1
      cases hv : f.valid <;> simp [Option.filter, hv, hs]

end Hosted

/-- Siblings in a row, and what stands below them, stand under other names as the only nodes in
    a container of their own. -/
structure Rehoused (t : Tree) (ids : List NodeId) (φ : NodeId → NodeId) (u : Tree) (c : NodeId) : Prop where
  renames : Renames t ids φ u
  children : u.children c = ids.map φ
  parent : u.parent c = none
  kind : u.kind c = .element Block.containerName []
  row : ∃ s rest, t.laterElements s = ids ++ rest

namespace Rehoused

variable {t u : Tree} {ids : List NodeId} {φ : NodeId → NodeId} {c : NodeId} (h : Rehoused t ids φ u c) (ht : t.WellFormed)
  (hu : u.WellFormed)

include h ht

theorem hosted : Hosted t ids φ u c := by
  refine ⟨h.renames, h.children, ?_⟩
  obtain ⟨s, rest, hrow⟩ := h.row
  cases hp : t.parent s with
  | none =>
    rw [Tree.laterElements, hp] at hrow
    obtain ⟨rfl, -⟩ := List.append_eq_nil_iff.mp hrow.symm
    exact ⟨root, [], t.elementChildren root, rfl⟩
  | some p =>
    obtain ⟨before, after, hs⟩ := List.append_of_mem (ht.mem_of_parent hp)
    rw [ht.laterElements_eq hs] at hrow
    refine ⟨p, (before ++ [s]).filter t.isElement, rest, ?_⟩
    rw [← hrow, ← List.filter_append, List.append_assoc, List.singleton_append, ← hs, elementChildren]

include hu

/-- The nearest ancestor of a name is the same, if it is below the row. -/
theorem findAncestor? {name : String} (hname : name ≠ Block.containerName) {x : NodeId} (hx : t.Under ids x) {a : NodeId} :
    u.findAncestor? (φ x) name = some a ↔ ∃ b, φ b = a ∧ t.Under ids b ∧ t.findAncestor? x name = some b := by
  obtain ⟨n, hn, hw⟩ := hx
  have hp : u.parent (φ n) = some c := hu.parent_of_mem (by rw [h.children]; exact List.mem_map_of_mem hn)
  have htop : u.findAncestor? (φ n) name = none := by
    have hc : u.isNamed name c = false := by
      rw [isNamed_of_kind h.kind, Kind.isNamed, beq_eq_false_iff_ne]
      exact Ne.symm hname
    rw [hu.findAncestor?_of_parent hp, hc, findAncestor?_of_parent_none h.parent]
    rfl
  rw [h.renames.findAncestor? ht hu hn hw htop]
  refine exists_congr fun b => and_congr_right fun _ => and_congr_left fun hfind => ?_
  -- an ancestor below another node of the row would be above this one's
  refine ⟨fun hnb => ⟨n, hn, hnb⟩, ?_⟩
  rintro ⟨m, hm, hmb⟩
  obtain ⟨-, hbx, -, -⟩ := ht.findAncestor?_eq_some hfind
  obtain rfl := (h.hosted ht).eq_of_within ht hm hn (within_trans hmb hbx) hw
  exact hmb

/-- The fields of the container are those below the row, if none of them is cut. -/
theorem fields {id : NodeId} (hin : ∀ n ∈ ids, t.Within id n ∧ n ≠ id) (hopen : ∀ n ∈ ids, t.isMarker .opening n = false)
    (hwhole : ∀ f ∈ t.fields id, t.Under ids f.marker → ∀ a ∈ f.anchors, t.Under ids a) :
    u.fields c = ((t.fields id).filter (·.marker ∈ ids.flatMap t.subtree)).map (Field.renamed φ u) := by
  rw [(h.hosted ht).fields ht hu hin hopen]
  refine congrArg _ (List.filter_congr fun f hf => ?_)
  rw [Bool.eq_iff_iff, Field.standsIn_iff, decide_eq_true_iff]
  exact ⟨fun hs => hs.1, fun hs => ⟨hs, fun a ha => ht.mem_subtrees.mpr (hwhole f hf (ht.mem_subtrees.mp hs) a ha)⟩⟩

end Rehoused

end Tree

end MailMerge
