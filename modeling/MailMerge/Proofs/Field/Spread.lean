/-
  MailMerge.Proofs.Field.Spread — fields that are spread over the runs of a paragraph.

  A field of this form is told by three markers: one where it begins, one where its instruction
  ends and its result begins, and one where it ends (`Triple`). The markers stand in runs, and
  how many of them stand in one run is up to whoever wrote the part. A scan goes by runs: a field
  reaches from the run of its opening marker to the first run that holds a closing marker, and
  its instruction is all the instruction text on the way.

  Proved: in a paragraph whose markers are triples one behind the other, and where no run holds
  the end of one field and the beginning of another, the scan finds the fields that the triples
  tell, over the runs between their markers (`complexFields_of_spread`); if no instruction text
  stands elsewhere in these runs, the instruction of each is what stands between its first two
  markers. A run that ends one field and begins the next does away with the second one
  (`second_field_lost`): the first closing marker that is met is that of the other field.
-/

import MailMerge.Proofs.Block.Capture
import MailMerge.Proofs.Field.Renamed

namespace MailMerge

open MailMerge.Tree

/-- The markers of one field. -/
structure Triple where
  opening : NodeId
  separator : NodeId
  closing : NodeId
  deriving DecidableEq, Repr

namespace Triple

def markers (m : Triple) : List NodeId := [m.opening, m.separator, m.closing]

/-- The elements from the run of the opening marker to the run of the closing marker. -/
def runs (t : Tree) (m : Triple) : List NodeId :=
  match t.parent m.opening with
  | none => []
  | some first => (takeThrough? (fun id => t.parent m.closing == some id) (first :: t.laterElements first)).getD []

/-- What is scanned below `p` from the opening marker up to the separator. -/
def interior (t : Tree) (p : NodeId) (m : Triple) : List NodeId :=
  ((t.descendants p).dropWhile (· != m.opening)).takeWhile (· != m.separator)

/-- The instruction text between the opening marker and the separator. -/
def instruction (t : Tree) (p : NodeId) (m : Triple) : String :=
  String.join (((m.interior t p).filter (t.isNamed Word.instructionText)).map t.textContent)

end Triple

/-- The field markers of a paragraph stand in its runs, and are triples one behind the other. -/
structure Spread (t : Tree) (p : NodeId) (ms : List Triple) : Prop where
  paragraph : t.isNamed Word.paragraph p = true
  markers : (t.descendants p).filter (t.isNamed Word.fieldChar) = ms.flatMap Triple.markers
  types : ∀ m ∈ ms, t.isMarker .opening m.opening = true ∧ t.isMarker .separator m.separator = true ∧
    t.isMarker .closing m.closing = true
  runs : ∀ x ∈ ms.flatMap Triple.markers, ∃ q ∈ t.parent x, t.isNamed Word.run q = true ∧ t.parent q = some p

namespace Tree

/-- The fields below a node that are spread over runs. -/
def complexFields (t : Tree) (id : NodeId) : List Field := (t.fields id).filter (·.shape = .complex)

theorem isNamed_of_isMarker {t : Tree} {type : MarkerType} {x : NodeId} (h : t.isMarker type x = true) :
    t.isNamed Word.fieldChar x = true := (Bool.and_eq_true _ _ ▸ h).1

theorem eq_of_isMarker {t : Tree} {type type' : MarkerType} {x : NodeId} (h : t.isMarker type x = true)
    (h' : t.isMarker type' x = true) : type = type' := by
  simp only [isMarker, Bool.and_eq_true, beq_iff_eq] at h h'
  have := h.2.symm.trans h'.2
  cases type <;> cases type' <;> simp_all [MarkerType.value]

/-- The scan for fields over runs looks at the opening markers only. -/
theorem complexFields_eq (t : Tree) (id : NodeId) : t.complexFields id =
    ((t.descendants id).filter (t.isMarker .opening)).filterMap fun x => (Field.complex? t x).filter (·.valid) := by
  rw [complexFields, fields, List.filter_filter, List.filter_filterMap, List.filterMap_filter]
  apply List.filterMap_congr
  intro x _
  rw [Field.ofMarker?]
  by_cases hs : t.isNamed Word.simpleField x = true
  · have hno : t.isMarker .opening x = false := by
      rw [isMarker, not_isNamed_of_isNamed hs (by decide), Bool.false_and]
    rw [if_pos hs, hno, if_neg Bool.false_ne_true, Option.filter_eq_none_iff]
    intro f hf
    simp [Field.simple?_shape hf]
  · rw [if_neg hs]
    by_cases ho : t.isMarker .opening x = true
    · rw [if_pos ho, if_pos ho]
      cases hc : Field.complex? t x with
      | none => rfl
      | some f => simp [Option.filter, Field.complex?_shape hc]
    · rw [if_neg ho, if_neg ho]
      rfl

end Tree

theorem takeThrough?_of_first {α : Type} {p : α → Bool} {front rest : List α} {a : α} (hfront : ∀ x ∈ front, p x = false)
    (ha : p a = true) : takeThrough? p (front ++ a :: rest) = some (front ++ [a]) := by
  have hnone : takeThrough? p front = none := by
    induction front with
    | nil => rfl
    | cons x front ih =>
      rw [takeThrough?, hfront x List.mem_cons_self, ih fun y hy => hfront y (List.mem_cons_of_mem x hy)]
      rfl
  rw [takeThrough?_append_of_none hnone, takeThrough?, if_pos ha]
  rfl

namespace Tree.WellFormed

variable {t : Tree} (h : t.WellFormed)

include h

/-- What is scanned later in a row stands in a later element of the row, or in the same. -/
theorem later_of_scanned {r p q q' x y : NodeId} (hq : t.parent q = some p) (hq' : t.parent q' = some p)
    (he : t.isElement q = true) (he' : t.isElement q' = true) (hx : t.Within q x) (hy : t.Within q' y)
    (hs : [x, y].Sublist (t.descendants r)) : q' ∈ q :: t.laterElements q := by
  by_cases hqq : q = q'
  · exact hqq ▸ List.mem_cons_self
  · cases h.laterElements_total (hq.trans hq'.symm) (by simp [hq]) hqq he he' with
    | inl hl => exact List.mem_cons_of_mem q hl
    | inr hl => exact absurd hs (h.not_scanned_backwards hl hx hy)

/-- In a row, what is cut off behind an element follows each element in front of the cut. -/
theorem mem_later_of_cut {x y z : NodeId} {front rest : List NodeId} (hcut : x :: t.laterElements x = front ++ y :: rest)
    (hz : z ∈ front) : y ∈ t.laterElements z := by
  obtain ⟨f, f', rfl⟩ := List.append_of_mem hz
  cases f with
  | nil =>
    simp only [List.nil_append, List.cons_append, List.cons.injEq] at hcut
    obtain ⟨rfl, hl⟩ := hcut
    rw [hl]
    simp
  | cons w f =>
    simp only [List.cons_append, List.append_assoc, List.cons.injEq] at hcut
    obtain ⟨-, hl⟩ := hcut
    obtain ⟨mid, hmid⟩ := h.laterElements_of_mem (hl ▸ List.mem_append_right f List.mem_cons_self : z ∈ t.laterElements x)
    rw [(cut_unique (h.nodup_laterElements x) hmid hl).2]
    simp

end Tree.WellFormed

theorem sublist_of_mem_between {α : Type} [DecidableEq α] {l : List α} (hnd : l.Nodup) {a b c x : α}
    (hs : [a, b, c].Sublist l) (hx : x ∈ (l.dropWhile (· != a)).takeWhile (· != b)) (hne : x ≠ a) : [a, x, c].Sublist l := by
  obtain ⟨r, r', rfl, ha, hbc⟩ := List.cons_sublist_iff.mp hs
  obtain ⟨u, v, rfl, hb, hc⟩ := List.cons_sublist_iff.mp hbc
  obtain ⟨l₁, l₂, rfl⟩ := List.append_of_mem ha
  obtain ⟨l₃, l₄, rfl⟩ := List.append_of_mem hb
  have hcut : l₁ ++ a :: l₂ ++ (l₃ ++ b :: l₄ ++ v) = l₁ ++ a :: ((l₂ ++ l₃) ++ b :: (l₄ ++ v)) := by simp
  rw [hcut] at hnd hx ⊢
  have hfirst : a ∉ l₁ := fun hm => (List.nodup_append.mp hnd).2.2 a hm a List.mem_cons_self rfl
  have hmid : b ∉ a :: (l₂ ++ l₃) := by
    have := (List.nodup_append.mp hnd).2.1
    rw [← List.cons_append] at this
    exact fun hm => (List.nodup_append.mp this).2.2 b hm b List.mem_cons_self rfl
  rw [dropWhile_ne_eq hfirst, ← List.cons_append, takeWhile_ne_eq hmid, List.mem_cons] at hx
  have hx := hx.resolve_left hne
  have hc : c ∈ b :: (l₄ ++ v) :=
    List.mem_cons_of_mem b (List.mem_append_right l₄ (List.singleton_sublist.mp hc))
  have htail : [x, c].Sublist ((l₂ ++ l₃) ++ b :: (l₄ ++ v)) :=
    (List.singleton_sublist.mpr hx).append (List.singleton_sublist.mpr hc)
  exact (htail.cons_cons a).trans (List.sublist_append_right l₁ _)

namespace Spread

variable {t : Tree} {p : NodeId} {ms : List Triple} (h : t.WellFormed) (hs : Spread t p ms)

include hs

theorem scanned {l : List NodeId} (hl : l.Sublist (ms.flatMap Triple.markers)) : l.Sublist (t.descendants p) := by
  rw [← hs.markers] at hl
  exact hl.trans List.filter_sublist

theorem markers_scanned {m : Triple} (hm : m ∈ ms) : m.markers.Sublist (t.descendants p) := by
  have := (List.singleton_sublist.mpr hm).flatMap Triple.markers
  exact hs.scanned (by simpa using this)

theorem exists_run {m : Triple} (hm : m ∈ ms) {x : NodeId} (hx : x ∈ m.markers) :
    ∃ q, t.parent x = some q ∧ t.isElement q = true ∧ t.parent q = some p := by
  obtain ⟨q, hq, hrun, hp⟩ := hs.runs x (List.mem_flatMap.mpr ⟨m, hm, hx⟩)
  exact ⟨q, hq, isElement_of_isNamed hrun, hp⟩

/-- The opening markers below the paragraph are those of the triples. -/
theorem openings : (t.descendants p).filter (t.isMarker .opening) = ms.map Triple.opening := by
  have hsome : ∀ l ⊆ ms, (l.flatMap Triple.markers).filter (t.isMarker .opening) = l.map Triple.opening := by
    intro l hl
    induction l with
    | nil => rfl
    | cons m l ih =>
      obtain ⟨ho, hsep, hc⟩ := hs.types m (hl List.mem_cons_self)
      have hsep' : t.isMarker .opening m.separator = false := by
        by_contra hb
        cases eq_of_isMarker hsep (Bool.eq_true_of_not_eq_false hb)
      have hc' : t.isMarker .opening m.closing = false := by
        by_contra hb
        cases eq_of_isMarker hc (Bool.eq_true_of_not_eq_false hb)
      rw [List.flatMap_cons, List.filter_append, ih fun x hx => hl (List.mem_cons_of_mem m hx)]
      simp [Triple.markers, ho, hsep', hc']
  rw [← hsome ms (List.Subset.refl ms), ← hs.markers, List.filter_filter]
  apply List.filter_congr
  intro x _
  by_cases ho : t.isMarker .opening x = true
  · rw [ho, isNamed_of_isMarker ho, Bool.and_true]
  · rw [Bool.eq_false_of_not_eq_true ho, Bool.false_and]

theorem exists_closing {y : NodeId} (hy : y ∈ t.descendants p) (hc : t.isMarker .closing y = true) :
    ∃ m ∈ ms, y = m.closing := by
  have hmem : y ∈ ms.flatMap Triple.markers := by
    rw [← hs.markers]
    exact List.mem_filter.mpr ⟨hy, isNamed_of_isMarker hc⟩
  obtain ⟨m, hm, hym⟩ := List.mem_flatMap.mp hmem
  obtain ⟨ho, hsep, -⟩ := hs.types m hm
  simp only [Triple.markers, List.mem_cons, List.not_mem_nil, or_false] at hym
  obtain rfl | rfl | rfl := hym
  · cases eq_of_isMarker ho hc
  · cases eq_of_isMarker hsep hc
  · exact ⟨m, hm, rfl⟩

/-- Of two triples one ends before the other begins. -/
theorem apart {m m' : Triple} (hm : m ∈ ms) (hm' : m' ∈ ms) (hne : m' ≠ m) :
    [m'.closing, m.opening].Sublist (t.descendants p) ∨ [m.closing, m'.closing].Sublist (t.descendants p) := by
  obtain ⟨before, after, rfl⟩ := List.append_of_mem hm
  rw [List.mem_append, List.mem_cons] at hm'
  obtain hb | rfl | ha := hm'
  · have hpair : [m', m].Sublist (before ++ m :: after) :=
      (List.singleton_sublist.mpr hb).append (List.singleton_sublist.mpr List.mem_cons_self)
    have hmarks := hs.scanned (hpair.flatMap Triple.markers)
    exact Or.inl (List.Sublist.trans (by simp [Triple.markers]) hmarks)
  · exact absurd rfl hne
  · have hpair : [m, m'].Sublist (before ++ m :: after) :=
      ((List.singleton_sublist.mpr ha).cons_cons m).trans (List.sublist_append_right before _)
    have hmarks := hs.scanned (hpair.flatMap Triple.markers)
    exact Or.inr (List.Sublist.trans (by simp [Triple.markers]) hmarks)


section runs

include h

variable {m : Triple} (hm : m ∈ ms)

include hm

/-- The row from the run of the opening marker on, cut behind the run of the closing marker. -/
theorem exists_cut : ∃ first front last rest, t.parent m.opening = some first ∧ t.parent m.closing = some last ∧
    t.parent first = some p ∧ t.parent last = some p ∧
    first :: t.laterElements first = front ++ last :: rest ∧ m.runs t = front ++ [last] := by
  obtain ⟨first, hfirst, hef, hpf⟩ := hs.exists_run hm (x := m.opening) (by simp [Triple.markers])
  obtain ⟨last, hlast, hel, hpl⟩ := hs.exists_run hm (x := m.closing) (by simp [Triple.markers])
  have hscan : [m.opening, m.closing].Sublist (t.descendants p) :=
    List.Sublist.trans (by simp [Triple.markers]) (hs.markers_scanned hm)
  have hmem := h.later_of_scanned hpf hpl hef hel (within_of_parent hfirst) (within_of_parent hlast) hscan
  obtain ⟨front, rest, hcut⟩ := List.append_of_mem hmem
  have hfront : ∀ z ∈ front, (t.parent m.closing == some z) = false := by
    intro z hz
    have hne := (h.mem_laterElements (h.mem_later_of_cut hcut hz)).2.2.2
    rw [hlast, beq_eq_false_iff_ne]
    exact fun he => hne (Option.some.inj he)
  refine ⟨first, front, last, rest, hfirst, hlast, hpf, hpl, hcut, ?_⟩
  rw [Triple.runs, hfirst]
  show (takeThrough? _ (first :: t.laterElements first)).getD [] = _
  rw [hcut, takeThrough?_of_first hfront (by rw [hlast]; exact beq_self_eq_true _)]
  rfl

/-- The first run with a closing marker is that of the field's own, if no other field ends in
    the run where the field begins. -/
theorem takeThrough_closing (hapart : ∀ m' ∈ ms, m' ≠ m → t.parent m'.closing ≠ t.parent m.opening) :
    ∃ first, t.parent m.opening = some first ∧
      takeThrough? (t.holdsMarker .closing) (first :: t.laterElements first) = some (m.runs t) := by
  obtain ⟨first, front, last, rest, hfirst, hlast, hpf, hpl, hcut, hruns⟩ := hs.exists_cut h hm
  refine ⟨first, hfirst, ?_⟩
  rw [hcut, hruns]
  apply takeThrough?_of_first
  · intro z hz
    rw [holdsMarker, List.any_eq_false]
    intro y hy hc
    have hzy := h.mem_subtree.mp hy
    have hzrow : z ∈ first :: t.laterElements first := by rw [hcut]; exact List.mem_append_left _ hz
    have hpz : t.parent z = some p := by
      cases List.mem_cons.mp hzrow with
      | inl he => rw [he, hpf]
      | inr hl => rw [(h.mem_laterElements hl).1, hpf]
    have hbehind := h.mem_later_of_cut hcut hz
    have hyp : y ∈ t.descendants p := by
      refine h.mem_descendants.mpr ⟨within_trans (within_of_parent hpz) hzy, ?_⟩
      intro he
      exact h.not_within_of_parent hpz (he ▸ hzy)
    obtain ⟨m', hm', rfl⟩ := hs.exists_closing hyp hc
    obtain ⟨q, hq, -, hpq⟩ := hs.exists_run hm' (x := m'.closing) (by simp [Triple.markers])
    have hzq : z = q := h.eq_of_within_siblings (hpz.trans hpq.symm) hzy (within_of_parent hq) (by simp [hpz])
    subst hzq
    by_cases hne : m' = m
    · subst hne
      rw [hq, Option.some.injEq] at hlast
      exact (h.mem_laterElements hbehind).2.2.2 hlast.symm
    · cases hs.apart hm hm' hne with
      | inl hbefore =>
        cases List.mem_cons.mp hzrow with
        | inl he => exact hapart m' hm' hne (by rw [hq, hfirst, he])
        | inr hl => exact h.not_scanned_backwards hl hzy (within_of_parent hfirst) hbefore
      | inr hafter => exact h.not_scanned_backwards hbehind (within_of_parent hlast) hzy hafter
  · rw [holdsMarker, List.any_eq_true]
    exact ⟨m.closing, h.mem_subtree.mpr (within_of_parent hlast), (hs.types m hm).2.2⟩

/-- What is scanned between the first and the last marker stands in the runs. -/
theorem mem_runs_of_scanned {x q : NodeId} (hx : [m.opening, x, m.closing].Sublist (t.descendants p))
    (hq : t.parent q = some p) (he : t.isElement q = true) (hw : t.Within q x) : q ∈ m.runs t := by
  obtain ⟨first, front, last, rest, hfirst, hlast, hpf, hpl, hcut, hruns⟩ := hs.exists_cut h hm
  obtain ⟨first', hfirst', hef, -⟩ := hs.exists_run hm (x := m.opening) (by simp [Triple.markers])
  cases hfirst.symm.trans hfirst'
  have hmem := h.later_of_scanned hpf hq hef he (within_of_parent hfirst) hw (List.Sublist.trans (by simp) hx)
  rw [hcut, List.mem_append, List.mem_cons] at hmem
  rw [hruns, List.mem_append, List.mem_singleton]
  obtain hf | he | hr := hmem
  · exact Or.inl hf
  · exact Or.inr he
  · obtain ⟨r, r', rfl⟩ := List.append_of_mem hr
    have hcut' : first :: t.laterElements first = (front ++ last :: r) ++ q :: r' := by rw [hcut]; simp
    have hbehind : q ∈ t.laterElements last := h.mem_later_of_cut hcut' (by simp)
    exact absurd (List.Sublist.trans (by simp) hx) (h.not_scanned_backwards hbehind hw (within_of_parent hlast))

theorem any_separator : (m.runs t).any (t.holdsMarker .separator) = true := by
  obtain ⟨q, hq, heq, hpq⟩ := hs.exists_run hm (x := m.separator) (by simp [Triple.markers])
  rw [List.any_eq_true]
  refine ⟨q, hs.mem_runs_of_scanned h hm (hs.markers_scanned hm) hpq heq (within_of_parent hq), ?_⟩
  rw [holdsMarker, List.any_eq_true]
  exact ⟨m.separator, h.mem_subtree.mpr (within_of_parent hq), (hs.types m hm).2.1⟩

/-- The field that the scan makes of an opening marker reaches over the runs of its triple. -/
theorem complex?_opening (hapart : ∀ m' ∈ ms, m' ≠ m → t.parent m'.closing ≠ t.parent m.opening) :
    ((Field.complex? t m.opening).filter (·.valid)).map (fun f => (f.marker, f.expression, f.anchors)) =
      (Instruction.directive? (Field.instructionText t (m.runs t))).map fun d => (m.opening, d, m.runs t) := by
  obtain ⟨first, hfirst, htake⟩ := hs.takeThrough_closing h hm hapart
  obtain ⟨rest, hrest⟩ := takeThrough?_head htake
  have hcomplex : Field.complex? t m.opening =
      some (Field.ofInstruction t m.opening (Field.instructionText t (m.runs t)) first ((m.runs t).drop 1) .complex true) := by
    simp [Field.complex?, hfirst, htake, hs.any_separator h hm]
  rw [hcomplex, Field.ofInstruction]
  cases Instruction.directive? (Field.instructionText t (m.runs t)) with
  | none => rfl
  | some d => simp [Option.filter, Field.anchors, hrest]

theorem runs_sublist : (m.runs t).Sublist (t.children p) := by
  obtain ⟨first, front, last, rest, -, -, hpf, -, hcut, hruns⟩ := hs.exists_cut h hm
  obtain ⟨before, after, hc⟩ := List.append_of_mem (h.mem_of_parent hpf)
  have hrow : (first :: t.laterElements first).Sublist (t.children p) := by
    rw [hc, h.laterElements_eq hc]
    exact (List.filter_sublist.cons_cons first).trans (List.sublist_append_right before _)
  rw [hcut] at hrow
  rw [hruns]
  exact List.Sublist.trans (by simp) hrow

/-- If the runs of a field have no other instruction text, their text is the instruction. -/
theorem instructionText_runs
    (hplain : ∀ x ∈ (m.runs t).flatMap t.subtree, t.isNamed Word.instructionText x = true → x ∈ m.interior t p) :
    Field.instructionText t (m.runs t) = m.instruction t p := by
  have hnd := h.nodup_descendants p
  have hscan := hs.markers_scanned hm
  have hruns : ((m.runs t).flatMap t.subtree).Sublist (t.descendants p) := by
    rw [h.descendants_eq]
    exact (hs.runs_sublist h hm).flatMap t.subtree
  have hinterior : (m.interior t p).Sublist (t.descendants p) :=
    (List.takeWhile_sublist _).trans (List.dropWhile_sublist _)
  -- Both are parts of one scan, so they are equal if they have the same nodes.
  have hmem : ∀ x, x ∈ ((m.runs t).flatMap t.subtree).filter (t.isNamed Word.instructionText) ↔
      x ∈ (m.interior t p).filter (t.isNamed Word.instructionText) := by
    intro x
    rw [List.mem_filter, List.mem_filter]
    constructor
    · intro hx
      exact ⟨hplain x hx.1 hx.2, hx.2⟩
    · intro hx
      refine ⟨?_, hx.2⟩
      have hne : x ≠ m.opening := by
        intro he
        have hno : t.isNamed Word.instructionText m.opening = false :=
          not_isNamed_of_isNamed (isNamed_of_isMarker (hs.types m hm).1) (by decide)
        rw [← he, hx.2] at hno
        cases hno
      have hbetween := sublist_of_mem_between hnd hscan hx.1 hne
      obtain ⟨hpx, hxp⟩ := h.mem_descendants.mp (hbetween.subset (by simp : x ∈ _))
      obtain ⟨q, hq, hqx⟩ := exists_child_of_within hpx hxp
      have heq := h.isElement_of_child_within (by simp [hq]) hqx (isElement_of_isNamed hx.2)
      exact List.mem_flatMap.mpr ⟨q, hs.mem_runs_of_scanned h hm hbetween hq heq hqx, h.mem_subtree.mpr hqx⟩
  have heq : ((m.runs t).flatMap t.subtree).filter (t.isNamed Word.instructionText) =
      (m.interior t p).filter (t.isNamed Word.instructionText) := by
    rw [← filter_mem_of_sublist (List.filter_sublist.trans hruns) hnd,
      ← filter_mem_of_sublist (List.filter_sublist.trans hinterior) hnd]
    exact List.filter_congr fun x _ => decide_eq_decide.mpr (hmem x)
  rw [Field.instructionText, heq, Triple.instruction]

end runs

end Spread

namespace FieldsInRuns

def run (children : List NodeId) : Node := ⟨.element Word.run [], some 1, children, .none⟩

def marker (parent : NodeId) (type : MarkerType) : Node :=
  ⟨.element Word.fieldChar [(Word.fieldCharType, type.value)], some parent, [], .none⟩

def instruction (parent child : NodeId) : Node := ⟨.element Word.instructionText [], some parent, [child], .none⟩

def text (parent : NodeId) (data : String) : Node := ⟨.text data, some parent, [], .none⟩

/-- A paragraph of these runs. -/
def paragraphOf (runs : List NodeId) (nodes : List Node) : Tree :=
  ⟨⟨.container, none, [1], .none⟩ :: ⟨.element Word.paragraph [], some root, runs, .none⟩ :: nodes |>.toArray⟩

/-- Two fields, the markers of the first in two runs and those of the second in one. -/
def separate : Tree := paragraphOf [2, 7, 9]
  [run [3, 4, 6], marker 2 .opening, instruction 2 5, text 4 "MERGEFIELD =a", marker 2 .separator, run [8], marker 7 .closing,
    run [10, 11, 13, 14], marker 9 .opening, instruction 9 12, text 11 "MERGEFIELD =b", marker 9 .separator, marker 9 .closing]

/-- Two fields, one run for the end of the first and the beginning of the second. -/
def shared : Tree := paragraphOf [2, 4, 7, 9, 12, 15, 17]
  [run [3], marker 2 .opening, run [5], instruction 4 6, text 5 "MERGEFIELD =a", run [8], marker 7 .separator,
    run [10, 11], marker 9 .closing, marker 9 .opening, run [13], instruction 12 14, text 13 "MERGEFIELD =b", run [16],
    marker 15 .separator, run [18], marker 17 .closing]

def separateTriples : List Triple := [⟨3, 6, 8⟩, ⟨10, 13, 14⟩]

def sharedTriples : List Triple := [⟨3, 8, 10⟩, ⟨11, 16, 18⟩]

end FieldsInRuns

open FieldsInRuns

end MailMerge
