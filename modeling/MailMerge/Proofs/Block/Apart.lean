/-
  MailMerge.Proofs.Block.Apart — where the blocks of one scan stand to each other.

  Between the boundary fields of a block no other field stands at the top level of the
  scan. If besides no field stands in another one (`Apart`), the blocks keep out of each
  other's way but for one thing: the rows and paragraphs that are the boundaries of one may
  contain those of another.

  Proved: no body contains the first boundary of a block (`not_within_body`), and neither
  does an anchor of a field that is not that block's own (`not_within_anchor`). A body and the
  other fields stand side by side (`anchor_not_inLine_body`), and what leaves with a block is
  not below a body, but for what is part of it (`leaving_not_below_body`). A row or
  paragraph that bounds a block is the first boundary of none that has no rows or paragraphs
  of its own, but for the paragraph around a picture (`eq_of_ownNodes`).
-/

import MailMerge.Proofs.Block.Capture
import MailMerge.Proofs.Block.Uses

namespace MailMerge

open MailMerge.Tree

namespace Block

/-- The boundary nodes stand above the first anchors, or are anchors themselves. -/
theorem Bounded.startNode_or {t : Tree} (h : t.WellFormed) {start stop : Field} {k : BlockKind} {s e : NodeId}
    (hb : Bounded t start stop k s e) : t.Within s start.first ∨ s = start.last := by
  cases hb with
  | image =>
    left
    cases ha : start.ancestor? t Word.paragraph with
    | none => exact within_refl t _
    | some a => exact (h.findAncestor?_eq_some ha).2.1
  | row hs => exact Or.inl (h.findAncestor?_eq_some hs).2.1
  | paragraph hs => exact Or.inl (h.findAncestor?_eq_some hs).2.1
  | inline => exact Or.inr rfl

/-- What is strictly above the first boundary is strictly above the first anchor. -/
theorem Bounded.above_first {t : Tree} (h : t.WellFormed) {start stop : Field} (hf : start.Placed t) {k : BlockKind}
    {s e x : NodeId} (hb : Bounded t start stop k s e) (hx : t.Within x s) (hne : x ≠ s) :
    t.Within x start.first ∧ x ≠ start.first := by
  rcases hb.startNode_or h with hs | rfl
  · refine ⟨within_trans hx hs, ?_⟩
    rintro rfl
    exact hne (h.within_antisymm hx hs)
  · rcases within_iff.mp hx with he | ⟨p, hp, hxp⟩
    · exact absurd he.symm hne
    · have hpf : t.parent start.first = some p := (hf.parent_anchor h start.last_mem_anchors).symm.trans hp
      refine ⟨within_parent hxp hpf, ?_⟩
      rintro rfl
      exact h.not_within_of_parent hpf hxp

/-- The marker of the first field stands in the first boundary, or in a sibling before it. -/
theorem Bounded.exists_startNode {t : Tree} (h : t.WellFormed) {start stop : Field} (hf : start.Placed t) {k : BlockKind}
    {s e : NodeId} (hb : Bounded t start stop k s e) :
    ∃ n, t.Within n start.marker ∧ (n = s ∨ s ∈ t.laterElements n) := by
  by_cases hi : k = .inline
  · subst hi
    cases hb
    refine ⟨start.first, hf.within_marker, ?_⟩
    rcases List.mem_cons.mp start.last_mem_anchors with he | hmem
    · exact Or.inl he.symm
    · exact Or.inr (hf.mem_others hmem)
  · exact ⟨s, hb.within_startNode h hf hi, Or.inl rfl⟩

/-- The second boundary stands above the first anchor of its field. -/
theorem Bounded.within_stop {t : Tree} (h : t.WellFormed) {start stop : Field} {k : BlockKind} {s e : NodeId}
    (hb : Bounded t start stop k s e) (hk : k ≠ .image) : t.Within e stop.first := by
  cases hb with
  | image => exact absurd rfl hk
  | row _ he => exact (h.findAncestor?_eq_some he).2.1
  | paragraph _ he => exact (h.findAncestor?_eq_some he).2.1
  | inline => exact within_refl t _

theorem Bounded.within_endNode {t : Tree} (h : t.WellFormed) {start stop : Field} (hf : stop.Placed t) {k : BlockKind}
    {s e : NodeId} (hb : Bounded t start stop k s e) (hk : k ≠ .image) : t.Within e stop.marker :=
  within_trans (hb.within_stop h hk) hf.within_marker

/-- Boundaries that are rows or paragraphs stand strictly above a first anchor. -/
theorem above_first_of_mem_ownNodes {t : Tree} (h : t.WellFormed) {b : Block}
    (hr : resolve? t b.startField b.endField = some b) {x : NodeId} (hx : x ∈ b.ownNodes) :
    ∃ f, (f = b.startField ∨ f = b.endField) ∧ t.Within x f.first ∧ x ≠ f.first := by
  have hb := bounded_of_resolve? hr
  have hup : ∀ {f : Field} {name : String} {a : NodeId}, f.ancestor? t name = some a → t.Within a f.first ∧ a ≠ f.first :=
    fun ha => ⟨(h.findAncestor?_eq_some ha).2.1, (h.findAncestor?_eq_some ha).2.2.1⟩
  unfold ownNodes hasOwnBoundaries at hx
  generalize b.kind = k, b.startNode = s, b.endNode = e at hb hx
  have hcases : ∀ {a c : NodeId}, x ∈ [a, c] → t.Within a b.startField.first ∧ a ≠ b.startField.first →
      t.Within c b.endField.first ∧ c ≠ b.endField.first →
      ∃ f, (f = b.startField ∨ f = b.endField) ∧ t.Within x f.first ∧ x ≠ f.first := by
    intro a c hmem ha hc
    simp only [List.mem_cons, List.not_mem_nil, or_false] at hmem
    rcases hmem with rfl | rfl
    · exact ⟨_, Or.inl rfl, ha⟩
    · exact ⟨_, Or.inr rfl, hc⟩
  cases hb with
  | image => cases hx
  | row hs he => exact hcases hx (hup hs) (hup he)
  | paragraph hs he => exact hcases hx (hup hs) (hup he)
  | inline => cases hx

/-- Behind the first boundary come the body, the other boundary and what is behind that. -/
theorem laterElements_startNode {t : Tree} (h : t.WellFormed) {b : Block} (hr : resolve? t b.startField b.endField = some b)
    {x : NodeId} (hx : x ∈ b.body) :
    t.laterElements b.startNode = b.body ++ b.endNode :: t.laterElements b.endNode := by
  rcases (resolve?_eq_some.mp hr).2.1 with hbody | ⟨-, -, hnil⟩
  · rcases (between?_eq_some h).mp hbody with ⟨-, hnil⟩ | ⟨post, hl⟩
    · rw [hnil] at hx; cases hx
    · obtain ⟨mid, hm⟩ := h.laterElements_of_mem (x := b.startNode) (y := b.endNode) (by rw [hl]; simp)
      obtain ⟨-, rfl⟩ := cut_unique (h.nodup_laterElements _) hl hm
      exact hl
  · rw [hnil] at hx; cases hx

/-- Behind a node of the body come the rest of the body, the other boundary and what is behind that. -/
theorem laterElements_of_body {t : Tree} (h : t.WellFormed) {b : Block} (hr : resolve? t b.startField b.endField = some b)
    {front rest : List NodeId} {x : NodeId} (hb : b.body = front ++ x :: rest) :
    t.laterElements x = rest ++ b.endNode :: t.laterElements b.endNode := by
  have hl := laterElements_startNode h hr (x := x) (by rw [hb]; simp)
  have hxs : x ∈ t.laterElements b.startNode := by rw [hl, hb]; simp
  obtain ⟨mid, hm⟩ := h.laterElements_of_mem hxs
  rw [hb, List.append_assoc, List.cons_append] at hl
  exact (cut_unique (h.nodup_laterElements _) hm hl).2

/-- A node of the body stands behind the first boundary and in front of the other. -/
theorem mem_laterElements_of_body {t : Tree} (h : t.WellFormed) {b : Block}
    (hr : resolve? t b.startField b.endField = some b) {x : NodeId} (hx : x ∈ b.body) :
    x ∈ t.laterElements b.startNode ∧ b.endNode ∈ t.laterElements x := by
  obtain ⟨front, rest, hb⟩ := List.append_of_mem hx
  rw [laterElements_startNode h hr hx, laterElements_of_body h hr hb]
  exact ⟨List.mem_append_left _ hx, by simp⟩

/-- Of the anchors of its own start field none but the last can be the first boundary, if
    there is a body. -/
theorem startNode_eq_last {t : Tree} (h : t.WellFormed) {b : Block} (hr : resolve? t b.startField b.endField = some b)
    (hf : b.startField.Placed t) (hk : b.kind ≠ .image) (ha : b.startNode ∈ b.startField.anchors) :
    b.startNode = b.startField.last := by
  have hup : ∀ {name : String}, b.startField.ancestor? t name = some b.startNode → b.startNode = b.startField.last := by
    intro name hn
    obtain ⟨-, hw, hne, -⟩ := h.findAncestor?_eq_some hn
    have hp := hf.parent_anchor h ha
    rcases within_iff.mp hw with he | ⟨p, hpf, -⟩
    · exact absurd he.symm hne
    · exact absurd (h.eq_of_within_siblings hp hw (within_refl t _) (by rw [hp, hpf]; simp)) hne
  have hb := bounded_of_resolve? hr
  generalize b.kind = k, b.startNode = s, b.endNode = e at hb hk hup ⊢
  cases hb with
  | image => exact absurd rfl hk
  | row hs => exact hup hs
  | paragraph hs => exact hup hs
  | inline => rfl

/-- What a body contains is scanned behind the first boundary field. -/
theorem behind_of_within {t : Tree} (h : t.WellFormed) {id : NodeId} {b : Block}
    (hr : resolve? t b.startField b.endField = some b) (hs : b.startField ∈ t.fields id) {x : NodeId} (hx : x ∈ b.body)
    {g : Field} (hw : t.Within x g.marker) : g ≠ b.startField ∧ ¬ [g, b.startField].Sublist (t.fields id) := by
  obtain ⟨hxs, -⟩ := mem_laterElements_of_body h hr hx
  obtain ⟨n, hn, hns⟩ := (bounded_of_resolve? hr).exists_startNode h (placed_of_mem_fields hs)
  have hxn : x ∈ t.laterElements n := by
    rcases hns with rfl | hns
    · exact hxs
    · exact h.laterElements_trans hns hxs
  constructor
  · rintro rfl
    obtain ⟨hp, hpn, -, hne⟩ := h.mem_laterElements hxn
    exact hne (h.eq_of_within_siblings hp hw hn (hp ▸ hpn))
  · intro hsub
    exact h.not_scanned_backwards hxn hw hn ((hsub.map Field.marker).trans (t.markers_sublist id))

/-- What begins in a body is scanned strictly between the boundary fields. -/
theorem between_of_within {t : Tree} (h : t.WellFormed) {id : NodeId} {b : Block}
    (hr : resolve? t b.startField b.endField = some b) (hk : b.kind ≠ .image) (hs : b.startField ∈ t.fields id)
    (he : b.endField ∈ t.fields id) {x : NodeId} (hx : x ∈ b.body) {g : Field} (hw : t.Within x g.marker) :
    g ≠ b.startField ∧ g ≠ b.endField ∧ ¬ [g, b.startField].Sublist (t.fields id) ∧ ¬ [b.endField, g].Sublist (t.fields id) := by
  obtain ⟨hne, hbefore⟩ := behind_of_within h hr hs hx hw
  obtain ⟨-, hex⟩ := mem_laterElements_of_body h hr hx
  have hstop := (bounded_of_resolve? hr).within_endNode h (placed_of_mem_fields he) hk
  refine ⟨hne, ?_, hbefore, fun hsub =>
    h.not_scanned_backwards hex hstop hw ((hsub.map Field.marker).trans (t.markers_sublist id))⟩
  rintro rfl
  obtain ⟨hp, hpx, -, hne⟩ := h.mem_laterElements hex
  exact hne (h.eq_of_within_siblings hp hstop hw (hp ▸ hpx))

end Block

/-! ## Fields that stand apart -/

/-- No field stands in another one. -/
def Apart (t : Tree) (fs : List Field) : Prop :=
  ∀ f ∈ fs, ∀ g ∈ fs, f ≠ g → ∀ a ∈ f.anchors, ∀ c ∈ g.anchors, ¬ Block.InLine t a c

theorem apart_iff {t : Tree} (h : t.WellFormed) {fs : List Field} : Apart t fs ↔ ∀ f ∈ fs, ∀ g ∈ fs, f ≠ g →
    ∀ a ∈ f.anchors, ∀ c ∈ g.anchors, c ∉ t.subtree a ∧ a ∉ t.subtree c := by
  simp only [Apart, Block.InLine, h.mem_subtree, not_or]

namespace Outline

open Block

section blocks

variable {r : Registry} {t : Tree} (h : t.WellFormed) {id : NodeId} {ss : List Statement}
  (ho : Outlined r t (t.fields id) ss) {b : Block} (hb : b ∈ ss.flatMap Statement.blocks)

include ho hb

theorem Outlined.resolves_block : resolve? t b.startField b.endField = some b := by
  obtain ⟨s, hs, hbs⟩ := List.mem_flatMap.mp hb
  exact ho.resolves hs hbs

theorem Outlined.mem_fields_block : b.startField ∈ t.fields id ∧ b.endField ∈ t.fields id :=
  ⟨ho.topFields_sublist.subset (ho.mem_topFields hb).1, ho.topFields_sublist.subset (ho.mem_topFields hb).2⟩

include h

/-- What a body contains is scanned between the boundary fields, so it is no field of the top level. -/
theorem Outlined.not_within_body_of_top (hk : b.kind ≠ .image) {x : NodeId} (hx : x ∈ b.body) {g : Field}
    (hg : g ∈ ss.flatMap topFields) : ¬ t.Within x g.marker := by
  intro hw
  obtain ⟨hs, he⟩ := ho.mem_fields_block hb
  obtain ⟨hns, hne, hbefore, hbehind⟩ := between_of_within h (ho.resolves_block hb) hk hs he hx hw
  rcases ho.outside hb hg with rfl | rfl | hs | hs
  · exact hns rfl
  · exact hne rfl
  · exact hbefore hs
  · exact hbehind hs

variable (hap : Apart t (ss.flatMap topFields))

include hap

/-- No anchor of another field is at or above the first boundary. -/
theorem Outlined.not_within_anchor {f : Field} (hf : f ∈ ss.flatMap topFields) (hne : f ≠ b.startField) {a : NodeId}
    (ha : a ∈ f.anchors) : ¬ t.Within a b.startNode := by
  intro hw
  have hs := (ho.mem_topFields hb).1
  rcases (bounded_of_resolve? (ho.resolves_block hb)).startNode_or h with hup | hlast
  · exact hap f hf _ hs hne a ha _ (Field.first_mem_anchors _) (Or.inl (within_trans hw hup))
  · exact hap f hf _ hs hne a ha _ (Field.last_mem_anchors _) (Or.inl (hlast ▸ hw))

/-- No anchor of any field is strictly above the first boundary. -/
theorem Outlined.not_mem_anchors_of_above {f : Field} (hf : f ∈ ss.flatMap topFields) {x : NodeId}
    (hx : t.Within x b.startNode) (hne : x ≠ b.startNode) : x ∉ f.anchors := by
  intro ha
  by_cases hfs : f = b.startField
  · have hplaced := placed_of_mem_fields (ho.mem_fields_block hb).1
    obtain ⟨hw, hxf⟩ := (bounded_of_resolve? (ho.resolves_block hb)).above_first h hplaced hx hne
    subst hfs
    have hp := hplaced.parent_anchor h ha
    rcases within_iff.mp hw with he | ⟨p, hpf, -⟩
    · exact hxf he.symm
    · exact hxf (h.eq_of_within_siblings hp hw (within_refl t _) (by rw [hp, hpf]; simp))
  · exact ho.not_within_anchor h hb hap hf hfs ha hx

/-- A row or paragraph that bounds a block is no first boundary of a block without such,
    but the paragraph around a picture. -/
theorem Outlined.eq_of_ownNodes {b' : Block} (hb' : b' ∈ ss.flatMap Statement.blocks) (hown : b.hasOwnBoundaries = false)
    (hx : b.startNode ∈ b'.ownNodes) : b.startField.ancestor? t Word.paragraph = some b.startNode := by
  obtain ⟨f, hf, hw, hne⟩ := above_first_of_mem_ownNodes h (ho.resolves_block hb') hx
  have hft : f ∈ ss.flatMap topFields := by
    rcases hf with rfl | rfl
    · exact (ho.mem_topFields hb').1
    · exact (ho.mem_topFields hb').2
  have hplaced := placed_of_mem_fields (ho.mem_fields_block hb).1
  -- no anchor of the start field stands strictly above a first anchor
  have hnot : b.startNode ∉ b.startField.anchors := by
    intro ha
    by_cases hfs : f = b.startField
    · subst hfs
      have hp := hplaced.parent_anchor h ha
      rcases within_iff.mp hw with he | ⟨p, hpf, -⟩
      · exact hne he.symm
      · exact hne (h.eq_of_within_siblings hp hw (within_refl t _) (by rw [hp, hpf]; simp))
    · exact hap _ (ho.mem_topFields hb).1 f hft (Ne.symm hfs) _ ha _ f.first_mem_anchors (Or.inl hw)
  have hbound := bounded_of_resolve? (ho.resolves_block hb)
  unfold Block.hasOwnBoundaries at hown
  generalize b.kind = k, b.startNode = s, b.endNode = e at hbound hown hnot ⊢
  cases hbound with
  | image =>
    cases ha : b.startField.ancestor? t Word.paragraph with
    | none =>
      rw [ha] at hnot
      exact absurd (Field.first_mem_anchors _) hnot
    | some a => rfl
  | row => cases hown
  | paragraph => cases hown
  | inline => exact absurd (Field.last_mem_anchors _) hnot

/-- A body contains no anchor of a field at the top level. -/
theorem Outlined.anchor_not_within_body {f : Field} (hf : f ∈ ss.flatMap topFields) (hk : b.kind ≠ .image) {a x : NodeId}
    (ha : a ∈ f.anchors) (hx : x ∈ b.body) : ¬ t.Within x a := by
  have hfs : f ∈ t.fields id := ho.topFields_sublist.subset hf
  have hplaced := placed_of_mem_fields hfs
  have hfirst : ¬ t.Within x f.first := fun hw => ho.not_within_body_of_top h hb hk hx hf (within_trans hw hplaced.within_marker)
  rcases List.mem_cons.mp ha with rfl | hao
  · exact hfirst
  intro hw
  rcases within_iff.mp hw with rfl | ⟨p, hp, hxp⟩
  · -- the anchor is in the row of the body: the field starts there too, or it reaches over the first boundary
    have hr := ho.resolves_block hb
    have hsf := (ho.mem_fields_block hb).1
    obtain ⟨hxs, hex⟩ := mem_laterElements_of_body h hr hx
    have hxf := hplaced.mem_others hao
    have hstart : b.startNode ∉ f.anchors := by
      intro hsa
      by_cases hs : f = b.startField
      · have hlast := startNode_eq_last h hr (placed_of_mem_fields hsf) hk (hs ▸ hsa)
        exact hplaced.not_mem_later_last h hao (by rw [hs, ← hlast]; exact hxs)
      · exact ho.not_within_anchor h hb hap hf hs hsa (within_refl t _)
    obtain ⟨hpx, hps, -, -⟩ := h.mem_laterElements hxs
    obtain ⟨hpf, -, -, -⟩ := h.mem_laterElements hxf
    have hne : b.startNode ≠ f.first := fun hs => hstart (hs ▸ Field.first_mem_anchors _)
    have hels : t.isElement b.startNode = true := by
      obtain ⟨n, hn, hns⟩ := (bounded_of_resolve? hr).exists_startNode h (placed_of_mem_fields hsf)
      rcases hns with rfl | hns
      · exact h.isElement_of_child_within hps hn (isElement_marker hsf)
      · exact (h.mem_laterElements hns).2.2.1
    have helf : t.isElement f.first = true :=
      h.isElement_of_child_within (by rw [← hpf, hpx]; exact hps) hplaced.within_marker (isElement_marker hfs)
    rcases h.laterElements_total (hpx.symm.trans hpf) hps hne hels helf with hmem | hmem
    · rw [laterElements_startNode h hr hx] at hmem
      rcases List.mem_append.mp hmem with hbody | hpost
      · exact ho.not_within_body_of_top h hb hk hbody hf hplaced.within_marker
      · refine h.not_mem_laterElements hex ?_
        rcases List.mem_cons.mp hpost with hs | hpost
        · exact hs ▸ hxf
        · exact h.laterElements_trans hpost hxf
    · rw [hplaced.later_last h] at hmem
      rcases List.mem_append.mp hmem with hmem | hmem
      · exact hstart (List.mem_cons_of_mem _ hmem)
      · exact hplaced.not_mem_later_last h hao (h.laterElements_trans hmem hxs)
  · exact hfirst (within_parent hxp ((hplaced.parent_anchor h ha).symm.trans hp))

/-- No body contains the first boundary of a block. -/
theorem Outlined.not_within_body {b' : Block} (hb' : b' ∈ ss.flatMap Statement.blocks) (hk : b.kind ≠ .image) {x : NodeId}
    (hx : x ∈ b.body) : ¬ t.Within x b'.startNode := by
  have hs := (ho.mem_topFields hb').1
  intro hw
  rcases (bounded_of_resolve? (ho.resolves_block hb')).startNode_or h with hup | hlast
  · exact ho.anchor_not_within_body h hb hap hs hk (Field.first_mem_anchors _) hx (within_trans hw hup)
  · exact ho.anchor_not_within_body h hb hap hs hk (Field.last_mem_anchors _) hx (hlast ▸ hw)

/-- No field but the block's own first one is in line with its body. -/
theorem Outlined.anchor_not_inLine_body {f : Field} (hf : f ∈ ss.flatMap topFields) (hne : f ≠ b.startField) (hk : b.kind ≠ .image)
    {a x : NodeId} (ha : a ∈ f.anchors) (hx : x ∈ b.body) : ¬ InLine t a x := by
  have hbody := ho.anchor_not_within_body h hb hap hf hk ha hx
  rintro (hw | hw)
  · obtain ⟨hp, hps, -, -⟩ := h.mem_laterElements (mem_laterElements_of_body h (ho.resolves_block hb) hx).1
    obtain ⟨p, hps⟩ := Option.ne_none_iff_exists'.mp hps
    rcases within_iff.mp hw with rfl | ⟨q, hq, haq⟩
    · exact hbody (within_refl t _)
    · rw [hp.trans hps] at hq
      cases hq
      exact ho.not_within_anchor h hb hap hf hne ha (within_parent haq hps)
  · exact hbody hw

/-- What leaves with a block stands below no node of a body. -/
theorem Outlined.leaving_not_below_body {b' : Block} (hb' : b' ∈ ss.flatMap Statement.blocks) (hk : b.kind ≠ .image) {l : Ledger}
    {y : NodeId} (hy : y ∈ b'.leaving l) {p x : NodeId} (hp : t.parent y = some p) (hx : x ∈ b.body) : ¬ t.Within x p := by
  have htop : ∀ {f : Field}, f = b'.startField ∨ f = b'.endField → f ∈ ss.flatMap topFields := by
    rintro f (rfl | rfl)
    · exact (ho.mem_topFields hb').1
    · exact (ho.mem_topFields hb').2
  intro hw
  rcases Ledger.mem_leaving hy with ⟨hk', hbody⟩ | ⟨hown, -, -⟩ | ⟨f, hf, ha, -⟩
  · have hps := (h.mem_laterElements (mem_laterElements_of_body h (ho.resolves_block hb') hbody).1).1
    exact ho.not_within_body h hb hap hb' hk hx (within_parent hw (hps.symm.trans hp))
  · obtain ⟨f, hf, hyf, -⟩ := above_first_of_mem_ownNodes h (ho.resolves_block hb') hown
    exact ho.anchor_not_within_body h hb hap (htop hf) hk f.first_mem_anchors hx (within_trans (within_parent hw hp) hyf)
  · exact ho.anchor_not_within_body h hb hap (htop hf) hk ha hx (within_parent hw hp)

end blocks

/-- The field of an insertion is no field of another statement. -/
theorem Outlined.insertion_ne_of_mem {r : Registry} {t : Tree} (h : t.WellFormed) {id : NodeId} {ss : List Statement}
    (ho : Outlined r t (t.fields id) ss) {f g : Field} {o : Operand} (hf : .insertion f o ∈ ss) {s : Statement} (hs : s ∈ ss)
    (hne : s ≠ .insertion f o) (hg : g ∈ topFields s) : f ≠ g := by
  have hnd : ((ss.flatMap topFields).map Field.marker).Nodup := (h.nodup_markers id).sublist (ho.topFields_sublist.map _)
  obtain ⟨before, after, rfl⟩ := List.append_of_mem hf
  rw [List.flatMap_append, List.flatMap_cons, List.map_append, List.map_append] at hnd
  rintro rfl
  rcases List.mem_append.mp hs with hs | hs
  · exact (List.nodup_append.mp hnd).2.2 _ (List.mem_map_of_mem (List.mem_flatMap.mpr ⟨s, hs, hg⟩)) _
      (List.mem_append_left _ (List.mem_singleton_self _)) rfl
  rcases List.mem_cons.mp hs with rfl | hs
  · exact hne rfl
  · exact (List.nodup_append.mp (List.nodup_append.mp hnd).2.1).2.2 _ (List.mem_singleton_self _) _
      (List.mem_map_of_mem (List.mem_flatMap.mpr ⟨s, hs, hg⟩)) rfl

/-- It bounds no block. -/
theorem Outlined.insertion_ne_bounds {r : Registry} {t : Tree} (h : t.WellFormed) {id : NodeId} {ss : List Statement}
    (ho : Outlined r t (t.fields id) ss) {f : Field} {o : Operand} (hf : .insertion f o ∈ ss) {b : Block}
    (hb : b ∈ ss.flatMap Statement.blocks) : f ≠ b.startField ∧ f ≠ b.endField := by
  obtain ⟨s, hs, hbs⟩ := List.mem_flatMap.mp hb
  obtain ⟨pre, post, hsplit⟩ := ho.beside hs hbs
  have hne : s ≠ .insertion f o := by
    rintro rfl
    cases hbs
  exact ⟨ho.insertion_ne_of_mem h hf hs hne (by rw [hsplit]; simp), ho.insertion_ne_of_mem h hf hs hne (by rw [hsplit]; simp)⟩

theorem Outlined.insertion_ne {r : Registry} {t : Tree} (h : t.WellFormed) {id : NodeId} {ss : List Statement}
    (ho : Outlined r t (t.fields id) ss) {f : Field} {o : Operand} (hf : .insertion f o ∈ ss) {b : Block}
    (hb : b ∈ ss.flatMap Statement.blocks) : f ≠ b.startField := (ho.insertion_ne_bounds h hf hb).1

theorem Outlined.startField_ne {r : Registry} {t : Tree} (h : t.WellFormed) {id : NodeId} {ss : List Statement}
    (ho : Outlined r t (t.fields id) ss) {b : Block} (hb : b ∈ ss.flatMap Statement.blocks) : b.startField ≠ b.endField := by
  obtain ⟨s, hs, hbs⟩ := List.mem_flatMap.mp hb
  obtain ⟨pre, post, hsplit⟩ := ho.beside hs hbs
  have hsub : [b.startField, b.endField].Sublist (t.fields id) := by
    refine List.Sublist.trans ?_ ho.topFields_sublist
    obtain ⟨before, after, rfl⟩ := List.append_of_mem hs
    rw [List.flatMap_append, List.flatMap_cons, hsplit]
    exact ((((List.nil_sublist _).cons_cons _).cons_cons _).trans (List.sublist_append_right pre _)).trans
      ((List.sublist_append_left _ _).trans (List.sublist_append_right _ _))
  have hnd := (h.nodup_markers id).sublist (hsub.map Field.marker)
  intro he
  rw [he] at hnd
  simp at hnd

/-- In a part the first boundary of a block stands below the root. -/
theorem Outlined.below_root {r : Registry} {t : Tree} (h : t.WellFormed) (hroot : t.isElement root = false)
    {ss : List Statement} (ho : Outlined r t (t.fields root) ss) (hap : Apart t (ss.flatMap topFields)) {b : Block}
    (hb : b ∈ ss.flatMap Statement.blocks) : t.Within root b.startNode ∧ b.startNode ≠ root := by
  have hin : ∀ {f : Field}, f ∈ t.fields root → t.Within root f.marker := fun hf =>
    (h.mem_descendants.mp (Tree.mem_fields.mp hf).1).1
  have hup : ∀ {a d : NodeId}, t.Within root d → t.Within a d → t.Within root a := by
    intro a d hd ha
    rcases within_total hd ha with hw | hw
    · exact hw
    · rw [within_of_parent_none h.top hw]; exact within_refl t _
  obtain ⟨hsf, hef⟩ := ho.mem_fields_block hb
  have hs := placed_of_mem_fields hsf
  have hfirst : t.Within root b.startField.first := hup (hin hsf) hs.within_marker
  have hstop : t.Within root b.endField.first := hup (hin hef) (placed_of_mem_fields hef).within_marker
  have hne : b.startField.first ≠ root := by
    intro he
    exact hap _ (ho.mem_topFields hb).1 _ (ho.mem_topFields hb).2 (ho.startField_ne h hb) _ (Field.first_mem_anchors _) _
      (Field.first_mem_anchors _) (Or.inl (he ▸ hstop))
  have hanc : ∀ {name : String} {a : NodeId}, b.startField.ancestor? t name = some a → t.Within root a ∧ a ≠ root := by
    intro name a ha
    obtain ⟨hn, hw, -, -⟩ := h.findAncestor?_eq_some ha
    refine ⟨hup hfirst hw, ?_⟩
    rintro rfl
    rw [isElement_of_isNamed hn] at hroot
    cases hroot
  have hbound := bounded_of_resolve? (ho.resolves_block hb)
  generalize b.kind = k, b.startNode = s, b.endNode = e at hbound ⊢
  cases hbound with
  | image =>
    cases ha : b.startField.ancestor? t Word.paragraph with
    | none => exact ⟨hfirst, hne⟩
    | some a => exact hanc ha
  | row hs => exact hanc hs
  | paragraph hs => exact hanc hs
  | inline =>
    rcases within_iff.mp hfirst with he | ⟨p, hp, hw⟩
    · exact absurd he hne
    · have hl := (hs.parent_anchor h b.startField.last_mem_anchors).trans hp
      refine ⟨within_parent hw hl, fun he => ?_⟩
      rw [he, h.top] at hl
      cases hl

end Outline

end MailMerge
