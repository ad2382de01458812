/-
  MailMerge.Proofs.Block.Renamed — what two fields enclose in a copy.

  In a copy of a body two fields are looked at again, with less around them. Rows and
  paragraphs that are siblings, and contain one of the fields each, are in the body with them.
  A paragraph that contains both may be one that the whole body stands in, and is not there in
  the copy.

  Proved: two fields of the body enclose in the copy what they enclose in the part, but for a
  paragraph that is not copied and for blocks around pictures (`Rehoused.resolve?`); the latter
  enclose something (`Rehoused.exists_resolve?_of_image`).
-/

import MailMerge.Proofs.Block.Resolve
import MailMerge.Proofs.Field.Renamed

namespace MailMerge

open MailMerge.Tree

namespace Block

variable {t : Tree} {start stop : Field} {s e : NodeId}

theorem rowEnds?_eq_some : rowEnds? t start stop = some (s, e) ↔ start.ancestor? t Word.tableRow = some s ∧
    stop.ancestor? t Word.tableRow = some e ∧ s ≠ e ∧ t.parent s = t.parent e := by
  simp only [rowEnds?, Option.bind_eq_bind, Option.bind_eq_some_iff]
  constructor
  · rintro ⟨s', hs, e', he, h⟩
    split at h
    · next hsib =>
      cases h
      exact ⟨hs, he, areSiblings_iff.mp hsib⟩
    · cases h
  · rintro ⟨hs, he, hsib⟩
    exact ⟨s, hs, e, he, by rw [if_pos (areSiblings_iff.mpr hsib)]⟩

theorem ends?_of_row (hat : ¬ start.expression.startsWith "@" = true) (h : rowEnds? t start stop = some (s, e)) :
    ends? t start stop = some (.row, s, e) := by
  unfold ends?
  rw [if_neg hat, h]

theorem ends?_of_not_row (hat : ¬ start.expression.startsWith "@" = true) (h : rowEnds? t start stop = none) :
    ends? t start stop = paragraphEnds? t start stop := by
  unfold ends?
  rw [if_neg hat, h]

theorem paragraphEnds?_of_siblings (hs : start.ancestor? t Word.paragraph = some s) (he : stop.ancestor? t Word.paragraph = some e)
    (hne : s ≠ e) (hp : t.parent s = t.parent e) : paragraphEnds? t start stop = some (.paragraph, s, e) := by
  rw [paragraphEnds?, hs, he]
  simp [areSiblings_iff.mpr ⟨hne, hp⟩]

theorem paragraphEnds?_of_eq (hs : start.ancestor? t Word.paragraph = some s) (he : stop.ancestor? t Word.paragraph = some s) :
    paragraphEnds? t start stop = some (.inline, start.last, stop.first) := by
  rw [paragraphEnds?, hs, he]
  simp [areSiblings]

/-- A directive that begins with `@` encloses something wherever it stands. -/
theorem exists_resolve?_of_at (t : Tree) (stop : Field) (hat : start.expression.startsWith "@" = true) :
    ∃ b, resolve? t start stop = some b := by
  have hends : ends? t start stop = some (.image, imageEnds t start stop) := by
    unfold ends?
    rw [if_pos hat]
  cases hb : between? t (imageEnds t start stop).1 (imageEnds t start stop).2 with
  | some body => exact ⟨⟨.image, start, stop, _, _, body⟩, resolve?_eq_some.mpr ⟨hends, Or.inl hb, rfl, rfl⟩⟩
  | none => exact ⟨⟨.image, start, stop, _, _, []⟩, resolve?_eq_some.mpr ⟨hends, Or.inr ⟨hb, rfl, rfl⟩, rfl, rfl⟩⟩

end Block

namespace Tree.Rehoused

open Block

variable {t u : Tree} {ids : List NodeId} {φ : NodeId → NodeId} {c : NodeId} (h : Rehoused t ids φ u c) (ht : t.WellFormed)

include h ht

/-- What contains one node below the row and is not below it itself contains them all. -/
theorem within_all {a x y : NodeId} (ha : ¬ t.Under ids a) (hax : t.Within a x) (hx : t.Under ids x) (hy : t.Under ids y) :
    t.Within a y := by
  obtain ⟨n, hn, hnx⟩ := hx
  obtain ⟨m, hm, hmy⟩ := hy
  rcases within_total hnx hax with hna | han
  · exact absurd ⟨n, hn, hna⟩ ha
  · rcases within_iff.mp han with rfl | ⟨p, hp, hap⟩
    · exact absurd (under_of_mem hn) ha
    · exact within_trans (within_parent hap (((h.hosted ht).parent_eq ht hm hn).1.trans hp)) hmy

/-- Siblings that contain one node below the row each are below the row. -/
theorem under_of_siblings {s e x y : NodeId} (hsx : t.Within s x) (hey : t.Within e y) (hne : s ≠ e) (hp : t.parent s = t.parent e)
    (hx : t.Under ids x) (hy : t.Under ids y) : t.Under ids s ∧ t.Under ids e := by
  have heq : ∀ {z}, t.Within s z → t.Within e z → s = e := by
    intro z hsz hez
    by_cases hps : t.parent s = none
    · rcases within_total hsz hez with hw | hw
      · exact within_of_parent_none (hp ▸ hps) hw
      · exact (within_of_parent_none hps hw).symm
    · exact ht.eq_of_within_siblings hp hsz hez hps
  constructor
  · by_contra hs
    exact hne (heq (h.within_all ht hs hsx hx hy) hey)
  · by_contra he
    exact hne (heq hsx (h.within_all ht he hey hy hx))

variable (hu : u.WellFormed)

include hu

theorem between? {s e : NodeId} {body : List NodeId} (hs : t.Under ids s) (he : t.Under ids e) (hb : between? t s e = some body) :
    between? u (φ s) (φ e) = some (body.map φ) ∧ ∀ n ∈ body, t.Under ids n := by
  rcases (between?_eq_some ht).mp hb with ⟨rfl, rfl⟩ | ⟨post, hl⟩
  · exact ⟨(between?_eq_some hu).mpr (Or.inl ⟨rfl, rfl⟩), nofun⟩
  · obtain ⟨later, rest, hcut, hl', hin, hout⟩ := (h.hosted ht).laterElements ht hu hs
    -- the second node is below the row, so the cut is among the siblings that are
    have hnot : e ∉ rest := fun hmem => hout e hmem he
    have hsplit : ∃ post', later = body ++ e :: post' := by
      rw [hcut] at hl
      rcases List.append_eq_append_iff.mp hl with ⟨k, -, hk⟩ | ⟨k, hk, hk'⟩
      · exact absurd (by rw [hk]; simp) hnot
      · cases k with
        | nil => exact absurd (by rw [← List.nil_append rest, ← hk']; simp) hnot
        | cons x k =>
          obtain ⟨rfl, -⟩ := List.cons.inj hk'
          exact ⟨k, hk⟩
    obtain ⟨post', rfl⟩ := hsplit
    refine ⟨(between?_eq_some hu).mpr (Or.inr ⟨post'.map φ, by rw [hl']; simp⟩), fun n hn => hin n ?_⟩
    exact List.mem_append_left _ hn

variable {start stop : Field} (hstart : t.Under ids start.first) (hstop : t.Under ids stop.first)

include hstart

theorem ancestor? {name : String} (hname : name ≠ containerName) {a : NodeId} :
    (start.renamed φ u).ancestor? u name = some a ↔ ∃ b, φ b = a ∧ t.Under ids b ∧ start.ancestor? t name = some b :=
  h.findAncestor? ht hu hname hstart

include hstop

/-- Ancestors that are siblings are copied both, and are siblings in the copy. -/
theorem sibling_ancestors {name : String} (hname : name ≠ containerName) {s e : NodeId} (hs : start.ancestor? t name = some s)
    (he : stop.ancestor? t name = some e) (hne : s ≠ e) (hp : t.parent s = t.parent e) : t.Under ids s ∧ t.Under ids e ∧
      (start.renamed φ u).ancestor? u name = some (φ s) ∧ (stop.renamed φ u).ancestor? u name = some (φ e) ∧ φ s ≠ φ e ∧
      u.parent (φ s) = u.parent (φ e) := by
  obtain ⟨hus, hue⟩ := h.under_of_siblings ht (ht.findAncestor?_eq_some hs).2.1 (ht.findAncestor?_eq_some he).2.1 hne hp hstart hstop
  exact ⟨hus, hue, (h.ancestor? ht hu hstart hname).mpr ⟨s, rfl, hus, hs⟩, (h.ancestor? ht hu hstop hname).mpr ⟨e, rfl, hue, he⟩,
    fun heq => hne (h.renames.injective s e hus hue heq), ((h.hosted ht).parent_eq_iff ht hu hus hue).mpr hp⟩

theorem rowEnds?_eq_none (hrow : rowEnds? t start stop = none) : rowEnds? u (start.renamed φ u) (stop.renamed φ u) = none := by
  rw [Option.eq_none_iff_forall_ne_some]
  rintro ⟨a, a'⟩ hsome
  obtain ⟨hs, he, hne, hp⟩ := rowEnds?_eq_some.mp hsome
  obtain ⟨s, rfl, hus, hs⟩ := (h.ancestor? ht hu hstart (by decide)).mp hs
  obtain ⟨e, rfl, hue, he⟩ := (h.ancestor? ht hu hstop (by decide)).mp he
  have hall : rowEnds? t start stop = some (s, e) :=
    rowEnds?_eq_some.mpr ⟨hs, he, fun heq => hne (heq ▸ rfl), ((h.hosted ht).parent_eq_iff ht hu hus hue).mp hp⟩
  rw [hrow] at hall
  cases hall

/-- The boundary nodes are the same, if a paragraph around both fields is copied. -/
theorem ends? (hlast : t.Under ids start.last) {k : BlockKind} {s e : NodeId} (hends : ends? t start stop = some (k, s, e))
    (hk : k ≠ .image) (hpar : k = .inline → ∃ q, t.Under ids q ∧ start.ancestor? t Word.paragraph = some q) :
    t.Under ids s ∧ t.Under ids e ∧ Block.ends? u (start.renamed φ u) (stop.renamed φ u) = some (k, φ s, φ e) := by
  have hat : ¬ start.expression.startsWith "@" = true := by
    intro hat
    unfold Block.ends? at hends
    rw [if_pos hat] at hends
    cases hends
    exact hk rfl
  have hat' : ¬ (start.renamed φ u).expression.startsWith "@" = true := hat
  cases hrow : rowEnds? t start stop with
  | some ends =>
    obtain ⟨s', e'⟩ := ends
    rw [ends?_of_row hat hrow] at hends
    cases hends
    obtain ⟨hs, he, hne, hp⟩ := rowEnds?_eq_some.mp hrow
    obtain ⟨hus, hue, hs', he', hne', hp'⟩ := h.sibling_ancestors ht hu hstart hstop (by decide) hs he hne hp
    exact ⟨hus, hue, ends?_of_row hat' (rowEnds?_eq_some.mpr ⟨hs', he', hne', hp'⟩)⟩
  | none =>
    rw [ends?_of_not_row hat' (h.rowEnds?_eq_none ht hu hstart hstop hrow)]
    have hbound := bounded_of_ends? hends
    rw [ends?_of_not_row hat hrow] at hends
    cases hbound with
    | image => exact absurd rfl hk
    | row hs he hne hp =>
      rw [rowEnds?_eq_some.mpr ⟨hs, he, hne, hp⟩] at hrow
      cases hrow
    | paragraph hs he hne hp =>
      obtain ⟨hus, hue, hs', he', hne', hp'⟩ := h.sibling_ancestors ht hu hstart hstop (by decide) hs he hne hp
      exact ⟨hus, hue, paragraphEnds?_of_siblings hs' he' hne' hp'⟩
    | inline hs he =>
      obtain ⟨q, huq, hq⟩ := hpar rfl
      cases hs.symm.trans hq
      refine ⟨hlast, hstop, (paragraphEnds?_of_eq ((h.ancestor? ht hu hstart (by decide)).mpr ⟨_, rfl, huq, hs⟩)
        ((h.ancestor? ht hu hstop (by decide)).mpr ⟨_, rfl, huq, he⟩)).trans ?_⟩
      rw [Field.last_renamed]
      rfl

/-- Two fields below the row enclose what they enclosed, or something if they are about a picture. -/
theorem resolve? (hlast : t.Under ids start.last) {b : Block} (hb : Block.resolve? t start stop = some b)
    (hpar : b.kind = .inline → ∃ q, t.Under ids q ∧ start.ancestor? t Word.paragraph = some q) :
    ∃ b', Block.resolve? u (start.renamed φ u) (stop.renamed φ u) = some b' ∧
      (b.kind ≠ .image → b'.kind = b.kind ∧ b'.body = b.body.map φ ∧ ∀ n ∈ b.body, t.Under ids n) := by
  obtain ⟨hends, hbody, -, -⟩ := resolve?_eq_some.mp hb
  by_cases hk : b.kind = .image
  · have hat : (start.renamed φ u).expression.startsWith "@" = true := (ends_of_resolve? hb).1 ▸ (kind_eq_image_iff hb).mp hk
    obtain ⟨b', hb'⟩ := exists_resolve?_of_at u (stop.renamed φ u) hat
    exact ⟨b', hb', fun hne => absurd hk hne⟩
  · have hcut := hbody.resolve_right fun hno => hk hno.2.1
    obtain ⟨hus, hue, hends'⟩ := h.ends? ht hu hstart hstop hlast hends hk hpar
    obtain ⟨hcut', hin⟩ := h.between? ht hu hus hue hcut
    exact ⟨⟨b.kind, _, _, φ b.startNode, φ b.endNode, b.body.map φ⟩,
      resolve?_eq_some.mpr ⟨hends', Or.inl hcut', rfl, rfl⟩, fun _ => ⟨rfl, rfl, hin⟩⟩

end Tree.Rehoused

end MailMerge
