/-
  MailMerge.Proofs.Block.Resolve — what two boundary fields enclose, case by case.

  Row and paragraph blocks stand between two siblings that the boundary fields stand in;
  an inline block stands between the last anchor of the one and the first of the other; a
  picture block takes the paragraphs around them, or the anchors where there are none.
-/

import MailMerge.Block.Basic
import MailMerge.Proofs.Field.Anchors

namespace MailMerge

open MailMerge.Tree

namespace Block

/-- What a resolved block is made of. Only a picture's boundaries need not follow each other. -/
theorem resolve?_eq_some {t : Tree} {start stop : Field} {b : Block} :
    resolve? t start stop = some b ↔ ends? t start stop = some (b.kind, b.startNode, b.endNode) ∧
      (between? t b.startNode b.endNode = some b.body ∨
        between? t b.startNode b.endNode = none ∧ b.kind = .image ∧ b.body = []) ∧
      b.startField = start ∧ b.endField = stop := by
  unfold resolve?
  cases ends? t start stop with
  | none => simp
  | some found =>
    obtain ⟨kind, s, e⟩ := found
    simp only [Option.bind_eq_bind, Option.bind_some, Option.some.injEq, Prod.mk.injEq]
    constructor
    · intro h
      cases hb : between? t s e with
      | some body =>
        rw [hb] at h
        cases h
        exact ⟨⟨rfl, rfl, rfl⟩, Or.inl hb, rfl, rfl⟩
      | none =>
        rw [hb] at h
        by_cases hk : kind = .image
        · rw [if_pos hk] at h
          cases h
          exact ⟨⟨rfl, rfl, rfl⟩, Or.inr ⟨hb, hk, rfl⟩, rfl, rfl⟩
        · rw [if_neg hk] at h
          cases h
    · obtain ⟨kind', start', stop', s', e', body⟩ := b
      rintro ⟨⟨rfl, rfl, rfl⟩, hb | ⟨hb, rfl, rfl⟩, rfl, rfl⟩
      · simp only at hb ⊢
        rw [hb]
      · simp only at hb ⊢
        rw [hb]; rfl

theorem ends_of_resolve? {t : Tree} {start stop : Field} {b : Block} (h : resolve? t start stop = some b) :
    b.startField = start ∧ b.endField = stop := (resolve?_eq_some.mp h).2.2

theorem resolve?_self {t : Tree} {start stop : Field} {b : Block} (h : resolve? t start stop = some b) :
    resolve? t b.startField b.endField = some b := by
  obtain ⟨rfl, rfl⟩ := ends_of_resolve? h
  exact h

theorem areSiblings_iff {t : Tree} {a b : NodeId} : areSiblings t a b = true ↔ a ≠ b ∧ t.parent a = t.parent b := by
  simp [areSiblings]

/-- The boundary nodes of each kind of block. -/
inductive Bounded (t : Tree) (start stop : Field) : BlockKind → NodeId → NodeId → Prop
  | image : Bounded t start stop .image ((start.ancestor? t Word.paragraph).getD start.first)
      ((stop.ancestor? t Word.paragraph).getD stop.last)
  | row {s e : NodeId} : start.ancestor? t Word.tableRow = some s → stop.ancestor? t Word.tableRow = some e → s ≠ e →
      t.parent s = t.parent e → Bounded t start stop .row s e
  | paragraph {s e : NodeId} : start.ancestor? t Word.paragraph = some s → stop.ancestor? t Word.paragraph = some e →
      s ≠ e → t.parent s = t.parent e → Bounded t start stop .paragraph s e
  | inline {q : NodeId} : start.ancestor? t Word.paragraph = some q → stop.ancestor? t Word.paragraph = some q →
      Bounded t start stop .inline start.last stop.first

theorem bounded_of_ends? {t : Tree} {start stop : Field} {k : BlockKind} {s e : NodeId}
    (h : ends? t start stop = some (k, s, e)) : Bounded t start stop k s e := by
  unfold ends? at h
  split at h
  · cases h; exact .image
  · split at h
    · next s' e' hr =>
      cases h
      simp only [rowEnds?, Option.bind_eq_bind, Option.bind_eq_some_iff] at hr
      obtain ⟨s', hs, e', he, hr⟩ := hr
      split at hr
      · next hsib =>
        cases hr
        obtain ⟨hne, hp⟩ := areSiblings_iff.mp hsib
        exact .row hs he hne hp
      · cases hr
    · simp only [paragraphEnds?, Option.bind_eq_bind, Option.bind_eq_some_iff] at h
      obtain ⟨s', hs, e', he, h⟩ := h
      split at h
      · next hsib =>
        cases h
        obtain ⟨hne, hp⟩ := areSiblings_iff.mp hsib
        exact .paragraph hs he hne hp
      · split at h
        · next heq => cases h; exact .inline hs (heq ▸ he)
        · cases h

theorem bounded_of_resolve? {t : Tree} {start stop : Field} {b : Block} (h : resolve? t start stop = some b) :
    Bounded t start stop b.kind b.startNode b.endNode := bounded_of_ends? (resolve?_eq_some.mp h).1

/-- A block is one around a picture if the expression that starts it begins with `@`. -/
theorem kind_eq_image_iff {t : Tree} {start stop : Field} {b : Block} (hb : resolve? t start stop = some b) :
    b.kind = .image ↔ b.startField.expression.startsWith "@" = true := by
  obtain ⟨hends, -, rfl, rfl⟩ := resolve?_eq_some.mp hb
  unfold ends? at hends
  split at hends
  · next hat =>
    obtain ⟨hk, -⟩ := Prod.mk.inj (Option.some.inj hends)
    exact ⟨fun _ => hat, fun _ => hk.symm⟩
  · next hat =>
    refine ⟨fun hk => ?_, fun h => absurd h hat⟩
    have hbound := bounded_of_resolve? hb
    rw [hk] at hbound hends
    split at hends
    · cases hends
    · unfold paragraphEnds? at hends
      simp only [Option.bind_eq_bind, Option.bind_eq_some_iff] at hends
      obtain ⟨_, -, _, -, hends⟩ := hends
      split at hends
      · cases hends
      · split at hends <;> cases hends

theorem inline_nodes_of_resolve? {t : Tree} {start stop : Field} {b : Block} (h : resolve? t start stop = some b)
    (hk : b.kind = .inline) : b.startNode = start.last ∧ b.endNode = stop.first := by
  have hb := bounded_of_resolve? h
  rw [hk] at hb
  generalize b.startNode = s, b.endNode = e at hb ⊢
  cases hb with
  | inline => exact ⟨rfl, rfl⟩

/-- The siblings between two nodes are the later ones up to the second. -/
theorem between?_eq_some {t : Tree} (h : t.WellFormed) {s e : NodeId} {body : List NodeId} :
    between? t s e = some body ↔ (s = e ∧ body = []) ∨ ∃ post, t.laterElements s = body ++ e :: post := by
  unfold between?
  by_cases hse : s = e
  · subst hse
    rw [if_pos rfl]
    constructor
    · intro hb; exact Or.inl ⟨rfl, (Option.some.inj hb).symm⟩
    · rintro (⟨-, rfl⟩ | ⟨post, hl⟩)
      · rfl
      · exact absurd rfl (h.mem_laterElements (x := s) (y := s) (by rw [hl]; simp)).2.2.2
  · rw [if_neg hse]
    simp only [hse, false_and, false_or, List.contains_iff_mem]
    by_cases hmem : e ∈ t.laterElements s
    · obtain ⟨mid, hm⟩ := h.laterElements_of_mem hmem
      have hnd := h.nodup_laterElements s
      have hnot : e ∉ mid := by
        rw [hm] at hnd
        exact fun he => (List.nodup_append.mp hnd).2.2 e he e List.mem_cons_self rfl
      have hcut : (t.laterElements s).takeWhile (· != e) = mid := by rw [hm]; exact takeWhile_ne_eq hnot
      rw [if_pos hmem]
      constructor
      · intro hb
        rw [hcut] at hb
        cases hb
        exact ⟨_, hm⟩
      · rintro ⟨post, hl⟩
        rw [hcut, (cut_unique hnd hl hm).1]
    · rw [if_neg hmem]
      constructor
      · intro hb; cases hb
      · rintro ⟨post, hl⟩; exact absurd (by rw [hl]; simp) hmem

/-- A row or paragraph around a field contains its marker. -/
theorem within_marker_of_ancestor? {t : Tree} (h : t.WellFormed) {f : Field} (hf : f.Placed t) {name : String}
    {a : NodeId} (ha : f.ancestor? t name = some a) : t.Within a f.marker :=
  within_trans (h.findAncestor?_eq_some ha).2.1 hf.within_marker

/-- Of a block whose boundaries are no anchors of its own fields, the first boundary
    contains the marker of the first field. -/
theorem Bounded.within_startNode {t : Tree} (h : t.WellFormed) {start stop : Field} (hf : start.Placed t)
    {k : BlockKind} {s e : NodeId} (hb : Bounded t start stop k s e) (hk : k ≠ .inline) : t.Within s start.marker := by
  cases hb with
  | image =>
    cases ha : start.ancestor? t Word.paragraph with
    | none => exact hf.within_marker
    | some a => exact within_marker_of_ancestor? h hf ha
  | row hs => exact within_marker_of_ancestor? h hf hs
  | paragraph hs => exact within_marker_of_ancestor? h hf hs
  | inline => exact absurd rfl hk

/-- The marker of the last field stands in the last boundary or in front of it. -/
theorem Bounded.exists_endNode {t : Tree} (h : t.WellFormed) {start stop : Field} (hf : stop.Placed t)
    {k : BlockKind} {s e : NodeId} (hb : Bounded t start stop k s e) :
    ∃ n, t.Within n stop.marker ∧ (n = e ∨ e ∈ t.laterElements n) := by
  cases hb with
  | image =>
    cases ha : stop.ancestor? t Word.paragraph with
    | none =>
      refine ⟨stop.first, hf.within_marker, ?_⟩
      rcases List.mem_cons.mp stop.last_mem_anchors with he | hmem
      · exact Or.inl he.symm
      · exact Or.inr (hf.mem_others hmem)
    | some a => exact ⟨a, within_marker_of_ancestor? h hf ha, Or.inl rfl⟩
  | row _ he => exact ⟨_, within_marker_of_ancestor? h hf he, Or.inl rfl⟩
  | paragraph _ he => exact ⟨_, within_marker_of_ancestor? h hf he, Or.inl rfl⟩
  | inline => exact ⟨_, hf.within_marker, Or.inl rfl⟩

end Block

end MailMerge
