/-
  MailMerge.Proofs.Block.Enclosed — when two fields enclose a block, and which.

  Two nodes of one child list lead one to the other (`Leads`). Around a picture a block may
  have any ends. Otherwise its ends are two rows of a table, the first of which leads to the
  second, and only where the fields are in no two rows of one table, two paragraphs, or two
  anchors in one paragraph.

  Proved: two fields of a scan, taken in either order, enclose a block just if ends fit, and
  the block has those ends and the elements between them; where none fit the failure names
  both expressions, and the ledger is as before (`attempt_resolves`).
-/

import MailMerge.Proofs.Block.Renamed
import MailMerge.Proofs.Block.Uses

namespace MailMerge

open MailMerge.Tree

namespace Tree

/-- `a` stands in front of `b` in one child list. -/
def Leads (t : Tree) (a b : NodeId) : Prop := ∃ p before mid after, t.children p = before ++ a :: (mid ++ b :: after)

/-- Two nodes above nodes of one scan that have no parent are one. -/
theorem eq_of_tops {t : Tree} {r m m' a b : NodeId} (hm : t.Within r m) (hm' : t.Within r m') (ha : t.Within a m) (hb : t.Within b m')
    (hpa : t.parent a = none) (hpb : t.parent b = none) : a = b := by
  have hover : ∀ {x m}, t.Within r m → t.Within x m → t.parent x = none → t.Within x r := by
    intro x m hrm hxm hx
    rcases within_total hxm hrm with hxr | hrx
    · exact hxr
    · rw [within_of_parent_none hx hrx]
      exact within_refl t x
  rcases within_total (hover hm ha hpa) (hover hm' hb hpb) with hab | hba
  · exact within_of_parent_none hpb hab
  · exact (within_of_parent_none hpa hba).symm

namespace WellFormed

variable {t : Tree} (h : t.WellFormed) {a b : NodeId}

include h

theorem siblings_of_leads (hab : t.Leads a b) : a ≠ b ∧ t.parent a = t.parent b := by
  obtain ⟨p, before, mid, after, hc⟩ := hab
  have hnd := h.distinct p
  rw [hc] at hnd
  refine ⟨fun he => ?_, ?_⟩
  · rw [he] at hnd
    exact (List.nodup_cons.mp (List.nodup_append.mp hnd).2.1).1 (by simp)
  · exact (h.parent_of_mem (by rw [hc]; simp)).trans (h.parent_of_mem (by rw [hc]; simp)).symm

theorem mem_laterElements_iff : b ∈ t.laterElements a ↔ t.Leads a b ∧ t.isElement b = true := by
  constructor
  · intro hb
    obtain ⟨-, hp, hel, -⟩ := h.mem_laterElements hb
    obtain ⟨p, hp⟩ := Option.ne_none_iff_exists'.mp hp
    obtain ⟨before, after, hc⟩ := List.append_of_mem (h.mem_of_parent hp)
    rw [h.laterElements_eq hc] at hb
    obtain ⟨mid, behind, rfl⟩ := List.append_of_mem (List.mem_filter.mp hb).1
    exact ⟨⟨p, before, mid, behind, hc⟩, hel⟩
  · rintro ⟨⟨p, before, mid, after, hc⟩, hel⟩
    rw [h.laterElements_eq hc]
    exact List.mem_filter.mpr ⟨by simp, hel⟩

end WellFormed

end Tree

namespace Block

variable {t : Tree} {start stop : Field} {s e : NodeId}

/-- The fields are in two rows of one table. -/
def InRows (t : Tree) (start stop : Field) : Prop := ∃ s e, start.ancestor? t Word.tableRow = some s ∧
  stop.ancestor? t Word.tableRow = some e ∧ (t.Leads s e ∨ t.Leads e s)

/-- The ends that a block of each kind may have. -/
inductive Fits (t : Tree) (start stop : Field) : BlockKind → NodeId → NodeId → Prop
  | image : start.expression.startsWith "@" = true → Fits t start stop .image
      ((start.ancestor? t Word.paragraph).getD start.first) ((stop.ancestor? t Word.paragraph).getD stop.last)
  | row {s e : NodeId} : ¬ start.expression.startsWith "@" = true → start.ancestor? t Word.tableRow = some s →
      stop.ancestor? t Word.tableRow = some e → t.Leads s e → Fits t start stop .row s e
  | paragraph {s e : NodeId} : ¬ start.expression.startsWith "@" = true → ¬ InRows t start stop →
      start.ancestor? t Word.paragraph = some s → stop.ancestor? t Word.paragraph = some e → t.Leads s e →
      Fits t start stop .paragraph s e
  | inline {q : NodeId} : ¬ start.expression.startsWith "@" = true → ¬ InRows t start stop →
      start.ancestor? t Word.paragraph = some q → stop.ancestor? t Word.paragraph = some q →
      start.last = stop.first ∨ t.Leads start.last stop.first → Fits t start stop .inline start.last stop.first

/-- What a block holds that two fields enclose. -/
structure Enclosed (t : Tree) (start stop : Field) (b : Block) : Prop where
  fields : b.startField = start ∧ b.endField = stop
  fits : Fits t start stop b.kind b.startNode b.endNode
  /-- The body are the elements between the ends. -/
  between : ∀ p before mid after, t.children p = before ++ b.startNode :: (mid ++ b.endNode :: after) →
    b.body = mid.filter t.isElement
  empty : ¬ t.Leads b.startNode b.endNode → b.body = []
  distinct : b.nodes.Nodup

/-! ## What is between two nodes -/

theorem between?_of_cut (h : t.WellFormed) {p : NodeId} {before mid after : List NodeId}
    (hc : t.children p = before ++ s :: (mid ++ e :: after)) (he : t.isElement e = true) :
    between? t s e = some (mid.filter t.isElement) := by
  refine (between?_eq_some h).mpr (.inr ⟨after.filter t.isElement, ?_⟩)
  rw [h.laterElements_eq hc, List.filter_append, List.filter_cons_of_pos he]

theorem exists_between? (h : t.WellFormed) (hl : s = e ∨ t.Leads s e) (he : t.isElement e = true) :
    ∃ body, between? t s e = some body := by
  obtain rfl | ⟨p, before, mid, after, hc⟩ := hl
  · exact ⟨[], (between?_eq_some h).mpr (.inl ⟨rfl, rfl⟩)⟩
  · exact ⟨_, between?_of_cut h hc he⟩

theorem leads_of_between? (h : t.WellFormed) {body : List NodeId} (hb : between? t s e = some body) :
    s = e ∧ body = [] ∨ t.Leads s e ∧ t.isElement e = true := by
  obtain hsame | ⟨post, hl⟩ := (between?_eq_some h).mp hb
  · exact .inl hsame
  · exact .inr (h.mem_laterElements_iff.mp (by rw [hl]; simp))

/-! ## The ends -/

theorem at_of_ends? (hends : ends? t start stop = some (.image, s, e)) : start.expression.startsWith "@" = true := by
  by_contra hat
  cases hrow : rowEnds? t start stop with
  | some found =>
    rw [ends?_of_row hat hrow] at hends
    cases hends
  | none =>
    rw [ends?_of_not_row hat hrow, paragraphEnds?] at hends
    simp only [Option.bind_eq_bind, Option.bind_eq_some_iff] at hends
    obtain ⟨s', -, e', -, hends⟩ := hends
    by_cases hsib : areSiblings t s' e' = true
    · rw [if_pos hsib] at hends
      cases hends
    by_cases hsame : s' = e'
    · rw [if_neg hsib, if_pos hsame] at hends
      cases hends
    · rw [if_neg hsib, if_neg hsame] at hends
      cases hends

section ends

variable (h : t.WellFormed) {r : NodeId} (hs : start ∈ t.fields r) (he : stop ∈ t.fields r)

include h hs he

/-- Two different ancestors of the fields that have one parent stand in its child list. -/
theorem leads_of_siblings {name : String} (hsa : start.ancestor? t name = some s) (hea : stop.ancestor? t name = some e)
    (hne : s ≠ e) (hp : t.parent s = t.parent e) : t.Leads s e ∨ t.Leads e s := by
  have hsm := within_marker_of_ancestor? h (placed_of_mem_fields hs) hsa
  have hem := within_marker_of_ancestor? h (placed_of_mem_fields he) hea
  have hparent : t.parent s ≠ none := by
    intro hnone
    have hrs := (h.mem_descendants.mp (mem_fields.mp hs).1).1
    have hre := (h.mem_descendants.mp (mem_fields.mp he).1).1
    exact hne (eq_of_tops hrs hre hsm hem hnone (hp ▸ hnone))
  have hels := isElement_of_isNamed (h.findAncestor?_eq_some hsa).1
  have hele := isElement_of_isNamed (h.findAncestor?_eq_some hea).1
  rcases h.laterElements_total hp hparent hne hels hele with hl | hl
  · exact .inl (h.mem_laterElements_iff.mp hl).1
  · exact .inr (h.mem_laterElements_iff.mp hl).1

theorem inRows_iff : InRows t start stop ↔ ∃ s e, rowEnds? t start stop = some (s, e) := by
  constructor
  · rintro ⟨s, e, hsa, hea, hl⟩
    have hsib : s ≠ e ∧ t.parent s = t.parent e := by
      rcases hl with hl | hl
      · exact h.siblings_of_leads hl
      · exact ⟨(h.siblings_of_leads hl).1.symm, (h.siblings_of_leads hl).2.symm⟩
    exact ⟨s, e, rowEnds?_eq_some.mpr ⟨hsa, hea, hsib⟩⟩
  · rintro ⟨s, e, hrow⟩
    obtain ⟨hsa, hea, hne, hp⟩ := rowEnds?_eq_some.mp hrow
    exact ⟨s, e, hsa, hea, leads_of_siblings h hs he hsa hea hne hp⟩

theorem rowEnds?_of_not_inRows (hr : ¬ InRows t start stop) : rowEnds? t start stop = none := by
  cases hrow : rowEnds? t start stop with
  | none => rfl
  | some found => exact absurd ((inRows_iff h hs he).mpr ⟨found.1, found.2, hrow⟩) hr

/-- Ends that fit are the ends that are tried. -/
theorem ends?_of_fits {k : BlockKind} (hf : Fits t start stop k s e) : ends? t start stop = some (k, s, e) := by
  cases hf with
  | image hat =>
    rw [ends?, if_pos hat]
    rfl
  | row hat hsa hea hl => exact ends?_of_row hat (rowEnds?_eq_some.mpr ⟨hsa, hea, h.siblings_of_leads hl⟩)
  | paragraph hat hr hsa hea hl =>
    obtain ⟨hne, hp⟩ := h.siblings_of_leads hl
    rw [ends?_of_not_row hat (rowEnds?_of_not_inRows h hs he hr)]
    exact paragraphEnds?_of_siblings hsa hea hne hp
  | inline hat hr hsa hea hl =>
    rw [ends?_of_not_row hat (rowEnds?_of_not_inRows h hs he hr)]
    exact paragraphEnds?_of_eq hsa hea

omit hs in
theorem isElement_anchor {a : NodeId} (ha : a ∈ stop.anchors) (hp : t.parent a ≠ none) : t.isElement a = true := by
  have hplaced := placed_of_mem_fields he
  rcases List.mem_cons.mp ha with rfl | hother
  · exact h.isElement_of_child_within hp hplaced.within_marker (isElement_marker he)
  · exact (h.mem_laterElements (hplaced.mem_others hother)).2.2.1

omit hs in
theorem isElement_end {k : BlockKind} (hf : Fits t start stop k s e) (hp : t.parent e ≠ none) : t.isElement e = true := by
  have hnamed : ∀ {name q}, stop.ancestor? t name = some q → t.isElement q = true :=
    fun hq => isElement_of_isNamed (h.findAncestor?_eq_some hq).1
  cases hf with
  | image =>
    cases hq : stop.ancestor? t Word.paragraph with
    | none =>
      rw [hq] at hp
      exact isElement_anchor h he stop.last_mem_anchors hp
    | some q => exact hnamed hq
  | row _ _ hea => exact hnamed hea
  | paragraph _ _ _ hea => exact hnamed hea
  | inline => exact isElement_anchor h he stop.first_mem_anchors hp

theorem exists_resolve?_of_fits {k : BlockKind} (hf : Fits t start stop k s e) : ∃ b, resolve? t start stop = some b := by
  have hends := ends?_of_fits h hs he hf
  have hbetween : k = .image ∨ (s = e ∨ t.Leads s e) ∧ t.parent e ≠ none := by
    have hbehind : t.Leads s e → t.parent e ≠ none := by
      rintro ⟨p, before, mid, after, hc⟩ hnone
      rw [h.parent_of_mem (by rw [hc]; simp : e ∈ t.children p)] at hnone
      cases hnone
    cases hf with
    | image => exact .inl rfl
    | row _ _ _ hl => exact .inr ⟨.inr hl, hbehind hl⟩
    | paragraph _ _ _ _ hl => exact .inr ⟨.inr hl, hbehind hl⟩
    | inline _ _ _ hea hl =>
      refine .inr ⟨hl, fun hnone => ?_⟩
      rw [Field.ancestor?, findAncestor?_of_parent_none hnone] at hea
      cases hea
  cases hb : between? t s e with
  | some body => exact ⟨⟨k, start, stop, s, e, body⟩, resolve?_eq_some.mpr ⟨hends, .inl hb, rfl, rfl⟩⟩
  | none =>
    rcases hbetween with hk | ⟨hl, hp⟩
    · exact ⟨⟨k, start, stop, s, e, []⟩, resolve?_eq_some.mpr ⟨hends, .inr ⟨hb, hk, rfl⟩, rfl, rfl⟩⟩
    · obtain ⟨body, hbody⟩ := exists_between? h hl (isElement_end h he hf hp)
      rw [hb] at hbody
      cases hbody

/-- The ends that are tried fit if something is between them. -/
theorem fits_of_ends? {k : BlockKind} (hends : ends? t start stop = some (k, s, e))
    (hl : k = .image ∨ s = e ∨ t.Leads s e) : Fits t start stop k s e := by
  by_cases hat : start.expression.startsWith "@" = true
  · rw [ends?, if_pos hat] at hends
    cases hends
    exact .image hat
  by_cases hr : InRows t start stop
  · obtain ⟨s', e', hrow⟩ := (inRows_iff h hs he).mp hr
    rw [ends?_of_row hat hrow] at hends
    cases hends
    obtain ⟨hsa, hea, hne, -⟩ := rowEnds?_eq_some.mp hrow
    rcases hl with hk | hse | hl
    · cases hk
    · exact absurd hse hne
    · exact .row hat hsa hea hl
  · cases bounded_of_ends? hends with
    | image => exact absurd (at_of_ends? hends) hat
    | row hsa hea hne hp => exact absurd ⟨s, e, hsa, hea, leads_of_siblings h hs he hsa hea hne hp⟩ hr
    | paragraph hsa hea hne hp =>
      rcases hl with hk | hse | hl
      · cases hk
      · exact absurd hse hne
      · exact .paragraph hat hr hsa hea hl
    | inline hsa hea =>
      rcases hl with hk | hl
      · cases hk
      · exact .inline hat hr hsa hea hl

end ends

/-! ## The block -/

theorem fits_of_resolve? (h : t.WellFormed) {r : NodeId} (hs : start ∈ t.fields r) (he : stop ∈ t.fields r) {b : Block}
    (hb : resolve? t start stop = some b) : Fits t start stop b.kind b.startNode b.endNode := by
  obtain ⟨hends, hbody, -⟩ := resolve?_eq_some.mp hb
  refine fits_of_ends? h hs he hends ?_
  rcases hbody with hsome | ⟨-, hk, -⟩
  · exact .inr ((leads_of_between? h hsome).imp And.left And.left)
  · exact .inl hk

/-- The ends of a block, and what is between them, stand in one child list. -/
theorem nodup_nodes (h : t.WellFormed) {b : Block} (hbetween : ∀ p before mid after,
      t.children p = before ++ b.startNode :: (mid ++ b.endNode :: after) → b.body = mid.filter t.isElement)
    (hempty : ¬ t.Leads b.startNode b.endNode → b.body = []) : b.nodes.Nodup := by
  by_cases hl : t.Leads b.startNode b.endNode
  · obtain ⟨p, before, mid, after, hc⟩ := hl
    have hnd := h.distinct p
    have hrow : before ++ b.startNode :: (mid ++ b.endNode :: after) = before ++ ((b.startNode :: mid ++ [b.endNode]) ++ after) := by
      simp
    rw [hc, hrow] at hnd
    have hpiece : (b.startNode :: mid ++ [b.endNode]).Nodup := (List.nodup_append.mp (List.nodup_append.mp hnd).2.1).1
    refine hpiece.sublist ?_
    rw [nodes, hbetween p before mid after hc]
    refine (List.filter_sublist.cons_cons b.startNode).append ?_
    split_ifs
    · exact List.nil_sublist _
    · exact List.Sublist.refl _
  · rw [nodes, hempty hl]
    split_ifs with hsame
    · exact List.nodup_singleton _
    · simpa using Ne.symm hsame

theorem enclosed_of_resolve? (h : t.WellFormed) {r : NodeId} (hs : start ∈ t.fields r) (he : stop ∈ t.fields r) {b : Block}
    (hb : resolve? t start stop = some b) : Enclosed t start stop b := by
  have hfits := fits_of_resolve? h hs he hb
  obtain ⟨-, hbody, hfields⟩ := resolve?_eq_some.mp hb
  have hbetween : ∀ p before mid after, t.children p = before ++ b.startNode :: (mid ++ b.endNode :: after) →
      b.body = mid.filter t.isElement := by
    intro p before mid after hc
    have hparent : t.parent b.endNode = some p := h.parent_of_mem (by rw [hc]; simp)
    have hel := isElement_end h he hfits (by rw [hparent]; exact Option.some_ne_none p)
    have hcut := between?_of_cut h hc hel
    rcases hbody with hsome | ⟨hnone, -, -⟩
    · exact Option.some.inj (hsome.symm.trans hcut)
    · rw [hnone] at hcut
      cases hcut
  have hempty : ¬ t.Leads b.startNode b.endNode → b.body = [] := by
    intro hl
    rcases hbody with hsome | ⟨-, -, hnil⟩
    · rcases leads_of_between? h hsome with ⟨-, hnil⟩ | ⟨hleads, -⟩
      · exact hnil
      · exact absurd hleads hl
    · exact hnil
  exact ⟨hfields, hfits, hbetween, hempty, nodup_nodes h hbetween hempty⟩

/-- What a ledger counts and pins when a block is entered. -/
structure Entered (t : Tree) (nested : Bool) (l : Ledger) (b : Block) (l' : Ledger) : Prop where
  fields : ∀ f, l'.fieldCount f = l.fieldCount f + b.marks.count f.marker
  nodes : ∀ x, l'.nodeCount x = l.nodeCount x + if nested then 0 else b.ownNodes.count x
  pins : ∀ x, l'.isPinned x = true ↔ l.isPinned x = true ∨ nested = false ∧ b.hasOwnBoundaries = false ∧
    (b.startField.ancestor? t Word.paragraph = some x ∨ b.endField.ancestor? t Word.paragraph = some x)

theorem isPinned_pinParagraph (l : Ledger) (f : Field) (x : NodeId) : (Ledger.pinParagraph t l f).isPinned x = true ↔
    l.isPinned x = true ∨ f.ancestor? t Word.paragraph = some x := by
  rw [Ledger.pinParagraph]
  cases hq : f.ancestor? t Word.paragraph with
  | none => simp
  | some q =>
    show (q :: l.pinned).contains x = true ↔ l.pinned.contains x = true ∨ some q = some x
    simp only [List.contains_iff_mem, List.mem_cons, Option.some.injEq]
    constructor
    · rintro (rfl | hm)
      · exact .inr rfl
      · exact .inl hm
    · rintro (hm | rfl)
      · exact .inr hm
      · exact .inl rfl

theorem entered (t : Tree) (nested : Bool) (l : Ledger) (b : Block) : Entered t nested l b (l.enter t nested b) where
  fields f := Ledger.count_fields_enter t nested l b f.marker
  nodes x := by
    cases nested with
    | true => rfl
    | false => exact Ledger.nodeCount_hold (l.refer b) t b x
  pins x := by
    cases nested with
    | true =>
      show l.isPinned x = true ↔ _
      simp
    | false =>
      show ((l.refer b).hold t b).isPinned x = true ↔ _
      rw [Ledger.hold]
      cases hown : b.hasOwnBoundaries with
      | true =>
        rw [if_pos rfl]
        show l.isPinned x = true ↔ _
        simp
      | false =>
        rw [if_neg Bool.false_ne_true, isPinned_pinParagraph, isPinned_pinParagraph]
        show (l.isPinned x = true ∨ _) ∨ _ ↔ _
        simp only [true_and, or_assoc]

/-- Enclosing as a step on a ledger; a step that fails leaves the ledger behind that it was given. -/
def attempt (t : Tree) (nested : Bool) (l : Ledger) (start stop : Field) : Except TemplateFault Block × Ledger :=
  match enclose t nested l start stop with
  | .ok (b, l') => (.ok b, l')
  | .error fault => (.error fault, l)

/-- Two fields of a scan enclose a block just if there are ends that fit, of the first kind
    that can be; and then the block and its uses are entered as a whole, or nothing is. -/
theorem attempt_resolves (h : t.WellFormed) {r : NodeId} (hs : start ∈ t.fields r) (he : stop ∈ t.fields r) (nested : Bool)
    (l : Ledger) : (∃ b l', attempt t nested l start stop = (.ok b, l') ∧ Enclosed t start stop b ∧ Entered t nested l b l') ∨
      (∀ k s e, ¬ Fits t start stop k s e) ∧
        attempt t nested l start stop = (.error (.unresolvable start.expression stop.expression), l) := by
  cases hb : resolve? t start stop with
  | some b =>
    refine .inl ⟨b, l.enter t nested b, ?_, enclosed_of_resolve? h hs he hb, entered t nested l b⟩
    rw [attempt, enclose, hb]
    rfl
  | none =>
    refine .inr ⟨fun k s e hf => ?_, by rw [attempt, enclose, hb]⟩
    obtain ⟨b, hsome⟩ := exists_resolve?_of_fits h hs he hf
    rw [hb] at hsome
    cases hsome

namespace Paragraphs

/-- Two boundary fields in paragraphs of their own, and between them a paragraph and a comment. -/
def tree : Tree := ⟨#[⟨.container, none, [1], .none⟩, ⟨.element "w:body" [], some root, [2, 4, 5, 6], .none⟩,
  ⟨.element Word.paragraph [], some 1, [3], .none⟩,
  ⟨.element Word.simpleField [(Word.fieldInstruction, "MERGEFIELD a:if")], some 2, [], .none⟩,
  ⟨.element Word.paragraph [], some 1, [], .none⟩, ⟨.comment "", some 1, [], .none⟩,
  ⟨.element Word.paragraph [], some 1, [7], .none⟩,
  ⟨.element Word.simpleField [(Word.fieldInstruction, "MERGEFIELD a:endIf")], some 6, [], .none⟩]⟩

def opening : Field := ⟨3, "a:if", 3, [], .simple, true, .none⟩

def closing : Field := ⟨7, "a:endIf", 7, [], .simple, true, .none⟩

theorem fields_tree : tree.fields root = [opening, closing] := by decide +kernel

end Paragraphs

open Paragraphs in
/-- The paragraphs enclose the one between them; taken in the other order they enclose nothing. -/
theorem paragraph_enclosed : (∃ b l', attempt tree false .empty opening closing = (.ok b, l') ∧
      Enclosed tree opening closing b ∧ b.body = [4] ∧ Entered tree false .empty b l') ∧
    attempt tree false .empty closing opening = (.error (.unresolvable "a:endIf" "a:if"), .empty) := by
  have h : tree.WellFormed := wellFormed_of_earlier (by decide) (by decide) (by decide)
  have hopening : opening ∈ tree.fields root := by rw [fields_tree]; simp
  have hclosing : closing ∈ tree.fields root := by rw [fields_tree]; simp
  have hkind : attempt tree false .empty opening closing = (.ok ⟨.paragraph, opening, closing, 2, 6, [4]⟩, ⟨[7, 3], [6, 2], []⟩) := by
    decide +kernel
  refine ⟨?_, by decide +kernel⟩
  obtain ⟨b, l', hb, henclosed, hentered⟩ | ⟨-, herror⟩ := attempt_resolves h hopening hclosing false .empty
  · rw [hb] at hkind
    cases hkind
    exact ⟨_, _, hb, henclosed, rfl, hentered⟩
  · rw [herror] at hkind
    cases hkind

end Block

end MailMerge
