/-
  MailMerge.Proofs.Splice.Filled — a text in a run.

  The lines of a text go into the first text element of a run, wherever in the run it stands,
  or else into a new one at the run's end (`fill`). What stood in the run in front of that text
  element and behind it stays there (`Around`).

  Proved: the run has the lines where it had the text element (`fill_spec`). In the lines there
  is their text and no other (`textOf_of_twigs`), a break before each but the first
  (`countP_of_twigs`), and a line with a blank at an end has its space preserved
  (`spaces_of_twigs`).
-/

import MailMerge.Proofs.Splice.Lines
import MailMerge.Proofs.Tree.Exchange

namespace MailMerge

open MailMerge.Tree

namespace Splice

/-! ## What is made for a text -/

/-- What is made for a text are its lines, and the breaks between them. -/
theorem mem_textTwigs {as : List (String × String)} {lines : List (List Char)} {w : Twig} (hw : w ∈ textTwigs as lines) :
    w = .node (.element Word.lineBreak []) [] ∨ ∃ line, w = lineTwig as line := by
  cases lines with
  | nil => cases hw
  | cons line lines =>
    rcases List.mem_cons.mp hw with rfl | hw
    · exact Or.inr ⟨line, rfl⟩
    · obtain ⟨line', -, hw⟩ := List.mem_flatMap.mp hw
      simp only [List.mem_cons, List.not_mem_nil, or_false] at hw
      exact hw.imp_right fun hw => ⟨line', hw⟩

theorem kinds_lineTwig (as : List (String × String)) (line : List Char) :
    ∃ as', (lineTwig as line).kinds = [.element Word.text as', .text (String.ofList line)] := by
  refine ⟨if hasOuterBlank line then setAttribute.put Word.space Word.preserve as else as, ?_⟩
  simp [lineTwig, Twig.kinds, Twig.kindsIn]

theorem textTwigs_cons (as : List (String × String)) (line : List Char) (lines : List (List Char)) :
    textTwigs as (line :: lines) = lineTwig as line :: brokenTwigs as lines := rfl

theorem brokenTwigs_cons (as : List (String × String)) (line : List Char) (lines : List (List Char)) :
    brokenTwigs as (line :: lines) = .node (.element Word.lineBreak []) [] :: textTwigs as (line :: lines) := rfl

/-- The lines hold their text, and nothing else does. -/
theorem data_textTwigs (as : List (String × String)) (lines : List (List Char)) :
    String.join (((textTwigs as lines).flatMap Twig.kinds).map Kind.data) = String.ofList lines.flatten := by
  induction lines with
  | nil => rfl
  | cons line lines ih =>
    obtain ⟨as', hline⟩ := kinds_lineTwig as line
    rw [textTwigs_cons, List.flatMap_cons, hline, List.flatten_cons, String.ofList_append]
    cases lines with
    | nil => simp [brokenTwigs, Kind.data]
    | cons line' lines =>
      rw [brokenTwigs_cons, List.flatMap_cons, ← ih]
      simp [Twig.kinds, Twig.kindsIn, Kind.data]

/-- There is a break before each line but the first. -/
theorem countP_textTwigs (as : List (String × String)) (lines : List (List Char)) :
    ((textTwigs as lines).flatMap Twig.kinds).countP (Kind.isNamed Word.lineBreak) = lines.length - 1 := by
  induction lines with
  | nil => rfl
  | cons line lines ih =>
    obtain ⟨as', hline⟩ := kinds_lineTwig as line
    rw [textTwigs_cons, List.flatMap_cons, hline]
    cases lines with
    | nil => rfl
    | cons line' lines =>
      rw [brokenTwigs_cons, List.flatMap_cons, List.countP_append, List.countP_append, ih]
      simp [Twig.kinds, Twig.kindsIn, Kind.isNamed, Word.text, Word.lineBreak]
      omega

section lines

variable {u : Tree} (hu : u.WellFormed) {as : List (String × String)} {ids : List NodeId} {lines : List (List Char)}
  (hids : ids.map u.twig = textTwigs as lines)

include hu hids

theorem textOf_of_twigs : u.textOf (ids.flatMap u.subtree) = String.ofList lines.flatten := by
  rw [textOf_eq, hu.map_kind_subtrees, hids, data_textTwigs]

theorem countP_of_twigs : (ids.flatMap u.subtree).countP (u.isNamed Word.lineBreak) = lines.length - 1 := by
  rw [countP_isNamed, hu.map_kind_subtrees, hids, countP_textTwigs]

/-- Where a line stands with a blank at an end, its space is preserved. -/
theorem spaces_of_twigs {x : NodeId} (hx : x ∈ ids.flatMap u.subtree) {line : String} (hk : u.kind x = .text line) :
    ∃ w as', u.parent x = some w ∧ u.kind w = .element Word.text as' ∧
      (hasOuterBlank line.toList = true → as'.lookup Word.space = some Word.preserve) := by
  obtain ⟨w, hw, hxw⟩ := List.mem_flatMap.mp hx
  rw [hu.subtree_eq] at hxw
  rcases mem_textTwigs (hids ▸ List.mem_map_of_mem hw) with htwig | ⟨cs, htwig⟩
  · obtain ⟨hkw, hcw⟩ := hu.twig_node.mp htwig
    rw [List.map_eq_nil_iff.mp hcw, List.flatMap_nil, List.mem_singleton] at hxw
    rw [hxw, hkw] at hk
    cases hk
  · obtain ⟨hkw, hcw⟩ := hu.twig_node.mp htwig
    obtain ⟨z, hz, hztwig⟩ := List.map_eq_singleton_iff.mp hcw
    obtain ⟨hkz, hcz⟩ := hu.twig_node.mp hztwig
    rw [hz, List.flatMap_singleton, hu.subtree_eq, List.map_eq_nil_iff.mp hcz, List.flatMap_nil, List.mem_cons, List.mem_singleton] at hxw
    rcases hxw with rfl | rfl
    · rw [hkw] at hk
      cases hk
    · rw [hkz] at hk
      cases hk
      refine ⟨w, _, hu.parent_of_mem (by rw [hz]; exact List.mem_singleton_self x), hkw, fun hb => ?_⟩
      rw [String.toList_ofList] at hb
      rw [if_pos hb, lookup_put]

end lines

/-! ## A text in a run -/

/-- What of a run stays in front of a text that is put into it and behind it, and the attributes
    that the text is put in with. -/
inductive Around (t : Tree) (run : NodeId) : (front behind : List NodeId) → (as : List (String × String)) → Prop
  | text {text : NodeId} {front behind : List NodeId} {as : List (String × String)} :
      t.findDescendant? run Word.text = some text → t.kind text = .element Word.text as →
      t.subtree run = front ++ t.subtree text ++ behind → Around t run front behind as
  | nothing : t.findDescendant? run Word.text = none → Around t run (t.subtree run) [] []

theorem Around.mem_subtree {t : Tree} {run : NodeId} {front behind : List NodeId} {as : List (String × String)}
    (ha : Around t run front behind as) {x : NodeId} (hx : x ∈ front ∨ x ∈ behind) : x ∈ t.subtree run := by
  cases ha with
  | text _ _ hcut =>
    rw [hcut]
    simp only [List.mem_append]
    tauto
  | nothing => exact hx.resolve_right List.not_mem_nil

/-- Lines are put into a run. -/
def fill (lines : List (List Char)) (run : NodeId) (t : Tree) : Tree :=
  let (text, t) := match t.findDescendant? run Word.text with
    | some text => (text, t)
    | none => Target.addElement t run Word.text
  (addLines text t lines).detach text

/-- The run has the lines, with `front` before them and `behind` behind them. -/
structure Holds (u : Tree) (run : NodeId) (lines : List (List Char)) (front behind : List NodeId)
    (as : List (String × String)) (ids : List NodeId) : Prop where
  subtree : u.subtree run = front ++ ids.flatMap u.subtree ++ behind
  twigs : ids.map u.twig = textTwigs as lines

theorem Holds.later {P : NodeId → Prop} {u v : Tree} {run : NodeId} {lines : List (List Char)} {front behind ids : List NodeId}
    {as : List (String × String)} (hh : Holds u run lines front behind as ids) (hu : u.WellFormed) (hlt : run < u.size)
    (h : Relists P u v) (hP : ∀ d, u.Within run d → ¬ P d) : Holds v run lines front behind as ids := by
  have hids : ∀ x ∈ ids, u.Within run x := fun x hx => by
    rw [← hu.mem_subtree, hh.subtree]
    simp only [List.mem_append, List.mem_flatMap]
    exact Or.inl (Or.inr ⟨x, hx, List.mem_cons_self⟩)
  have hin : ∀ x ∈ ids, x < u.size ∧ ∀ d, u.Within x d → ¬ P d := fun x hx =>
    ⟨Relists.lt_size_of_within hlt (hids x hx), fun d hd => hP d (within_trans (hids x hx) hd)⟩
  refine ⟨?_, (h.twigs hu hin).trans hh.twigs⟩
  rw [h.subtree hu hlt hP, hh.subtree, List.flatMap_congr fun x hx => h.subtree hu (hin x hx).1 (hin x hx).2]

/-- The lines stand in the run in the place of its first text element, or else at its end. -/
theorem fill_spec {t : Tree} (h : t.WellFormed) {run : NodeId} (hrun : Hosts t run) (lines : List (List Char)) :
    ∃ front behind as ids, Around t run front behind as ∧ Relists (t.Within run) t (fill lines run t) ∧
      Holds (fill lines run t) run lines front behind as ids := by
  unfold fill
  cases hd : t.findDescendant? run Word.text with
  | some text =>
    simp only
    obtain ⟨hw, hne, hel, hname⟩ := h.findDescendant?_eq_some hd
    obtain ⟨q, hq, hrq⟩ := (within_iff.mp hw).resolve_left hne
    obtain ⟨before, after, hc⟩ := List.append_of_mem (h.mem_of_parent hq)
    obtain ⟨name, as, hkind⟩ := kind_of_isElement hel
    obtain rfl : name = Word.text := by
      rw [isNamed_of_kind hkind] at hname
      exact beq_iff_eq.mp hname
    obtain ⟨ids, hrel, hlist, htwigs⟩ := relists_lines h hc hkind lines
    have hc' : t.children q = before ++ [text] ++ after := by rw [hc]; simp
    have hother : ∀ x ∈ before ++ after, ∀ d, t.Within x d → d ≠ q := fun x hx d hd hdq =>
      h.not_within_of_parent (h.parent_of_mem (by rw [hc]; simp at hx ⊢; tauto)) (hdq ▸ hd)
    obtain ⟨front, behind, hfront, hbehind⟩ := hrel.exists_cut h hc' hlist (fun d hd => hd ▸ within_refl t d) hother hrq
    rw [List.flatMap_singleton] at hfront
    exact ⟨front, behind, as, ids, .text hd hkind hfront, hrel.mono fun x _ hx => hx ▸ hrq, hbehind, htwigs⟩
  | none =>
    simp only [Target.addElement, createElement, create_fst]
    have hgets := h.gets_last hrun (.element Word.text []) .none
    generalize (t.create (.element Word.text []) .none).2.appendChild run t.size = v at hgets ⊢
    obtain ⟨ids, hrest, hlist, htwigs⟩ := relists_lines hgets.relists.wellFormed hgets.children hgets.kind lines
    have hrel := hgets.relists.trans hrest
    have hold := hrel.subtrees h (t.children run) (fun x hx => hx) fun x hx d hd hdr =>
      h.not_within_of_parent (h.parent_of_mem hx) (hdr ▸ hd)
    refine ⟨t.subtree run, [], [], ids, .nothing hd, hrel.mono fun x _ hx => hx ▸ within_refl t x, ?_, htwigs⟩
    rw [hrel.wellFormed.subtree_eq, hlist, h.subtree_eq run, List.flatMap_append, List.flatMap_append, hold]
    simp

/-- A run without anything in it keeps nothing. -/
theorem Around.of_childless {t : Tree} {run : NodeId} {front behind : List NodeId} {as : List (String × String)}
    (ha : Around t run front behind as) (h : t.WellFormed) (hc : t.children run = []) : front = [run] ∧ behind = [] ∧ as = [] := by
  have hnone : t.descendants run = [] := by rw [h.descendants_eq, hc]; rfl
  cases ha with
  | text ht => simp [findDescendant?, hnone] at ht
  | nothing => exact ⟨by rw [Tree.subtree, hnone], rfl, rfl⟩

end Splice

end MailMerge
