/-
  MailMerge.Proofs.Markup.Layout — spans are places in the source.

  A tree that is read has been composed from the pieces of its text. So the span of a node cuts
  its own piece out of the text, or its tags with what is between them; neighbours touch; and
  the slice of an element can be read alone. A byte order mark is no part of what is counted:
  spans are positions behind it, so a line that is looked up in the whole text is found too
  early by the width of the mark.

  Proved: the layout of every text that can be read (`layout_of_ofText`), with the lines on
  which its fields begin if no mark stands in front; the list of fields is then complete
  (`listFields_done`). What happens behind a mark is `line_low_behind_mark`.
-/

import Mathlib
import MailMerge.Command.Parts
import MailMerge.Proofs.Markup.Laid

namespace MailMerge

open MailMerge.Markup MailMerge.Text MailMerge.Tree

/-! ## Offsets and lines -/

namespace Text

theorem cutBefore?_append (before after : List Char) : cutBefore? (utf8Length before) (before ++ after) = some before := by
  induction before with
  | nil => cases after <;> rfl
  | cons c before ih =>
    have hpos := c.utf8Size_pos
    obtain ⟨n, hn⟩ : ∃ n, c.utf8Size + utf8Length before = n + 1 := ⟨c.utf8Size + utf8Length before - 1, by omega⟩
    have hrest : n + 1 - c.utf8Size = utf8Length before := by omega
    rw [utf8Length_cons, hn, List.cons_append, cutBefore?, if_neg (by omega), hrest, ih]
    rfl

theorem lineAt?_append (before after : List Char) :
    lineAt? (utf8Length before) (before ++ after) = some (before.count '\n' + 1) := by
  rw [lineAt?, cutBefore?_append]
  rfl

end Text

/-- The span cuts this slice out of the text, between characters. -/
def Span.Cuts (s : Span) (cs slice : List Char) : Prop :=
  ∃ before after, cs = before ++ slice ++ after ∧ utf8Length before = s.start ∧ utf8Length before + utf8Length slice = s.stop

theorem Span.Cuts.line {s : Span} {cs slice : List Char} (h : s.Cuts cs slice) :
    ∃ before after, cs = before ++ after ∧ utf8Length before = s.start ∧ lineAt? s.start cs = some (before.count '\n' + 1) := by
  obtain ⟨before, after, rfl, hstart, -⟩ := h
  refine ⟨before, slice ++ after, List.append_assoc .., hstart, ?_⟩
  rw [← hstart, List.append_assoc, lineAt?_append]

/-! ## Trees of texts -/

namespace Tree

/-- The spans of the nodes follow each other from byte `a` to byte `b`. -/
def Tiles (t : Tree) : (a : Nat) → List NodeId → (b : Nat) → Prop
  | a, [], b => a = b
  | a, x :: xs, b => (t.span x).start = a ∧ t.Tiles (t.span x).stop xs b

end Tree

theorem Markup.Laid.tiles {t : Tree} {first a b : Nat} {xs : List NodeId} {ps : List Markup.Piece} (h : Markup.Laid t first a xs ps b) :
    t.Tiles a xs b := by
  induction h with
  | nil => rfl
  | leaf _ _ _ _ hspan _ ih =>
    rw [Tiles, hspan]
    exact ⟨rfl, ih⟩
  | element _ _ _ hspan _ _ _ ih =>
    rw [Tiles, hspan]
    exact ⟨rfl, ih⟩

namespace Tree

/-- An element in one tag, or between two tags with its children one behind the other. -/
def Tagged (t : Tree) (x : NodeId) (slice : List Char) : Prop :=
  (∃ content, slice = (Markup.Piece.closed content).source ∧ readElement content = .ok (t.kind x) ∧ t.children x = []) ∨
    ∃ start inner stop, slice = (Markup.Piece.opening start).source ++ inner ++ (Markup.Piece.closing stop).source ∧
      readElement start = .ok (t.kind x) ∧ t.name? x = some (closingName stop) ∧
      t.Tiles ((t.span x).start + utf8Length (Markup.Piece.opening start).source) (t.children x)
        ((t.span x).start + utf8Length ((Markup.Piece.opening start).source ++ inner))

/-- The slice is a text of its own, with one node at the top that looks like `x`. -/
def ReadsAs (t : Tree) (x : NodeId) (slice : List Char) : Prop :=
  ∀ source, ∃ u y, ofText (String.ofList slice) source = .ok u ∧ u.children root = [y] ∧ u.twig y = t.twig x

/-- The spans of the nodes are the places in the text where they are written. -/
structure Layout (t : Tree) (cs : List Char) : Prop where
  node : ∀ x, x < t.size → x ≠ root → ∃ slice, (t.span x).Cuts cs slice
  top : t.Tiles 0 (t.children root) (utf8Length cs)
  element : ∀ x, t.isElement x = true → ∃ slice, (t.span x).Cuts cs slice ∧ t.Tagged x slice ∧ t.ReadsAs x slice

/-- What has been read of a text: a balanced row of pieces that make up the text, and below the
    container the nodes that they lay out. -/
structure Composed (t : Tree) (ps : List Markup.Piece) : Prop where
  reading : Reading [] t
  proper : ∀ p ∈ ps, p.Proper
  apart : ps.IsChain Markup.Piece.Apart
  span : t.span root = .none
  below : ∀ x, x < t.size → t.Within root x
  laid : Markup.Laid t 1 0 (t.children root) ps (extent ps)

theorem composed_of_ofText {text : String} {source : Nat} {t : Tree} (h : ofText text source = .ok t) :
    ∃ ps, sources ps = unmarked text.toList ∧ t.Composed ps := by
  have hrun := addPieces_of_ofText h
  have hreading := reading_of_ofText h
  have hall : (pieces text.toList).2 = none := by
    unfold ofText readInto at h
    generalize pieces text.toList = found at h hrun ⊢
    obtain ⟨ps, broken⟩ := found
    simp only at h hrun ⊢
    rw [hrun] at h
    cases broken with
    | none => rfl
    | some b => cases h
  obtain ⟨hproper, hapart⟩ := proper_of_pieces text.toList
  have hbalanced := closing_of_addPieces hrun
  rw [pieces_eq] at hrun hall hproper hapart hbalanced
  refine ⟨(piecesFrom 0 (unmarked text.toList)).1.map (·.piece), sources_piecesFrom hall, ?_⟩
  rw [← List.append_nil (piecesFrom 0 (unmarked text.toList)).1] at hrun
  obtain ⟨u, hu, hgains⟩ := gains_balanced hbalanced wellFormed_empty ⟨by decide, Or.inl rfl⟩ rfl (measured_piecesFrom 0 _) hrun
  cases hu
  refine ⟨hreading, fun p hp => ?_, hapart, ?_, fun x hx => ?_, ?_⟩
  · obtain ⟨q, hq, rfl⟩ := List.mem_map.mp hp
    exact hproper q hq
  · exact hgains.span root (by decide)
  · by_cases hroot : x = root
    · exact hroot ▸ within_refl t x
    · exact hgains.below x (Nat.one_le_iff_ne_zero.mpr hroot) hx
  · obtain ⟨new, hnew, hlaid⟩ := hgains.laid
    have hchildren : t.children root = new := hnew
    rw [Nat.zero_add] at hlaid
    exact hchildren ▸ hlaid

theorem cuts_of_laid {t : Tree} {ps before mid after : List Markup.Piece} (hps : ps = before ++ mid ++ after) {x : NodeId}
    (hx : Markup.Laid t 1 (extent before) [x] mid (extent before + extent mid)) : (t.span x).Cuts (sources ps) (sources mid) := by
  refine ⟨sources before, sources after, ?_, ?_, ?_⟩
  · rw [hps, sources_append, sources_append]
  · rw [hx.singleton.1]
    rfl
  · rw [hx.singleton.1]
    rfl

theorem tagged_of_laid {t : Tree} {before mid : List Markup.Piece} {x : NodeId} (hx : Markup.Laid t 1 (extent before) [x] mid (extent before + extent mid))
    (helement : t.isElement x = true) : t.Tagged x (sources mid) := by
  obtain ⟨hspan, hcases⟩ := hx.singleton
  rcases hcases with ⟨p, rfl, hread, hnone⟩ | ⟨start, inner, stop, rfl, hread, hname, hinner⟩
  · obtain ⟨content, rfl, hcontent⟩ := closed_of_readLeaf hread helement
    exact Or.inl ⟨content, sources_singleton _, hcontent, hnone⟩
  · refine Or.inr ⟨start, sources inner, stop, ?_, hread, hname, ?_⟩
    · rw [List.cons_append, sources_cons, sources_append, sources_singleton, List.append_assoc]
    · rw [hspan, utf8Length_append, ← Nat.add_assoc]
      exact hinner.tiles

namespace Composed

variable {t : Tree} {ps : List Markup.Piece} (h : t.Composed ps)

include h

/-- Every node lies somewhere in the text. -/
theorem laid_node {x : NodeId} (hx : x < t.size) (hne : x ≠ root) : ∃ before mid after, ps = before ++ mid ++ after ∧
    Markup.Laid t 1 (extent before) [x] mid (extent before + extent mid) := by
  have hdown : ∀ x, t.Within root x → x ≠ root → ∃ before mid after, ps = before ++ mid ++ after ∧
      Markup.Laid t 1 (extent before) [x] mid (extent before + extent mid) := by
    intro x hx
    induction hx with
    | refl => exact fun hne => absurd rfl hne
    | @tail p x _ hp ih =>
      intro _
      have hmem := h.reading.wellFormed.mem_of_parent hp
      by_cases hroot : p = root
      · have hmem' : x ∈ t.children root := hroot ▸ hmem
        obtain ⟨before, mid, after, hps, hlaid⟩ := h.laid.of_mem hmem'
        rw [Nat.zero_add] at hlaid
        exact ⟨before, mid, after, hps, hlaid⟩
      · -- inside its parent, between the tags
        obtain ⟨before, mid, after, hps, hlaid⟩ := ih hroot
        rcases hlaid.singleton.2 with ⟨p, -, -, hnone⟩ | ⟨start, inner, stop, hmid, -, -, hinner⟩
        · rw [hnone] at hmem
          exact absurd hmem List.not_mem_nil
        · obtain ⟨before', mid', after', rfl, hlaid'⟩ := hinner.of_mem hmem
          refine ⟨before ++ .opening start :: before', mid', after' ++ .closing stop :: after, ?_, ?_⟩
          · rw [hps, hmid]
            simp
          · rwa [extent_append, extent_cons, ← Nat.add_assoc]
  exact hdown x (h.below x hx) hne

theorem readsAs {before mid after : List Markup.Piece} (hps : ps = before ++ mid ++ after) {x : NodeId}
    (hx : Markup.Laid t 1 (extent before) [x] mid (extent before + extent mid)) (helement : t.isElement x = true) :
    t.ReadsAs x (sources mid) := by
  intro source
  have hin : mid <:+: ps := ⟨before, after, hps.symm⟩
  have happart := List.IsChain.infix h.apart hin
  have hmark : ∀ {p : Markup.Piece} {rest : List Markup.Piece}, p.isData = false → (sources (p :: rest)).head? ≠ some byteOrderMark := by
    intro p rest hp
    rw [sources_cons, List.head?_append, Markup.Piece.head?_source hp, Option.some_or]
    decide
  have hhead : (sources mid).head? ≠ some byteOrderMark := by
    rcases hx.singleton.2 with ⟨p, rfl, hread, -⟩ | ⟨start, inner, stop, rfl, -, -, -⟩
    · obtain ⟨content, rfl, -⟩ := closed_of_readLeaf hread helement
      exact hmark rfl
    · exact hmark rfl
  obtain ⟨u, hu, hw, htwig⟩ := ofText_of_grows (fun p hp => h.proper p (hin.subset hp)) happart
    (hx.grows h.reading.wellFormed) hhead source
  rw [hw.twig_eq, List.map_singleton, Twig.node.injEq] at htwig
  obtain ⟨y, hy, htwig⟩ := List.map_eq_singleton_iff.mp htwig.2
  exact ⟨u, y, hu, hy, htwig⟩

theorem layout : t.Layout (sources ps) where
  node x hx hne := by
    obtain ⟨before, mid, after, hps, hlaid⟩ := h.laid_node hx hne
    exact ⟨sources mid, cuts_of_laid hps hlaid⟩
  top := h.laid.tiles
  element x helement := by
    have hne : x ≠ root := by
      rintro rfl
      rw [isElement, name?, h.reading.container] at helement
      cases helement
    obtain ⟨before, mid, after, hps, hlaid⟩ := h.laid_node (lt_size_of_isElement helement) hne
    exact ⟨sources mid, cuts_of_laid hps hlaid, tagged_of_laid hlaid helement, h.readsAs hps hlaid helement⟩

/-- The first anchor of a field begins between two characters. -/
theorem line_of_mem_fields {id : NodeId} {f : Field} (hf : f ∈ t.fields id) : ∃ before after, sources ps = before ++ after ∧
    utf8Length before = (t.span f.first).start ∧ lineAt? f.span.start (sources ps) = some (before.count '\n' + 1) := by
  have hstart : f.span.start = (t.span f.first).start := by
    rw [Field.span_of_ofMarker? (mem_fields.mp hf).2.1]
    rfl
  rw [hstart]
  by_cases hroot : f.first = root
  · rw [hroot, h.span]
    refine ⟨[], sources ps, rfl, rfl, ?_⟩
    exact lineAt?_append [] _
  · have hlt : f.first < t.size := by
      rcases (placed_of_mem_fields hf).marked with hm | hm
      · exact hm ▸ lt_size_of_isElement (isElement_marker hf)
      · exact h.reading.wellFormed.parent_lt_size hm
    obtain ⟨slice, hcuts⟩ := h.layout.node f.first hlt hroot
    exact hcuts.line

end Composed

/-- Every text that can be read is cut up by the spans of its nodes, and an element reads the
    same alone. Without a byte order mark in front, a field is listed with the line on which its
    first anchor begins. -/
theorem layout_of_ofText {text : String} {source : Nat} {t : Tree} (h : ofText text source = .ok t) :
    t.Layout (unmarked text.toList) ∧ (text.toList.head? ≠ some byteOrderMark → ∀ f ∈ t.fields root, ∃ before after,
      text.toList = before ++ after ∧ utf8Length before = (t.span f.first).start ∧
      lineAt? f.span.start text.toList = some (before.count '\n' + 1)) := by
  obtain ⟨ps, hps, hcomposed⟩ := composed_of_ofText h
  refine ⟨hps ▸ hcomposed.layout, fun hmark f hf => ?_⟩
  rw [← unmarked_of_head? hmark, ← hps]
  exact hcomposed.line_of_mem_fields hf

/-- The element `a` around a text of two lines and a field on the second. -/
def linedText : String := "<a>é\n<w:fldSimple w:instr=\"MERGEFIELD =a\"/></a>"

def linedTree : Tree :=
  ⟨#[⟨.container, none, [1], .none⟩, ⟨.element "a" [], some 0, [2, 3], ⟨0, 48⟩⟩, ⟨.text "é\n", some 1, [], ⟨3, 6⟩⟩,
    ⟨.element "w:fldSimple" [("w:instr", "MERGEFIELD =a")], some 1, [], ⟨6, 44⟩⟩]⟩

theorem linedText_laid_out : ofText linedText 0 = .ok linedTree ∧ linedText.toList.head? ≠ some byteOrderMark ∧
    linedTree.Layout (unmarked linedText.toList) ∧ ∀ f ∈ linedTree.fields root, ∃ before after,
      linedText.toList = before ++ after ∧ utf8Length before = (linedTree.span f.first).start ∧
      lineAt? f.span.start linedText.toList = some (before.count '\n' + 1) := by
  have hread : ofText linedText 0 = .ok linedTree := by cbv
  have hmark : linedText.toList.head? ≠ some byteOrderMark := by decide
  obtain ⟨hlayout, hlines⟩ := layout_of_ofText hread
  exact ⟨hread, hmark, hlayout, hlines hmark⟩

/-- A mark, three empty lines and a field on the fourth. -/
def markedText : String := "\uFEFF\n\n\n<w:fldSimple w:instr=\"MERGEFIELD =a\"/>"

def markedTree : Tree :=
  ⟨#[⟨.container, none, [1, 2], .none⟩, ⟨.text "\n\n\n", some 0, [], ⟨0, 3⟩⟩,
    ⟨.element "w:fldSimple" [("w:instr", "MERGEFIELD =a")], some 0, [], ⟨3, 41⟩⟩]⟩

/-- Behind a mark no span reaches the end of the text, and the field is listed on the first line. -/
theorem line_low_behind_mark : ofText markedText 0 = .ok markedTree ∧
    (∀ a, ¬ markedTree.Tiles a (markedTree.children root) (utf8Length markedText.toList)) ∧
    markedText.toList = byteOrderMark :: "\n\n\n".toList ++ "<w:fldSimple w:instr=\"MERGEFIELD =a\"/>".toList ∧
    ∃ f ∈ markedTree.fields root, f.first = 2 ∧ lineAt? f.span.start markedText.toList = some 1 := by
  have hread : ofText markedText 0 = .ok markedTree := by cbv
  refine ⟨hread, fun a htiles => ?_, by decide, ?_⟩
  · have hstop : (markedTree.span 2).stop = utf8Length markedText.toList := htiles.2.2
    exact absurd hstop (by decide)
  · have hfields : (markedTree.fields root).map (fun f => (f.first, lineAt? f.span.start markedText.toList)) = [(2, some 1)] := by cbv
    obtain ⟨f, hf, he⟩ := List.map_eq_singleton_iff.mp hfields
    obtain ⟨hfirst, hline⟩ := Prod.mk.inj he
    exact ⟨f, by rw [hf]; exact List.mem_singleton_self f, hfirst, hline⟩

end Tree

/-! ## The list of fields -/

namespace Command

theorem mapM_isSome {α β : Type} {g : α → Option β} {as : List α} (h : ∀ a ∈ as, (g a).isSome = true) :
    ∃ bs, as.mapM g = some bs ∧ bs.length = as.length := by
  induction as with
  | nil => exact ⟨[], rfl, rfl⟩
  | cons a as ih =>
    obtain ⟨b, hb⟩ := Option.isSome_iff_exists.mp (h a List.mem_cons_self)
    obtain ⟨bs, hbs, hlength⟩ := ih fun a' ha' => h a' (List.mem_cons_of_mem a ha')
    refine ⟨b :: bs, ?_, by rw [List.length_cons, List.length_cons, hlength]⟩
    rw [List.mapM_cons, hb, hbs]
    rfl

/-- Without a byte order mark in front, the fields are listed to the last one. -/
theorem listFields_done (file : String) {text : String} {t : Tree} (h : ofText text 0 = .ok t)
    (hmark : text.toList.head? ≠ some byteOrderMark) :
    ∃ rows, listFields file text = .done rows ∧ rows.length = (t.fields root).length := by
  obtain ⟨ps, hps, hcomposed⟩ := composed_of_ofText h
  rw [unmarked_of_head? hmark] at hps
  have hrow : ∀ f ∈ t.fields root, (fieldRow? file text f).isSome = true := by
    intro f hf
    obtain ⟨before, after, -, -, hline⟩ := hcomposed.line_of_mem_fields hf
    rw [hps] at hline
    rw [fieldRow?, hline]
    rfl
  obtain ⟨rows, hrows, hlength⟩ := mapM_isSome hrow
  refine ⟨rows, ?_, hlength⟩
  rw [listFields, h]
  simp only [hrows]

end Command

end MailMerge
