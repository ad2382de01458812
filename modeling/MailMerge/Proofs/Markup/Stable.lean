/-
  MailMerge.Proofs.Markup.Stable — texts that are read, written and read again.

  Reading accepts more than can be written. A node holds what its piece could hold
  (`Kind.AsRead`), and most of that is written so that the same is read again. What does not
  come back is
  - an element with a quote in its name or in a key, such as `<a"/>`: as it is written, the
    quotes may hide the `>` of the tag or show one that they hid;
  - an element of nothing at all, `< />`, which is written as an end tag, and one whose name
    ends in a slash, `<a/ >`, which is written around its children as if it had none;
  - a declaration with a double quote in a value, which can stand there between single quotes;
  - a document type of blanks that are no space to markup;
  - a text with a byte order mark in front of everything else.

  Proved: a tree that is read and holds none of these is read again from its own text, and
  written again as that text (`stable_of_ofText`). A declaration that is not is
  `declaration_changed_by_writing`.
-/

import Mathlib
import MailMerge.Proofs.Markup.Readings

namespace MailMerge

open MailMerge.Markup

namespace Kind

/-- Written as something that is read as the same, if it has been read. -/
def Rewritable (childless : Bool) : Kind → Prop
  | element name as => Quoteless name as ∧ (childless = true → name = "" → as ≠ []) ∧
      (childless = false → as = [] → name.toList.getLast? ≠ some '/')
  | declaration body => ∃ d : Declared, body.toList = d.text ∧ d.Unquoted
  | doctype body => body ≠ ""
  | _ => True

theorem AsRead.readAlone {k : Kind} (hread : k.AsRead) (hr : k.Rewritable true) : k.ReadAlone := by
  cases k with
  | container => exact hread.elim
  | element name as =>
    obtain ⟨hnamed, hstart, hquote⟩ := hread
    obtain ⟨hname, hkeys⟩ := hquote hr.1
    exact readAlone_element hnamed hstart hname hkeys (hr.2.1 rfl)
  | text data => exact readAlone_text hread
  | cdata data => exact readAlone_cdata hread
  | comment body => exact readAlone_comment hread
  | instruction body => exact readAlone_instruction hread.1 hread.2
  | declaration body =>
    obtain ⟨d, hd, hvalues⟩ := hr
    refine readAlone_declaration ⟨hread.1, ?_⟩ ?_ ?_
    · rw [hd]
      intro hfront
      cases hfront
    · rw [hd]
      exact d.isDeclaration_text
    · rw [hd, readDeclaration_text hvalues, ← hd, String.ofList_toList]
  | doctype body => exact readAlone_doctype hread.1 hread.2 hr

theorem AsRead.readAround {name : String} {as : List (String × String)} (hread : (element name as).AsRead)
    (hr : (element name as).Rewritable false) : ReadAround name as := by
  obtain ⟨hnamed, hstart, hquote⟩ := hread
  obtain ⟨hname, hkeys⟩ := hquote hr.1
  exact Kind.readAround hnamed hstart hname hkeys (hr.2.2 rfl)

end Kind

namespace Tree

/-- A tree of nodes that are written as what is read as the same. -/
structure Rewritable (t : Tree) : Prop where
  nodes : ∀ x, t.Within root x → x ≠ root → (t.kind x).Rewritable (t.children x).isEmpty
  front : ∀ data, (t.kinds root).head? = some (.text data) → data.toList.head? ≠ some Text.byteOrderMark

theorem Reading.legible {t : Tree} (h : Reading [] t) (hr : t.Rewritable) : t.Legible where
  linked := h.wellFormed.isLinked
  container := h.container
  alone x hx hne hnil := by
    have hnode := hr.nodes x hx hne
    rw [hnil] at hnode
    exact (h.asRead x (lt_size_of_within hx hne) hne).readAlone hnode
  around x hx hne hsome := by
    obtain ⟨c, hc⟩ := List.exists_mem_of_ne_nil _ hsome
    have helement := (h.wellFormed.inner x c (h.wellFormed.parent_of_mem hc)).resolve_left hne
    obtain ⟨name, as, hk⟩ := kind_of_isElement helement
    have hnode := hr.nodes x hx hne
    rw [hk, List.isEmpty_eq_false_iff.mpr hsome] at hnode
    have hread := h.asRead x (lt_size_of_within hx hne) hne
    rw [hk] at hread
    exact ⟨name, as, hk, hread.readAround hnode⟩
  apart x _ := h.apart x
  front := hr.front

/-- What is read and written is read as the same tree, and written as the same text. -/
theorem stable_of_ofText {text : String} {source : Nat} {t : Tree} (h : ofText text source = .ok t) (hr : t.Rewritable)
    (source' : Nat) : ∃ u, ofText t.toMarkup source' = .ok u ∧ u.twig root = t.twig root ∧ u.toMarkup = t.toMarkup := by
  obtain ⟨u, hu, -, htwig⟩ := ((reading_of_ofText h).legible hr).reread source'
  exact ⟨u, hu, htwig, subtreeToMarkup_congr htwig⟩

/-- One of each kind, with both quotes around values. -/
def prologText : String := "<?xml version='1.0' encoding=\"UTF-8\"?><!DOCTYPE  a [<b>] ><a k='\"&lt;'>x<![CDATA[<]]><!--c--><?p d?></a>"

def prologTree : Tree :=
  ⟨#[⟨.container, none, [1, 2, 3], .none⟩, ⟨.declaration "xml version=\"1.0\" encoding=\"UTF-8\"", some 0, [], ⟨0, 38⟩⟩,
    ⟨.doctype "a [<b>]", some 0, [], ⟨38, 58⟩⟩, ⟨.element "a" [("k", "\"<")], some 0, [4, 5, 6, 7], ⟨58, 104⟩⟩,
    ⟨.text "x", some 3, [], ⟨71, 72⟩⟩, ⟨.cdata "<", some 3, [], ⟨72, 85⟩⟩, ⟨.comment "c", some 3, [], ⟨85, 93⟩⟩,
    ⟨.instruction "p d", some 3, [], ⟨93, 100⟩⟩]⟩

theorem rewritable_prologTree : prologTree.Rewritable where
  nodes x hx hne := by
    have hall : ∀ x < 8, x ≠ 0 → x = 1 ∨ x = 2 ∨ x = 3 ∨ x = 4 ∨ x = 5 ∨ x = 6 ∨ x = 7 := by decide
    rcases hall x (lt_size_of_within hx hne) hne with rfl | rfl | rfl | rfl | rfl | rfl | rfl
    · exact ⟨⟨['1', '.', '0'], some ['U', 'T', 'F', '-', '8'], none⟩, by decide, by decide⟩
    · exact (by decide : "a [<b>]" ≠ "")
    · exact ⟨by decide, by decide, by decide⟩
    · trivial
    · trivial
    · trivial
    · trivial
  front data hdata := by
    have hhead : (prologTree.kinds root).head? = some (.declaration "xml version=\"1.0\" encoding=\"UTF-8\"") := rfl
    rw [hhead] at hdata
    cases hdata

theorem prologText_stable : ofText prologText 0 = .ok prologTree ∧ prologTree.Rewritable ∧
    ∃ u, ofText prologTree.toMarkup 0 = .ok u ∧ u.twig root = prologTree.twig root ∧ u.toMarkup = prologTree.toMarkup := by
  have hread : ofText prologText 0 = .ok prologTree := by cbv
  exact ⟨hread, rewritable_prologTree, stable_of_ofText hread rewritable_prologTree 0⟩

/-- The version `1"0` ends early when it is read between double quotes. -/
theorem declaration_changed_by_writing : ¬ ∀ (text : String) (source : Nat) (t : Tree), ofText text source = .ok t →
    ∃ u, ofText t.toMarkup source = .ok u ∧ u.twig root = t.twig root := by
  intro hall
  have hread : ofText "<?xml version='1\"0'?>" 0 = .ok ⟨#[⟨.container, none, [1], .none⟩,
      ⟨.declaration "xml version=\"1\"0\"", some 0, [], ⟨0, 21⟩⟩]⟩ := by cbv
  obtain ⟨u, hu, htwig⟩ := hall _ _ _ hread
  have hagain : ofText "<?xml version=\"1\"0\"?>" 0 = .ok ⟨#[⟨.container, none, [1], .none⟩,
      ⟨.declaration "xml version=\"1\"", some 0, [], ⟨0, 21⟩⟩]⟩ := by cbv
  have hwritten : (⟨#[⟨.container, none, [1], .none⟩, ⟨.declaration "xml version=\"1\"0\"", some 0, [], ⟨0, 21⟩⟩]⟩ : Tree).toMarkup =
      "<?xml version=\"1\"0\"?>" := by cbv
  rw [hwritten, hagain] at hu
  cases hu
  have hkind := congrArg Twig.source htwig
  revert hkind
  decide

end Tree

end MailMerge
