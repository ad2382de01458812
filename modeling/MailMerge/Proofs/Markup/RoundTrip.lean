/-
  MailMerge.Proofs.Markup.RoundTrip — trees that are built and written, then read.

  A tree built by edits holds whatever strings it was given. Two escapes stand between these
  and the markup: references for the characters of texts and values, and nothing for names,
  sections and comments, which are written as they are held. So texts and values are free,
  while names and keys must be plain (`Markup.PlainName`), a section and a comment must not
  hold their own end, and two texts side by side would become one. A comment may begin with
  `>` or `->`: its end is looked for behind its own dashes.

  Proved: such a tree is read back from its own text, with every kind, name, attribute and
  string in its place (`Writable.reads_back`).
-/

import MailMerge.Proofs.Markup.Kinds
import MailMerge.Proofs.Markup.Reread

namespace MailMerge

open MailMerge.Markup

/-! ## The conditions can be looked up -/

instance (name : String) : Decidable (PlainName name) :=
  decidable_of_iff (name ≠ "" ∧ name.toList.all isPlainChar = true) <| by
    rw [List.all_eq_true]
    exact ⟨fun h => ⟨h.1, h.2⟩, fun h => ⟨h.nonempty, h.plain⟩⟩

instance : DecidablePred Kind.Plain := fun k =>
  match k with
  | .element name as => inferInstanceAs (Decidable (PlainName name ∧ (∀ a ∈ as, PlainName a.1) ∧ (as.map Prod.fst).Nodup))
  | .text data => inferInstanceAs (Decidable (data ≠ ""))
  | .cdata data => inferInstanceAs (Decidable (¬ cdataEnd <:+: data.toList))
  | .comment body => inferInstanceAs (Decidable (¬ commentEnd <:+: body.toList))
  | .container | .instruction _ | .declaration _ | .doctype _ => inferInstanceAs (Decidable False)

instance (k k' : Kind) : Decidable (Kind.Apart k k') := inferInstanceAs (Decidable (_ → _))

namespace Tree

/-- Below the container stand plain nodes only, and of these elements alone have children. No
    text stands behind a text, and none in front begins with a byte order mark. -/
structure Writable (t : Tree) : Prop where
  linked : t.Linked
  container : t.kind root = .container
  plain : ∀ x, t.Within root x → x ≠ root → (t.kind x).Plain
  inner : ∀ x, t.Within root x → x ≠ root → t.children x ≠ [] → t.isElement x = true
  apart : ∀ x, t.Within root x → (t.kinds x).IsChain Kind.Apart
  front : ∀ data, (t.kinds root).head? = some (.text data) → data.toList.head? ≠ some Text.byteOrderMark

theorem Writable.legible {t : Tree} (h : t.Writable) : t.Legible where
  linked := h.linked
  container := h.container
  alone x hx hne _ := (h.plain x hx hne).readAlone
  around x hx hne hchildren := by
    obtain ⟨name, as, hkind⟩ := kind_of_isElement (h.inner x hx hne hchildren)
    have hplain := h.plain x hx hne
    rw [hkind] at hplain
    exact ⟨name, as, hkind, hplain.readAround⟩
  apart := h.apart
  front := h.front

/-- Writing a tree and reading what was written gives its form back. -/
theorem Writable.reads_back {t : Tree} (h : t.Writable) (source : Nat) :
    ∃ u, ofText t.toMarkup source = .ok u ∧ u.twig root = t.twig root := by
  obtain ⟨u, hu, -, htwig⟩ := h.legible.reread source
  exact ⟨u, hu, htwig⟩

/-- `<a k="&lt;&quot;'">x &amp; y<b/><!--c-d--><![CDATA[<z>]]></a>`, with the apostrophe written as a reference too. -/
def mixedContent : Tree :=
  ⟨#[⟨.container, none, [1], .none⟩, ⟨.element "a" [("k", "<\"'")], some 0, [2, 3, 4, 5], .none⟩, ⟨.text "x & y", some 1, [], .none⟩,
    ⟨.element "b" [], some 1, [], .none⟩, ⟨.comment "c-d", some 1, [], .none⟩, ⟨.cdata "<z>", some 1, [], .none⟩]⟩

theorem writable_mixedContent : mixedContent.Writable where
  linked := linked_of_earlier (by decide) (by decide) (by decide)
  container := rfl
  plain x hx hne := by
    have hall : ∀ x < mixedContent.size, x ≠ root → (mixedContent.kind x).Plain := by decide
    exact hall x (lt_size_of_within hx hne) hne
  inner x hx hne := by
    have hall : ∀ x < mixedContent.size, x ≠ root → mixedContent.children x ≠ [] → mixedContent.isElement x = true := by decide
    exact hall x (lt_size_of_within hx hne) hne
  apart x hx := by
    have hall : ∀ x < mixedContent.size, (mixedContent.kinds x).IsChain Kind.Apart := by decide
    by_cases hx0 : x = root
    · exact hall x (by rw [hx0]; decide)
    · exact hall x (lt_size_of_within hx hx0)
  front data hdata := by
    have hhead : (mixedContent.kinds root).head? = some (.element "a" [("k", "<\"'")]) := by decide
    rw [hhead] at hdata
    cases hdata

theorem mixedContent_reads_back : mixedContent.Writable ∧
    ∃ u, ofText mixedContent.toMarkup 0 = .ok u ∧ u.twig root = mixedContent.twig root :=
  ⟨writable_mixedContent, writable_mixedContent.reads_back 0⟩

end Tree

end MailMerge
