/-
  MailMerge.Proofs.Markup.Kinds — the nodes that are read as they were written.

  Whether a node comes back is told by what it holds, kind by kind. An element needs a tag
  that ends at its own `>` and does not begin or end like other markup; a text must not be
  empty; a section, a comment and an instruction must not hold their own end. A declaration
  is put together from its attributes when it is read, so it comes back if that gives the
  same again; and a document type loses the blanks around it.

  Proved: the conditions for an element with and without children (`Kind.readAround`,
  `Kind.readAlone_element`) and for each of the other kinds. Plain names meet the first two
  whatever the attributes' values (`Kind.Plain`).
-/

import Mathlib.Data.List.TakeWhile
import MailMerge.Proofs.Markup.Written

namespace MailMerge

open MailMerge.Markup MailMerge.Text

/-! ## Closing tags and document types -/

namespace Markup

theorem closingName_of_not_space {name : String} (h : ∀ c ∈ name.toList, isSpace c = false) :
    closingName name.toList = name := by
  have hkeep : (name.toList.reverse.dropWhile isSpace).reverse = name.toList := by
    rw [List.dropWhile_eq_self_iff.mpr, List.reverse_reverse]
    intro hpos
    rw [Bool.not_eq_true]
    exact h _ (List.mem_reverse.mp (List.getElem_mem hpos))
  unfold closingName
  rw [hkeep]
  split <;> exact String.ofList_toList

theorem isBlank_of_isSpace {c : Char} (h : isSpace c = true) : isBlank c = true := by
  simp only [isSpace, Bool.or_eq_true, beq_iff_eq] at h
  rcases h with ((rfl | rfl) | rfl) | rfl <;> decide

/-- What has been trimmed is not all spaces: trimming would have left nothing of these. -/
theorem not_space_of_trim {body : List Char} (h : trim body = body) (hne : body ≠ []) : body.all isSpace = false := by
  by_contra hall
  rw [Bool.not_eq_false, List.all_eq_true] at hall
  have hnil : trimStart body = [] := List.dropWhile_eq_nil_iff.mpr fun c hc => isBlank_of_isSpace (hall c hc)
  apply hne
  rw [← h, trim, hnil]
  rfl

end Markup

/-! ## One kind at a time -/

namespace Kind

section element

variable {name : String} {as : List (String × String)} (hnamed : Named name as) (hstart : StartsTag (tag name as))
  (hname : quoteAfter none name.toList = some none) (hkeys : ∀ a ∈ as, quoteAfter none a.1.toList = some none)

include hnamed hstart hname hkeys

theorem readAlone_element (hne : name = "" → as ≠ []) : (element name as).ReadAlone where
  proper := ⟨tag_ne_nil hne, hstart, by rw [quoteAfter_append, quoteAfter_tag hname hkeys]; rfl⟩
  reads := by
    rw [piece, readLeaf, readElement_tag hnamed]
    rfl

theorem readAround (hlast : as = [] → name.toList.getLast? ≠ some '/') : ReadAround name as where
  opening := ⟨hstart, quoteAfter_tag hname hkeys, getLast?_tag hlast⟩
  reads := readElement_tag hnamed
  closing := hname
  closes := closingName_of_not_space hnamed.name

end element

theorem readAlone_text {data : String} (hne : data ≠ "") : (text data).ReadAlone where
  proper := by
    refine ⟨fun h => hne ?_, not_mem_escapeText data.toList⟩
    exact String.toList_eq_nil_iff.mp (escapeText_eq_nil.mp h)
  reads := by
    simp only [piece, readLeaf, unescape_escapeText, String.ofList_toList]

theorem readAlone_cdata {data : String} (h : ¬ cdataEnd <:+: data.toList) : (cdata data).ReadAlone where
  proper := h
  reads := by
    rw [piece, readLeaf, String.ofList_toList]

theorem readAlone_comment {body : String} (h : ¬ commentEnd <:+: body.toList) : (comment body).ReadAlone where
  proper := h
  reads := by
    rw [piece, readLeaf, String.ofList_toList]

theorem readAlone_instruction {body : String} (h : (Piece.instruction body.toList).Proper) (hno : isDeclaration body.toList = false) :
    (instruction body).ReadAlone where
  proper := h
  reads := by
    rw [piece, readLeaf, hno, String.ofList_toList]
    rfl

theorem readAlone_declaration {body : String} (h : (Piece.instruction body.toList).Proper) (hyes : isDeclaration body.toList = true)
    (hread : readDeclaration body.toList = .ok body) : (declaration body).ReadAlone where
  proper := h
  reads := by
    rw [piece, readLeaf, if_pos hyes, hread]
    rfl

theorem readAlone_doctype {body : String} (hdepth : depthAfter 0 body.toList = some 0) (htrim : trim body.toList = body.toList)
    (hne : body ≠ "") : (doctype body).ReadAlone where
  proper := by
    have hkeyword : depthAfter 0 (doctypeKeyword ++ [' ']) = some 0 := by decide
    refine ⟨by decide, fun c hc => Or.inl (Option.some.inj hc).symm, ?_, ?_⟩
    · rw [← List.singleton_append, ← List.append_assoc, depthAfter_append, hkeyword]
      exact hdepth
    · rw [List.all_cons, not_space_of_trim htrim fun hnil => hne (String.toList_eq_nil_iff.mp hnil), Bool.and_false]
  reads := by
    have hblank : trim (' ' :: body.toList) = body.toList := by
      rw [trim, trimStart, List.dropWhile_cons_of_pos (by decide)]
      exact htrim
    rw [piece, readLeaf, hblank, String.ofList_toList]

/-! ## Plain kinds -/

/-- Elements with plain names and keys, and texts, sections and comments that can be written. -/
def Plain : Kind → Prop
  | element name as => PlainName name ∧ (∀ a ∈ as, PlainName a.1) ∧ (as.map Prod.fst).Nodup
  | text data => data ≠ ""
  | cdata data => ¬ cdataEnd <:+: data.toList
  | comment body => ¬ commentEnd <:+: body.toList
  | _ => False

theorem named_of_plain {name : String} {as : List (String × String)} (h : (element name as).Plain) : Named name as where
  name c hc := (isPlainChar_iff.mp (h.1.plain c hc)).1
  keys a ha := (h.2.1 a ha).isKey
  distinct := h.2.2

theorem Plain.readAlone {k : Kind} (h : k.Plain) : k.ReadAlone := by
  cases k with
  | element name as =>
    exact readAlone_element (named_of_plain h) (h.1.startsTag as) h.1.quoteAfter (fun a ha => (h.2.1 a ha).quoteAfter) fun he _ => h.1.nonempty he
  | text data => exact readAlone_text h
  | cdata data => exact readAlone_cdata h
  | comment body => exact readAlone_comment h
  | _ => exact h.elim

theorem Plain.readAround {name : String} {as : List (String × String)} (h : (element name as).Plain) : ReadAround name as :=
  Kind.readAround (named_of_plain h) (h.1.startsTag as) h.1.quoteAfter (fun a ha => (h.2.1 a ha).quoteAfter) fun _ => h.1.getLast?_ne

end Kind

end MailMerge
