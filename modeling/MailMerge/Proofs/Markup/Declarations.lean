/-
  MailMerge.Proofs.Markup.Declarations — declarations put together and read again.

  A declaration is not held as it was written: its version, its encoding and its standalone
  flag are read, and held between double quotes (`Declared`). What stood between the quotes is
  not unescaped when it is read, so it is not escaped again. Between single quotes a value may
  hold a double quote; then the text that is held ends that value early.

  Proved: what is held of a declaration has no end of an instruction in it
  (`readDeclaration_spec`), and it is read as it is if no value holds a double quote
  (`readDeclaration_text`).
-/

import MailMerge.Proofs.Markup.Tags

namespace MailMerge.Markup

open MailMerge.Text

/-- What is held of a declaration. -/
structure Declared where
  version : List Char
  encoding : Option (List Char)
  standalone : Option (List Char)

namespace Declared

def attributes (d : Declared) : List RawAttribute :=
  ⟨['v', 'e', 'r', 's', 'i', 'o', 'n'], d.version⟩ ::
    ((d.encoding.map fun value => ⟨['e', 'n', 'c', 'o', 'd', 'i', 'n', 'g'], value⟩).toList ++
      (d.standalone.map fun value => ⟨['s', 't', 'a', 'n', 'd', 'a', 'l', 'o', 'n', 'e'], value⟩).toList)

def text (d : Declared) : List Char := declarationTarget ++ d.attributes.flatMap RawAttribute.source

/-- No value holds a double quote. -/
def Unquoted (d : Declared) : Prop := ∀ a ∈ d.attributes, '"' ∉ a.value

instance (d : Declared) : Decidable d.Unquoted := inferInstanceAs (Decidable (∀ a ∈ d.attributes, '"' ∉ a.value))

theorem key_of_mem {d : Declared} {a : RawAttribute} (ha : a ∈ d.attributes) : IsKey a.key ∧ '?' ∉ a.key := by
  simp only [attributes, List.mem_cons, List.mem_append, Option.mem_toList, Option.map_eq_some_iff] at ha
  rcases ha with rfl | ⟨-, -, rfl⟩ | ⟨-, -, rfl⟩
  · exact ⟨⟨by decide, by simp [isKeyChar, isSpace]⟩, by simp⟩
  · exact ⟨⟨by decide, by simp [isKeyChar, isSpace]⟩, by simp⟩
  · exact ⟨⟨by decide, by simp [isKeyChar, isSpace]⟩, by simp⟩

theorem isDeclaration_text (d : Declared) : isDeclaration d.text = true := rfl

theorem attributesOf_text {d : Declared} (h : d.Unquoted) : attributesOf false declarationTarget d.text = (d.attributes, none) := by
  have hdrop : d.text.drop declarationTarget.length = d.attributes.flatMap RawAttribute.source := List.drop_left ..
  rw [attributesOf, hdrop]
  exact attributesFrom_source (fun a ha => (key_of_mem ha).1) h (fun hd => by cases hd) (fun hd => by cases hd) _

/-- The end of an instruction stands in the text only if it stands in a value. -/
theorem not_infix_text {d : Declared} (h : ∀ a ∈ d.attributes, ¬ instructionEnd <:+: a.value) : ¬ instructionEnd <:+: d.text := by
  have hall : ∀ as : List RawAttribute, (∀ a ∈ as, '?' ∉ a.key ∧ ¬ instructionEnd <:+: a.value) →
      ¬ instructionEnd <:+: as.flatMap RawAttribute.source := by
    intro as has
    induction as with
    | nil => decide
    | cons a as ih =>
      obtain ⟨hkey, hvalue⟩ := has a List.mem_cons_self
      intro hin
      have hsplit : (a :: as).flatMap RawAttribute.source =
          (' ' :: (a.key ++ ['=', '"'])) ++ (a.value ++ '"' :: as.flatMap RawAttribute.source) := by
        simp [RawAttribute.source]
      rw [hsplit] at hin
      have hrest := infix_of_infix_append (by simp [hkey]) hin
      rcases infix_of_infix_append_cons (by decide) hrest with hin | hin
      · exact hvalue hin
      · exact ih (fun b hb => has b (List.mem_cons_of_mem a hb)) hin
  intro hin
  exact hall d.attributes (fun a ha => ⟨(key_of_mem ha).2, h a ha⟩) (infix_of_infix_append (by decide) hin)

end Declared

/-- What is held of a declaration that is read, each value a part of what was written. -/
theorem readDeclaration_spec {body : List Char} {s : String} (h : readDeclaration body = .ok s) :
    ∃ d : Declared, s.toList = d.text ∧ ∀ a ∈ d.attributes, a.value <:+: body := by
  have hpart : ∀ a ∈ (attributesOf false declarationTarget body).1, a.value <:+: body := by
    intro a ha
    exact (attribute_of_mem ha).2.trans (List.drop_suffix _ _).isInfix
  unfold readDeclaration at h
  generalize attributesOf false declarationTarget body = found at h hpart
  obtain ⟨raw, fault⟩ := found
  cases raw with
  | nil =>
    cases fault with
    | none => cases h
    | some e => cases h
  | cons first more =>
    simp only at h hpart
    split at h
    · next hfirst =>
      cases h
      have hfound : ∀ (key : String), ∀ value ∈ ((first :: more).find? (String.ofList ·.key == key)).map (·.value), value <:+: body := by
        intro key value hvalue
        obtain ⟨a, ha, rfl⟩ := Option.map_eq_some_iff.mp hvalue
        exact hpart a (List.mem_of_find?_eq_some ha)
      refine ⟨⟨first.value, ((first :: more).find? (String.ofList ·.key == "encoding")).map (·.value),
        ((first :: more).find? (String.ofList ·.key == "standalone")).map (·.value)⟩, ?_, ?_⟩
      · have hversion : (first :: more).find? (String.ofList ·.key == "version") = some first := by
          rw [List.find?_cons_of_pos]
          exact beq_iff_eq.mpr hfirst
        rw [hversion, String.toList_ofList]
        cases (first :: more).find? (String.ofList ·.key == "encoding") <;>
          cases (first :: more).find? (String.ofList ·.key == "standalone") <;>
          simp [Declared.text, Declared.attributes, RawAttribute.source]
      · intro a ha
        simp only [Declared.attributes, List.mem_cons, List.mem_append, Option.mem_toList, Option.map_eq_some_iff] at ha
        rcases ha with rfl | ⟨value, hvalue, rfl⟩ | ⟨value, hvalue, rfl⟩
        · exact hpart first List.mem_cons_self
        · exact hfound "encoding" value (Option.map_eq_some_iff.mpr hvalue)
        · exact hfound "standalone" value (Option.map_eq_some_iff.mpr hvalue)
    · cases h

theorem readDeclaration_text {d : Declared} (h : d.Unquoted) : readDeclaration d.text = .ok (String.ofList d.text) := by
  unfold readDeclaration
  rw [Declared.attributesOf_text h]
  obtain ⟨version, encoding, standalone⟩ := d
  cases encoding <;> cases standalone <;> simp [Declared.attributes, Declared.text, RawAttribute.source]

end MailMerge.Markup
