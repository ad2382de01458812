/-
  MailMerge.Proofs.Markup.Escapes — what is escaped reads as it was.

  Writing puts a reference for each character that markup would take for its own, and leaves
  the others (`Spells`). Reading takes a reference for the character that it names and any
  character but `&` for itself. So text reads back whichever of its characters are spelled by
  reference, in data and in values alike.

  Proved: escaped text and escaped values read back (`unescape_escapeText`,
  `unescape_escapeValue`), data is written without `<` and values without quotes, and what is
  read of some text is not empty.
-/

import MailMerge.Markup.Escape

namespace MailMerge.Markup

open MailMerge.Text

/-! ## One step of reading -/

theorem unescapeFrom_plain {c : Char} (hc : c ≠ '&') (total pos : Nat) (cs : List Char) :
    unescapeFrom total pos (c :: cs) = (do
      let tail ← unescapeFrom total (pos + c.utf8Size) cs
      .ok (c :: tail)) := by
  rw [unescapeFrom]
  exact hc

theorem unescapeFrom_reference {entity : List Char} (h : ∀ c ∈ entity, isEntityChar c = true) (total pos : Nat) (cs : List Char) :
    unescapeFrom total pos ('&' :: (entity ++ ';' :: cs)) = (do
      let c ← readEntity (pos + 1) entity
      let tail ← unescapeFrom total (pos + utf8Length entity + 2) cs
      .ok (c :: tail)) := by
  have hdrop : (entity ++ ';' :: cs).dropWhile isEntityChar = ';' :: cs := by
    rw [List.dropWhile_append_of_pos h]
    simp [isEntityChar]
  have htake : (entity ++ ';' :: cs).takeWhile isEntityChar = entity := by
    rw [List.takeWhile_append_of_pos h]
    simp [isEntityChar]
  rw [unescapeFrom]
  split
  · next rest hrest =>
    rw [hdrop] at hrest
    cases hrest
    rw [htake]
  · next hno => exact absurd hdrop (hno cs)

/-! ## Spelling -/

/-- A text that is read as one character. -/
inductive Spells (c : Char) : List Char → Prop
  | plain : c ≠ '&' → Spells c [c]
  | reference (entity : List Char) : (∀ x ∈ entity, isEntityChar x = true) → (∀ start, readEntity start entity = .ok c) →
      Spells c ('&' :: (entity ++ [';']))

theorem Spells.unescapeFrom {c : Char} {word : List Char} (h : Spells c word) {total : Nat} {cs ds : List Char}
    (hcs : ∀ pos, Markup.unescapeFrom total pos cs = .ok ds) (pos : Nat) :
    Markup.unescapeFrom total pos (word ++ cs) = .ok (c :: ds) := by
  cases h with
  | plain hc =>
    rw [List.cons_append, List.nil_append, unescapeFrom_plain hc, hcs]
    rfl
  | reference entity hin hread =>
    rw [List.cons_append, List.append_assoc, List.singleton_append, unescapeFrom_reference hin, hread, hcs]
    rfl

theorem unescape_of_spells {spell : Char → List Char} (h : ∀ c, Spells c (spell c)) (cs : List Char) :
    unescape (cs.flatMap spell) = .ok cs := by
  have hall : ∀ (total : Nat) (cs : List Char) (pos : Nat), unescapeFrom total pos (cs.flatMap spell) = .ok cs := by
    intro total cs
    induction cs with
    | nil =>
      intro pos
      rw [List.flatMap_nil, unescapeFrom]
    | cons c cs ih =>
      intro pos
      rw [List.flatMap_cons]
      exact (h c).unescapeFrom ih pos
  exact hall _ cs 0

theorem spells_text (c : Char) : Spells c (escapeTextChar c) := by
  unfold escapeTextChar
  split
  · exact .reference ['l', 't'] (by simp [isEntityChar]) (by intro start; simp [readEntity, named?])
  · exact .reference ['g', 't'] (by simp [isEntityChar]) (by intro start; simp [readEntity, named?])
  · exact .reference ['a', 'm', 'p'] (by simp [isEntityChar]) (by intro start; simp [readEntity, named?])
  · next h => exact .plain h

theorem spells_value (c : Char) : Spells c (escapeValueChar c) := by
  unfold escapeValueChar
  split
  · exact .reference ['a', 'p', 'o', 's'] (by simp [isEntityChar]) (by intro start; simp [readEntity, named?])
  · exact .reference ['q', 'u', 'o', 't'] (by simp [isEntityChar]) (by intro start; simp [readEntity, named?])
  · exact spells_text c

theorem unescape_escapeText (cs : List Char) : unescape (escapeText cs) = .ok cs := unescape_of_spells spells_text cs

theorem unescape_escapeValue (cs : List Char) : unescape (escapeValue cs) = .ok cs := unescape_of_spells spells_value cs

/-! ## What is not written -/

theorem not_bracket_of_mem_escapeText {cs : List Char} {x : Char} (h : x ∈ escapeText cs) : x ≠ '<' ∧ x ≠ '>' := by
  have hone : ∀ c, ∀ x ∈ escapeTextChar c, x ≠ '<' ∧ x ≠ '>' := by
    intro c
    unfold escapeTextChar
    split
    · simp
    · simp
    · simp
    · next hlt hgt _ => simpa using ⟨hlt, hgt⟩
  obtain ⟨c, -, hc⟩ := List.mem_flatMap.mp h
  exact hone c x hc

theorem not_mem_escapeText (cs : List Char) : '<' ∉ escapeText cs := fun h => (not_bracket_of_mem_escapeText h).1 rfl

/-- The names that stand for characters of data. -/
def dataEntities : List (List Char) := [['l', 't'], ['g', 't'], ['a', 'm', 'p']]

/-- An ampersand that is written begins an entity. -/
theorem exists_entity_of_escapeText {cs front back : List Char} (h : escapeText cs = front ++ '&' :: back) :
    ∃ name ∈ dataEntities, ∃ rest, back = name ++ ';' :: rest := by
  have hone : ∀ c {front back}, escapeTextChar c = front ++ '&' :: back → ∃ name ∈ dataEntities, back = name ++ [';'] := by
    intro c front back hc
    unfold escapeTextChar at hc
    split at hc
    all_goals cases front <;> simp_all [dataEntities, List.cons_eq_append_iff]
  induction cs generalizing front with
  | nil => simp [escapeText] at h
  | cons c cs ih =>
    rw [escapeText, List.flatMap_cons, ← escapeText] at h
    rcases List.append_eq_append_iff.mp h with ⟨front', -, hrest⟩ | ⟨word, hword, hrest⟩
    · exact ih hrest
    · cases word with
      | nil => exact ih (hrest.symm.trans (List.nil_append _).symm)
      | cons x word =>
        obtain ⟨rfl, rfl⟩ := List.cons.inj hrest
        obtain ⟨name, hname, rfl⟩ := hone c hword
        exact ⟨name, hname, escapeText cs, by simp⟩

theorem not_quote_of_mem_escapeValue {cs : List Char} {x : Char} (h : x ∈ escapeValue cs) : x ≠ '"' ∧ x ≠ '\'' := by
  have hone : ∀ c, ∀ x ∈ escapeValueChar c, x ≠ '"' ∧ x ≠ '\'' := by
    intro c
    unfold escapeValueChar escapeTextChar
    split
    · simp
    · simp
    · split
      · simp
      · simp
      · simp
      · next hq hq' _ _ _ _ => simpa using ⟨hq', hq⟩
  obtain ⟨c, -, hc⟩ := List.mem_flatMap.mp h
  exact hone c x hc

theorem escapeText_eq_nil {cs : List Char} : escapeText cs = [] ↔ cs = [] := by
  cases cs with
  | nil => simp [escapeText]
  | cons c cs =>
    have hne : escapeTextChar c ≠ [] := by
      unfold escapeTextChar
      split <;> simp
    simp [escapeText, hne]

/-- Data is written with its first character in front, or with a reference. -/
theorem head?_escapeText {cs : List Char} {c : Char} (h : (escapeText cs).head? = some c) : c = '&' ∨ cs.head? = some c := by
  cases cs with
  | nil => cases h
  | cons x cs =>
    have hx : escapeTextChar x = [x] ∨ ∃ rest, escapeTextChar x = '&' :: rest := by
      unfold escapeTextChar
      split <;> simp
    rw [escapeText, List.flatMap_cons] at h
    rcases hx with he | ⟨rest, he⟩
    · rw [he] at h
      exact Or.inr h
    · rw [he] at h
      exact Or.inl (Option.some.inj h).symm

/-! ## What is read -/

/-- Every reference is read as a character, so something is read of every text but the empty one. -/
theorem unescape_ne_nil {cs ds : List Char} (h : unescape cs = .ok ds) (hne : cs ≠ []) : ds ≠ [] := by
  rintro rfl
  cases cs with
  | nil => exact hne rfl
  | cons c cs =>
    unfold unescape at h
    by_cases hc : c = '&'
    · subst hc
      rw [unescapeFrom] at h
      split at h
      · cases hread : readEntity (0 + 1) (cs.takeWhile isEntityChar) with
        | error e => simp [hread, bind, Except.bind] at h
        | ok x =>
          simp only [hread, bind, Except.bind] at h
          split at h <;> cases h
      · cases h
    · rw [unescapeFrom_plain hc] at h
      simp only [bind, Except.bind] at h
      split at h <;> cases h

end MailMerge.Markup
