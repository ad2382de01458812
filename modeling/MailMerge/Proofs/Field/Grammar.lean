/-
  MailMerge.Proofs.Field.Grammar — the written form of a merge instruction.

  An instruction is read by its words, the longest runs of characters that are not blank. Its
  written form is told without them: the keyword, the directive and perhaps the two words of
  the format switch, with blanks between and around them (`Spells`). Where a word begins and
  ends is not up to the reader, since blanks are just what no word holds; so a text that is
  cut in that form can be cut in no other way, even where the directive looks like the switch.

  Proved: the words of a text are told by where they stand in it (`words_eq_cons_iff`); an
  instruction has a directive exactly if it is written in that form, and then it is the
  directive written there; a field that is one element is found by a scan exactly if its
  instruction has that form, with that directive (`read_by_grammar`).
-/

import MailMerge.Proofs.Field.Anchors
import MailMerge.Proofs.Tree.Linked

namespace MailMerge

/-! ## Words and blanks -/

namespace Text

/-- Blanks, or nothing at all. -/
def Blanks (cs : List Char) : Prop := ∀ c ∈ cs, isBlank c = true

/-- At least one blank, and nothing else. -/
def Gap (cs : List Char) : Prop := cs ≠ [] ∧ Blanks cs

/-- At least one character, and no blank. -/
def IsWord (cs : List Char) : Prop := cs ≠ [] ∧ ∀ c ∈ cs, isBlank c = false

instance (cs : List Char) : Decidable (IsWord cs) :=
  decidable_of_iff (cs ≠ [] ∧ cs.all fun c => !isBlank c) (by simp [IsWord])

theorem words_eq_nil_iff {cs : List Char} : words cs = [] ↔ Blanks cs := by
  constructor
  · intro h
    induction cs with
    | nil => exact fun c hc => absurd hc List.not_mem_nil
    | cons c cs ih =>
      rw [words] at h
      split at h
      · next hc =>
        intro d hd
        rcases List.mem_cons.mp hd with rfl | hd
        · exact hc
        · exact ih h d hd
      · split at h
        · cases h
        · exact absurd h (extend_ne_nil c _)
  · intro h
    have hwords := words_append_of_blank h []
    rwa [List.append_nil] at hwords

theorem ne_nil_of_mem_words {cs word : List Char} (h : word ∈ words cs) : word ≠ [] := by
  induction cs generalizing word with
  | nil => cases h
  | cons c cs ih =>
    rw [words] at h
    split at h
    · exact ih h
    · split at h
      · rcases List.mem_cons.mp h with rfl | h
        · exact List.cons_ne_nil c []
        · exact ih h
      · cases hw : words cs with
        | nil =>
          rw [hw] at h
          rw [List.mem_singleton.mp h]
          exact List.cons_ne_nil c []
        | cons v vs =>
          rw [hw] at h ih
          rcases List.mem_cons.mp h with rfl | h
          · exact List.cons_ne_nil c v
          · exact ih (List.mem_cons_of_mem v h)

theorem isWord_of_mem_words {cs word : List Char} (h : word ∈ words cs) : IsWord word :=
  ⟨ne_nil_of_mem_words h, not_blank_of_mem_words h⟩

theorem words_eq_cons_iff {cs word : List Char} {more : List (List Char)} : words cs = word :: more ↔
    ∃ before rest, cs = before ++ (word ++ rest) ∧ Blanks before ∧ IsWord word ∧ atBlank rest = true ∧ words rest = more := by
  constructor
  · intro h
    have hword : IsWord word := isWord_of_mem_words (h ▸ List.mem_cons_self)
    induction cs generalizing word more with
    | nil => cases h
    | cons c cs ih =>
      rw [words] at h
      split at h
      · next hc =>
        obtain ⟨before, rest, rfl, hbefore, hrest⟩ := ih h hword
        exact ⟨c :: before, rest, rfl, List.forall_mem_cons.mpr ⟨hc, hbefore⟩, hrest⟩
      · split at h
        · next hat =>
          cases h
          exact ⟨[], cs, rfl, List.forall_mem_nil _, hword, hat, rfl⟩
        · next hat =>
          -- the word goes on, so the rest begins with one, and it begins at once
          cases hw : words cs with
          | nil =>
            refine absurd ?_ hat
            cases cs with
            | nil => rfl
            | cons d cs => exact words_eq_nil_iff.mp hw d List.mem_cons_self
          | cons v vs =>
            rw [hw, extend, List.cons.injEq] at h
            obtain ⟨rfl, rfl⟩ := h
            obtain ⟨before, rest, rfl, hbefore, -, hrest⟩ := ih hw (isWord_of_mem_words (hw ▸ List.mem_cons_self))
            cases before with
            | nil => exact ⟨[], rest, rfl, List.forall_mem_nil _, hword, hrest⟩
            | cons d before => exact absurd (hbefore d List.mem_cons_self) hat
  · rintro ⟨before, rest, rfl, hbefore, hword, hrest, rfl⟩
    rw [words_append_of_blank hbefore, words_append hword.1 hword.2 hrest]

/-- Behind a first word there is nothing but blanks, or a gap and the next word. -/
theorem gap_of_words_eq_cons {cs word : List Char} {more : List (List Char)} (hat : atBlank cs = true)
    (h : words cs = word :: more) :
    ∃ gap rest, cs = gap ++ (word ++ rest) ∧ Gap gap ∧ IsWord word ∧ atBlank rest = true ∧ words rest = more := by
  obtain ⟨gap, rest, rfl, hgap, hword, hrest⟩ := words_eq_cons_iff.mp h
  refine ⟨gap, rest, rfl, ⟨?_, hgap⟩, hword, hrest⟩
  rintro rfl
  obtain ⟨hne, hno⟩ := hword
  cases word with
  | nil => exact hne rfl
  | cons c word => exact Bool.false_ne_true ((hno c List.mem_cons_self).symm.trans hat)

theorem atBlank_of_gap {gap : List Char} (h : Gap gap) (rest : List Char) : atBlank (gap ++ rest) = true := by
  cases gap with
  | nil => exact absurd rfl h.1
  | cons c gap => exact h.2 c List.mem_cons_self

theorem atBlank_of_blanks {cs : List Char} (h : Blanks cs) : atBlank cs = true := by
  cases cs with
  | nil => rfl
  | cons c cs => exact h c List.mem_cons_self

theorem words_gap_append {gap word rest : List Char} (hgap : Gap gap) (hword : IsWord word) (hrest : atBlank rest = true) :
    words (gap ++ (word ++ rest)) = word :: words rest := by
  rw [words_append_of_blank hgap.2, words_append hword.1 hword.2 hrest]

end Text

/-! ## The written form -/

namespace Instruction

open Text

/-- The text is a merge instruction, and that is its directive. -/
inductive Spells (directive : List Char) : List Char → Prop
  | plain {front gap rear : List Char} : Blanks front → Gap gap → IsWord directive → Blanks rear →
      Spells directive (front ++ (keyword ++ (gap ++ (directive ++ rear))))
  | formatted {front gap gap' gap'' rear : List Char} : Blanks front → Gap gap → IsWord directive → Gap gap' → Gap gap'' →
      Blanks rear →
      Spells directive (front ++ (keyword ++ (gap ++ (directive ++
        (gap' ++ (['\\', '*'] ++ (gap'' ++ ("MERGEFORMAT".toList ++ rear))))))))

theorem isWord_keyword : IsWord keyword := by decide

theorem formatSwitch_eq : formatSwitch = [['\\', '*'], "MERGEFORMAT".toList] := rfl

theorem spells_iff {directive cs : List Char} : Spells directive cs ↔
    words cs = [keyword, directive] ∨ words cs = keyword :: directive :: formatSwitch := by
  constructor
  · rintro (⟨hfront, hgap, hdirective, hrear⟩ | ⟨hfront, hgap, hdirective, hgap', hgap'', hrear⟩)
    · refine Or.inl ?_
      rw [words_append_of_blank hfront, words_append isWord_keyword.1 isWord_keyword.2 (atBlank_of_gap hgap _),
        words_gap_append hgap hdirective (atBlank_of_blanks hrear), words_eq_nil_iff.mpr hrear]
    · refine Or.inr ?_
      rw [words_append_of_blank hfront, words_append isWord_keyword.1 isWord_keyword.2 (atBlank_of_gap hgap _),
        words_gap_append hgap hdirective (atBlank_of_gap hgap' _),
        words_gap_append hgap' (by decide) (atBlank_of_gap hgap'' _),
        words_gap_append hgap'' (by decide) (atBlank_of_blanks hrear), words_eq_nil_iff.mpr hrear, formatSwitch_eq]
  · rintro (h | h)
    · obtain ⟨front, cs, rfl, hfront, -, hat, h⟩ := words_eq_cons_iff.mp h
      obtain ⟨gap, rear, rfl, hgap, hdirective, -, h⟩ := gap_of_words_eq_cons hat h
      exact .plain hfront hgap hdirective (words_eq_nil_iff.mp h)
    · rw [formatSwitch_eq] at h
      obtain ⟨front, cs, rfl, hfront, -, hat, h⟩ := words_eq_cons_iff.mp h
      obtain ⟨gap, cs, rfl, hgap, hdirective, hat, h⟩ := gap_of_words_eq_cons hat h
      obtain ⟨gap', cs, rfl, hgap', -, hat, h⟩ := gap_of_words_eq_cons hat h
      obtain ⟨gap'', rear, rfl, hgap'', -, -, h⟩ := gap_of_words_eq_cons hat h
      exact .formatted hfront hgap hdirective hgap' hgap'' (words_eq_nil_iff.mp h)

theorem directive?_eq_some_iff {s e : String} : directive? s = some e ↔ Spells e.toList s.toList := by
  rw [spells_iff, directive?]
  split
  · next first directive rest hw =>
    rw [hw]
    constructor
    · intro h
      split at h
      · next hc =>
        obtain ⟨rfl, rfl | rfl⟩ := hc <;> cases h <;> simp
      · cases h
    · rintro (h | h) <;> obtain ⟨rfl, rfl, rfl⟩ : first = _ ∧ directive = _ ∧ rest = _ := by simpa using h
      · simp
      · simp
  · next hno =>
    constructor
    · intro h
      cases h
    · rintro (h | h) <;> exact absurd h (hno _ _ _)

/-- A text is written as the instruction for one directive at most. -/
theorem Spells.unique {directive directive' cs : List Char} (h : Spells directive cs) (h' : Spells directive' cs) :
    directive = directive' := by
  have hread : ∀ {d}, Spells d cs → directive? (String.ofList cs) = some (String.ofList d) := fun hd =>
    directive?_eq_some_iff.mpr (by rwa [String.toList_ofList, String.toList_ofList])
  have he := Option.some.inj ((hread h).symm.trans (hread h'))
  rw [← String.toList_ofList (l := directive), he, String.toList_ofList]

end Instruction

/-! ## Fields that are one element -/

namespace Tree

variable {t : Tree} {r x : NodeId} {s : String}

/-- The fields with marker `x`: at most one. -/
theorem Linked.filter_marker (h : t.Linked) (hx : x ∈ t.descendants r) :
    (t.fields r).filter (·.marker = x) = ((Field.ofMarker? t x).filter Field.valid).toList := by
  have hnodup : (t.descendants r).Nodup := (List.nodup_cons.mp (h.nodup_subtree r)).2
  have hone : (t.descendants r).filter (· = x) = [x] := by
    rw [List.filter_eq, List.count_eq_one_of_mem hnodup hx]
    rfl
  have hmarker : ((t.descendants r).filterMap (Field.ofMarker? t)).filter (·.marker = x) =
      ((t.descendants r).filter (· = x)).filterMap (Field.ofMarker? t) := by
    rw [List.filter_filterMap, List.filterMap_filter]
    refine List.filterMap_congr fun id _ => ?_
    cases hof : Field.ofMarker? t id with
    | none => simp
    | some f =>
      have hid : f.marker = id := (Field.ofMarker?_eq_some hof).1
      simp [Option.filter, hid]
  rw [fields, List.filter_comm, hmarker, hone]
  cases hof : Field.ofMarker? t x with
  | none => simp [hof]
  | some f => cases hv : f.valid <;> simp [hof, hv, Option.filter]

/-- A field that is one element is as its instruction has it. -/
theorem ofMarker?_of_simple (hn : t.isNamed Word.simpleField x = true)
    (ha : t.attribute? x Word.fieldInstruction = some s) :
    Field.ofMarker? t x = some (Field.ofInstruction t x s x [] .simple true) := by
  rw [Field.ofMarker?, if_pos hn, Field.simple?, ha, Option.map_some]

end Tree

namespace Instruction

/-- What is made of an instruction text, wherever it is met. -/
structure ReadByGrammar (s : String) : Prop where
  /-- The directive is read where the text is written as the instruction for it. -/
  directive (e : String) : directive? s = some e ↔ Spells e.toList s.toList
  unique {d d' : List Char} : Spells d s.toList → Spells d' s.toList → d = d'
  /-- As the instruction of a field element, the text gives one field, with that directive. -/
  field {t : Tree} (h : t.Linked) {r x : NodeId} (hx : x ∈ t.descendants r) (hn : t.isNamed Word.simpleField x = true)
    (ha : t.attribute? x Word.fieldInstruction = some s) {e : String} (he : Spells e.toList s.toList) :
    ∃ f, (t.fields r).filter (·.marker = x) = [f] ∧ f.expression = e ∧ f.valid = true ∧ f.shape = .simple ∧ f.anchors = [x]
  /-- Any other text gives none. -/
  noField {t : Tree} (h : t.Linked) {r x : NodeId} (hx : x ∈ t.descendants r) (hn : t.isNamed Word.simpleField x = true)
    (ha : t.attribute? x Word.fieldInstruction = some s) (hno : ∀ d, ¬ Spells d s.toList) :
    (t.fields r).filter (·.marker = x) = []

/-- Instructions are told by their written form, and by nothing else. -/
theorem read_by_grammar (s : String) : ReadByGrammar s where
  directive _ := directive?_eq_some_iff
  unique := Spells.unique
  field {t} h {r x} hx hn ha {e} he := by
    have hread : directive? s = some e := directive?_eq_some_iff.mpr he
    refine ⟨⟨x, e, x, [], .simple, true, (t.span x).extendTo (t.span x).stop⟩, ?_, rfl, rfl, rfl, rfl⟩
    rw [h.filter_marker hx, Tree.ofMarker?_of_simple hn ha, Field.ofInstruction, hread]
    rfl
  noField {t} h {r x} hx hn ha hno := by
    have hread : directive? s = none := Option.eq_none_iff_forall_ne_some.mpr fun e he =>
      hno e.toList (directive?_eq_some_iff.mp he)
    rw [h.filter_marker hx, Tree.ofMarker?_of_simple hn ha, Field.ofInstruction, hread]
    rfl

namespace TwoFields

def merging : String := "\tMERGEFIELD \\*  \\* MERGEFORMAT"

def numbering : String := " PAGE \\* MERGEFORMAT "

def tree : Tree := ⟨#[
  ⟨.container, none, [1], .none⟩, ⟨.element Word.paragraph [], some 0, [2, 3], .none⟩,
  ⟨.element Word.simpleField [(Word.fieldInstruction, merging)], some 1, [], .none⟩,
  ⟨.element Word.simpleField [(Word.fieldInstruction, numbering)], some 1, [], .none⟩]⟩

theorem linked : tree.Linked := Tree.linked_of_earlier (by decide) (by decide) (by decide)

end TwoFields

open TwoFields in
/-- A directive that looks like the switch is told from it; a page number is no merge field. -/
theorem switch_as_directive :
    (∃ f, (tree.fields Tree.root).filter (·.marker = 2) = [f] ∧ f.expression = "\\*" ∧ f.valid = true ∧
      f.shape = .simple ∧ f.anchors = [2]) ∧
    (tree.fields Tree.root).filter (·.marker = 3) = [] := by
  have hmerging : Spells "\\*".toList merging.toList := spells_iff.mpr (Or.inr (by decide))
  have hnumbering : ∀ d, ¬ Spells d numbering.toList := by
    intro d hd
    have hwords : Text.words numbering.toList = "PAGE".toList :: formatSwitch := by decide
    have hne : "PAGE".toList ≠ keyword := by decide
    rcases spells_iff.mp hd with hd | hd <;> exact hne (List.cons.inj (hwords.symm.trans hd)).1
  exact ⟨(read_by_grammar merging).field linked (by decide) (by decide) (by decide) hmerging,
    (read_by_grammar numbering).noField linked (by decide) (by decide) (by decide) hnumbering⟩

end Instruction

end MailMerge
