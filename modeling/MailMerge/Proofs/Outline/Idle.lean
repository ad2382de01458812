/-
  MailMerge.Proofs.Outline.Idle — trees in which a scan finds nothing to do.

  What a field asks for is told by its instruction. That of a field that is one element is
  an attribute; that of any other field is put together from all the instruction text
  between its markers, and which texts come together there may change when nodes leave.
  So a piece of instruction text is judged by what it can do in front of any other text: it
  is quiet if it never makes an instruction out of one that asks for nothing. Texts of
  other kinds of fields are, as they begin with another word than a merge instruction.

  A node is live if it is an element whose instruction asks for something, or character
  data of an instruction text and not quiet (`Live`).

  Proved: where no node is live, all fields of a scan are read as nothing
  (`directive_eq_nothing`), however the markers are arranged; the scan makes no statements
  (`ofFields_of_idle`).
-/

import MailMerge.Proofs.Outline.Groups
import MailMerge.Proofs.Tree.Links

namespace MailMerge

open MailMerge.Tree

namespace Registry

/-- It is a merge instruction, and something is to be done for its directive. -/
def acts (r : Registry) (instruction : String) : Bool :=
  (Instruction.directive? instruction).any fun directive => r.directive directive != .nothing

/-- The text in front of an instruction that asks for nothing leaves it so. -/
def Quiet (r : Registry) (text : String) : Prop := ∀ more, r.acts (text ++ more) = true → r.acts more = true

variable {r : Registry}

theorem quiet_empty (r : Registry) : r.Quiet "" := fun more h => by rwa [String.empty_append] at h

theorem quiet_join {texts : List String} (h : ∀ s ∈ texts, r.Quiet s) : r.Quiet (String.join texts) := by
  induction texts with
  | nil => exact r.quiet_empty
  | cons s texts ih =>
    intro more hmore
    rw [String.join_cons, String.append_assoc] at hmore
    exact ih (fun s' hs' => h s' (List.mem_cons_of_mem s hs')) more (h s List.mem_cons_self _ hmore)

theorem acts_of_quiet {text : String} (h : r.Quiet text) : r.acts text = false := by
  have hempty : r.acts "" = false := rfl
  rw [Bool.eq_false_iff]
  intro hacts
  rw [h "" (by rwa [String.append_empty])] at hempty
  cases hempty

/-- The text of another kind of field, whose word is complete. -/
theorem quiet_of_word {text : String} {before word after : List Char} {b : Char}
    (h : text.toList = before ++ (word ++ b :: after)) (hbefore : ∀ c ∈ before, Text.isBlank c = true) (hne : word ≠ [])
    (hword : ∀ c ∈ word, Text.isBlank c = false) (hb : Text.isBlank b = true) (hkey : word ≠ Instruction.keyword) :
    r.Quiet text := by
  intro more hacts
  have hwords : Text.words (text ++ more).toList = word :: Text.words (after ++ more.toList) := by
    rw [String.toList_append, h, List.append_assoc, Text.words_append_of_blank hbefore, List.append_assoc, List.cons_append,
      Text.words_append_word hne hword hb]
  have hnone : Instruction.directive? (text ++ more) = none := by
    unfold Instruction.directive?
    rw [hwords]
    cases Text.words (after ++ more.toList) with
    | nil => rfl
    | cons directive rest => exact if_neg fun hk => hkey hk.1
  rw [acts, hnone] at hacts
  cases hacts

end Registry

namespace Tree

/-- A field whose instruction this is part of may ask for something. -/
inductive Live (r : Registry) (t : Tree) (x : NodeId) : Prop
  | element {instruction : String} : t.isNamed Word.simpleField x = true →
      t.attribute? x Word.fieldInstruction = some instruction → r.acts instruction = true → Live r t x
  | text {a : NodeId} : t.isNamed Word.instructionText a = true → t.Within a x → ¬ r.Quiet (t.ownText x) → Live r t x

/-- No node below `id` is live. -/
def Idle (r : Registry) (t : Tree) (id : NodeId) : Prop := ∀ x, t.Within id x → x ≠ id → ¬ t.Live r x

variable {r : Registry} {t u : Tree}

theorem ownText_of_isElement {x : NodeId} (h : t.isElement x = true) : t.ownText x = "" := by
  obtain ⟨name, as, hk⟩ := kind_of_isElement h
  rw [ownText, hk]

theorem ownText_congr {x : NodeId} (h : u.kind x = t.kind x) : u.ownText x = t.ownText x := by
  rw [ownText, ownText, h]

/-- A node that is live was so before, if the instruction texts above it are old and it is no
    part of a picture that was changed. -/
theorem Live.of_old {x : NodeId} (h : u.Live r x) (hname : u.name? x = t.name? x)
    (hup : ∀ a, u.isNamed Word.instructionText a = true → u.Within a x →
      t.isNamed Word.instructionText a = true ∧ t.Within a x)
    (hkind : t.isNamed Word.pictureProperties x = false → t.isNamed Word.blip x = false → u.kind x = t.kind x) : t.Live r x := by
  cases h with
  | element hn ha hacts =>
    rw [isNamed_of_name? hname] at hn
    rw [attribute?_congr (hkind (not_isNamed_of_isNamed hn (by decide)) (not_isNamed_of_isNamed hn (by decide)))] at ha
    exact .element hn ha hacts
  | @text a hn hw hq =>
    obtain ⟨hn, hw⟩ := hup a hn hw
    refine .text hn hw ?_
    by_cases hel : u.isElement x = true
    · rw [ownText_of_isElement hel] at hq
      exact absurd r.quiet_empty hq
    · have hother : ∀ name, t.isNamed name x = false := fun name => by
        rw [isElement, Option.not_isSome_iff_eq_none, hname] at hel
        rw [isNamed, hel]
        rfl
      rwa [ownText_congr (hkind (hother _) (hother _))] at hq

/-- So is one that has kept its kind, and under which all is as it was. -/
theorem Live.of_kinds {x : NodeId} (h : u.Live r x) (hup : ∀ a, u.Within a x → t.Within a x ∧ u.kind a = t.kind a) : t.Live r x := by
  have hx := (hup x (within_refl u x)).2
  exact h.of_old (name?_congr hx) (fun a hn hw => ⟨(isNamed_congr (hup a hw).2 _) ▸ hn, (hup a hw).1⟩) fun _ _ => hx

end Tree

/-! ## Instructions without live text -/

namespace Field

variable {r : Registry} {t : Tree}

theorem expression_ofInstruction {marker : NodeId} {instruction : String} {first : NodeId} {others : List NodeId} {shape : Shape}
    {whole : Bool} (h : (ofInstruction t marker instruction first others shape whole).valid = true) :
    Instruction.directive? instruction = some (ofInstruction t marker instruction first others shape whole).expression := by
  unfold ofInstruction at h ⊢
  split at h
  · next directive hd => rw [hd]
  · cases h

theorem quiet_instructionText (h : t.WellFormed) {ids : List NodeId}
    (hids : ∀ x ∈ ids, ∀ y, t.Within x y → ¬ t.isElement y → ¬ t.Live r y) : r.Quiet (instructionText t ids) := by
  refine Registry.quiet_join fun s hs => ?_
  obtain ⟨a, ha, rfl⟩ := List.mem_map.mp hs
  obtain ⟨hmem, hn⟩ := List.mem_filter.mp ha
  obtain ⟨x, hx, hxa⟩ := List.mem_flatMap.mp hmem
  refine Registry.quiet_join fun s hs => ?_
  obtain ⟨y, hy, rfl⟩ := List.mem_map.mp hs
  by_cases hel : t.isElement y = true
  · rw [ownText_of_isElement hel]
    exact r.quiet_empty
  · by_contra hq
    exact hids x hx y (within_trans (h.mem_subtree.mp hxa) (h.mem_subtree.mp hy)) hel (.text hn (h.mem_subtree.mp hy) hq)

end Field

/-- An element whose instruction asks for something is a field that does. -/
theorem exists_field_of_acts {r : Registry} {t : Tree} (h : t.WellFormed) {id x : NodeId} (hw : t.Within id x) (hne : x ≠ id)
    (hn : t.isNamed Word.simpleField x = true) {instruction : String}
    (ha : t.attribute? x Word.fieldInstruction = some instruction) (hacts : r.acts instruction = true) :
    ∃ f ∈ t.fields id, f.shape = .simple ∧ f.first = x ∧ r.directive f.expression ≠ .nothing := by
  unfold Registry.acts at hacts
  cases hd : Instruction.directive? instruction with
  | none =>
    rw [hd] at hacts
    cases hacts
  | some directive =>
    rw [hd] at hacts
    have hdirective : r.directive directive ≠ .nothing := bne_iff_ne.mp hacts
    refine ⟨⟨x, directive, x, [], .simple, true, (t.span x).extendTo (t.span x).stop⟩,
      mem_fields.mpr ⟨h.mem_descendants.mpr ⟨hw, hne⟩, ?_, rfl⟩, rfl, rfl, hdirective⟩
    rw [Field.ofMarker?, if_pos hn, Field.simple?, ha, Option.map_some, Field.ofInstruction, hd]
    rfl

namespace Outline

variable {r : Registry} {t : Tree} (h : t.WellFormed) {id : NodeId} (htop : t.parent id = none) (hidle : t.Idle r id)

include h htop hidle

/-- Below a node where nothing is live no field asks for anything. -/
theorem directive_eq_nothing {f : Field} (hf : f ∈ t.fields id) : r.directive f.expression = .nothing := by
  obtain ⟨hmem, hof, hvalid⟩ := mem_fields.mp hf
  obtain ⟨hw, hne⟩ := h.mem_descendants.mp hmem
  have hacts : ∀ {instruction : String}, Instruction.directive? instruction = some f.expression →
      r.acts instruction = false → r.directive f.expression = .nothing := by
    intro instruction hd hno
    rw [Registry.acts, hd] at hno
    simpa using hno
  unfold Field.ofMarker? at hof
  split at hof
  · next hn =>
    obtain ⟨instruction, ha, he⟩ := Option.map_eq_some_iff.mp hof
    rw [← he] at hvalid
    have hd := Field.expression_ofInstruction hvalid
    rw [he] at hd
    refine hacts hd (Bool.eq_false_iff.mpr fun hyes => ?_)
    exact hidle f.marker hw hne (.element hn ha hyes)
  · split at hof
    · simp only [Field.complex?, Option.bind_eq_bind, Option.bind_eq_some_iff, Option.some.injEq] at hof
      obtain ⟨first, hp, anchors, ha, he⟩ := hof
      rw [← he] at hvalid
      have hd := Field.expression_ofInstruction hvalid
      rw [he] at hd
      refine hacts hd (Registry.acts_of_quiet (Field.quiet_instructionText h fun x hx y hxy hel => ?_))
      -- the anchors stand where the first one stands, which is within the node
      have hfirst : t.Within id first := within_parent_of_ne hw hne hp
      obtain ⟨rest, hrest⟩ := takeThrough?_eq_some ha
      have hx : x ∈ first :: t.laterElements first := by rw [hrest]; exact List.mem_append_left _ hx
      have hidx : t.Within id x := by
        rcases List.mem_cons.mp hx with rfl | hx
        · exact hfirst
        · obtain ⟨hpx, hpf, -, -⟩ := h.mem_laterElements hx
          obtain ⟨q, hq⟩ := Option.ne_none_iff_exists'.mp hpf
          refine within_parent (within_parent_of_ne hfirst (fun he => ?_) hq) (hpx.trans hq)
          rw [he, htop] at hq
          cases hq
      intro hlive
      by_cases hy : y = id
      · -- nothing is above that node, so the instruction text could only be the node itself
        cases hlive with
        | element hn => exact hel (isElement_of_isNamed hn)
        | text hn hay => exact hel (isElement_of_isNamed (within_of_parent_none (hy ▸ htop) hay ▸ hn))
      · exact hidle y (within_trans hidx hxy) hy hlive
    · cases hof

/-- The scan makes no statements, and refers to no boundaries. -/
theorem ofFields_of_idle : ofFields r t (t.fields id) = .ok ([], Ledger.empty) := by
  have hskip : ∀ fields : List Field, (∀ f ∈ fields, r.directive f.expression = .nothing) →
      takeAll r t Ledger.empty fields = .ok ([], Ledger.empty) := by
    intro fields
    induction fields with
    | nil => exact fun _ => by rw [takeAll]
    | cons f fields ih =>
      intro hall
      have hd := hall f List.mem_cons_self
      have hc : closing? r f = none := by rw [closing?, hd]; rfl
      exact takeAll_cons.mpr ⟨none, Ledger.empty, _, [], (takeField_top_of_none hc).mpr ⟨rfl, rfl, Or.inl ⟨rfl, hd⟩⟩,
        ih fun g hg => hall g (List.mem_cons_of_mem f hg), rfl⟩
  exact hskip _ fun _ hf => directive_eq_nothing h htop hidle hf

end Outline

end MailMerge
