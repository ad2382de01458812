/-
  MailMerge.Proofs.Merge.Inserted — a string that is put in stays a string.

  What a merge does with a string that is put in is to cut it into lines and to look whether a
  line has a blank at either end. All of it goes into text nodes below text elements, and no
  scan reads these unless they stand in an instruction. So where that never comes about, another
  string with lines alike makes the same tree but for the words. In a tidy tree instructions hold
  no elements, and the merge of a tidy tree keeps them so. In the text that is written for the
  result, a string is spelled with entities, and reads as what it was.

  Proved: that (`merge_inserted`). A field may stand in an instruction, though, and then what is
  put in its place becomes an expression (`inserted_becomes_instruction`).
-/

import MailMerge.Proofs.Markup.Layout
import MailMerge.Proofs.Merge.Cells
import MailMerge.Proofs.Merge.Mentioned

namespace MailMerge

open MailMerge.Merge MailMerge.Outline MailMerge.Text MailMerge.Tree

/-! ## What remains of a part -/

theorem Merge.lasts_part (r : Registry) : Lasts (part r) := by
  intro s
  rw [run_part]
  exact Lasts.bind (closed_lasts.below r _ root) (fun _ s₁ => lasting_fillEmptyCells s₁.tree root) s

namespace Tree

theorem lasting_merge (t : Tree) (r : Registry) (env : Environment) : Lasting t (t.merge r env).tree := by
  rw [tree_merge]
  exact lasts_part r ⟨t, env, Ledger.empty⟩

theorem WellFormed.merge {t : Tree} (h : t.WellFormed) (r : Registry) (env : Environment) : (t.merge r env).tree.WellFormed := by
  have hbelow := (expands_below r (levelBound (t.markers root)) root ⟨t, env, Ledger.empty⟩ 0 (fenced_zero h) (Nat.zero_le _)).tree.wellFormed
  rw [merge_eq]
  generalize Merge.below r (levelBound (t.markers root)) root ⟨t, env, Ledger.empty⟩ = done at hbelow ⊢
  obtain ⟨result, last⟩ := done
  cases result with
  | error e => exact hbelow
  | ok _ => exact (repaired_fillEmptyCells hbelow root).1.wellFormed

/-! ## Tidy levels -/

/-- The anchors of a field are elements, and none is an instruction. -/
theorem Tidy.clear_anchor {t : Tree} (h : t.WellFormed) {id : NodeId} (htidy : t.Tidy id) (htop : t.parent id = none)
    (hname : t.isNamed Word.instructionText id = false) {f : Field} (hf : f ∈ t.fields id) {a : NodeId} (ha : a ∈ f.anchors) :
    t.isElement a = true ∧ t.isNamed Word.instructionText a = false := by
  have hplaced := placed_of_mem_fields hf
  obtain ⟨rest, hrow⟩ := hplaced.run
  have hin := h.within_anchor htop (mem_fields.mp hf).1 hplaced.marked (hrow ▸ List.mem_append_left rest ha)
  refine ⟨?_, ?_⟩
  · rcases List.mem_cons.mp ha with rfl | ha
    · exact htidy.isElement_first hf
    · exact (h.mem_laterElements (hplaced.mem_others ha)).2.2.1
  · by_cases hp : t.parent a = none
    · rwa [within_of_parent_none hp hin] at hname
    · exact htidy.anchor_not_instruction h hf ha hin hp

end Tree

namespace Merge

variable {r : Registry} {n depth : Nat} {id id' : NodeId} {s s' : Session}

theorem Nested.placed (hw : s.tree.WellFormed) (htop : s.tree.parent id = none) (hid : id < s.tree.size)
    (hn : Nested r n id s depth id' s') : s'.tree.WellFormed ∧ s'.tree.parent id' = none := by
  induction hn with
  | here => exact ⟨hw, htop⟩
  | deeper hh _ ih =>
    obtain ⟨hw', htop', hid'⟩ := hh.placed hw htop hid
    exact ih hw' htop' hid'

theorem Hands.not_instruction (hh : Hands r n id s id' s') : s'.tree.isNamed Word.instructionText id' = false := by
  obtain ⟨done, st, rest, l, s₁, b, s₂, -, -, -, rfl, rfl⟩ := hh
  exact not_isNamed_of_isNamed (Block.isNamed_copyNodes s₂.tree b.body) (by decide)

/-- All levels of the merge of a tidy part are tidy. -/
theorem Nested.tidy (h : Entry id s) (htidy : s.tree.Tidy id) (hname : s.tree.isNamed Word.instructionText id = false)
    (hn : Nested r n id s depth id' s') :
    Entry id' s' ∧ s'.tree.Tidy id' ∧ s'.tree.isNamed Word.instructionText id' = false := by
  induction hn with
  | here => exact ⟨h, htidy, hname⟩
  | deeper hh _ ih => exact ih (h.hands hh) (hh.told h htidy).1 hh.not_instruction

end Merge

/-! ## A name that is put in -/

/-- Where an operand begins with the name, it is that of an insertion and has no members. -/
structure Field.HoldsAlone (r : Registry) (v : String) (f : Field) : Prop where
  inserts : ∀ o, Inserts r f o → o.root = v → o.members = []
  asks : ∀ o, f.Asks r o → o.root ≠ v

/-- The texts of the operands that the field asks for. -/
def Field.askedTexts (r : Registry) (f : Field) : List String :=
  (match r.directive f.expression with
    | .insertion _ => []
    | d => d.operandTexts) ++ (Directive.elsif? f.expression).toList.map Guard.name

theorem Field.asks_iff {r : Registry} {f : Field} {o : Operand} :
    f.Asks r o ↔ ∃ text ∈ f.askedTexts r, Operand.parse text = .ok o := by
  have hblock : ∀ text, text ∈ (match r.directive f.expression with
      | .insertion _ => []
      | d => d.operandTexts) ↔ (∀ inserted, r.directive f.expression ≠ .insertion inserted) ∧
        text ∈ (r.directive f.expression).operandTexts := by
    intro text
    cases r.directive f.expression <;> simp
  constructor
  · rintro (⟨hno, htext, hparse⟩ | ⟨hread, hparse⟩)
    · exact ⟨_, List.mem_append_left _ ((hblock _).mpr ⟨hno, htext⟩), hparse⟩
    · exact ⟨_, List.mem_append_right _ (List.mem_map_of_mem (Option.mem_toList.mpr hread)), hparse⟩
  · rintro ⟨text, htext, hparse⟩
    rcases List.mem_append.mp htext with htext | htext
    · obtain ⟨hno, htext⟩ := (hblock text).mp htext
      exact .block hno htext hparse
    · obtain ⟨guard, hread, rfl⟩ := List.mem_map.mp htext
      exact .branch (Option.mem_toList.mp hread) hparse

/-- The operands that the field puts in. -/
def Field.insertedOperands (r : Registry) (f : Field) : List Operand :=
  match r.directive f.expression with
  | .insertion text => (Operand.parse text).toOption.toList
  | .value o => [o]
  | _ => []

theorem Field.inserts_iff {r : Registry} {f : Field} {o : Operand} : Inserts r f o ↔ o ∈ f.insertedOperands r := by
  rw [Inserts, insertedOperands]
  cases r.directive f.expression with
  | insertion text => cases h : Operand.parse text <;> simp [h, Except.toOption, eq_comm]
  | _ => simp [eq_comm]

instance (r : Registry) (v : String) (f : Field) : Decidable (f.HoldsAlone r v) :=
  decidable_of_iff ((∀ o ∈ f.insertedOperands r, o.root = v → o.members = []) ∧
      ∀ o ∈ (f.askedTexts r).filterMap fun text => (Operand.parse text).toOption, o.root ≠ v) <| by
    constructor
    · rintro ⟨hinserts, hasks⟩
      refine ⟨fun o ho => hinserts o (Field.inserts_iff.mp ho), fun o ho => hasks o ?_⟩
      obtain ⟨text, htext, hparse⟩ := Field.asks_iff.mp ho
      exact List.mem_filterMap.mpr ⟨text, htext, by rw [hparse]; rfl⟩
    · rintro ⟨hinserts, hasks⟩
      refine ⟨fun o ho => hinserts o (Field.inserts_iff.mpr ho), fun o ho => hasks o ?_⟩
      obtain ⟨text, htext, hparse⟩ := List.mem_filterMap.mp ho
      refine Field.asks_iff.mpr ⟨text, htext, ?_⟩
      cases hp : Operand.parse text with
      | error _ =>
        rw [hp] at hparse
        cases hparse
      | ok o' =>
        rw [hp] at hparse
        exact congrArg Except.ok (Option.some.inj hparse)

/-- Which operands a field has depends on its expression only. -/
theorem Field.HoldsAlone.congr {r : Registry} {v : String} {f g : Field} (h : f.HoldsAlone r v) (he : g.expression = f.expression) :
    g.HoldsAlone r v where
  inserts o ho := h.inserts o (by rwa [Inserts, he] at ho)
  asks o ho := by
    refine h.asks o ?_
    cases ho with
    | block hno htext hparse => exact .block (he ▸ hno) (he ▸ htext) hparse
    | branch hread hparse => exact .branch (he ▸ hread) hparse

/-- As many lines, and where a line has a blank at an end, the other has one. -/
def Splice.LinesMatch (a b : String) : Prop :=
  List.Forall₂ (fun x y => hasOuterBlank y = hasOuterBlank x) (splitAt '\n' a.toList) (splitAt '\n' b.toList)

instance (a b : String) : Decidable (Splice.LinesMatch a b) :=
  inferInstanceAs (Decidable (List.Forall₂ _ _ _))

/-- The environments differ in the string that one name is bound to. -/
structure Environment.DifferIn (v a b : String) (e e' : Environment) : Prop where
  scopes : e'.scopes = e.scopes
  policy : e'.policy = e.policy
  media : e'.media = e.media
  left : e.context.lookup v = some (.string a)
  right : e'.context.lookup v = some (.string b)
  others : ∀ n, n ≠ v → e'.context.lookup n = e.context.lookup n

/-- All names are shared but one. -/
def Leeway.allBut (v : String) (guarded : Prop) : Leeway := ⟨(· ≠ v), (· = v), guarded⟩

section rewording

variable {v a b : String} {guarded : Prop}

theorem Leeway.varies_allBut : (allBut v guarded).varies := ⟨v, rfl⟩

theorem Field.HoldsAlone.minds {r : Registry} {f : Field} (h : f.HoldsAlone r v) : f.Minds (.allBut v guarded) r where
  inserts o ho := by
    by_cases hv : o.root = v
    · exact Or.inr ⟨hv, h.inserts o ho hv⟩
    · exact Or.inl hv
  asks := h.asks

theorem Splice.LinesMatch.alike (h : Splice.LinesMatch a b) {varies : Prop} (hv : varies) : Splice.LinesAlike varies a b :=
  List.Forall₂.imp (fun _ _ hblank => ⟨hblank, fun hno => absurd hv hno⟩) h

theorem Environment.DifferIn.beside {e e' : Environment} (h : e.DifferIn v a b e') (hlines : Splice.LinesMatch a b) :
    e.Beside (.allBut v guarded) e' where
  scopes := h.scopes
  policy := h.policy
  media := h.media
  shared := h.others
  reworded n hn := by
    have hn : n = v := hn
    subst hn
    exact Or.inr ⟨_, _, h.left, h.right, Or.inr ⟨a, b, rfl, rfl, hlines.alike Leeway.varies_allBut⟩⟩

end rewording

/-! ## Written texts -/

/-- What is written for a text node stands in the markup of the part and is no markup: it holds
    no bracket, its ampersands begin entities, and it reads as the text. -/
structure Tree.SpellsText (t : Tree) (x : NodeId) (data : String) : Prop where
  placed : ∃ front back, t.toMarkup.toList = front ++ t.write t.size x ++ back
  brackets : '<' ∉ t.write t.size x ∧ '>' ∉ t.write t.size x
  entities : ∀ front back, t.write t.size x = front ++ '&' :: back → ∃ name ∈ Markup.dataEntities, ∃ rest, back = name ++ ';' :: rest
  reads : Markup.unescape (t.write t.size x) = .ok data.toList

theorem Tree.spellsText {t : Tree} (h : t.WellFormed) (hroot : t.kind root = .container) {x : NodeId} (hx : t.Within root x)
    {data : String} (hdata : t.kind x = .text data) : t.SpellsText x data := by
  have hwritten : t.write t.size x = Markup.escapeText data.toList := by
    cases t.size <;> rw [Tree.write, hdata] <;> rfl
  constructor
  · rw [hwritten]
    exact exists_escapeText_of_within h hroot hx hdata
  · rw [hwritten]
    exact ⟨fun hm => (Markup.not_bracket_of_mem_escapeText hm).1 rfl, fun hm => (Markup.not_bracket_of_mem_escapeText hm).2 rfl⟩
  · rw [hwritten]
    exact fun front back hsplit => Markup.exists_entity_of_escapeText hsplit
  · rw [hwritten]
    exact Markup.unescape_escapeText _

/-! ## Merges -/

/-- Two merges end alike, and their trees differ in the words of texts only. -/
structure Merged.SameButWords (m m' : Merged) : Prop where
  outcome : m'.outcome = m.outcome
  tree : m'.tree.wordless = m.tree.wordless
  media : m'.env.media = m.env.media

/-- **A string that is put in stays a string.** Where a name is bound to another string with lines
    alike, the merge ends as it did, and the tree is the same but for words, if the name stands
    for nothing but what is put in, in all fields that the merge comes to scan, and no text
    element stands in an instruction when they are scanned. Where no markup can be reached and the
    part is tidy, it is enough that the name is so used in the fields of the part. Whatever is
    put in, what is written for it is no markup. -/
theorem merge_inserted {xml : String} {source : Nat} {t : Tree} (hread : Tree.ofText xml source = .ok t) (r : Registry)
    {v a b : String} (hlines : Splice.LinesMatch a b) {env env' : Environment} (henv : env.DifferIn v a b env') :
    ((∀ depth id s, Nested r (levelBound (t.markers root)) root ⟨t, env, Ledger.empty⟩ depth id s →
        s.tree.InstructionsClear id ∧ ∀ f ∈ s.tree.fields id, f.HoldsAlone r v) →
      Merged.SameButWords (t.merge r env) (t.merge r env') ∧ ((t.merge r env).tree.InstructionsClear root →
        (t.merge r env').tree.fields root = (t.merge r env).tree.fields root)) ∧
    (env.reaches Content.isMarkup = false → t.Tidy root → (∀ f ∈ t.fields root, f.HoldsAlone r v) →
      Merged.SameButWords (t.merge r env) (t.merge r env') ∧
        (t.merge r env').tree.fields root = (t.merge r env).tree.fields root) ∧
    ∀ e x data, (t.merge r e).tree.Within root x → (t.merge r e).tree.kind x = .text data → (t.merge r e).tree.SpellsText x data := by
  have ht := wellFormed_of_ofText hread
  have hlinks : ∀ p, ∀ x ∈ t.children p, t.parent x = some p := fun _ _ hx => ht.parent_of_mem hx
  have hmerged : (t.merge r env).tree.WellFormed := ht.merge r env
  refine ⟨fun hlevels => ?_, fun hplain htidy halone => ?_, fun e x data hx hdata => ?_⟩
  · have hstart : Reworded (Leeway.allBut v False).varies (Leeway.allBut v False).guarded t t := .refl hlinks False.elim
    obtain ⟨houtcome, htree, hmedia⟩ := merge_alongside hstart (henv.beside hlines) fun depth id s hnested => by
      obtain ⟨hclear, halone⟩ := hlevels depth id s hnested
      obtain ⟨hw, htop⟩ := hnested.placed ht ht.top ht.rooted
      exact {
        fields := fun u hu => hu.fields hw htop hclear
        minds := fun f hf => (halone f hf).minds
        entry := False.elim
        anchors := False.elim }
    exact ⟨⟨houtcome, htree.wordless, hmedia⟩, fun hclear => htree.fields hmerged hmerged.top hclear⟩
  · have hentry : Entry root ⟨t, env, Ledger.empty⟩ := ⟨ht, ht.top, ht.rooted, hplain⟩
    obtain ⟨ps, -, hcomposed⟩ := composed_of_ofText hread
    have hstart : Reworded (Leeway.allBut v True).varies (Leeway.allBut v True).guarded t t := by
      refine .refl hlinks fun _ p hp => htidy.plain p (ht.mem_subtree.mpr (hcomposed.below p (lt_size_of_isNamed hp))) hp
    have hname : t.isNamed Word.instructionText root = false := by
      rw [Bool.eq_false_iff]
      intro hn
      have hel := isElement_of_isNamed hn
      rw [not_isElement_root hread] at hel
      cases hel
    obtain ⟨houtcome, htree, hmedia⟩ := merge_alongside hstart (henv.beside hlines) fun depth id s hnested => by
      obtain ⟨hentry', htidy', hname'⟩ := hnested.tidy hentry htidy hname
      have hw := hentry'.wellFormed
      exact {
        fields := fun u hu => hu.fields hw hentry'.top (hu.instructionsClear trivial hw id)
        minds := fun g hg => by
          obtain ⟨f, hf, hexpression, -⟩ := hnested.told hentry htidy g hg
          exact ((halone f hf).congr hexpression.symm).minds
        entry := fun _ => hentry'
        anchors := fun _ f hf a ha => htidy'.clear_anchor hw hentry'.top hname' hf ha }
    exact ⟨⟨houtcome, htree.wordless, hmedia⟩, htree.fields hmerged hmerged.top (htree.instructionsClear trivial hmerged root)⟩
  · refine spellsText (ht.merge r e) ?_ hx hdata
    have hcontainer := kind_root_of_ofText hread
    rcases (lasting_merge t r e).kind root ht.rooted with hkind | ⟨name, attributes, attributes', hkind, -⟩
    · exact hkind.trans hcontainer
    · rw [hcontainer] at hkind
      cases hkind

/-! ## A field in an instruction -/

namespace FieldInInstruction

open FailingTexts

def opened : String := "<w:r><w:fldChar w:fldCharType=\"begin\"/><w:instrText>MERGEFIELD "

def inserted : String := "<w:fldSimple w:instr=\"MERGEFIELD =v\"/></w:instrText>"

def ended : String := "<w:fldChar w:fldCharType=\"separate\"/><w:fldChar w:fldCharType=\"end\"/></w:r>"

/-- What is put in for the field becomes the expression of the field around it. -/
def text : String := opened ++ (inserted ++ ended)

def tree : Tree := ⟨#[⟨.container, none, [1], .none⟩,
  ⟨.element Word.run [], some root, [2, 3, 6, 7], ⟨0, 190⟩⟩,
  marker .opening ⟨5, 39⟩,
  ⟨.element Word.instructionText [], some 1, [4, 5], ⟨39, 115⟩⟩,
  ⟨.text "MERGEFIELD ", some 3, [], ⟨52, 63⟩⟩,
  field "=v" 3 ⟨63, 101⟩,
  marker .separator ⟨115, 152⟩,
  marker .closing ⟨152, 184⟩]⟩

def bound (v : String) : Environment := ⟨[("v", .string v)], [], .lenient, .empty⟩

theorem ofText_text : Tree.ofText text 0 = .ok tree := by
  have hchars : text.toList = opened.toList ++ (inserted.toList ++ ended.toList) := by
    simp only [text, String.toList_append]
  rw [Tree.ofText, Tree.readInto, hchars]
  cbv

theorem differIn_bound (a b : String) : (bound a).DifferIn "v" a b (bound b) where
  scopes := rfl
  policy := rfl
  media := rfl
  left := rfl
  right := rfl
  others n hn := by simp [bound, List.lookup, beq_eq_false_iff_ne.mpr hn]

/-- The field is replaced by a run that holds the string, and stands nowhere. -/
def put (v : String) : Tree := ⟨#[⟨.container, none, [1], .none⟩,
  ⟨.element Word.run [], some root, [2, 3, 6, 7], ⟨0, 190⟩⟩,
  marker .opening ⟨5, 39⟩,
  ⟨.element Word.instructionText [], some 1, [4, 8], ⟨39, 115⟩⟩,
  ⟨.text "MERGEFIELD ", some 3, [], ⟨52, 63⟩⟩,
  { field "=v" 3 ⟨63, 101⟩ with parent := none },
  marker .separator ⟨115, 152⟩,
  marker .closing ⟨152, 184⟩,
  ⟨.element Word.run [], some 3, [10], .none⟩,
  ⟨.element Word.text [], none, [], .none⟩,
  ⟨.element Word.text [], some 8, [11], .none⟩,
  ⟨.text v, some 10, [], .none⟩]⟩

theorem merge_expression : tree.merge Registry.stock (bound "=x") = ⟨.ok (), put "=x", bound "=x"⟩ := by cbv

theorem merge_nothing : tree.merge Registry.stock (bound "") = ⟨.ok (), put "", bound ""⟩ := by cbv

end FieldInInstruction

open FieldInInstruction in
/-- No text element stands in the instruction, but one comes to stand there, and then the string
    that is put in is an expression. -/
theorem inserted_becomes_instruction : Tree.ofText text 0 = .ok tree ∧ tree.InstructionsClear root ∧
    (∀ f ∈ tree.fields root, f.HoldsAlone Registry.stock "v") ∧ Splice.LinesMatch "=x" "" ∧
    (bound "=x").DifferIn "v" "=x" "" (bound "") ∧
    (tree.merge Registry.stock (bound "=x")).outcome = .ok () ∧ (tree.merge Registry.stock (bound "")).outcome = .ok () ∧
    ((tree.merge Registry.stock (bound "=x")).tree.fields root).map Field.expression = ["=x"] ∧
    (tree.merge Registry.stock (bound "")).tree.fields root = [] := by
  rw [merge_expression, merge_nothing]
  exact ⟨ofText_text, by decide, by decide +kernel, by decide, differIn_bound "=x" "", rfl, rfl, by decide +kernel, by decide +kernel⟩

namespace InsertedInConditional

open FailingTexts

def inserted : String := "<w:fldSimple w:instr=\"MERGEFIELD =v\"/>"

def ended : String := "<w:fldSimple w:instr=\"MERGEFIELD a:endIf\"/></w:p>"

def text : String := UnscannedField.opened ++ (inserted ++ ended)

def tree : Tree := ⟨#[⟨.container, none, [1], .none⟩,
  ⟨.element Word.paragraph [], some root, [2, 3, 4], ⟨0, 132⟩⟩,
  field "a:if" 1 ⟨5, 45⟩,
  field "=v" 1 ⟨45, 83⟩,
  field "a:endIf" 1 ⟨83, 126⟩]⟩

/-- Only the run with the string is left in the paragraph. -/
def put (v : String) : Tree := ⟨#[⟨.container, none, [1], .none⟩,
  ⟨.element Word.paragraph [], some root, [7], ⟨0, 132⟩⟩,
  { field "a:if" 1 ⟨5, 45⟩ with parent := none },
  { field "=v" 1 ⟨45, 83⟩ with parent := none },
  { field "a:endIf" 1 ⟨83, 126⟩ with parent := none },
  ⟨.element Block.containerName [], none, [], .none⟩,
  { field "=v" 1 ⟨45, 83⟩ with parent := none },
  ⟨.element Word.run [], some 1, [9], .none⟩,
  ⟨.element Word.text [], none, [], .none⟩,
  ⟨.element Word.text [], some 7, [10], .none⟩,
  ⟨.text v, some 9, [], .none⟩]⟩

theorem within_put (v : String) : (put v).Within root 10 := by
  have hparagraph : (put v).Within root 1 := .single rfl
  have hrun : (put v).Within root 7 := hparagraph.tail rfl
  have htext : (put v).Within root 9 := hrun.tail rfl
  exact htext.tail rfl

/-- The string is bound to `name`. -/
def bound (name v : String) : Environment := ⟨[(name, .string v), ("a", .boolean true)], [], .strict, .empty⟩

theorem ofText_text : Tree.ofText text 0 = .ok tree := by
  have hchars : text.toList = UnscannedField.opened.toList ++ (inserted.toList ++ ended.toList) := by
    simp only [text, String.toList_append]
  rw [Tree.ofText, Tree.readInto, hchars]
  cbv

theorem differIn_bound (name v w : String) : (bound name v).DifferIn name v w (bound name w) where
  scopes := rfl
  policy := rfl
  media := rfl
  left := by simp [bound]
  right := by simp [bound]
  others n hn := by simp [bound, List.lookup, beq_eq_false_iff_ne.mpr hn]

end InsertedInConditional

open InsertedInConditional in
/-- Markup is put in for a word: in a tidy part, and where a field is found in a copy only. -/
theorem markup_put_in_for_word : Tree.ofText text 0 = .ok tree ∧
    Merged.SameButWords (tree.merge Registry.stock (bound "v" "A")) (tree.merge Registry.stock (bound "v" "<w:p/>")) ∧
    (tree.merge Registry.stock (bound "v" "<w:p/>")).tree.fields root = (tree.merge Registry.stock (bound "v" "A")).tree.fields root ∧
    (∃ x, (tree.merge Registry.stock (bound "v" "<w:p/>")).tree.kind x = .text "<w:p/>" ∧
      (tree.merge Registry.stock (bound "v" "<w:p/>")).tree.SpellsText x "<w:p/>") ∧
    Merged.SameButWords (UnscannedField.tree.merge Registry.stock (bound "x" "A"))
      (UnscannedField.tree.merge Registry.stock (bound "x" "<w:p/>")) := by
  have hlines : Splice.LinesMatch "A" "<w:p/>" := by decide
  obtain ⟨-, htidy, hspelled⟩ := merge_inserted ofText_text Registry.stock hlines (differIn_bound "v" "A" "<w:p/>")
  obtain ⟨hlevels, -, -⟩ := merge_inserted UnscannedField.ofText_text Registry.stock hlines (differIn_bound "x" "A" "<w:p/>")
  obtain ⟨hsame, hfields⟩ := htidy (by decide) (by decide) (by decide +kernel)
  have hmerged : (tree.merge Registry.stock (bound "v" "<w:p/>")).tree = put "<w:p/>" := by cbv
  refine ⟨ofText_text, hsame, hfields, ⟨10, ?_⟩, ?_⟩
  · have hspelled := hspelled (bound "v" "<w:p/>") 10 "<w:p/>"
    rw [hmerged] at hspelled ⊢
    exact ⟨rfl, hspelled (within_put _) rfl⟩
  · refine (hlevels fun depth id s hnested => ?_).1
    obtain ⟨rfl, htree⟩ | ⟨rfl, htree⟩ := UnscannedField.level_cases hnested
    · rw [htree]
      exact ⟨by decide, by decide +kernel⟩
    · rw [htree]
      exact ⟨by decide, by decide +kernel⟩

end MailMerge
