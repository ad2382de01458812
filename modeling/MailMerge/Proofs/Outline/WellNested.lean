/-
  MailMerge.Proofs.Outline.WellNested — the bracket structure of a scan.

  Fields that open and close blocks are brackets of many kinds, and the text of a field tells
  which. An `Item` is a derivation of a sequence of fields: a field no handler takes, an
  insertion, or a bracket around more items; the markers that part the branches of a
  conditional are items of its bracket as well. `Item.WellNested` says that each bracket ends
  with the text that its opening field asks for, that else comes last among its markers, and
  that nothing directly inside looks like its end or like a marker of its own. Brackets of one
  name may stand in each other as long as this holds, and fields that close nothing may stand
  anywhere.

  The builder knows nothing of derivations: it takes the fields one by one and looks for texts.

  Proved: whatever it takes at the top level are the items of the derivation, one statement for
  each insertion and each bracket (`ofFields_of_wellNested`), bounded by the fields that the
  derivation puts together: a bracket with markers gives one block from each of its fields to
  the next.
-/

import MailMerge.Proofs.Outline.Faults
import MailMerge.Proofs.Merge.Nesting

namespace MailMerge

open MailMerge.Tree

namespace Directive

/-- A marker between branches never reads as the end of the conditional. -/
theorem ne_conditionalEnd_of_isBranchMarker {name e : String} (h : isBranchMarker name e = true) : e ≠ conditionalEnd name := by
  intro he
  subst he
  have hend : (conditionalEnd name).toList = name.toList ++ [':', 'e', 'n', 'd', 'I', 'f'] := String.toList_append
  rw [isBranchMarker, Bool.or_eq_true, beq_iff_eq] at h
  cases h with
  | inl helse =>
    have : name.toList ++ [':', 'e', 'n', 'd', 'I', 'f'] = name.toList ++ [':', 'e', 'l', 's', 'e'] := by
      rw [← hend, helse]
      exact String.toList_append
    exact absurd (List.append_cancel_left this) (by decide)
  | inr helsif =>
    rw [elsif?, guard?] at helsif
    -- One form of the marker ends in a parenthesis, the other in other letters than the end does.
    have hcall : call? ([':', 'e', 'l', 's', 'i', 'f'] ++ ['(']) isPredicate (conditionalEnd name).toList = none := by
      have : before? ')' (conditionalEnd name).toList = none := by simp [before?, hend]
      simp [call?, this]
    have hword : suffixed? [':', 'e', 'l', 's', 'i', 'f'] (conditionalEnd name).toList = none := by
      simp [suffixed?, hend, Text.after?]
    rw [hcall, hword] at helsif
    exact absurd helsif (by decide)

theorem exists_elsif {name e : String} (h : isBranchMarker name e = true) (hne : e ≠ elseMarker name) :
    ∃ guard, elsif? e = some guard := by
  simpa [isBranchMarker, hne, Option.isSome_iff_exists] using h

end Directive

namespace Outline

/-- How a sequence of fields is made of brackets. -/
inductive Item where
  /-- A field that makes nothing. -/
  | plain (f : Field)
  | insertion (f : Field)
  /-- A marker of the bracket around. -/
  | mark (f : Field)
  | bracket (opening : Field) (inner : List Item) (stop : Field)

namespace Item

/-- The first field of an item. -/
def first : Item → Field
  | plain f | insertion f | mark f | bracket f _ _ => f

def mark? : Item → Option Field
  | mark f => some f
  | _ => none

/-- The markers among the items of a bracket. -/
def marks (inner : List Item) : List Field := inner.filterMap mark?

/-- It makes a statement. -/
def acts : Item → Bool
  | insertion _ | bracket _ _ _ => true
  | plain _ | mark _ => false

mutual

/-- The fields that the item derives. -/
def fields : Item → List Field
  | plain f | insertion f | mark f => [f]
  | bracket f inner e => f :: fieldsOf inner ++ [e]

def fieldsOf : List Item → List Field
  | [] => []
  | i :: is => fields i ++ fieldsOf is

end

mutual

/-- The item and all the items in it. -/
def parts : Item → List Item
  | bracket f inner e => bracket f inner e :: partsOf inner
  | i => [i]

def partsOf : List Item → List Item
  | [] => []
  | i :: is => parts i ++ partsOf is

end

/-- The fields of a bracket that bound its blocks, each with the next. -/
def pairs : Item → List (Field × Field)
  | bracket f inner e => (f :: marks inner ++ [e]).zip (marks inner ++ [e])
  | _ => []

/-- The operands that an item itself asks for. -/
def operands (r : Registry) : Item → List String
  | insertion f => (r.directive f.expression).operandTexts
  | bracket f inner _ => (r.directive f.expression).operandTexts ++
      (marks inner).filterMap fun m => (Directive.elsif? m.expression).map (·.name)
  | _ => []

inductive WellNested (r : Registry) : Item → Prop
  | plain {f : Field} : r.directive f.expression = .nothing → WellNested r (.plain f)
  | insertion {f : Field} :
      (∃ text, r.directive f.expression = .insertion text) ∨ (∃ o, r.directive f.expression = .value o) →
      WellNested r (.insertion f)
  | bracket {f e : Field} {inner : List Item} {stop : String} {isMarker : String → Bool} :
      closing? r f = some (stop, isMarker) → e.expression = stop →
      (∀ m ∈ marks inner, isMarker m.expression = true) →
      (∀ guard, r.directive f.expression = .conditional guard →
        ∀ m ∈ (marks inner).dropLast, m.expression ≠ Directive.elseMarker guard.name) →
      (∀ i ∈ inner, i.mark? = none → i.first.expression ≠ stop ∧ isMarker i.first.expression = false) →
      (∀ i ∈ inner, i.mark? = none → WellNested r i) → WellNested r (.bracket f inner e)

/-- The operands in it can be read, and each of its brackets bounds blocks. -/
structure Sound (r : Registry) (t : Tree) (i : Item) : Prop where
  reads : ∀ j ∈ i.parts, ∀ text ∈ j.operands r, (Operand.parse text).isOk = true
  resolves : ∀ j ∈ i.parts, ∀ p ∈ j.pairs, (Block.resolve? t p.1 p.2).isSome = true

/-- The statement that an item makes. -/
inductive Yields (r : Registry) (t : Tree) : Item → Statement → Prop
  | insertion {f : Field} {o : Operand} : Inserts r f o → Yields r t (.insertion f) (.insertion f o)
  | bracket {f e : Field} {inner : List Item} {s : Statement} :
      Closes t f (r.directive f.expression) (marks inner) e s → s.blocks.map Block.ends = pairs (.bracket f inner e) →
      Yields r t (.bracket f inner e) s

variable {r : Registry} {t : Tree}

theorem ne_stop_of_isMarker {f : Field} {stop e : String} {isMarker : String → Bool} (h : closing? r f = some (stop, isMarker))
    (he : isMarker e = true) : e ≠ stop := by
  rw [closing?] at h
  cases hd : r.directive f.expression with
  | conditional guard =>
    simp only [hd, Directive.closing?, Option.some.injEq, Prod.mk.injEq] at h
    obtain ⟨rfl, rfl⟩ := h
    exact Directive.ne_conditionalEnd_of_isBranchMarker he
  | loop _ _ _ | picture _ | comment =>
    simp only [hd, Directive.closing?, Option.some.injEq, Prod.mk.injEq] at h
    rw [← h.2] at he
    exact absurd he Bool.false_ne_true
  | insertion _ | value _ | nothing => simp [hd, Directive.closing?] at h

theorem mem_partsOf {inner : List Item} {i j : Item} (hi : i ∈ inner) (hj : j ∈ i.parts) : j ∈ partsOf inner := by
  induction inner with
  | nil => exact absurd hi List.not_mem_nil
  | cons k is ih =>
    rw [partsOf, List.mem_append]
    cases List.mem_cons.mp hi with
    | inl he => exact Or.inl (he ▸ hj)
    | inr his => exact Or.inr (ih his)

theorem self_mem_parts (i : Item) : i ∈ i.parts := by cases i <;> simp [parts]

theorem Sound.exists_operand {i : Item} (h : Sound r t i) {text : String} (htext : text ∈ i.operands r) :
    ∃ o, Operand.parse text = .ok o := by
  have := h.reads i (self_mem_parts i) text htext
  cases hp : Operand.parse text with
  | ok o => exact ⟨o, rfl⟩
  | error e => rw [hp] at this; cases this

theorem Sound.exists_block {i : Item} (h : Sound r t i) {p : Field × Field} (hp : p ∈ i.pairs) :
    ∃ b, Block.resolve? t p.1 p.2 = some b := Option.isSome_iff_exists.mp (h.resolves i (self_mem_parts i) p hp)

theorem Sound.of_mem {f e : Field} {inner : List Item} (h : Sound r t (.bracket f inner e)) {i : Item} (hi : i ∈ inner) :
    Sound r t i where
  reads j hj := h.reads j (by rw [parts]; exact List.mem_cons_of_mem _ (mem_partsOf hi hj))
  resolves j hj := h.resolves j (by rw [parts]; exact List.mem_cons_of_mem _ (mem_partsOf hi hj))

/-- The markers of a conditional make branches, from each to the next. -/
theorem exists_branched {name : String} {e : Field} {ms : List Field} {m : Field}
    (hlast : ∀ x ∈ (m :: ms).dropLast, x.expression ≠ Directive.elseMarker name)
    (helsif : ∀ x ∈ m :: ms, x.expression ≠ Directive.elseMarker name →
      ∃ guard o, Directive.elsif? x.expression = some guard ∧ Operand.parse guard.name = .ok o)
    (hres : ∀ p ∈ (m :: ms ++ [e]).zip (ms ++ [e]), ∃ b, Block.resolve? t p.1 p.2 = some b) :
    ∃ cs other, Branched t name m (ms ++ [e]) cs other := by
  induction ms generalizing m with
  | nil =>
    obtain ⟨b, hb⟩ := hres (m, e) (by simp)
    by_cases helse : m.expression = Directive.elseMarker name
    · exact ⟨_, _, .otherwise helse hb⟩
    · obtain ⟨guard, o, hguard, ho⟩ := helsif m List.mem_cons_self helse
      exact ⟨_, _, .more helse (by rw [hguard]; rfl) ho hb .done⟩
  | cons m' ms ih =>
    have helse : m.expression ≠ Directive.elseMarker name := hlast m (by simp)
    obtain ⟨guard, o, hguard, ho⟩ := helsif m List.mem_cons_self helse
    obtain ⟨b, hb⟩ := hres (m, m') (by simp)
    obtain ⟨cs, other, hbranched⟩ := ih
      (fun x hx => hlast x (by rw [List.dropLast_cons_cons]; exact List.mem_cons_of_mem _ hx))
      (fun x hx => helsif x (List.mem_cons_of_mem _ hx))
      (fun p hp => hres p (by rw [List.cons_append, List.cons_append, List.zip_cons_cons]; exact List.mem_cons_of_mem _ hp))
    exact ⟨_, _, .more helse (by rw [hguard]; rfl) ho hb hbranched⟩

/-- What a bracket encloses is for its end to take: whole items, and its own markers. -/
theorem exists_closes {f e : Field} {inner : List Item} (hnest : WellNested r (.bracket f inner e))
    (hsound : Sound r t (.bracket f inner e)) : ∃ s, Closes t f (r.directive f.expression) (marks inner) e s := by
  cases hnest with
  | bracket hclosing he hmark hlast hapart hinner =>
    have hown : ∀ text ∈ (r.directive f.expression).operandTexts, ∃ o, Operand.parse text = .ok o :=
      fun text htext => hsound.exists_operand (List.mem_append_left _ htext)
    have hres : ∀ p ∈ (f :: marks inner ++ [e]).zip (marks inner ++ [e]), ∃ b, Block.resolve? t p.1 p.2 = some b :=
      fun p hp => hsound.exists_block hp
    -- Only a conditional has markers, so for the others the whole bracket is one block.
    have hone : (∀ m ∈ marks inner, False) → marks inner = [] ∧ ∃ b, Block.resolve? t f e = some b := by
      intro hno
      have hnil : marks inner = [] := List.eq_nil_iff_forall_not_mem.mpr hno
      exact ⟨hnil, hres (f, e) (by simp [hnil])⟩
    rw [closing?] at hclosing
    cases hd : r.directive f.expression with
    | insertion text => simp [hd, Directive.closing?] at hclosing
    | value o => simp [hd, Directive.closing?] at hclosing
    | nothing => simp [hd, Directive.closing?] at hclosing
    | loop list iterator stop =>
      simp only [hd, Directive.closing?, Option.some.injEq, Prod.mk.injEq] at hclosing
      obtain ⟨o, ho⟩ := hown list (by simp [hd, Directive.operandTexts])
      obtain ⟨hnil, b, hb⟩ := hone (fun m hm => by simpa [← hclosing.2] using hmark m hm)
      rw [hnil]
      exact ⟨_, .loop ho hb⟩
    | picture name =>
      simp only [hd, Directive.closing?, Option.some.injEq, Prod.mk.injEq] at hclosing
      obtain ⟨o, ho⟩ := hown name (by simp [hd, Directive.operandTexts])
      obtain ⟨hnil, b, hb⟩ := hone (fun m hm => by simpa [← hclosing.2] using hmark m hm)
      rw [hnil]
      exact ⟨_, .picture ho hb⟩
    | comment =>
      simp only [hd, Directive.closing?, Option.some.injEq, Prod.mk.injEq] at hclosing
      obtain ⟨hnil, b, hb⟩ := hone (fun m hm => by simpa [← hclosing.2] using hmark m hm)
      rw [hnil]
      exact ⟨_, .comment hb⟩
    | conditional guard =>
      simp only [hd, Directive.closing?, Option.some.injEq, Prod.mk.injEq] at hclosing
      obtain ⟨o, ho⟩ := hown guard.name (by simp [hd, Directive.operandTexts])
      cases hms : marks inner with
      | nil =>
        obtain ⟨b, hb⟩ := hres (f, e) (by simp [hms])
        exact ⟨_, .condition ho hb⟩
      | cons m ms =>
        simp only [hms, List.cons_append, List.zip_cons_cons, List.mem_cons, forall_eq_or_imp] at hres
        obtain ⟨b, hb⟩ := hres.1
        obtain ⟨cs, other, hbranched⟩ := exists_branched (e := e) (m := m) (by rw [← hms]; exact hlast guard hd)
          (by
            intro x hx hne
            have hx' : x ∈ marks inner := hms ▸ hx
            obtain ⟨g, hg⟩ := Directive.exists_elsif (by have := hmark x hx'; rwa [← hclosing.2] at this) hne
            obtain ⟨o', ho'⟩ := hsound.exists_operand
              (List.mem_append_right _ (List.mem_filterMap.mpr ⟨x, hx', by rw [hg]; rfl⟩))
            exact ⟨g, o', hg, ho'⟩)
          hres.2
        exact ⟨_, .choice ho hb hbranched⟩

theorem filled_of_each {stop : String} {isMarker : String → Bool} {inner : List Item}
    (h : ∀ i ∈ inner, Filled r t stop isMarker i.fields i.mark?.toList) :
    Filled r t stop isMarker (fieldsOf inner) (marks inner) := by
  induction inner with
  | nil => exact .nil
  | cons i is ih =>
    have := (h i List.mem_cons_self).append (ih fun j hj => h j (List.mem_cons_of_mem _ hj))
    cases hm : i.mark? <;> simpa [fieldsOf, marks, hm] using this

/-- The items of a bracket are passed over one by one, if each but the markers is. -/
theorem WellNested.filled_inner {f e : Field} {inner : List Item} {stop : String} {isMarker : String → Bool}
    (h : WellNested r (.bracket f inner e)) (hc : closing? r f = some (stop, isMarker))
    (hinner : ∀ i ∈ inner, i.mark? = none → i.first.expression ≠ stop → isMarker i.first.expression = false →
      Filled r t stop isMarker i.fields []) :
    Filled r t stop isMarker (fieldsOf inner) (marks inner) := by
  cases h with
  | bracket hclosing _ hmark _ hapart _ =>
    obtain ⟨rfl, rfl⟩ := Prod.mk.inj (Option.some.inj (hclosing.symm.trans hc))
    apply filled_of_each
    intro i hi
    cases hm : i.mark? with
    | some m =>
      have hmem : m ∈ marks inner := List.mem_filterMap.mpr ⟨i, hi, hm⟩
      cases i with
      | mark m' =>
        cases hm
        exact .mark (ne_stop_of_isMarker hc (hmark m hmem)) (hmark m hmem) .nil
      | _ => cases hm
    | none =>
      obtain ⟨hne, hno⟩ := hapart i hi hm
      exact hinner i hi hm hne hno

/-- Inside a bracket an item is passed over as a whole, unless it begins with the bracket's end
    or with a marker of the bracket. -/
theorem WellNested.filled {i : Item} (h : WellNested r i) (hs : Sound r t i) {stop : String} {isMarker : String → Bool}
    (hne : i.first.expression ≠ stop) (hno : isMarker i.first.expression = false) :
    Filled r t stop isMarker i.fields [] := by
  induction h generalizing stop isMarker with
  | plain hd => exact .lone hne hno (by rw [closing?, hd]; rfl) .nil
  | insertion hd =>
    refine .lone hne hno ?_ .nil
    cases hd with
    | inl htext =>
      obtain ⟨text, htext⟩ := htext
      rw [closing?, htext]
      rfl
    | inr hvalue =>
      obtain ⟨o, hvalue⟩ := hvalue
      rw [closing?, hvalue]
      rfl
  | @bracket f e inner stop' isMarker' hclosing he hmark hlast hapart hinner ih =>
    have hnest : WellNested r (.bracket f inner e) := .bracket hclosing he hmark hlast hapart hinner
    obtain ⟨s, hcloses⟩ := exists_closes hnest hs
    have hfill := hnest.filled_inner hclosing fun i hi hm hne hno => ih i hi hm (hs.of_mem hi) hne hno
    exact .block hne hno hclosing hfill he hcloses .nil

/-- At the top level an item makes its one statement, or none. -/
theorem WellNested.outlined {i : Item} (h : WellNested r i) (hs : Sound r t i) :
    ∃ ss, Outlined r t i.fields ss ∧ List.Forall₂ (Yields r t) ([i].filter acts) ss := by
  cases h with
  | plain hd => exact ⟨[], .skip hd .nil, .nil⟩
  | @insertion f hd =>
    have : ∃ o, Inserts r f o := by
      cases hd with
      | inl htext =>
        obtain ⟨text, htext⟩ := htext
        have hown : text ∈ (Item.insertion f).operands r := by simp [operands, htext, Directive.operandTexts]
        obtain ⟨o, ho⟩ := hs.exists_operand hown
        exact ⟨o, Or.inl ⟨text, htext, ho⟩⟩
      | inr hvalue =>
        obtain ⟨o, hvalue⟩ := hvalue
        exact ⟨o, Or.inr hvalue⟩
    obtain ⟨o, ho⟩ := this
    exact ⟨_, .insertion ho .nil, .cons (.insertion ho) .nil⟩
  | @bracket f e inner stop isMarker hclosing he hmark hlast hapart hinner =>
    have hnest : WellNested r (.bracket f inner e) := .bracket hclosing he hmark hlast hapart hinner
    obtain ⟨s, hcloses⟩ := exists_closes hnest hs
    have hfill := hnest.filled_inner hclosing fun i hi hm hne hno => (hinner i hi hm).filled (hs.of_mem hi) hne hno
    exact ⟨_, .block hclosing hfill he hcloses .nil, .cons (.bracket hcloses hcloses.ends) .nil⟩

theorem exists_outlined {items : List Item} (hnest : ∀ i ∈ items, WellNested r i) (hs : ∀ i ∈ items, Sound r t i) :
    ∃ ss, Outlined r t (fieldsOf items) ss ∧ List.Forall₂ (Yields r t) (items.filter acts) ss := by
  induction items with
  | nil => exact ⟨[], .nil, .nil⟩
  | cons i is ih =>
    obtain ⟨ss, hout, hyields⟩ := (hnest i List.mem_cons_self).outlined (hs i List.mem_cons_self)
    obtain ⟨ss', hout', hyields'⟩ := ih (fun j hj => hnest j (List.mem_cons_of_mem _ hj)) (fun j hj => hs j (List.mem_cons_of_mem _ hj))
    refine ⟨ss ++ ss', hout.append hout', ?_⟩
    rw [← List.singleton_append, List.filter_append]
    exact List.rel_append hyields hyields'

end Item

/-- If the fields of a scan are well nested, the operands can be read and the brackets bound
    blocks, then the scan has statements: one for each insertion and each bracket at the top
    level, in order, bounded by the fields that the derivation puts together. -/
theorem ofFields_of_wellNested {r : Registry} {t : Tree} {id : NodeId} {items : List Item}
    (hfields : t.fields id = Item.fieldsOf items) (hnest : ∀ i ∈ items, i.WellNested r) (hs : ∀ i ∈ items, i.Sound r t) :
    ∃ ss l, ofFields r t (t.fields id) = .ok (ss, l) ∧ List.Forall₂ (Item.Yields r t) (items.filter Item.acts) ss := by
  obtain ⟨ss, hout, hyields⟩ := Item.exists_outlined hnest hs
  obtain ⟨l, hbuild⟩ := ofFields_iff.mpr hout
  exact ⟨ss, l, by rw [hfields]; exact hbuild, hyields⟩

end Outline

open Outline

namespace FieldsInParagraph

/-- A conditional with two markers in a loop, and behind it a field that closes nothing. -/
def bracketed : Tree := fieldsInParagraph
  ["l:each(i)", "a:if", "=i", "b:elsif", "a:else", "a:endIf", "a:endIf", "l:endEach", "=f"]

def brackets : List Item :=
  [.bracket (fieldAt 2 "l:each(i)")
    [.bracket (fieldAt 3 "a:if") [.insertion (fieldAt 4 "=i"), .mark (fieldAt 5 "b:elsif"), .mark (fieldAt 6 "a:else")]
      (fieldAt 7 "a:endIf"),
      .plain (fieldAt 8 "a:endIf")]
    (fieldAt 9 "l:endEach"),
    .insertion (fieldAt 10 "=f")]

theorem wellNested_inner : Item.WellNested Registry.stock
    (.bracket (fieldAt 3 "a:if") [.insertion (fieldAt 4 "=i"), .mark (fieldAt 5 "b:elsif"), .mark (fieldAt 6 "a:else")]
      (fieldAt 7 "a:endIf")) := by
  have hd : Registry.stock.directive "a:if" = .conditional ⟨"a", none⟩ := by cbv
  refine .bracket (congrArg Directive.closing? hd) (by decide) (by decide) ?_ (by decide) ?_
  · intro guard hguard
    cases hd.symm.trans hguard
    decide
  · intro i hi hm
    simp only [List.mem_cons, List.not_mem_nil, or_false] at hi
    obtain rfl | rfl | rfl := hi
    · exact .insertion (Or.inl ⟨"i", by cbv⟩)
    · cases hm
    · cases hm

theorem wellNested_brackets : ∀ i ∈ brackets, i.WellNested Registry.stock := by
  have hd : Registry.stock.directive "l:each(i)" = .loop "l" "i" "l:endEach" := by cbv
  simp only [brackets, List.forall_mem_cons, List.not_mem_nil, false_imp_iff, implies_true, and_true]
  refine ⟨.bracket (congrArg Directive.closing? hd) (by decide) (by decide) ?_ (by decide) ?_, .insertion (Or.inl ⟨"f", by cbv⟩)⟩
  · intro guard hguard
    cases hd.symm.trans hguard
  · intro i hi _
    simp only [List.mem_cons, List.not_mem_nil, or_false] at hi
    obtain rfl | rfl := hi
    · exact wellNested_inner
    · exact .plain (by cbv)

end FieldsInParagraph

open FieldsInParagraph in
theorem bracketed_built : bracketed.fields root = Item.fieldsOf brackets ∧ (∀ i ∈ brackets, i.WellNested Registry.stock) ∧
    (∀ i ∈ brackets, i.Sound Registry.stock bracketed) ∧
    ∃ ss l, ofFields Registry.stock bracketed (bracketed.fields root) = .ok (ss, l) ∧
      List.Forall₂ (Item.Yields Registry.stock bracketed) (brackets.filter Item.acts) ss := by
  have hfields : bracketed.fields root = Item.fieldsOf brackets := by decide
  have hsound : ∀ i ∈ brackets, i.Sound Registry.stock bracketed := by
    have hreads : ∀ i ∈ brackets, ∀ j ∈ i.parts, ∀ text ∈ j.operands Registry.stock, (Operand.parse text).isOk = true := by decide
    have hres : (brackets.all fun i => i.parts.all fun j => j.pairs.all fun p => (Block.resolve? bracketed p.1 p.2).isSome) = true := by
      cbv
    simp only [List.all_eq_true] at hres
    exact fun i hi => ⟨hreads i hi, hres i hi⟩
  exact ⟨hfields, wellNested_brackets, hsound, ofFields_of_wellNested hfields wellNested_brackets hsound⟩

end MailMerge
