/-
  MailMerge.Proofs.Merge.Told — which field a failing merge is about.

  A merge that fails deep inside blocks fails on the copy of a copy of what was written. The
  failure speaks of a field of that copy, and in a tidy tree that field has the expression and
  the span of a field of the tree that was scanned, and so on up to the text that was read. There
  no field has an empty span, so the failure tells a place.

  Proved: a failure of a merge below a node speaks of a field there (`told_of_below`), so that
  of a merge of a text speaks of a field of the text, and has its place (`text_failure_told`).
-/

import MailMerge.Proofs.Markup.Spans
import MailMerge.Proofs.Merge.Upheld

namespace MailMerge

open MailMerge.Merge MailMerge.Outline MailMerge.Tree

/-! ## What a failure speaks of -/

/-- An operand that the field is read to have. -/
def Field.HasOperand (r : Registry) (f : Field) (o : Operand) : Prop :=
  (∃ text ∈ f.operandTexts r, Operand.parse text = .ok o) ∨ r.directive f.expression = .value o

/-- An operand of the block that the field begins, or of the branch. -/
inductive Field.Asks (r : Registry) (f : Field) (o : Operand) : Prop
  | block {text : String} : (∀ inserted, r.directive f.expression ≠ .insertion inserted) →
      text ∈ (r.directive f.expression).operandTexts → Operand.parse text = .ok o → Asks r f o
  | branch {guard : Guard} : Directive.elsif? f.expression = some guard → Operand.parse guard.name = .ok o → Asks r f o

/-- The cause is a fault of the field itself, or it quotes one of its operands. -/
inductive Cause.SpeaksOf (r : Registry) (f : Field) : Cause → Prop
  | template {fault : TemplateFault} : fault.Concerns r f → SpeaksOf r f (.template fault)
  | context {fault : ContextFault} {o : Operand} : f.HasOperand r o → fault.operand = o.toString → SpeaksOf r f (.context fault)

/-- The failure speaks of the field, and it has the field's place if the field has one. -/
def Failure.ToldAt (r : Registry) (e : Failure) (f : Field) : Prop :=
  e.cause.SpeaksOf r f ∧ e = (Failure.ofCause e.cause).locatedAt f.span

variable {r : Registry} {e : Failure} {f g : Field}

theorem Field.operandTexts_congr (h : g.expression = f.expression) : g.operandTexts r = f.operandTexts r := by
  rw [operandTexts, operandTexts, h]

/-- What is said of a field depends on its expression only. -/
theorem Cause.SpeaksOf.congr {cause : Cause} (h : g.expression = f.expression) (hs : cause.SpeaksOf r f) : cause.SpeaksOf r g := by
  have htexts := Field.operandTexts_congr (r := r) h
  cases hs with
  | template hfault =>
    refine .template ?_
    cases hfault with
    | missingEnd stop => exact h ▸ .missingEnd stop
    | unresolvable stop => exact h ▸ .unresolvable stop
    | misplacedBranch start => exact h ▸ .misplacedBranch start
    | invalidOperand htext hparse => exact .invalidOperand (htexts ▸ htext) hparse
  | context ho hquoted =>
    refine .context ?_ hquoted
    rw [Field.HasOperand, htexts, h]
    exact ho

/-- Such a cause is a fault of the template or of the context. -/
theorem Cause.SpeaksOf.blames {cause : Cause} (h : cause.SpeaksOf r f) :
    (∃ fault, cause = .template fault) ∨ ∃ fault, cause = .context fault := by
  cases h with
  | template => exact Or.inl ⟨_, rfl⟩
  | context => exact Or.inr ⟨_, rfl⟩

theorem Failure.ToldAt.congr (h : g.expression = f.expression) (hspan : g.span = f.span) (ht : e.ToldAt r f) : e.ToldAt r g :=
  ⟨ht.1.congr h, hspan ▸ ht.2⟩

/-- A failure that is told at a field with a place has that place. -/
theorem Failure.ToldAt.span (ht : e.ToldAt r f) (hspan : f.span.isEmpty = false) : e.span = some f.span := by
  rw [ht.2, locatedAt, hspan]
  rfl

theorem Outline.Blames.exists_told {fields : List Field} (h : Blames r fields e) : ∃ f ∈ fields, e.ToldAt r f := by
  obtain ⟨f, hf, fault, hfault, rfl⟩ := h
  refine ⟨f, hf, ?_, ?_⟩
  · rw [Failure.template, Failure.cause_locatedAt]
    exact .template hfault
  · rw [Failure.template, Failure.cause_locatedAt]
    rfl

/-! ## The questions of a statement -/

namespace Outline

variable {t : Tree}

theorem hasOperand_of_inserts {o : Operand} (h : Inserts r f o) : f.HasOperand r o := by
  rcases h with ⟨text, hd, hparse⟩ | hd
  · exact Or.inl ⟨text, by simp [Field.operandTexts, hd, Directive.operandTexts], hparse⟩
  · exact Or.inr hd

theorem hasOperand_of_asks {o : Operand} (h : f.Asks r o) : f.HasOperand r o := by
  cases h with
  | block _ htext hparse => exact Or.inl ⟨_, List.mem_append_left _ htext, hparse⟩
  | branch hread hparse => exact Or.inl ⟨_, mem_operandTexts_of_elsif hread, hparse⟩

theorem startField_of_resolve? {start stop : Field} {b : Block} (h : Block.resolve? t start stop = some b) : b.startField = start :=
  (Block.resolve?_eq_some.mp h).2.2.1

theorem Branched.asks {name : String} {start : Field} {marks : List Field} {cs : List Condition} {other : Option Block}
    (h : Branched t name start marks cs other)
    (hmark : ∀ m ∈ (start :: marks).dropLast, Directive.isBranchMarker name m.expression = true) {c : Condition} (hc : c ∈ cs) :
    c.block.startField.Asks r c.operand := by
  induction h with
  | done => cases hc
  | otherwise => cases hc
  | @more start stop marks guard o b cs other helse hguard hparse hb _ ih =>
    rw [List.dropLast_cons_cons] at hmark
    rcases List.mem_cons.mp hc with rfl | hc
    · have hm := hmark start List.mem_cons_self
      rw [Directive.isBranchMarker, Bool.or_eq_true, beq_iff_eq] at hm
      obtain ⟨read, hread⟩ := Option.isSome_iff_exists.mp (hm.resolve_left helse)
      rw [hread, Option.getD_some] at hguard
      rw [hguard] at hparse
      rw [startField_of_resolve? hb]
      exact .branch hread hparse
    · exact ih (fun m hm => hmark m (List.mem_cons_of_mem start hm)) hc

theorem Closes.asks {f e : Field} {marks : List Field} {st : Statement} (h : Closes t f (r.directive f.expression) marks e st)
    (hmark : ∀ guard, r.directive f.expression = .conditional guard →
      ∀ m ∈ marks, Directive.isBranchMarker guard.name m.expression = true) {q : Field × Operand} (hq : q ∈ st.questions) :
    q.1.Asks r q.2 := by
  generalize hd : r.directive f.expression = d at h
  have hown : ∀ {text : String} {o : Operand}, (∀ inserted, d ≠ .insertion inserted) → text ∈ d.operandTexts →
      Operand.parse text = .ok o → f.Asks r o := fun hno htext hparse => .block (hd ▸ hno) (hd ▸ htext) hparse
  cases h with
  | loop hparse hb =>
    obtain rfl := List.mem_singleton.mp hq
    exact startField_of_resolve? hb ▸ hown nofun List.mem_cons_self hparse
  | condition hparse hb =>
    obtain rfl := List.mem_singleton.mp hq
    exact startField_of_resolve? hb ▸ hown nofun List.mem_cons_self hparse
  | @choice guard _ m marks o b cs other hparse hb hrest =>
    obtain ⟨c, hc, rfl⟩ := List.mem_map.mp hq
    rcases List.mem_cons.mp hc with rfl | hc
    · exact startField_of_resolve? hb ▸ hown nofun List.mem_cons_self hparse
    · refine hrest.asks (fun m' hm' => hmark guard hd m' ?_) hc
      rwa [← List.cons_append, List.dropLast_concat] at hm'
  | picture hparse hb =>
    obtain rfl := List.mem_singleton.mp hq
    exact startField_of_resolve? hb ▸ hown nofun List.mem_cons_self hparse
  | comment => cases hq

theorem Filled.isMarker {stop : String} {isMarker : String → Bool} {inner marks : List Field}
    (h : Filled r t stop isMarker inner marks) : ∀ m ∈ marks, isMarker m.expression = true := by
  induction h with
  | nil => exact fun m hm => nomatch hm
  | mark _ hf _ ih =>
    intro m hm
    rcases List.mem_cons.mp hm with rfl | hm
    · exact hf
    · exact ih m hm
  | lone _ _ _ _ ih => exact ih
  | block _ _ _ _ _ _ _ _ ih => exact ih

/-- An insertion of a scan is one that its field asks for. -/
theorem Outlined.inserts {fields : List Field} {ss : List Statement} (h : Outlined r t fields ss) {o : Operand}
    (hst : .insertion f o ∈ ss) : Inserts r f o := by
  induction h with
  | nil => cases hst
  | skip _ _ ih => exact ih hst
  | insertion hins _ ih =>
    rcases List.mem_cons.mp hst with he | hst
    · cases he
      exact hins
    · exact ih hst
  | block _ _ _ hclose _ ih =>
    rcases List.mem_cons.mp hst with he | hst
    · generalize r.directive _ = d at hclose
      cases hclose <;> cases he
    · exact ih hst

/-- What the blocks of a scan ask for are operands of the fields that ask. -/
theorem Outlined.asks {fields : List Field} {ss : List Statement} (h : Outlined r t fields ss) {st : Statement} (hst : st ∈ ss)
    (hno : ∀ f o, st ≠ .insertion f o) {q : Field × Operand} (hq : q ∈ st.questions) : q.1.Asks r q.2 := by
  induction h with
  | nil => cases hst
  | skip _ _ ih => exact ih hst
  | insertion _ _ ih =>
    rcases List.mem_cons.mp hst with he | hst
    · exact absurd he (hno _ _)
    · exact ih hst
  | block hc hfill _ hclose _ ih =>
    rcases List.mem_cons.mp hst with rfl | hst
    · refine hclose.asks (fun guard hd => ?_) hq
      rw [closing?, hd] at hc
      cases hc
      exact hfill.isMarker
    · exact ih hst

/-- What the statements of a scan ask for are operands of the fields that ask. -/
theorem Outlined.hasOperand {fields : List Field} {ss : List Statement} (h : Outlined r t fields ss) {st : Statement} (hst : st ∈ ss)
    {q : Field × Operand} (hq : q ∈ st.questions) : q.1.HasOperand r q.2 := by
  cases st with
  | insertion f o =>
    obtain rfl := List.mem_singleton.mp hq
    exact hasOperand_of_inserts (h.inserts hst)
  | _ => exact hasOperand_of_asks (h.asks hst nofun hq)

theorem Outlined.mem_of_questions {fields : List Field} {ss : List Statement} (h : Outlined r t fields ss) {st : Statement}
    (hst : st ∈ ss) {q : Field × Operand} (hq : q ∈ st.questions) : q.1 ∈ fields := by
  obtain ⟨hfield, hblocks⟩ := h.mem_fields hst
  cases st with
  | insertion f o =>
    obtain rfl := List.mem_singleton.mp hq
    exact hfield f o rfl
  | loop list iterator b =>
    obtain rfl := List.mem_singleton.mp hq
    exact (hblocks b List.mem_cons_self).1
  | condition c =>
    obtain rfl := List.mem_singleton.mp hq
    exact (hblocks c.block List.mem_cons_self).1
  | choice branches otherwise =>
    obtain ⟨c, hc, rfl⟩ := List.mem_map.mp hq
    exact (hblocks c.block (List.mem_append_left _ (List.mem_map_of_mem hc))).1
  | picture o b =>
    obtain rfl := List.mem_singleton.mp hq
    exact (hblocks b List.mem_cons_self).1
  | comment b => cases hq

/-- A question asked in vain is told at the field that asks. -/
theorem Outlined.exists_told {fields : List Field} {ss : List Statement} (h : Outlined r t fields ss) {st : Statement} (hst : st ∈ ss)
    (he : st.Asked e) : ∃ f ∈ fields, e.ToldAt r f := by
  obtain ⟨q, hq, fault, hquoted, rfl⟩ := he
  refine ⟨q.1, h.mem_of_questions hst hq, ?_, ?_⟩
  · rw [Failure.context, Failure.cause_locatedAt]
    exact .context (h.hasOperand hst hq) hquoted
  · rw [Failure.context, Failure.cause_locatedAt]
    rfl

end Outline

/-! ## Merges -/

/-- A copy that is handed to the next level is tidy, and its fields have the expressions and the
    spans of fields that were scanned. -/
theorem Merge.Hands.told {n : Nat} {id id' : NodeId} {s s' : Session} (h : Entry id s) (htidy : s.tree.Tidy id)
    (hh : Hands r n id s id' s') : s'.tree.Tidy id' ∧
      ∀ g ∈ s'.tree.fields id', ∃ f ∈ s.tree.fields id, f.expression = g.expression ∧ f.span = g.span := by
  obtain ⟨done, st, rest, l, s₁, b, s₂, hbuild, hdone, hcopies, rfl, rfl⟩ := hh
  have hc := h.made hbuild
  have hexp := expands_below r n
  have hupheld := (hc.upheld s.env).run hc htidy hexp h.env [] (st :: rest) rfl hdone
  have hst : st ∈ done ++ st :: rest := by simp
  obtain ⟨φ, hechoed⟩ := hupheld.echoed hc htidy hexp hst hcopies
  exact ⟨hechoed.tidy_copy, fun g hg => hechoed.exists_field hg⟩

/-- So at whatever depth. -/
theorem Merge.Nested.told {n depth : Nat} {id id' : NodeId} {s s' : Session} (h : Entry id s) (htidy : s.tree.Tidy id)
    (hn : Nested r n id s depth id' s') :
    ∀ g ∈ s'.tree.fields id', ∃ f ∈ s.tree.fields id, f.expression = g.expression ∧ f.span = g.span := by
  induction hn with
  | here => exact fun g hg => ⟨g, hg, rfl, rfl⟩
  | deeper hh _ ih =>
    intro g hg
    obtain ⟨htidy', hfields⟩ := hh.told h htidy
    obtain ⟨f', hf', hexpression', hspan'⟩ := ih (h.hands hh) htidy' g hg
    obtain ⟨f, hf, hexpression, hspan⟩ := hfields f' hf'
    exact ⟨f, hf, hexpression.trans hexpression', hspan.trans hspan'⟩

/-- A merge below a node that fails speaks of a field that it met there or at some depth. -/
theorem Merge.exists_told_of_below {n : Nat} {id : NodeId} {s s' : Session} (h : Entry id s)
    (hrun : below r n id s = (.error e, s')) (hdeep : e.cause ≠ .tooDeep) :
    ∃ depth id' s'', Nested r n id s depth id' s'' ∧ ∃ g ∈ s''.tree.fields id', e.ToldAt r g := by
  induction n generalizing id s s' with
  | zero =>
    cases hrun
    exact absurd rfl hdeep
  | succ n ih =>
    rw [run_below_succ] at hrun
    cases hbuild : ofFields r s.tree (s.tree.fields id) with
    | error e' =>
      rw [hbuild] at hrun
      cases hrun
      exact ⟨0, id, s, .here, (ofFields_eq_error hbuild).exists_told⟩
    | ok built =>
      obtain ⟨ss, l⟩ := built
      rw [hbuild] at hrun
      simp only [run_underLedger] at hrun
      generalize hall : Statement.evaluateAll (below r n) ss { s with ledger := l } = made at hrun
      obtain ⟨result, last⟩ := made
      obtain ⟨rfl, -⟩ := Prod.mk.inj hrun
      obtain ⟨done, st, rest, s₁, rfl, hdone, hfail⟩ := Statement.evaluateAll_eq_error hall
      have hc := h.made hbuild
      rcases Statement.evaluate_failure hfail with hasked | ⟨f, o, source, fault, -, hval, -⟩ | ⟨b, s₂, s₃, hcopies, hnested⟩
      · exact ⟨0, id, s, .here, hc.outlined.exists_told (by simp) hasked⟩
      · -- no markup is inserted
        have hpending := (hc.pending s.env).run hc h.env (expands_below r n) [] (st :: rest) rfl hdone
        exact absurd hval (Environment.evaluate_ne_markup ((hpending.scan.env.reaches _).trans h.env) o source)
      · have hh : Hands r n id s (Block.copyNodes s₂.tree b.body).1 (b.copied s₂) :=
          ⟨done, st, rest, l, s₁, b, s₂, hbuild, hdone, hcopies, rfl, rfl⟩
        obtain ⟨depth, id', s'', hdeeper, htold⟩ := ih (h.hands hh) hnested
        exact ⟨depth + 1, id', s'', .deeper hh hdeeper, htold⟩

/-- **A failure tells where the field is that it speaks of.** Where no markup can be reached, the
    merge of a text fails only for a fault of the template or of the context, and the failure has
    the number of the text. If the text is tidy, it has the span of a field of the text that is
    at fault itself or has the operand that is quoted, in however many copies of blocks and
    for whichever items it came about. -/
theorem text_failure_told {xml : String} {source : Nat} {t : Tree} (hread : Tree.ofText xml source = .ok t)
    {env : Environment} (henv : env.reaches Content.isMarkup = false) {r : Registry} {e : Failure} {env' : Environment}
    (hfail : Merge.text r xml source env = (.error e, env')) :
    e.source = source ∧ ((∃ fault, e.cause = .template fault) ∨ ∃ fault, e.cause = .context fault) ∧
      (t.Tidy root → ∃ f ∈ t.fields root, e.span = some f.span ∧ e.cause.SpeaksOf r f) := by
  have ht := wellFormed_of_ofText hread
  have hentry : Entry root ⟨t, env, Ledger.empty⟩ := ⟨ht, ht.top, ht.rooted, henv⟩
  cases hout : (t.merge r env).outcome with
  | ok _ => cases (text_ok hread hout).symm.trans hfail
  | error e' =>
    cases (text_error hread hout).symm.trans hfail
    obtain ⟨last, hrun⟩ := merge_eq_error hout
    have hdeep : e'.cause ≠ .tooDeep := by
      refine below_ne_tooDeep r hentry ?_ hrun
      show (t.markers root).length < (t.markers root).length + 1 + levelsForMarkup
      omega
    obtain ⟨depth, id, s, hnested, g, hg, htold⟩ := exists_told_of_below hentry hrun hdeep
    refine ⟨rfl, htold.1.blames, fun htidy => ?_⟩
    obtain ⟨f, hf, hexpression, hspan⟩ := hnested.told hentry htidy g hg
    have hne : f.first ≠ root := by
      intro he
      have hel := htidy.isElement_first hf
      rw [he, not_isElement_root hread] at hel
      cases hel
    have hfound := htold.congr hexpression hspan
    exact ⟨f, hf, hfound.span (span_of_mem_fields hread hf hne), hfound.1⟩

namespace FailingTexts

/-- A failing operand in a conditional, and that in a loop. -/
def nested : String :=
  "<w:p><w:fldSimple w:instr=\"MERGEFIELD l:each(i)\"/></w:p>" ++
  "<w:p><w:fldSimple w:instr=\"MERGEFIELD i:if\"/><w:fldSimple w:instr=\"MERGEFIELD =f.g\"/>" ++
  "<w:fldSimple w:instr=\"MERGEFIELD i:endIf\"/></w:p>" ++
  "<w:p><w:fldSimple w:instr=\"MERGEFIELD l:endEach\"/></w:p>"

def field (directive : String) (parent : NodeId) (span : Span) : Node :=
  ⟨.element Word.simpleField [(Word.fieldInstruction, "MERGEFIELD " ++ directive)], some parent, [], span⟩

def nestedTree : Tree := ⟨#[⟨.container, none, [1, 3, 7], .none⟩,
  ⟨.element Word.paragraph [], some root, [2], ⟨0, 56⟩⟩,
  field "l:each(i)" 1 ⟨5, 50⟩,
  ⟨.element Word.paragraph [], some root, [4, 5, 6], ⟨56, 190⟩⟩,
  field "i:if" 3 ⟨61, 101⟩,
  field "=f.g" 3 ⟨101, 141⟩,
  field "i:endIf" 3 ⟨141, 184⟩,
  ⟨.element Word.paragraph [], some root, [8], ⟨190, 246⟩⟩,
  field "l:endEach" 7 ⟨195, 240⟩]⟩

/-- The conditional is kept for the second item, and a text has no members. -/
def nestedEnv : Environment :=
  ⟨[("f", .content (.text "A")), ("l", .list [.boolean false, .boolean true])], [], .lenient, .empty⟩

theorem merge_nested : (nestedTree.merge Registry.stock nestedEnv).outcome =
    .error ⟨.context (.unknownMember "f.g" "g" "Text"), some ⟨101, 141⟩, 0⟩ := by cbv

/-- A field of which the begin marker stands in the paragraph, in a conditional. -/
def bare : String :=
  "<w:p><w:fldSimple w:instr=\"MERGEFIELD a:if\"/>" ++
  "<w:fldChar w:fldCharType=\"begin\"/><w:instrText> MERGEFIELD =x..y </w:instrText>" ++
  "<w:fldChar w:fldCharType=\"separate\"/><w:fldChar w:fldCharType=\"end\"/>" ++
  "<w:fldSimple w:instr=\"MERGEFIELD a:endIf\"/></w:p>"

def marker (type : MarkerType) (span : Span) : Node :=
  ⟨.element Word.fieldChar [(Word.fieldCharType, type.value)], some 1, [], span⟩

def bareTree : Tree := ⟨#[⟨.container, none, [1], .none⟩,
  ⟨.element Word.paragraph [], some root, [2, 3, 4, 6, 7, 8], ⟨0, 242⟩⟩,
  field "a:if" 1 ⟨5, 45⟩,
  marker .opening ⟨45, 79⟩,
  ⟨.element Word.instructionText [], some 1, [5], ⟨79, 124⟩⟩,
  ⟨.text " MERGEFIELD =x..y ", some 4, [], ⟨92, 110⟩⟩,
  marker .separator ⟨124, 161⟩,
  marker .closing ⟨161, 193⟩,
  field "a:endIf" 1 ⟨193, 236⟩]⟩

def bareEnv : Environment := ⟨[("a", .boolean true)], [], .lenient, .empty⟩

theorem merge_bare : (bareTree.merge Registry.stock bareEnv).outcome =
    .error ⟨.template (.invalidOperand ⟨"x..y", .emptySegment⟩), none, 0⟩ := by cbv

end FailingTexts

open FailingTexts in
/-- The failure of the inner field, two levels deep and for the second item, tells where it is. -/
theorem nested_failure_told : Tree.ofText nested 3 = .ok nestedTree ∧ nestedTree.Tidy root ∧
    nestedEnv.reaches Content.isMarkup = false ∧ ∃ e env', Merge.text Registry.stock nested 3 nestedEnv = (.error e, env') ∧
      e.source = 3 ∧ (∃ fault, e.cause = .context fault) ∧
      ∃ f ∈ nestedTree.fields root, e.span = some f.span ∧ e.cause.SpeaksOf Registry.stock f := by
  have hread : Tree.ofText nested 3 = .ok nestedTree := by cbv
  have htidy : nestedTree.Tidy root := by decide
  have henv : nestedEnv.reaches Content.isMarkup = false := by decide
  have hfail : Merge.text Registry.stock nested 3 nestedEnv =
      (.error ⟨.context (.unknownMember "f.g" "g" "Text"), some ⟨101, 141⟩, 3⟩, (nestedTree.merge Registry.stock nestedEnv).env) :=
    text_error hread merge_nested
  obtain ⟨hsource, -, hfield⟩ := text_failure_told hread henv hfail
  exact ⟨hread, htidy, henv, _, _, hfail, hsource, ⟨_, rfl⟩, hfield htidy⟩

open FailingTexts in
/-- Where a begin marker stands in the row of a body, its copy stands in a node that was never
    written, and the failure has no place. -/
theorem bare_failure_without_place : Tree.ofText bare 0 = .ok bareTree ∧ bareEnv.reaches Content.isMarkup = false ∧
    ∃ e env', Merge.text Registry.stock bare 0 bareEnv = (.error e, env') ∧
      e.cause = .template (.invalidOperand ⟨"x..y", .emptySegment⟩) ∧
      ∀ f ∈ bareTree.fields root, e.span ≠ some f.span := by
  have hread : Tree.ofText bare 0 = .ok bareTree := by cbv
  have hfail : Merge.text Registry.stock bare 0 bareEnv =
      (.error ⟨.template (.invalidOperand ⟨"x..y", .emptySegment⟩), none, 0⟩, (bareTree.merge Registry.stock bareEnv).env) :=
    text_error hread merge_bare
  refine ⟨hread, by decide, _, _, hfail, rfl, ?_⟩
  intro f _ hspan
  cases hspan

end MailMerge
