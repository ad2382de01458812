/-
  MailMerge.Proofs.Merge.Mentioned — the names that matter to a merge.

  A merge looks names up that the operands of fields begin with. It finds these fields level by
  level, those of a body not before the body is copied, and names that loops bind are looked up
  like any other. Where two contexts bind the names of all the fields that a merge comes to scan
  in the same way, the merges are the same, whatever else the contexts bind. In a tidy tree a
  copy has no field that was not scanned before, so there the names of the fields of the part
  are enough.

  Proved: that (`merge_mentioned`). A tree that is not tidy has a field in a copy that no scan of
  the part finds, and the name in it matters (`unscanned_name_matters`).
-/

import MailMerge.Proofs.Merge.Beside

namespace MailMerge

open MailMerge.Merge MailMerge.Outline MailMerge.Tree

/-! ## Names -/

/-- The names that the operands of a field begin with. -/
def Field.mentions (r : Registry) (f : Field) : List String :=
  (f.operandTexts r).filterMap (fun text => (Operand.parse text).toOption.map Operand.root) ++
    match r.directive f.expression with
    | .value o => [o.root]
    | _ => []

variable {r : Registry} {f g : Field}

theorem Field.root_mem_mentions {o : Operand} (h : f.HasOperand r o) : o.root ∈ f.mentions r := by
  unfold mentions
  rcases h with ⟨text, htext, hparse⟩ | hd
  · refine List.mem_append_left _ (List.mem_filterMap.mpr ⟨text, htext, ?_⟩)
    rw [hparse]
    rfl
  · rw [hd]
    exact List.mem_append_right _ (List.mem_singleton_self _)

theorem Field.mentions_congr (h : g.expression = f.expression) : g.mentions r = f.mentions r := by
  rw [mentions, mentions, operandTexts_congr h, h]

/-- The name is one of a field that a merge scans, in the part or in the copy of a body. -/
def Merge.Mentions (r : Registry) (t : Tree) (env : Environment) (n : String) : Prop :=
  ∃ depth id s, Nested r (levelBound (t.markers root)) root ⟨t, env, Ledger.empty⟩ depth id s ∧
    ∃ f ∈ s.tree.fields id, n ∈ f.mentions r

/-- In a tidy tree it is one of a field of the part. -/
theorem Merge.Mentions.exists_field {t : Tree} (ht : t.WellFormed) {env : Environment} (henv : env.reaches Content.isMarkup = false)
    (htidy : t.Tidy root) {n : String} (h : Mentions r t env n) : ∃ f ∈ t.fields root, n ∈ f.mentions r := by
  obtain ⟨depth, id, s, hnested, g, hg, hn⟩ := h
  obtain ⟨f, hf, hexpression, -⟩ := hnested.told ⟨ht, ht.top, ht.rooted, henv⟩ htidy g hg
  exact ⟨f, hf, Field.mentions_congr hexpression ▸ hn⟩

/-! ## Merges -/

/-- Two merges end alike, with the same tree and the same images. -/
structure Merged.Same (m m' : Merged) : Prop where
  outcome : m'.outcome = m.outcome
  tree : m'.tree = m.tree
  media : m'.env.media = m.env.media

/-- **Only names that are mentioned matter.** If two contexts bind the names of all fields that a
    merge comes to scan in the same way, the merges are the same. Where no markup can be reached
    and the part is tidy, the names of the fields of the part are enough. -/
theorem merge_mentioned {t : Tree} (ht : t.WellFormed) (r : Registry) {env env' : Environment} (hscopes : env'.scopes = env.scopes)
    (hpolicy : env'.policy = env.policy) (hmedia : env'.media = env.media) :
    ((∀ n, Merge.Mentions r t env n → env'.context.lookup n = env.context.lookup n) → Merged.Same (t.merge r env) (t.merge r env')) ∧
      (env.reaches Content.isMarkup = false → t.Tidy root →
        (∀ f ∈ t.fields root, ∀ n ∈ f.mentions r, env'.context.lookup n = env.context.lookup n) →
        Merged.Same (t.merge r env) (t.merge r env')) := by
  have hall : (∀ n, Merge.Mentions r t env n → env'.context.lookup n = env.context.lookup n) →
      Merged.Same (t.merge r env) (t.merge r env') := by
    intro hagree
    -- no words differ, so the trees are the same
    let w : Leeway := ⟨fun n => env'.context.lookup n = env.context.lookup n, fun _ => False, False⟩
    have hvaries : ¬ w.varies := fun ⟨_, hn⟩ => hn
    have hstart : Reworded w.varies w.guarded t t := .refl (fun _ _ hx => ht.parent_of_mem hx) False.elim
    have henv : env.Beside w env' := ⟨hscopes, hpolicy, hmedia, fun _ hn => hn, fun _ hn => hn.elim⟩
    obtain ⟨houtcome, htree, himages⟩ := merge_alongside (r := r) hstart henv fun depth id s hnested => by
      have hshared : ∀ f ∈ s.tree.fields id, ∀ o, f.HasOperand r o → w.shared o.root := fun f hf o ho =>
        hagree _ ⟨depth, id, s, hnested, f, hf, f.root_mem_mentions ho⟩
      exact {
        fields := fun u hu => by rw [hu.same hvaries]
        minds := fun f hf => ⟨fun o ho => Or.inl (hshared f hf o (hasOperand_of_inserts ho)), fun o ho => hshared f hf o (hasOperand_of_asks ho)⟩
        entry := False.elim
        anchors := False.elim }
    exact ⟨houtcome, htree.same hvaries, himages⟩
  refine ⟨hall, fun hplain htidy hagree => hall fun n hn => ?_⟩
  obtain ⟨f, hf, hmention⟩ := hn.exists_field ht hplain htidy
  exact hagree f hf n hmention

/-! ## A field that no scan of the part finds -/

namespace UnscannedField

open FailingTexts

def opened : String := "<w:p><w:fldSimple w:instr=\"MERGEFIELD a:if\"/>"

def inserted : String := "<w:fldChar w:fldCharType=\"begin\"/><w:instrText> MERGEFIELD =x </w:instrText>"

def ended : String := "<w:fldChar w:fldCharType=\"separate\"/><w:fldChar w:fldCharType=\"end\"/>"

def closed : String := "<w:fldSimple w:instr=\"MERGEFIELD a:endIf\"/><w:instrText>extra</w:instrText></w:p>"

/-- The instruction of the field in the conditional goes on behind it, and reads `=x extra`. In
    the copy of the body it reads `=x`. -/
def text : String := opened ++ (inserted ++ (ended ++ closed))

def tree : Tree := ⟨#[⟨.container, none, [1], .none⟩,
  ⟨.element Word.paragraph [], some root, [2, 3, 4, 6, 7, 8, 9], ⟨0, 271⟩⟩,
  field "a:if" 1 ⟨5, 45⟩,
  marker .opening ⟨45, 79⟩,
  ⟨.element Word.instructionText [], some 1, [5], ⟨79, 121⟩⟩,
  ⟨.text " MERGEFIELD =x ", some 4, [], ⟨92, 107⟩⟩,
  marker .separator ⟨121, 158⟩,
  marker .closing ⟨158, 190⟩,
  field "a:endIf" 1 ⟨190, 233⟩,
  ⟨.element Word.instructionText [], some 1, [10], ⟨233, 265⟩⟩,
  ⟨.text "extra", some 9, [], ⟨246, 251⟩⟩]⟩

def unbound : Environment := ⟨[("a", .boolean true)], [], .strict, .empty⟩

def bound : Environment := ⟨[("a", .boolean true), ("x", .string "X")], [], .strict, .empty⟩

theorem ofText_text : Tree.ofText text 0 = .ok tree := by
  have hchars : text.toList = opened.toList ++ (inserted.toList ++ (ended.toList ++ closed.toList)) := by
    simp only [text, String.toList_append]
  rw [Tree.ofText, Tree.readInto, hchars]
  cbv

theorem wellFormed_tree : tree.WellFormed := wellFormed_of_ofText ofText_text

/-- The block of the conditional. -/
def block : Block := ⟨.inline, ⟨2, "a:if", 2, [], .simple, true, ⟨5, 45⟩⟩, ⟨8, "a:endIf", 8, [], .simple, true, ⟨190, 233⟩⟩, 2, 8, [3, 4, 6, 7]⟩

def conditional : Statement := .condition ⟨⟨"a", []⟩, none, block⟩

/-- The field that is found in the copy of the body. -/
def copied : Field := ⟨12, "=x", 11, [], .complex, true, .none⟩

theorem fields_tree : tree.fields root = [block.startField, block.endField] := by decide +kernel

theorem ofFields_tree : ofFields Registry.stock tree (tree.fields root) =
    .ok ([conditional], ⟨[8, 2], [], [1, 1]⟩) := by
  rw [fields_tree]
  cbv

theorem mentions_tree : (tree.fields root).flatMap (Field.mentions Registry.stock) = ["a"] := by decide +kernel

theorem fields_copy : (Block.copyNodes tree block.body).2.fields (Block.copyNodes tree block.body).1 = [copied] := by decide +kernel

theorem ofFields_copy : ofFields Registry.stock (Block.copyNodes tree block.body).2
    ((Block.copyNodes tree block.body).2.fields (Block.copyNodes tree block.body).1) =
      .ok ([.insertion copied ⟨"x", []⟩], .empty) := by
  rw [fields_copy]
  cbv

theorem outcome_tree (env : Environment) : (tree.merge Registry.stock env).outcome =
    (Statement.evaluateAll (below Registry.stock (2 + levelsForMarkup + 1)) [conditional] ⟨tree, env, ⟨[8, 2], [], [1, 1]⟩⟩).1 := by
  have hlevels : levelBound (tree.markers root) = 2 + levelsForMarkup + 1 + 1 := by decide
  rw [merge_of_ofFields hlevels ofFields_tree]
  generalize Statement.evaluateAll _ _ _ = done
  obtain ⟨result, last⟩ := done
  cases result <;> rfl

theorem merge_unbound : (tree.merge Registry.stock unbound).outcome = .error ⟨.context (.undefined "x" "x"), none, 0⟩ := by
  rw [outcome_tree]
  cbv

theorem merge_bound : (tree.merge Registry.stock bound).outcome = .ok () := by
  rw [outcome_tree]
  cbv

theorem mentions_copied : copied.mentions Registry.stock = ["x"] := by decide +kernel

theorem mem_of_singleton {α : Type} {a b : α} {before after : List α} (h : [a] = before ++ b :: after) : before = [] ∧ b = a := by
  cases before with
  | nil => exact ⟨rfl, (List.cons.inj h).1.symm⟩
  | cons c before => simp at h

/-- The merge scans the part and the copy of the body. -/
theorem level_cases {env : Environment} {depth : Nat} {id : NodeId} {s : Session}
    (h : Nested Registry.stock (levelBound (tree.markers root)) root ⟨tree, env, Ledger.empty⟩ depth id s) :
    id = root ∧ s.tree = tree ∨ id = (Block.copyNodes tree block.body).1 ∧ s.tree = (Block.copyNodes tree block.body).2 := by
  cases h with
  | here => exact Or.inl ⟨rfl, rfl⟩
  | deeper hh hnested =>
    obtain ⟨done, st, rest, l, s₁, b, s₂, hbuild, hdone, hcopies, rfl, rfl⟩ := hh
    obtain ⟨hss, rfl⟩ := Prod.mk.inj (Except.ok.inj (ofFields_tree.symm.trans hbuild))
    obtain ⟨rfl, rfl⟩ := mem_of_singleton hss
    cases hdone
    cases hcopies
    cases hnested with
    | here => exact Or.inr ⟨rfl, rfl⟩
    | deeper hh _ =>
      obtain ⟨done, st, rest, l, s₁, b, s₂, hbuild, -, hcopies, -, -⟩ := hh
      obtain ⟨hss, -⟩ := Prod.mk.inj (Except.ok.inj (ofFields_copy.symm.trans hbuild))
      obtain ⟨-, rfl⟩ := mem_of_singleton hss
      cases hcopies

/-- The names of the two scans. -/
theorem mentioned {env : Environment} {n : String} (h : Mentions Registry.stock tree env n) : n = "a" ∨ n = "x" := by
  obtain ⟨depth, id, s, hnested, f, hf, hn⟩ := h
  obtain ⟨rfl, htree⟩ | ⟨rfl, htree⟩ := level_cases hnested
  · have hname : n ∈ ["a"] := mentions_tree ▸ List.mem_flatMap.mpr ⟨f, htree ▸ hf, hn⟩
    exact Or.inl (List.mem_singleton.mp hname)
  · have hcopy : f ∈ [copied] := fields_copy ▸ htree ▸ hf
    obtain rfl := List.mem_singleton.mp hcopy
    exact Or.inr (List.mem_singleton.mp (mentions_copied ▸ hn))

end UnscannedField

open UnscannedField in
/-- Both contexts bind all names of the fields of the part alike, and hold no markup, but the
    strict merge fails where `x` is bound nowhere. -/
theorem unscanned_name_matters : Tree.ofText text 0 = .ok tree ∧ unbound.reaches Content.isMarkup = false ∧
    bound.reaches Content.isMarkup = false ∧ unbound.scopes = [] ∧ bound.scopes = [] ∧ bound.policy = unbound.policy ∧
    bound.media = unbound.media ∧
    (∀ f ∈ tree.fields root, ∀ n ∈ f.mentions Registry.stock, bound.context.lookup n = unbound.context.lookup n) ∧
    (tree.merge Registry.stock unbound).outcome = .error ⟨.context (.undefined "x" "x"), none, 0⟩ ∧
    (tree.merge Registry.stock bound).outcome = .ok () := by
  refine ⟨ofText_text, by decide, by decide, rfl, rfl, rfl, rfl, fun f hf n hn => ?_, merge_unbound, merge_bound⟩
  have hname : n ∈ ["a"] := mentions_tree ▸ List.mem_flatMap.mpr ⟨f, hf, hn⟩
  obtain rfl := List.mem_singleton.mp hname
  rfl

/-- Another name is bound, too. -/
def FieldsInParagraph.moreNames : Environment :=
  ⟨[("a", .boolean true), ("f", .content (.text "A")), ("z", .nil)], [], .lenient, .empty⟩

/-- Another name is bound, too. -/
def UnscannedField.moreNames : Environment :=
  ⟨[("a", .boolean true), ("x", .string "X"), ("z", .nil)], [], .strict, .empty⟩

open FieldsInParagraph in
/-- What else is bound does not matter, in a tidy tree and in one that is not. -/
theorem more_names_same : Merged.Same (kept.merge Registry.stock plainEnv) (kept.merge Registry.stock moreNames) ∧
    Merged.Same (UnscannedField.tree.merge Registry.stock UnscannedField.bound)
      (UnscannedField.tree.merge Registry.stock UnscannedField.moreNames) := by
  constructor
  · have hnames : (kept.fields root).flatMap (Field.mentions Registry.stock) = ["a", "f"] := by decide +kernel
    have hwell : kept.WellFormed := wellFormed_of_earlier (by decide) (by decide) (by decide)
    have hscopes : moreNames.scopes = plainEnv.scopes := rfl
    refine (merge_mentioned hwell Registry.stock hscopes rfl rfl).2 (by decide) (by decide) fun f hf n hn => ?_
    have hname : n ∈ ["a", "f"] := hnames ▸ List.mem_flatMap.mpr ⟨f, hf, hn⟩
    rcases List.mem_pair.mp hname with rfl | rfl <;> rfl
  · have hscopes : UnscannedField.moreNames.scopes = UnscannedField.bound.scopes := rfl
    refine (merge_mentioned UnscannedField.wellFormed_tree Registry.stock hscopes rfl rfl).1 fun n hn => ?_
    rcases UnscannedField.mentioned hn with rfl | rfl <;> rfl

end MailMerge
