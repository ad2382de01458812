/-
  MailMerge.Proofs.Merge.Dropped — what becomes of the bodies of blocks.

  When the blocks of a statement have given way, some nodes have left the tree, and every
  other node that was there before stands where it stood: the body of a block is copied,
  never moved. Which nodes leave is told by the ledger (`Block.leavingAll`).

  Proved: the body of a block is out of the part when its statement has been carried out,
  unless the expression that starts the block begins with `@`; then the body stays where
  it is (`attached_body_iff`). Directives other than pictures may begin so as well, and a
  conditional that does keeps its body also when the guard fails (`body_kept_behind_at`).
-/

import MailMerge.Proofs.Merge.Kept

namespace MailMerge

open MailMerge.Tree Merge Outline

namespace Tree

/-- When some nodes have left and the others stand where they stood, what is in the part is
    what was there and had no node above it leave. -/
theorem within_root_of_left {t u : Tree} (h : t.WellFormed) {gone : List NodeId}
    (hp : ∀ y < t.size, u.parent y = if y ∈ gone then none else t.parent y)
    {x : NodeId} (hx : x < t.size) :
    u.Within root x ↔ t.Within root x ∧ ∀ y ∈ gone, y ≠ root → ¬ t.Within y x := by
  constructor
  · intro hw
    induction hw with
    | refl => exact ⟨within_refl t root, fun y _ hne hw => hne (within_of_parent_none h.top hw)⟩
    | @tail q z _ hz ih =>
      have hlt := hp z hx
      rw [hz] at hlt
      split at hlt
      · cases hlt
      · next hgone =>
        have hzt := hlt.symm
        obtain ⟨hq, hnone⟩ := ih (h.parent_lt_size hzt)
        refine ⟨within_parent hq hzt, fun y hy hne hyz => ?_⟩
        rcases within_iff.mp hyz with rfl | ⟨q', hq', hyq⟩
        · exact hgone hy
        · rw [hzt] at hq'
          cases hq'
          exact hnone y hy hne hyq
  · rintro ⟨hw, hnone⟩
    induction hw with
    | refl => exact within_refl u root
    | @tail q z _ hz ih =>
      have hzr : z ≠ root := by rintro rfl; rw [h.top] at hz; cases hz
      refine within_parent (ih (h.parent_lt_size hz) fun y hy hne hyq => hnone y hy hne (within_parent hyq hz)) ?_
      rw [hp z hx, if_neg fun hgone => hnone z hgone hzr (within_refl t z)]
      exact hz

end Tree

/-! ## Blocks that give way -/

namespace Block

/-- The nodes that leave while the blocks give way one after the other. -/
def leavingAll : List Block → Ledger → List NodeId
  | [], _ => []
  | b :: bs, l => b.leaving l ++ leavingAll bs (b.after l)

theorem leavingAll_append (bs bs' : List Block) (l : Ledger) :
    leavingAll (bs ++ bs') l = leavingAll bs l ++ leavingAll bs' (bs.foldl (fun l b => b.after l) l) := by
  induction bs generalizing l with
  | nil => rfl
  | cons b bs ih => rw [List.cons_append, leavingAll, leavingAll, ih, List.append_assoc, List.foldl_cons]

theorem ledger_giveWay (b : Block) (content : List NodeId) (s : Session) :
    (b.giveWay content s).2.ledger = b.after s.ledger := by rw [run_giveWay, replace_eq]

theorem ledger_dropAll (bs : List Block) (s : Session) :
    (dropAll bs s).ledger = bs.foldl (fun l b => b.after l) s.ledger := by
  induction bs generalizing s with
  | nil => rfl
  | cons b bs ih =>
    show (dropAll bs (b.giveWay [] s).2).ledger = _
    rw [ih, ledger_giveWay, List.foldl_cons]

theorem parent_giveWay_of_not_mem (b : Block) {content : List NodeId} (s : Session) {y : NodeId} (hy : y ∉ content) :
    (b.giveWay content s).2.tree.parent y = if y ∈ b.leaving s.ledger then none else s.tree.parent y := by
  rw [run_giveWay, replace_eq]
  show ((s.tree.insertAllAfter b.startNode content).detachAll (b.leaving s.ledger)).parent y = _
  rw [parent_detachAll, parent_insertAllAfter_of_not_mem _ _ hy]

theorem parent_dropAll (bs : List Block) (s : Session) (y : NodeId) :
    (dropAll bs s).tree.parent y = if y ∈ leavingAll bs s.ledger then none else s.tree.parent y := by
  induction bs generalizing s with
  | nil => rfl
  | cons b bs ih =>
    show (dropAll bs (b.giveWay [] s).2).tree.parent y = _
    rw [ih, ledger_giveWay, parent_giveWay_of_not_mem b s List.not_mem_nil, leavingAll]
    by_cases hb : y ∈ b.leaving s.ledger <;> by_cases hbs : y ∈ leavingAll bs (b.after s.ledger) <;> simp [hb, hbs]

theorem parent_of_dropAll {bs : List Block} {s : Session} {y p : NodeId} (hp : (dropAll bs s).tree.parent y = some p) :
    s.tree.parent y = some p := by
  rw [parent_dropAll] at hp
  split at hp
  · cases hp
  · exact hp

/-- One of the blocks is given content, the others give way to nothing. -/
theorem parent_hand (before : List Block) (b : Block) (after : List Block) {content : List NodeId} (s : Session)
    {y : NodeId} (hy : y ∉ content) :
    (dropAll after (b.giveWay content (dropAll before s)).2).tree.parent y =
      if y ∈ leavingAll (before ++ b :: after) s.ledger then none else s.tree.parent y := by
  rw [parent_dropAll, ledger_giveWay, parent_giveWay_of_not_mem b _ hy, parent_dropAll, leavingAll_append, leavingAll,
    ledger_dropAll]
  simp only [List.mem_append]
  by_cases hbefore : y ∈ leavingAll before s.ledger
  · simp [hbefore]
  · by_cases hb : y ∈ b.leaving (before.foldl (fun l b => b.after l) s.ledger) <;> simp [hbefore, hb]

/-- A body leaves with its block, unless it is one around a picture. -/
theorem mem_leavingAll_of_body {b : Block} (hk : b.kind ≠ .image) {x : NodeId} (hx : x ∈ b.body) {bs : List Block}
    (hb : b ∈ bs) (l : Ledger) : x ∈ leavingAll bs l := by
  induction bs generalizing l with
  | nil => cases hb
  | cons c bs ih =>
    rw [leavingAll, List.mem_append]
    rcases List.mem_cons.mp hb with rfl | hb
    · left
      rw [leaving, if_neg hk]
      exact List.mem_append_left _ hx
    · exact Or.inr (ih hb _)

end Block

/-! ## Statements -/

/-- What a statement makes is new, and the rest of the tree stands where it stood. -/
theorem Statement.Makes.fresh {expand : NodeId → Merge Unit} (hexp : Expands expand) {s made : Session}
    (h : s.tree.WellFormed) {st : Statement} {before after : List Block} {b : Block} {content : List NodeId}
    (hm : Makes expand s st before b after content made) (hb : b.Owned (fun x => 0 ≤ x) s.tree) :
    Expanded s.tree.size s made ∧ Fresh s.tree.size made.tree content := by
  cases hm with
  | @loop list iterator _ items _ _ _ hmade =>
    obtain ⟨hed, hfresh⟩ := iterate_spec hexp iterator items h hb.inStore
    rw [hmade] at hed hfresh
    exact ⟨hed, hfresh content rfl⟩
  | condition _ hmade =>
    obtain ⟨hed, hfresh⟩ := expandBody_spec hexp h hb.inStore
    rw [hmade] at hed hfresh
    exact ⟨hed, hfresh content rfl⟩
  | choice _ _ _ hmade =>
    obtain ⟨hed, hfresh⟩ := expandBody_spec hexp h hb.inStore
    rw [hmade] at hed hfresh
    exact ⟨hed, hfresh content rfl⟩

/-- A statement with blocks takes some nodes out, and moves no other node that was there. -/
theorem Statement.parent_evaluate {expand : NodeId → Merge Unit} (hexp : Expands expand) {s s' : Session}
    (h : s.tree.WellFormed) {st : Statement} (hst : ∀ f o, st ≠ .insertion f o) (hown : st.Owned (fun x => 0 ≤ x) s.tree)
    (hrun : st.evaluate expand s = (.ok (), s')) {y : NodeId} (hy : y < s.tree.size) :
    s'.tree.parent y = if y ∈ Block.leavingAll st.blocks s.ledger then none else s.tree.parent y := by
  rcases evaluate_cases hrun with ⟨f, o, v, rfl, -⟩ | ⟨before, b, after, content, made, hm⟩ | ⟨o, b, v, made, rfl, hshow, rfl⟩ | rfl
  · exact absurd rfl (hst f o)
  · obtain ⟨hed, hfresh⟩ := hm.fresh hexp h (hown.blocks b (by rw [hm.blocks]; simp))
    rw [hm.run_evaluate] at hrun
    cases hrun
    have hnew : y ∉ content := fun hyc => Nat.not_lt_of_le (hfresh y hyc).1 hy
    rw [Block.parent_hand before b after made hnew, hm.blocks, hed.ledger, hed.tree.parent_eq hy]
  · obtain ⟨hledger, hparent⟩ := showPicture_spec o b v s
    rw [hshow] at hledger hparent
    rw [Block.parent_dropAll, hledger, hparent y]
    rfl
  · exact Block.parent_dropAll _ s y

/-- Carrying out a statement takes the bodies of its blocks out of the part. Those of blocks
    that start with `@` stay, together with all that is above them and does not leave. -/
theorem attached_body_iff {r : Registry} {n : Nat} {t : Tree} (h : t.WellFormed) {id : NodeId} {ss : List Statement}
    {l : Ledger} (hbuild : Outline.ofFields r t (t.fields id) = .ok (ss, l)) {done rest : List Statement} {st : Statement}
    (hsplit : ss = done ++ st :: rest) {env : Environment} {s s' : Session}
    (hdone : Statement.evaluateAll (below r n) done ⟨t, env, l⟩ = (.ok (), s))
    (hrun : st.evaluate (below r n) s = (.ok (), s')) {b : Block} (hb : b ∈ st.blocks) {x : NodeId} (hx : x ∈ b.body) :
    s'.tree.isAttached x = true ↔ b.startField.expression.startsWith "@" = true ∧ s.tree.isAttached x = true ∧
      ∀ y ∈ Block.leavingAll st.blocks s.ledger, y ≠ root → ¬ s.tree.Within y x := by
  have hout := outlined_of_takeAll hbuild
  have hmem : st ∈ ss := by rw [hsplit]; simp
  have hown := Tree.Zone.owned_statements (fenced_zero h) (fun _ hx => hx) (Nat.zero_le id) hout
  have hexp := expands_below r n
  have hbefore := edits_evaluateAll (s := ⟨t, env, l⟩) hexp (fenced_zero h)
    (fun st' hst' => hown st' (by rw [hsplit]; exact List.mem_append_left _ hst')) fun _ _ _ _ hx => hx
  rw [hdone] at hbefore
  have hs := hbefore.tree.wellFormed
  have hst := (hown st hmem).edited hbefore.tree
  have hs' := (edits_evaluate hexp (fenced_zero hs) hst fun _ _ hx => hx).tree.wellFormed
  rw [hrun] at hs'
  have hne : ∀ f o, st ≠ .insertion f o := by
    rintro f o rfl
    cases hb
  obtain ⟨-, hxr, hlt⟩ := (hst.blocks b hb).body x hx
  rw [hs'.isAttached_iff, hs.isAttached_iff,
    within_root_of_left hs (fun y hy => Statement.parent_evaluate hexp hs hne hst hrun hy) hlt,
    ← Block.kind_eq_image_iff (hout.resolves hmem hb)]
  constructor
  · rintro ⟨hw, hnone⟩
    refine ⟨?_, hw, hnone⟩
    by_contra hk
    exact hnone x (Block.mem_leavingAll_of_body hk hx hb _) hxr (within_refl _ x)
  · exact fun hall => hall.2

/-! ## A conditional that starts with `@` -/

/-- A body of three paragraphs; the first and the last bound a conditional whose name begins
    with `@`. -/
def guarded : Tree :=
  ⟨#[⟨.container, none, [1], .none⟩, element 0 "w:body" [2, 4, 5], element 1 Word.paragraph [3], field 2 "@a:if",
    element 1 Word.paragraph [], element 1 Word.paragraph [6], field 5 "@a:endIf"]⟩
where
  element (parent : NodeId) (name : String) (children : List NodeId) : Node := ⟨.element name [], some parent, children, .none⟩
  field (parent : NodeId) (directive : String) : Node :=
    ⟨.element Word.simpleField [(Word.fieldInstruction, "MERGEFIELD " ++ directive)], some parent, [], .none⟩

namespace Guarded

def env : Environment := ⟨[("@a", .boolean false)], [], .lenient, .empty⟩

def fieldAt (marker : NodeId) (directive : String) : Field := ⟨marker, directive, marker, [], .simple, true, .none⟩

def condition : Condition := ⟨⟨"@a", []⟩, none, ⟨.image, fieldAt 3 "@a:if", fieldAt 6 "@a:endIf", 2, 5, [4]⟩⟩

def ledger : Ledger := ⟨[6, 3], [], [5, 2]⟩

def start : Session := ⟨guarded, env, ledger⟩

theorem wellFormed : guarded.WellFormed := wellFormed_of_earlier (by decide) (by decide) (by decide)

theorem built : Outline.ofFields Registry.stock guarded (guarded.fields root) = .ok ([.condition condition], ledger) := by cbv

theorem run : (Statement.condition condition).evaluate (below Registry.stock 1) start =
    (.ok (), ((Statement.condition condition).evaluate (below Registry.stock 1) start).2) := Prod.ext (by cbv) rfl

end Guarded

open Guarded in
/-- The guard fails, and yet the body stays in the part. -/
theorem body_kept_behind_at : ∃ (t : Tree) (env : Environment) (c : Condition) (l : Ledger) (s' : Session),
    t.WellFormed ∧ Outline.ofFields Registry.stock t (t.fields root) = .ok ([.condition c], l) ∧ c.holds env = .ok false ∧
      (Statement.condition c).evaluate (below Registry.stock 1) ⟨t, env, l⟩ = (.ok (), s') ∧
      ∃ x ∈ c.block.body, s'.tree.isAttached x = true :=
  ⟨guarded, env, condition, ledger, _, wellFormed, built, by cbv, run, 4, List.mem_singleton_self 4, by cbv⟩

open Guarded in
/-- What stays is the body, as nothing above it leaves. -/
theorem body_attached_behind_at : guarded.WellFormed ∧
    (((Statement.condition condition).evaluate (below Registry.stock 1) start).2.tree.isAttached 4 = true ↔
      condition.block.startField.expression.startsWith "@" = true ∧ start.tree.isAttached 4 = true ∧
        ∀ y ∈ Block.leavingAll [condition.block] start.ledger, y ≠ root → ¬ start.tree.Within y 4) := by
  have hsplit : [Statement.condition condition] = [] ++ .condition condition :: [] := rfl
  have hdone : Statement.evaluateAll (below Registry.stock 1) [] ⟨guarded, env, ledger⟩ = (.ok (), start) := rfl
  exact ⟨wellFormed, attached_body_iff wellFormed built hsplit hdone run (List.mem_singleton_self condition.block)
    (List.mem_singleton_self 4)⟩

end MailMerge
