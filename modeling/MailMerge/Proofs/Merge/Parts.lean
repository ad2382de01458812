/-
  MailMerge.Proofs.Merge.Parts — parts that are merged in one environment.

  The parts of a document are merged one after the other in one environment. A part leaves
  nothing of its own in it but the images that it has registered, whether it goes through or
  fails; an image that brings an id is not registered. Where a name reaches no other image, a
  merge does not touch its environment at all: what operands mean and what loops bind reaches
  nothing new, so every step can rely on it (`Merge.Steady`).

  Proved: each part comes out as it does alone among the images that the parts before it have
  registered, and when all images bring their ids the order of the parts does not matter
  (`parts_independent`).
-/

import Mathlib
import MailMerge.Proofs.Merge.Scopes
import MailMerge.Proofs.Value.Reach

namespace MailMerge

open Merge

/-- An image that gets its id from the registry. -/
def Content.needsId : Content → Bool
  | .image shown => shown.rid.isNone
  | _ => false

/-- Every image that can be reached from a name brings its id. -/
def Environment.Identified (env : Environment) : Prop := env.reaches Content.needsId = false

/-! ## Steps that leave the environment alone -/

/-- Among images that bring their ids a step leaves the environment as it is, also when it
    fails, and what it answers is as `Q` says. -/
def Merge.Steady {α : Type} (Q : α → Prop) (step : Merge α) : Prop :=
  ∀ s : Session, s.env.Identified → (step s).2.env = s.env ∧ ∀ a, (step s).1 = .ok a → Q a

/-- Nothing is said about the answer. -/
abbrev Merge.Answers {α : Type} (_ : α) : Prop := True

namespace Merge.Steady

variable {α β : Type} {Q : α → Prop} {step : Merge α}

theorem bind {R : β → Prop} {next : α → Merge β} (h : Steady Q step) (hnext : ∀ a, Q a → Steady R (next a)) :
    Steady R (step >>= next) := by
  intro s hs
  obtain ⟨henv, hanswer⟩ := h s hs
  rw [run_bind]
  generalize step s = done at henv hanswer ⊢
  obtain ⟨result, s'⟩ := done
  cases result with
  | error e => exact ⟨henv, fun _ h => nomatch h⟩
  | ok a =>
    obtain ⟨henv', hanswer'⟩ := hnext a (hanswer a rfl) s' (henv ▸ hs)
    exact ⟨henv'.trans henv, hanswer'⟩

/-- A step that has nothing to do with the environment. -/
theorem of_env (h : ∀ s, (step s).2.env = s.env) : Steady Answers step := fun s _ => ⟨h s, fun _ _ => trivial⟩

theorem pure {a : α} (h : Q a) : Steady Q (Pure.pure a : Merge α) := fun _ _ => ⟨rfl, fun _ ha => by cases ha; exact h⟩

theorem throw (e : Failure) : Steady Q (MonadExcept.throw e : Merge α) := fun _ _ => ⟨rfl, fun _ ha => nomatch ha⟩

theorem ask {question : Session → Except Failure α} (h : ∀ s, s.env.Identified → ∀ a, question s = .ok a → Q a) :
    Steady Q (Merge.ask question) := by
  intro s hs
  rw [run_ask]
  exact ⟨rfl, h s hs⟩

theorem underScope (h : Steady Q step) {name : String} {v : Value} (hv : v.reaches Content.needsId = false) :
    Steady Q (Merge.underScope (Scope.binding name v) step) := by
  intro s hs
  obtain ⟨henv, hanswer⟩ := h { s with env := s.env.push (Scope.binding name v) } (Environment.reaches_push hs hv name)
  rw [run_underScope]
  exact ⟨congrArg Environment.pop henv, hanswer⟩

theorem underLedger (h : Steady Q step) (ledger : Ledger) : Steady Q (Merge.underLedger ledger step) := by
  intro s hs
  rw [run_underLedger]
  exact h { s with ledger } hs

end Merge.Steady

/-! ## Statements -/

theorem Block.steady_expandBody {expand : NodeId → Merge Unit} (h : ∀ id, Steady Answers (expand id)) (b : Block) :
    Steady Answers (b.expandBody expand) :=
  .bind (.of_env fun _ => rfl) fun container _ => .bind (h container) fun _ _ => .of_env fun _ => rfl

theorem Block.steady_giveWay (b : Block) (content : List NodeId) : Steady Answers (b.giveWay content) := .of_env fun _ => rfl

namespace Statement

theorem steady_insert (f : Field) (v : Value) : Steady Answers (insert f v) := by
  have hedit : ∀ g : Tree → Tree, Steady Answers (editTree g) := fun _ => .of_env fun _ => rfl
  cases v with
  | boolean b => cases b <;> exact hedit _
  | content c =>
    cases c with
    | markup source =>
      refine .bind (Q := Answers) (.of_env fun _ => rfl) fun result _ => ?_
      cases result with
      | ok _ => exact .pure trivial
      | error e => exact .throw _
    | _ => exact hedit _
  | _ => exact hedit _

/-- An image that brings its id is not registered. -/
theorem steady_relationship {image : Image} (h : (Content.image image).needsId = false) :
    Steady Answers (relationship image) := by
  unfold relationship
  cases hrid : image.rid with
  | some rid => exact .pure trivial
  | none =>
    rw [Content.needsId, hrid] at h
    cases h

theorem steady_showPicture (operand : Operand) (b : Block) {v : Value} (h : v.reaches Content.needsId = false) :
    Steady Answers (showPicture operand b v) := by
  cases v with
  | nil => exact .pure trivial
  | content c =>
    cases c with
    | image image => exact .bind (steady_relationship h) fun rid _ => .of_env fun _ => rfl
    | _ => exact .throw _
  | _ => exact .throw _

theorem steady_giveWayTo (chosen : Nat) (content : List NodeId) (place : Nat) (bs : List Block) :
    Steady Answers (giveWayTo chosen content place bs) := by
  induction bs generalizing place with
  | nil => exact .pure trivial
  | cons b bs ih => exact .bind (b.steady_giveWay _) fun _ _ => ih (place + 1)

/-- What an operand means reaches no more than the names do. -/
theorem steady_askOperand {α : Type} {Q : α → Prop} {question : Environment → Except ContextFault α}
    (h : ∀ env : Environment, env.Identified → ∀ a, question env = .ok a → Q a) (span : Span) :
    Steady Q (askOperand span question) := by
  intro s hs
  rw [run_askOperand]
  refine ⟨rfl, fun a ha => h s.env hs a ?_⟩
  cases hq : question s.env with
  | error fault => rw [hq] at ha; cases ha
  | ok a' => rw [hq] at ha; cases ha; rfl

theorem steady_askValue (span : Span) (o : Operand) :
    Steady (fun v : Value => v.reaches Content.needsId = false) (askOperand span o.evaluate) :=
  steady_askOperand (fun _ henv _ => Environment.reaches_evaluate henv) span

theorem steady_askItems (span : Span) (o : Operand) :
    Steady (fun items : List Value => ∀ v ∈ items, v.reaches Content.needsId = false) (askOperand span o.evaluateItems) :=
  steady_askOperand (fun _ henv _ => Environment.reaches_evaluateItems henv) span

section expansions

variable {expand : NodeId → Merge Unit} (h : ∀ id, Steady Answers (expand id))

include h

theorem steady_iterate (iterator : String) (b : Block) {items : List Value}
    (hitems : ∀ v ∈ items, v.reaches Content.needsId = false) : Steady Answers (iterate expand iterator b items) := by
  induction items with
  | nil => exact .pure trivial
  | cons item items ih =>
    rw [List.forall_mem_cons] at hitems
    exact .bind ((b.steady_expandBody h).underScope hitems.1) fun content _ => .bind (ih hitems.2) fun more _ => .pure trivial

theorem steady_evaluate (st : Statement) : Steady Answers (st.evaluate expand) := by
  have hask : ∀ {α : Type} (question : Session → Except Failure α), Steady Answers (ask question) := fun _ =>
    .ask fun _ _ _ _ => trivial
  cases st with
  | insertion f o => exact .bind (steady_askValue _ o) fun v _ => steady_insert f v
  | loop list iterator b =>
    exact .bind (steady_askItems _ list) fun items hitems =>
      .bind (steady_iterate h iterator b hitems) fun content _ => b.steady_giveWay content
  | condition c =>
    refine .bind (hask _) fun kept _ => ?_
    cases kept with
    | true => exact .bind (c.block.steady_expandBody h) fun content _ => c.block.steady_giveWay content
    | false => exact .bind (Q := Answers) (.pure trivial) fun content _ => c.block.steady_giveWay content
  | choice branches otherwise =>
    refine .bind (hask _) fun holding _ => ?_
    simp only
    split
    · exact .bind (Block.steady_expandBody h _) fun content _ => steady_giveWayTo _ content 0 _
    · exact .bind (Q := Answers) (.pure trivial) fun content _ => steady_giveWayTo _ content 0 _
  | picture o b =>
    exact .bind (steady_askValue _ o) fun v hv => .bind (steady_showPicture o b hv) fun _ _ => b.steady_giveWay []
  | comment b => exact b.steady_giveWay []

theorem steady_evaluateAll (sts : List Statement) : Steady Answers (evaluateAll expand sts) := by
  induction sts with
  | nil => exact .pure trivial
  | cons st sts ih => exact .bind (steady_evaluate h st) fun _ _ => ih

end expansions

end Statement

/-! ## Merges -/

theorem Merge.steady_below (r : Registry) (n : Nat) (id : NodeId) : Steady Answers (below r n id) := by
  induction n generalizing id with
  | zero => exact .throw _
  | succ n ih =>
    exact .bind (.ask fun _ _ _ _ => trivial) fun made _ => (Statement.steady_evaluateAll ih made.1).underLedger made.2

theorem Merge.steady_part (r : Registry) : Steady Answers (part r) := by
  intro s
  rw [run_part]
  exact Steady.bind (steady_below r _ Tree.root) (fun _ _ => .of_env fun _ => rfl) s

/-- A merge among images that bring their ids leaves its environment as it is. -/
theorem merge_env {env : Environment} (h : env.Identified) (t : Tree) (r : Registry) : (t.merge r env).env = env := by
  rw [Tree.env_merge]
  exact (steady_part r ⟨t, env, Ledger.empty⟩ h).1

namespace Merge

/-- What is left of a part's environment, whether it can be read or not. -/
theorem text_env (r : Registry) (xml : String) (source : Nat) (env : Environment) :
    (∃ t : Tree, (text r xml source env).2 = (t.merge r env).env) ∨ (text r xml source env).2 = env := by
  -- which merge it is does not matter
  obtain ⟨merge, hmerge⟩ : ∃ merge : Tree → Merged, ∀ t, t.merge r env = merge t := ⟨fun t => t.merge r env, fun _ => rfl⟩
  unfold text
  simp only [hmerge]
  cases Tree.ofText xml source with
  | error e => exact Or.inr rfl
  | ok t =>
    refine Or.inl ⟨t, ?_⟩
    simp only
    cases (merge t).outcome <;> rfl

/-- A part leaves new images only. -/
theorem text_media (r : Registry) (xml : String) (source : Nat) (env : Environment) :
    (text r xml source env).2 = { env with media := (text r xml source env).2.media } := by
  rcases text_env r xml source env with ⟨t, ht⟩ | h
  · obtain ⟨hscopes, hcontext, hpolicy, -⟩ := merge_restores t r env
    rw [← ht] at hscopes hcontext hpolicy
    generalize (text r xml source env).2 = left at hscopes hcontext hpolicy ⊢
    rw [← hscopes, ← hcontext, ← hpolicy]
  · rw [h]

theorem text_identified {env : Environment} (h : env.Identified) (r : Registry) (xml : String) (source : Nat) :
    (text r xml source env).2 = env := by
  rcases text_env r xml source env with ⟨t, ht⟩ | he
  · rw [ht, merge_env h]
  · exact he

/-! ## Parts -/

/-- Merges parts one after the other in one environment, each with the number of its text. -/
def parts (r : Registry) : Environment → List (String × Nat) → List (Except Failure String) × Environment
  | env, [] => ([], env)
  | env, p :: rest =>
    let (result, env) := text r p.1 p.2 env
    let (results, env) := parts r env rest
    (result :: results, env)

theorem parts_cons (r : Registry) (env : Environment) (p : String × Nat) (rest : List (String × Nat)) :
    parts r env (p :: rest) = ((text r p.1 p.2 env).1 :: (parts r (text r p.1 p.2 env).2 rest).1, (parts r (text r p.1 p.2 env).2 rest).2) :=
  rfl

theorem texts_cons (r : Registry) (source : Nat) (env : Environment) (xml : String) (rest : List String) :
    texts r source env (xml :: rest) = ((text r xml source env).1 :: (texts r (source + 1) (text r xml source env).2 rest).1,
      (texts r (source + 1) (text r xml source env).2 rest).2) :=
  rfl

/-- Texts without numbers are numbered by their places. -/
theorem texts_eq_parts (r : Registry) (source : Nat) (env : Environment) (xmls : List String) :
    texts r source env xmls = parts r env (xmls.zipIdx source) := by
  induction xmls generalizing source env with
  | nil => rfl
  | cons xml xmls ih => rw [List.zipIdx_cons, texts_cons, parts_cons, ih]

theorem length_parts (r : Registry) (env : Environment) (ps : List (String × Nat)) : (parts r env ps).1.length = ps.length := by
  induction ps generalizing env with
  | nil => rfl
  | cons p ps ih => rw [parts_cons, List.length_cons, ih, List.length_cons]

theorem parts_append (r : Registry) (env : Environment) (ps qs : List (String × Nat)) :
    parts r env (ps ++ qs) = ((parts r env ps).1 ++ (parts r (parts r env ps).2 qs).1, (parts r (parts r env ps).2 qs).2) := by
  induction ps generalizing env with
  | nil => rfl
  | cons p ps ih => rw [List.cons_append, parts_cons, ih, parts_cons, List.cons_append]

/-- However many parts fail, they leave new images only. -/
theorem parts_media (r : Registry) (env : Environment) (ps : List (String × Nat)) :
    (parts r env ps).2 = { env with media := (parts r env ps).2.media } := by
  induction ps generalizing env with
  | nil => rfl
  | cons p ps ih =>
    have hmedia := text_media r p.1 p.2 env
    rw [parts_cons]
    calc (parts r (text r p.1 p.2 env).2 ps).2
        = { (text r p.1 p.2 env).2 with media := (parts r (text r p.1 p.2 env).2 ps).2.media } := ih _
      _ = { env with media := (parts r (text r p.1 p.2 env).2 ps).2.media } := by rw [hmedia]

/-- Each part is merged by itself when all images bring their ids. -/
theorem parts_identified {env : Environment} (h : env.Identified) (r : Registry) (ps : List (String × Nat)) :
    parts r env ps = (ps.map fun p => (text r p.1 p.2 env).1, env) := by
  induction ps with
  | nil => rfl
  | cons p ps ih => rw [parts_cons, text_identified h, ih, List.map_cons]

end Merge

/-- A part comes out as it does alone, with the context, the scopes and the policy that all
    started with and the images that the parts before it have left, whichever of them fail. If
    every image that can be reached brings its id, no part changes the environment, and in every
    order each part comes out the same. -/
theorem parts_independent (r : Registry) (env : Environment) (ps : List (String × Nat)) :
    (parts r env ps).1.length = ps.length ∧
      (∀ before p after, ps = before ++ p :: after → (parts r env ps).1[before.length]? =
        some (text r p.1 p.2 { env with media := (parts r env before).2.media }).1) ∧
      (env.Identified → ∀ qs : List (String × Nat), qs.Perm ps → (parts r env qs).2 = env ∧
        ∀ i j : Nat, qs[i]? = ps[j]? → (parts r env qs).1[i]? = (parts r env ps).1[j]?) := by
  refine ⟨length_parts r env ps, ?_, ?_⟩
  · rintro before p after rfl
    have hplace : before.length = (parts r env before).1.length := (length_parts r env before).symm
    rw [parts_append, parts_cons, ← parts_media, hplace, List.getElem?_append_right (Nat.le_refl _), Nat.sub_self]
    rfl
  · intro henv qs _
    rw [parts_identified henv, parts_identified henv]
    refine ⟨rfl, fun i j hij => ?_⟩
    rw [List.getElem?_map, List.getElem?_map, hij]

namespace LogoParts

def field (directive : String) (parent : NodeId) (span : Span) : Node :=
  ⟨.element Word.simpleField [(Word.fieldInstruction, "MERGEFIELD " ++ directive)], some parent, [], span⟩

def loopStart : String := "<w:p><w:fldSimple w:instr=\"MERGEFIELD l:each(i)\"/></w:p>"

def loopBody : String := "<w:p><w:fldSimple w:instr=\"MERGEFIELD =i.g\"/></w:p>"

def loopEnd : String := "<w:p><w:fldSimple w:instr=\"MERGEFIELD l:endEach\"/></w:p>"

/-- A part that fails in the copy that is made for the first item. -/
def broken : String := loopStart ++ (loopBody ++ loopEnd)

def brokenTree : Tree := ⟨#[⟨.container, none, [1, 3, 5], .none⟩,
  ⟨.element Word.paragraph [], some Tree.root, [2], ⟨0, 56⟩⟩, field "l:each(i)" 1 ⟨5, 50⟩,
  ⟨.element Word.paragraph [], some Tree.root, [4], ⟨56, 107⟩⟩, field "=i.g" 3 ⟨61, 101⟩,
  ⟨.element Word.paragraph [], some Tree.root, [6], ⟨107, 163⟩⟩, field "l:endEach" 5 ⟨112, 157⟩]⟩

def pictureStart : String := "<w:p><w:fldSimple w:instr=\"MERGEFIELD @logo:start\"/><a:blip r:embed=\"rId5\"/>"

def pictureEnd : String := "<w:fldSimple w:instr=\"MERGEFIELD @logo:end\"/></w:p>"

def pictured : String := pictureStart ++ pictureEnd

def picturedTree : Tree := ⟨#[⟨.container, none, [1], .none⟩,
  ⟨.element Word.paragraph [], some Tree.root, [2, 3, 4], ⟨0, 127⟩⟩, field "@logo:start" 1 ⟨5, 52⟩,
  ⟨.element Word.blip [(Word.embed, "rId5")], some 1, [], ⟨52, 76⟩⟩, field "@logo:end" 1 ⟨76, 121⟩]⟩

def env : Environment :=
  ⟨[("l", .list [.content (.text "A")]), ("logo", .content (.image ⟨"logo.png", [1, 2, 3], some "rId9"⟩))], [], .lenient, .empty⟩

theorem text_broken : (text Registry.stock broken 0 env).1 =
    .error ⟨.context (.unknownMember "i.g" "g" "Text"), some ⟨61, 101⟩, 0⟩ := by
  have hread : Tree.ofText broken 0 = .ok brokenTree := by
    have hchars : broken.toList = loopStart.toList ++ (loopBody.toList ++ loopEnd.toList) := by
      simp only [broken, String.toList_append]
    rw [Tree.ofText, Tree.readInto, hchars]
    cbv
  have hmerge : (brokenTree.merge Registry.stock env).outcome =
      .error ⟨.context (.unknownMember "i.g" "g" "Text"), some ⟨61, 101⟩, 0⟩ := by cbv
  exact congrArg Prod.fst (text_error hread hmerge)

theorem text_pictured : (text Registry.stock pictured 1 env).1 = .ok "<w:p><a:blip r:embed=\"rId9\"/></w:p>" := by
  have hread : Tree.ofText pictured 1 = .ok picturedTree := by
    have hchars : pictured.toList = pictureStart.toList ++ pictureEnd.toList := by simp only [pictured, String.toList_append]
    rw [Tree.ofText, Tree.readInto, hchars]
    cbv
  have hmerge : (picturedTree.merge Registry.stock env).outcome = .ok () := by cbv
  have hwritten : (picturedTree.merge Registry.stock env).tree.toMarkup = "<w:p><a:blip r:embed=\"rId9\"/></w:p>" := by cbv
  rw [← hwritten]
  exact congrArg Prod.fst (text_ok hread hmerge)

end LogoParts

open LogoParts in
/-- A part that fails in a loop leaves nothing to the part behind it, which comes out as it does
    in front of it. -/
theorem independent_of_broken : env.Identified ∧ [(pictured, 1), (broken, 0)].Perm [(broken, 0), (pictured, 1)] ∧
    (parts Registry.stock env [(broken, 0), (pictured, 1)]).1[1]? =
      (parts Registry.stock env [(pictured, 1), (broken, 0)]).1[0]? ∧
    (parts Registry.stock env [(broken, 0), (pictured, 1)]).1[1]? = some (.ok "<w:p><a:blip r:embed=\"rId9\"/></w:p>") ∧
    (text Registry.stock broken 0 env).1 = .error ⟨.context (.unknownMember "i.g" "g" "Text"), some ⟨61, 101⟩, 0⟩ := by
  have henv : env.Identified := by
    unfold Environment.Identified
    decide
  have hswap : [(pictured, 1), (broken, 0)].Perm [(broken, 0), (pictured, 1)] := .swap _ _ _
  obtain ⟨-, halone, horder⟩ := parts_independent Registry.stock env [(broken, 0), (pictured, 1)]
  refine ⟨henv, hswap, ((horder henv _ hswap).2 0 1 rfl).symm, ?_, text_broken⟩
  have hmedia : (parts Registry.stock env [(broken, 0)]).2.media = env.media := by rw [parts_identified henv]
  have hsecond := halone [(broken, 0)] (pictured, 1) [] rfl
  rw [hmedia] at hsecond
  exact hsecond.trans (congrArg some text_pictured)

end MailMerge
