/-
  MailMerge.Proofs.Merge.Beside — two merges that run beside each other.

  Two environments may bind some names to the same values, and some to texts that are put in in
  the same way (`Environment.Beside`). As long as a merge asks for names of the first kind, and
  of the second kind only for what it puts in, both merges get the same answers and do the same,
  but for words (`Alongside`). This is carried through every way in which steps are put together,
  and through the levels of a merge, where the condition is on the fields that a level scans
  (`Level`). The merge of a copy is one level deeper, so the induction is on the levels that a
  merge comes to (`Nested`), and the content that a copy leaves is known to have the same words
  on both sides (`Loose`) because the copies stand in no text element.

  Proved: merges that ask for nothing else have the same outcome and images, and trees that
  differ in words (`merge_alongside`).
-/

import MailMerge.Proofs.Block.Reworded
import MailMerge.Proofs.Merge.Closed
import MailMerge.Proofs.Merge.Told

namespace MailMerge

open MailMerge.Merge MailMerge.Outline MailMerge.Tree

/-! ## Environments -/

/-- In what two merges may differ. -/
structure Leeway where
  /-- What these names mean is the same. -/
  shared : String → Prop
  /-- These names may mean texts that are put in in the same way. -/
  reworded : String → Prop
  /-- No element is to come to stand in an instruction. -/
  guarded : Prop

/-- Words may differ. -/
def Leeway.varies (w : Leeway) : Prop := ∃ n, w.reworded n

variable {w : Leeway}

/-- The values are the same, or texts that are put in in the same way. -/
def Value.Beside (w : Leeway) (v v' : Value) : Prop :=
  v' = v ∨ ∃ a b, v = .string a ∧ v' = .string b ∧ Splice.LinesAlike w.varies a b

structure Environment.Beside (w : Leeway) (e e' : Environment) : Prop where
  scopes : e'.scopes = e.scopes
  policy : e'.policy = e.policy
  media : e'.media = e.media
  shared : ∀ n, w.shared n → e'.context.lookup n = e.context.lookup n
  reworded : ∀ n, w.reworded n → e'.context.lookup n = e.context.lookup n ∨
    ∃ v v', e.context.lookup n = some v ∧ e'.context.lookup n = some v' ∧ v.Beside w v'

namespace Environment.Beside

variable {e e' : Environment}

theorem push (h : e.Beside w e') (scope : Scope) : (e.push scope).Beside w (e'.push scope) :=
  { h with scopes := congrArg (scope :: ·) h.scopes }

theorem pop (h : e.Beside w e') : e.pop.Beside w e'.pop := { h with scopes := congrArg (List.drop 1) h.scopes }

theorem lookup_shared (h : e.Beside w e') {n : String} (hn : w.shared n) : e'.lookup? n = e.lookup? n := by
  rw [lookup?, lookup?, h.scopes, h.shared n hn]

/-- A scope that binds the name binds it alike. -/
theorem lookup_reworded (h : e.Beside w e') {n : String} (hn : w.reworded n) : e'.lookup? n = e.lookup? n ∨
    ∃ v v', e.lookup? n = some v ∧ e'.lookup? n = some v' ∧ v.Beside w v' := by
  rw [lookup?, lookup?, h.scopes]
  cases e.scopes.findSome? (·.lookup n) with
  | some v => exact Or.inl rfl
  | none => exact h.reworded n hn

end Environment.Beside

namespace Operand

variable {e e' : Environment} {o : Operand}

theorem evaluate_shared (h : e.Beside w e') (ho : w.shared o.root) : o.evaluate e' = o.evaluate e := by
  rw [evaluate, evaluate, lookup, lookup, h.lookup_shared ho, h.policy]

theorem evaluatePredicate_shared (h : e.Beside w e') (ho : w.shared o.root) (predicate : String) :
    o.evaluatePredicate predicate e' = o.evaluatePredicate predicate e := by
  rw [evaluatePredicate, evaluatePredicate, evaluate_shared h ho]

theorem evaluateItems_shared (h : e.Beside w e') (ho : w.shared o.root) : o.evaluateItems e' = o.evaluateItems e := by
  rw [evaluateItems, evaluateItems, evaluate_shared h ho]

/-- What an operand without members means is what its root name is bound to. -/
theorem evaluate_of_lookup (hm : o.members = []) {v : Value} (hv : e.lookup? o.root = some v) : o.evaluate e = .ok v := by
  rw [evaluate, lookup, hv, hm]
  rfl

theorem evaluate_reworded (h : e.Beside w e') (ho : w.reworded o.root) (hm : o.members = []) : o.evaluate e' = o.evaluate e ∨
    ∃ v v', o.evaluate e = .ok v ∧ o.evaluate e' = .ok v' ∧ v.Beside w v' := by
  rcases h.lookup_reworded ho with hsame | ⟨v, v', hv, hv', hbeside⟩
  · refine Or.inl ?_
    rw [evaluate, evaluate, lookup, lookup, hsame, h.policy]
  · exact Or.inr ⟨v, v', evaluate_of_lookup hm hv, evaluate_of_lookup hm hv', hbeside⟩

end Operand

namespace Condition

variable {e e' : Environment}

theorem holds_shared (h : e.Beside w e') {c : Condition} (hc : w.shared c.operand.root) : c.holds e' = c.holds e := by
  unfold holds
  cases c.predicate with
  | none => simp only [Operand.evaluate_shared h hc]
  | some predicate => simp only [Operand.evaluatePredicate_shared h hc]

theorem firstHolding_shared (h : e.Beside w e') {cs : List Condition} (hcs : ∀ c ∈ cs, w.shared c.operand.root) :
    firstHolding e' cs = firstHolding e cs := by
  induction cs with
  | nil => rfl
  | cons c cs ih =>
    rw [firstHolding, firstHolding, holds_shared h (hcs c List.mem_cons_self), ih fun c' hc' => hcs c' (List.mem_cons_of_mem c hc')]

end Condition

/-! ## Runs -/

structure Session.Beside (w : Leeway) (s s' : Session) : Prop where
  tree : Reworded w.varies w.guarded s.tree s'.tree
  env : s.env.Beside w s'.env
  ledger : s'.ledger = s.ledger

/-- Two runs have the same result, and leave sessions that are beside each other. -/
structure Merge.Alongside (w : Leeway) {α : Type} (done done' : Except Failure α × Session) : Prop where
  result : done'.1 = done.1
  session : done.2.Beside w done'.2

section runs

variable {α β : Type} {s s' : Session}

theorem Merge.Alongside.bind {step : Merge α} {next : α → Merge β} (h : Alongside w (step s) (step s'))
    (hnext : ∀ a s₁ s₁', step s = (.ok a, s₁) → step s' = (.ok a, s₁') → s₁.Beside w s₁' → Alongside w (next a s₁) (next a s₁')) :
    Alongside w ((step >>= next) s) ((step >>= next) s') := by
  rw [run_bind, run_bind]
  generalize step s = done at h hnext ⊢
  generalize step s' = done' at h hnext ⊢
  obtain ⟨result, s₁⟩ := done
  obtain ⟨result', s₁'⟩ := done'
  obtain ⟨hresult, hsession⟩ := h
  simp only at hresult hsession
  subst hresult
  cases result' with
  | error e => exact ⟨rfl, hsession⟩
  | ok a => exact hnext a s₁ s₁' rfl rfl hsession

theorem Session.Beside.pure (h : s.Beside w s') (a : α) : Alongside w ((Pure.pure a : Merge α) s) ((Pure.pure a : Merge α) s') := ⟨rfl, h⟩

theorem Session.Beside.throw (h : s.Beside w s') (e : Failure) :
    Alongside w ((MonadExcept.throw e : Merge α) s) ((MonadExcept.throw e : Merge α) s') := ⟨rfl, h⟩

theorem Session.Beside.editTree (h : s.Beside w s') {f f' : Tree → Tree} (hf : Reworded w.varies w.guarded (f s.tree) (f' s'.tree)) :
    Alongside w (Merge.editTree f s) (Merge.editTree f' s') := ⟨rfl, hf, h.env, h.ledger⟩

theorem Session.Beside.ask (h : s.Beside w s') (question : Environment → Except Failure α) (hq : question s'.env = question s.env) :
    Alongside w (Merge.ask (fun s => question s.env) s) (Merge.ask (fun s => question s.env) s') := by
  rw [run_ask, run_ask]
  exact ⟨hq, h⟩

theorem Session.Beside.askOperand (h : s.Beside w s') {question : Environment → Except ContextFault α}
    (hq : question s'.env = question s.env) (span : Span) :
    Alongside w (Statement.askOperand span question s) (Statement.askOperand span question s') :=
  h.ask (fun env => (question env).mapError fun fault => Failure.context fault span) (by rw [hq])

end runs

/-- The nodes of the tree keep their kinds, but for attributes. -/
def Merge.Lasts {α : Type} (step : Merge α) : Prop := ∀ s : Session, Lasting s.tree (step s).2.tree

theorem Merge.Lasts.bind {α β : Type} {step : Merge α} {next : α → Merge β} (h : Lasts step) (hnext : ∀ a, Lasts (next a)) :
    Lasts (step >>= next) := by
  intro s
  have hs := h s
  rw [run_bind]
  generalize step s = done at hs ⊢
  obtain ⟨result, s'⟩ := done
  cases result with
  | error e => exact hs
  | ok a => exact hs.trans (hnext a s')

theorem Merge.lasts_ask {α : Type} (question : Session → Except Failure α) : Lasts (ask question) := by
  intro s
  rw [run_ask]
  exact .refl _

theorem Statement.lasts_relationship (image : Image) : Lasts (relationship image) := by
  unfold relationship
  cases image.rid <;> exact fun s => .refl s.tree

theorem Merge.closed_lasts : Closed @Lasts where
  pure _ s := .refl s.tree
  throw _ s := .refl s.tree
  bind := .bind
  remove f s := lasting_detachAll s.tree f.anchors
  putText f text s := Splice.lasting_putText s.tree f text
  putMarkup f source s := Splice.lasting_putMarkup s.tree f source
  aimPictures image rid b s := Statement.lasting_aimPictures image rid b s.tree
  copyNodes ids s := Block.lasting_copyNodes s.tree ids
  takeChildren _ s := lasting_detachAll s.tree _
  askTree _ := lasts_ask _
  askValue _ _ := lasts_ask _
  askItems _ _ := lasts_ask _
  askGuard _ := lasts_ask _
  askGuards _ := lasts_ask _
  giveWay b content s := Block.lasting_replace b content s.tree s.ledger
  relationship := Statement.lasts_relationship
  underScope scope h s := h { s with env := s.env.push scope }
  underLedger ledger h s := h { s with ledger }

/-! ## Insertions and pictures -/

namespace Statement

variable {s s' : Session}

/-- A value that is put in is markup only where instructions need no guard. -/
theorem alongside_insert (h : s.Beside w s') {f : Field} (hf : f.Stands w.guarded s.tree) {v v' : Value} (hv : v.Beside w v')
    (hplain : w.guarded → ∀ source, v ≠ .content (.markup source)) : Alongside w (insert f v s) (insert f v' s') := by
  have htext : ∀ {a b}, Splice.LinesAlike w.varies a b → Alongside w (editTree (Splice.putText f a) s) (editTree (Splice.putText f b) s') :=
    fun hab => h.editTree (Splice.reworded_putText h.tree hf hab)
  have hsame : ∀ a, Alongside w (editTree (Splice.putText f a) s) (editTree (Splice.putText f a) s') := fun a => htext (.refl _ a)
  have hremove : Alongside w (editTree f.remove s) (editTree f.remove s') := h.editTree (h.tree.detachAll f.anchors)
  rcases hv with rfl | ⟨a, b, rfl, rfl, hab⟩
  · cases v' with
    | nil => exact hremove
    | boolean b =>
      cases b with
      | false => exact hremove
      | true => exact hsame _
    | content c =>
      cases c with
      | image image => exact hremove
      | text text => exact hsame text
      | markup source =>
        obtain ⟨hresult, hput⟩ := Splice.reworded_putMarkup h.tree (fun hg => hplain hg source rfl) hf source
        have hstep : Alongside w (withTree (Splice.putMarkup f source) s) (withTree (Splice.putMarkup f source) s') :=
          ⟨congrArg Except.ok hresult, hput, h.env, h.ledger⟩
        refine hstep.bind fun result s₁ s₁' _ _ h₁ => ?_
        cases result with
        | ok _ => exact h₁.pure _
        | error e => exact h₁.throw _
    | _ => exact hsame _
  · exact htext hab

theorem alongside_relationship (h : s.Beside w s') (image : Image) : Alongside w (relationship image s) (relationship image s') := by
  unfold relationship
  cases image.rid with
  | some rid => exact h.pure rid
  | none =>
    refine ⟨?_, h.tree, { h.env with media := ?_ }, h.ledger⟩
    · show Except.ok (s'.env.media.register image).1 = .ok (s.env.media.register image).1
      rw [h.env.media]
    · show (s'.env.media.register image).2 = (s.env.media.register image).2
      rw [h.env.media]

theorem alongside_showPicture (h : s.Beside w s') (operand : Operand) (b : Block) (v : Value) :
    Alongside w (showPicture operand b v s) (showPicture operand b v s') := by
  cases v with
  | nil => exact h.pure _
  | content c =>
    cases c with
    | image image =>
      exact (alongside_relationship h image).bind fun rid s₁ s₁' _ _ h₁ => h₁.editTree (reworded_aimPictures h₁.tree image rid b)
    | _ => exact h.throw _
  | _ => exact h.throw _

end Statement

/-! ## Blocks -/

/-- Nodes that stand nowhere do so after an edit that places none of them. -/
theorem Block.Loose.lasting {guarded : Prop} {t u t' u' : Tree} {content : List NodeId} (h : Loose guarded t u content)
    (hsize : u.size = t.size) (hw : u'.wordless = t'.wordless) (ht : Lasting t t') (hu : Lasting u u')
    (hp : guarded → ∀ x < t.size, t.parent x = none → t'.parent x = none) : Loose guarded t' u' content where
  worded x hx := by
    obtain ⟨hlt, hk⟩ := h.worded x hx
    exact ⟨Nat.lt_of_lt_of_le hlt ht.grows, kind_eq_of_lasting hw ht hu hlt (hsize ▸ hlt) hk⟩
  aside hg x hx := hp hg x (h.worded x hx).1 (h.aside hg x hx)

theorem Block.Loose.nil {guarded : Prop} {t u : Tree} : Loose guarded t u [] := ⟨(fun _ hx => nomatch hx), fun _ _ hx => nomatch hx⟩

/-- Two runs that make content do it alongside each other, and the content is loose. -/
structure Merge.Supplies (w : Leeway) (done done' : Except Failure (List NodeId) × Session) : Prop extends Alongside w done done' where
  loose : ∀ content, done.1 = .ok content → Block.Loose w.guarded done.2.tree done'.2.tree content

section blocks

variable {s s' : Session} {b : Block}

theorem Block.alongside_giveWay (h : s.Beside w s') (hstart : w.guarded → s.tree.isElement b.startNode = true) {content : List NodeId}
    (hcontent : Loose w.guarded s.tree s'.tree content) : Alongside w (b.giveWay content s) (b.giveWay content s') := by
  obtain ⟨hledger, htree⟩ := reworded_replace h.tree hstart hcontent s.ledger
  rw [run_giveWay, run_giveWay, h.ledger]
  exact ⟨rfl, htree, h.env, hledger⟩

theorem Block.beside_dropAll {bs : List Block} (h : s.Beside w s') (hstart : w.guarded → ∀ b ∈ bs, s.tree.isElement b.startNode = true) :
    (dropAll bs s).Beside w (dropAll bs s') := by
  induction bs generalizing s s' with
  | nil => exact h
  | cons b bs ih =>
    refine ih (alongside_giveWay h (fun hg => hstart hg b List.mem_cons_self) .nil).session fun hg b' hb' => ?_
    exact (lasting_replace b [] s.tree s.ledger).element (hstart hg b' (List.mem_cons_of_mem b hb'))

theorem Statement.alongside_giveWayTo {bs : List Block} {chosen place : Nat} {content : List NodeId} (h : s.Beside w s')
    (hstart : w.guarded → ∀ b ∈ bs, s.tree.isElement b.startNode = true) (hcontent : Block.Loose w.guarded s.tree s'.tree content) :
    Alongside w (giveWayTo chosen content place bs s) (giveWayTo chosen content place bs s') := by
  induction bs generalizing place s s' with
  | nil => exact h.pure ()
  | cons b bs ih =>
    have hlast : ∀ given, w.guarded → ∀ b' ∈ bs, (b.giveWay given s).2.tree.isElement b'.startNode = true := fun given hg b' hb' =>
      (Block.lasting_replace b given s.tree s.ledger).element (hstart hg b' (List.mem_cons_of_mem b hb'))
    rw [run_giveWayTo_cons, run_giveWayTo_cons]
    by_cases hp : chosen = place
    · rw [if_pos hp, run_giveWayTo_of_ne content (Or.inl (by omega)), run_giveWayTo_of_ne content (Or.inl (by omega))]
      exact ⟨rfl, Block.beside_dropAll (Block.alongside_giveWay h (fun hg => hstart hg b List.mem_cons_self) hcontent).session (hlast content)⟩
    · rw [if_neg hp]
      have hone := (Block.alongside_giveWay h (fun hg => hstart hg b List.mem_cons_self) .nil).session
      refine ih hone (hlast []) (hcontent.lasting h.tree.size hone.tree.wordless (Block.lasting_replace b [] s.tree s.ledger)
        (Block.lasting_replace b [] s'.tree s'.ledger) fun _ x _ hx => ?_)
      show (b.replace [] s.tree s.ledger).1.parent x = none
      rw [Block.replace_eq, parent_detachAll]
      split
      · rfl
      · exact hx

end blocks

/-! ## Copies -/

/-- What is done to the copy of a body is done beside it in the same way. -/
def Block.Follows (w : Leeway) (expand : NodeId → Merge Unit) (b : Block) (s : Session) : Prop :=
  ∀ s', (b.copied s).Beside w s' → Alongside w (expand (copyNodes s.tree b.body).1 (b.copied s)) (expand (copyNodes s.tree b.body).1 s')

section copies

variable {expand : NodeId → Merge Unit} (hlasts : ∀ id, Lasts (expand id)) {s s' : Session} {b : Block}

include hlasts

theorem Block.supplies_expandBody (h : s.Beside w s') (hbody : ∀ x ∈ b.body, s.tree.isElement x = true)
    (hfollows : b.Follows w expand s) : Supplies w (b.expandBody expand s) (b.expandBody expand s') := by
  obtain ⟨hfst, hcopy⟩ := reworded_copyNodes h.tree hbody
  have hrun := hfollows (b.copied s') ⟨hcopy, h.env, h.ledger⟩
  have hnamed := (hlasts (copyNodes s.tree b.body).1 (b.copied s)).named (isNamed_copyNodes s.tree b.body)
  rw [run_expandBody, run_expandBody, hfst]
  generalize (copyNodes s.tree b.body).1 = container at hrun hnamed ⊢
  simp only [copied] at hrun hnamed
  generalize expand container { s with tree := (copyNodes s.tree b.body).2 } = done at hrun hnamed ⊢
  generalize expand container { s' with tree := (copyNodes s'.tree b.body).2 } = done' at hrun ⊢
  obtain ⟨result, s₁⟩ := done
  obtain ⟨result', s₁'⟩ := done'
  obtain ⟨hresult, hsession⟩ := hrun
  simp only at hresult hsession hnamed
  subst hresult
  cases result' with
  | error e => exact ⟨⟨rfl, hsession⟩, fun content hc => by cases hc⟩
  | ok _ =>
    -- the copies stand in a node that is no text element
    have htext : s₁.tree.isNamed Word.text container = false := not_isNamed_of_isNamed hnamed (by decide)
    simp only [hsession.tree.children]
    refine ⟨⟨rfl, hsession.tree.detachAll _, hsession.env, hsession.ledger⟩, fun content hc => ?_⟩
    cases hc
    refine ⟨fun x hx => ?_, fun _ x hx => ?_⟩
    · rw [size_detachAll, kind_detachAll, kind_detachAll]
      exact ⟨(hsession.tree.links container x hx).2.stored, hsession.tree.kind_of_mem hx htext⟩
    · rw [parent_detachAll, if_pos hx]

theorem Statement.supplies_iterate (iterator : String) (items : List Value) (h : s.Beside w s')
    (hbody : ∀ x ∈ b.body, s.tree.isElement x = true)
    (hguard : w.guarded → Expands expand ∧ s.tree.WellFormed ∧ ∀ x ∈ b.body, x ≠ root ∧ x < s.tree.size)
    (hfollows : ∀ before item after content s₁, items = before ++ item :: after →
      iterate expand iterator b before s = (.ok content, s₁) →
      b.Follows w expand { s₁ with env := s₁.env.push (Scope.binding iterator item) }) :
    Supplies w (iterate expand iterator b items s) (iterate expand iterator b items s') := by
  induction items generalizing s s' with
  | nil =>
    refine ⟨h.pure [], fun content hc => ?_⟩
    cases hc
    exact .nil
  | cons item items ih =>
    have hpushed : Session.Beside w { s with env := s.env.push (Scope.binding iterator item) }
        { s' with env := s'.env.push (Scope.binding iterator item) } := ⟨h.tree, h.env.push _, h.ledger⟩
    have hone := Block.supplies_expandBody hlasts hpushed hbody (hfollows [] item items [] s rfl rfl)
    have hlast := Closed.expandBody closed_lasts hlasts b { s with env := s.env.push (Scope.binding iterator item) }
    have hspec := fun hg => (underScope_spec (hguard hg).1 (hguard hg).2.1 (hguard hg).2.2 (Scope.binding iterator item)).1
    have hmore : ∀ first s₁, underScope (Scope.binding iterator item) (b.expandBody expand) s = (.ok first, s₁) →
        ∀ before item' after content s₂, items = before ++ item' :: after → iterate expand iterator b before s₁ = (.ok content, s₂) →
        b.Follows w expand { s₂ with env := s₂.env.push (Scope.binding iterator item') } := by
      intro first s₁ hfirst before item' after content s₂ hsplit hbefore
      refine hfollows (item :: before) item' after (first ++ content) s₂ (by rw [hsplit]; rfl) ?_
      rw [run_iterate_cons, hfirst]
      simp only [hbefore]
    rw [run_iterate_cons, run_iterate_cons]
    rw [run_underScope] at hmore hspec ⊢
    rw [run_underScope]
    generalize b.expandBody expand { s with env := s.env.push (Scope.binding iterator item) } = done at hone hlast hspec hmore ⊢
    generalize b.expandBody expand { s' with env := s'.env.push (Scope.binding iterator item) } = done' at hone ⊢
    obtain ⟨result, s₁⟩ := done
    obtain ⟨result', s₁'⟩ := done'
    obtain ⟨⟨hresult, hsession⟩, hloose⟩ := hone
    simp only at hresult hsession hlast hspec hmore hloose ⊢
    subst hresult
    have hpopped : Session.Beside w { s₁ with env := s₁.env.pop } { s₁' with env := s₁'.env.pop } :=
      ⟨hsession.tree, hsession.env.pop, hsession.ledger⟩
    cases result' with
    | error e => exact ⟨⟨rfl, hpopped⟩, nofun⟩
    | ok first =>
      simp only
      have hnext := ih hpopped (fun x hx => hlast.element (hbody x hx)) (fun hg => ?_) (hmore first _ rfl)
      · have hkeep := Closed.iterate closed_lasts hlasts iterator b items { s₁ with env := s₁.env.pop }
        have hkeep' := Closed.iterate closed_lasts hlasts iterator b items { s₁' with env := s₁'.env.pop }
        have hbeyond := fun hg => (iterate_spec (hguard hg).1 iterator items (s := { s₁ with env := s₁.env.pop }) (hspec hg).tree.wellFormed
          fun x hx => ⟨((hguard hg).2.2 x hx).1, Nat.lt_of_lt_of_le ((hguard hg).2.2 x hx).2 (hspec hg).tree.grows⟩).1.tree
        generalize Statement.iterate expand iterator b items { s₁ with env := s₁.env.pop } = rest at hnext hkeep hbeyond ⊢
        generalize Statement.iterate expand iterator b items { s₁' with env := s₁'.env.pop } = rest' at hnext hkeep' ⊢
        obtain ⟨result, s₂⟩ := rest
        obtain ⟨result', s₂'⟩ := rest'
        obtain ⟨⟨hresult, hsession₂⟩, hloose₂⟩ := hnext
        simp only at hresult hsession₂ hkeep hkeep' hbeyond hloose₂ ⊢
        subst hresult
        cases result' with
        | error e => exact ⟨⟨rfl, hsession₂⟩, nofun⟩
        | ok more =>
          refine ⟨⟨rfl, hsession₂⟩, fun content hc => ?_⟩
          cases hc
          have hfirst := (hloose first rfl).lasting hsession.tree.size hsession₂.tree.wordless hkeep hkeep' fun hg x hx hp =>
            ((hbeyond hg).parent_eq hx).trans hp
          have hlater := hloose₂ more rfl
          refine ⟨fun x hx => ?_, fun hg x hx => ?_⟩
          · exact (List.mem_append.mp hx).elim (hfirst.worded x) (hlater.worded x)
          · exact (List.mem_append.mp hx).elim (hfirst.aside hg x) (hlater.aside hg x)
      · exact ⟨(hguard hg).1, (hspec hg).tree.wellFormed, fun x hx =>
          ⟨((hguard hg).2.2 x hx).1, Nat.lt_of_lt_of_le ((hguard hg).2.2 x hx).2 (hspec hg).tree.grows⟩⟩

end copies

/-! ## Statements -/

/-- A statement asks for names that are shared, and puts in what they mean or a text that may differ. -/
def Statement.Minds (w : Leeway) : Statement → Prop
  | insertion _ o => w.shared o.root ∨ w.reworded o.root ∧ o.members = []
  | st => ∀ q ∈ st.questions, w.shared q.2.root

/-- The nodes of a statement are what edits of words rely on. -/
structure Statement.Stands (guarded : Prop) (st : Statement) (t : Tree) : Prop where
  field : ∀ f o, st = .insertion f o → f.Stands guarded t
  body : ∀ b ∈ st.blocks, ∀ x ∈ b.body, t.isElement x = true
  start : guarded → ∀ b ∈ st.blocks, t.isElement b.startNode = true

theorem Statement.Stands.lasting {guarded : Prop} {st : Statement} {t u : Tree} (h : st.Stands guarded t) (hl : Lasting t u) :
    st.Stands guarded u where
  field f o he := (h.field f o he).lasting hl
  body b hb x hx := hl.element (h.body b hb x hx)
  start hg b hb := hl.element (h.start hg b hb)

/-- What is known of a session, where instructions are guarded, when a statement is carried out. -/
structure Statement.Sheltered (st : Statement) (s : Session) : Prop where
  wellFormed : s.tree.WellFormed
  plain : s.env.Plain
  inStore : ∀ b ∈ st.blocks, ∀ x ∈ b.body, x ≠ root ∧ x < s.tree.size

namespace Statement

section expansions

variable {expand : NodeId → Merge Unit} (hlasts : ∀ id, Lasts (expand id)) (hexp : w.guarded → Expands expand)

include hlasts

/-- A chosen block is expanded, and gives way to the content in a later step. -/
theorem alongside_expandBody_bind {s s' : Session} (h : s.Beside w s') {st : Statement} (hstands : st.Stands w.guarded s.tree) {b : Block}
    (hb : b ∈ st.blocks) (hfollows : b.Follows w expand s) {place : List NodeId → Merge Unit}
    (hplace : ∀ content s₁ s₁', s₁.Beside w s₁' → st.Stands w.guarded s₁.tree → Block.Loose w.guarded s₁.tree s₁'.tree content →
      Alongside w (place content s₁) (place content s₁')) :
    Alongside w ((b.expandBody expand >>= place) s) ((b.expandBody expand >>= place) s') := by
  have hmade := Block.supplies_expandBody hlasts h (hstands.body b hb) hfollows
  refine hmade.toAlongside.bind fun content s₁ s₁' hcontent hcontent' h₁ => ?_
  have hlast := Closed.expandBody closed_lasts hlasts b s
  have hloose := hmade.loose content (by rw [hcontent])
  rw [hcontent, hcontent'] at hloose
  rw [hcontent] at hlast
  exact hplace content s₁ s₁' h₁ (hstands.lasting hlast) hloose

include hexp

/-- A statement does the same in both merges, if what it does to copies is the same. -/
theorem alongside_evaluate {s s' : Session} (h : s.Beside w s') {st : Statement} (hminds : st.Minds w) (hstands : st.Stands w.guarded s.tree)
    (hshelter : w.guarded → st.Sheltered s) (hfollows : ∀ b s₁, st.Copies expand s b s₁ → b.Follows w expand s₁) :
    Alongside w (st.evaluate expand s) (st.evaluate expand s') := by
  cases st with
  | insertion f o =>
    have hf := hstands.field f o rfl
    have hins : ∀ v v', o.evaluate s.env = .ok v → o.evaluate s'.env = .ok v' → v.Beside w v' →
        Alongside w ((insertion f o).evaluate expand s) ((insertion f o).evaluate expand s') := by
      intro v v' hv hv' hbeside
      rw [evaluate, run_bind_ok (run_askOperand_ok hv _), run_bind_ok (run_askOperand_ok hv' _)]
      exact alongside_insert h hf hbeside fun hg source he => (hshelter hg).plain o source (he ▸ hv)
    have hsame : o.evaluate s'.env = o.evaluate s.env →
        Alongside w ((insertion f o).evaluate expand s) ((insertion f o).evaluate expand s') := by
      intro hsame
      cases hv : o.evaluate s.env with
      | ok v => exact hins v v hv (hsame.trans hv) (Or.inl rfl)
      | error fault =>
        rw [evaluate, run_bind_error (run_askOperand_error hv _), run_bind_error (run_askOperand_error (hsame.trans hv) _)]
        exact ⟨rfl, h⟩
    rcases hminds with ho | ⟨ho, hm⟩
    · exact hsame (Operand.evaluate_shared h.env ho)
    · rcases Operand.evaluate_reworded h.env ho hm with heq | ⟨v, v', hv, hv', hbeside⟩
      · exact hsame heq
      · exact hins v v' hv hv' hbeside
  | loop list iterator b =>
    have hb : b ∈ (loop list iterator b).blocks := List.mem_cons_self
    refine (h.askOperand (Operand.evaluateItems_shared h.env (hminds _ (List.mem_singleton_self _))) _).bind ?_
    intro items s₁ s₁' hask hask' _
    obtain ⟨hitems, rfl⟩ := askOperand_eq_ok hask
    obtain ⟨-, rfl⟩ := askOperand_eq_ok hask'
    have hmade := supplies_iterate hlasts iterator items h (hstands.body b hb)
      (fun hg => ⟨hexp hg, (hshelter hg).wellFormed, (hshelter hg).inStore b hb⟩)
      fun before item after content s₂ hsplit hbefore => hfollows b _ (.loop (by rw [hitems, hsplit]) hbefore)
    refine hmade.toAlongside.bind fun content s₂ s₂' hcontent hcontent' h₂ => ?_
    have hlast := Closed.iterate closed_lasts hlasts iterator b items s₁
    have hloose := hmade.loose content (by rw [hcontent])
    rw [hcontent, hcontent'] at hloose
    rw [hcontent] at hlast
    exact Block.alongside_giveWay h₂ (fun hg => hlast.element (hstands.start hg b hb)) hloose
  | condition c =>
    have hb : c.block ∈ (condition c).blocks := List.mem_cons_self
    refine (h.ask c.holds (Condition.holds_shared h.env (hminds _ (List.mem_singleton_self _)))).bind ?_
    intro kept s₁ s₁' hask hask' _
    obtain ⟨hholds, rfl⟩ := Prod.mk.inj ((run_ask _ _).symm.trans hask)
    obtain ⟨-, rfl⟩ := Prod.mk.inj ((run_ask _ _).symm.trans hask')
    cases kept with
    | false => exact Block.alongside_giveWay h (fun hg => hstands.start hg c.block hb) .nil
    | true =>
      refine alongside_expandBody_bind hlasts h hstands hb (hfollows c.block s (.condition hholds)) ?_
      exact fun content s₁ s₁' h₁ hstands₁ hloose => Block.alongside_giveWay h₁ (fun hg => hstands₁.start hg c.block hb) hloose
  | choice branches otherwise =>
    have hshared := Condition.firstHolding_shared h.env fun c hc => hminds _ (List.mem_map_of_mem hc)
    refine (h.ask (Condition.firstHolding · branches) hshared).bind ?_
    intro holding s₁ s₁' hask hask' _
    obtain ⟨hholding, rfl⟩ := Prod.mk.inj ((run_ask _ _).symm.trans hask)
    obtain ⟨-, rfl⟩ := Prod.mk.inj ((run_ask _ _).symm.trans hask')
    simp only
    cases hb : (branches.map (·.block) ++ otherwise.toList)[holding.getD branches.length]? with
    | none => exact alongside_giveWayTo h hstands.start .nil
    | some b =>
      refine alongside_expandBody_bind hlasts h hstands (List.mem_of_getElem? hb) (hfollows b s (.choice hholding hb)) ?_
      exact fun content s₁ s₁' h₁ hstands₁ hloose => alongside_giveWayTo h₁ hstands₁.start hloose
  | picture o b =>
    have hb : b ∈ (picture o b).blocks := List.mem_cons_self
    refine (h.askOperand (Operand.evaluate_shared h.env (hminds _ (List.mem_singleton_self _))) _).bind ?_
    intro v s₁ s₁' hask hask' _
    obtain ⟨-, rfl⟩ := askOperand_eq_ok hask
    obtain ⟨-, rfl⟩ := askOperand_eq_ok hask'
    refine (alongside_showPicture h o b v).bind fun _ s₂ s₂' hshow _ h₂ => ?_
    have hlast := Closed.showPicture closed_lasts o b v s₁
    rw [hshow] at hlast
    exact Block.alongside_giveWay h₂ (fun hg => hlast.element (hstands.start hg b hb)) .nil
  | comment b => exact Block.alongside_giveWay h (fun hg => hstands.start hg b List.mem_cons_self) .nil

/-- So do statements one behind the other. -/
theorem alongside_evaluateAll {s s' : Session} (h : s.Beside w s') {ss : List Statement} (hminds : ∀ st ∈ ss, st.Minds w)
    (hstands : ∀ st ∈ ss, st.Stands w.guarded s.tree)
    (hsplit : ∀ done st rest s₁, ss = done ++ st :: rest → evaluateAll expand done s = (.ok (), s₁) →
      (w.guarded → st.Sheltered s₁) ∧ ∀ b s₂, st.Copies expand s₁ b s₂ → b.Follows w expand s₂) :
    Alongside w (evaluateAll expand ss s) (evaluateAll expand ss s') := by
  induction ss generalizing s s' with
  | nil => exact h.pure ()
  | cons st ss ih =>
    obtain ⟨hshelter, hfollows⟩ := hsplit [] st ss s rfl rfl
    have hone := alongside_evaluate hlasts hexp h (hminds st List.mem_cons_self) (hstands st List.mem_cons_self) hshelter hfollows
    refine hone.bind fun _ s₁ s₁' hrun _ h₁ => ?_
    have hlast := Closed.evaluate closed_lasts hlasts st s
    rw [hrun] at hlast
    refine ih h₁ (fun st' hst' => hminds st' (List.mem_cons_of_mem st hst'))
      (fun st' hst' => (hstands st' (List.mem_cons_of_mem st hst')).lasting hlast) ?_
    intro done st' rest s₂ hss hdone
    refine hsplit (st :: done) st' rest s₂ (by rw [hss]; rfl) ?_
    rw [run_evaluateAll_cons, hrun]
    exact hdone

end expansions

end Statement

/-! ## Levels -/

/-- A field asks for names that are shared, and puts in what they mean or a text that may differ. -/
structure Field.Minds (w : Leeway) (r : Registry) (f : Field) : Prop where
  inserts : ∀ o, Inserts r f o → w.shared o.root ∨ w.reworded o.root ∧ o.members = []
  asks : ∀ o, f.Asks r o → w.shared o.root

/-- A level of a merge: the fields are the same in whatever words, and they mind the leeway. -/
structure Merge.Level (w : Leeway) (r : Registry) (id : NodeId) (s : Session) : Prop where
  fields : ∀ u, Reworded w.varies w.guarded s.tree u → u.fields id = s.tree.fields id
  minds : ∀ f ∈ s.tree.fields id, f.Minds w r
  entry : w.guarded → Entry id s
  anchors : w.guarded → ∀ f ∈ s.tree.fields id, ∀ a ∈ f.anchors, s.tree.isElement a = true ∧ s.tree.isNamed Word.instructionText a = false

namespace Outline

variable {r : Registry} {t : Tree} {fields : List Field} {ss : List Statement} (ho : Outlined r t fields ss) {st : Statement} (hst : st ∈ ss)

include ho hst

theorem Outlined.minds (hminds : ∀ f ∈ fields, f.Minds w r) : st.Minds w := by
  cases st with
  | insertion f o => exact (hminds f ((ho.mem_fields hst).1 f o rfl)).inserts o (ho.inserts hst)
  | _ => exact fun q hq => (hminds q.1 (ho.mem_of_questions hst hq)).asks q.2 (ho.asks hst nofun hq)

/-- Where the fields stand, the statements made of them stand. -/
theorem Outlined.stands {guarded : Prop} (hfields : ∀ f ∈ fields, f.Stands guarded t) : st.Stands guarded t where
  field f o he := hfields f ((ho.mem_fields hst).1 f o he)
  body _ hb _ hx := Block.isElement_of_body (ho.resolves hst hb) hx
  start hg b hb := Block.isElement_startNode (ho.resolves hst hb)
    fun a ha => ((hfields b.startField ((ho.mem_fields hst).2 b hb).1).guard hg a ha).1

end Outline

variable {r : Registry} {n : Nat} {id : NodeId} {s s' : Session}

theorem Merge.Level.stands (h : Level w r id s) {f : Field} (hf : f ∈ s.tree.fields id) : f.Stands w.guarded s.tree where
  simple hs := (simple_of_mem_fields hf hs).2.2
  guard hg := h.anchors hg f hf

/-- **What a merge does not ask for does not matter.** If all levels that it comes to mind the
    leeway, the merge beside it does the same, but for words. -/
theorem Merge.alongside_below (hlevels : ∀ depth id' s₁, Nested r n id s depth id' s₁ → Level w r id' s₁) (h : s.Beside w s') :
    Alongside w (below r n id s) (below r n id s') := by
  induction n generalizing id s s' with
  | zero => exact h.throw _
  | succ n ih =>
    have hlevel := hlevels 0 id s .here
    rw [run_below_succ, run_below_succ, hlevel.fields _ h.tree, ofFields_reworded h.tree]
    cases hbuild : ofFields r s.tree (s.tree.fields id) with
    | error e => exact h.throw e
    | ok built =>
      obtain ⟨ss, l⟩ := built
      have ho := outlined_of_takeAll hbuild
      have hentered : Session.Beside w { s with ledger := l } { s' with ledger := l } := ⟨h.tree, h.env, rfl⟩
      have hall := Statement.alongside_evaluateAll (closed_lasts.below r n) (fun _ => expands_below r n) hentered
        (fun st hst => ho.minds hst hlevel.minds) (fun st hst => ho.stands hst fun f hf => hlevel.stands hf) ?_
      · simp only [run_underLedger]
        exact ⟨hall.result, hall.session.tree, hall.session.env, h.ledger⟩
      · rintro done st rest s₁ rfl hdone
        refine ⟨fun hg => ?_, fun b s₂ hcopies u hu => ?_⟩
        · have hentry := hlevel.entry hg
          have hpending := ((hentry.made hbuild).pending s.env).run (hentry.made hbuild) hentry.env (expands_below r n) []
            (st :: rest) rfl hdone
          have hown := hpending.scan.owned st (by simp)
          exact ⟨hpending.scan.wellFormed, Environment.evaluate_ne_markup ((hpending.scan.env.reaches _).trans hentry.env),
            fun b hb => (hown.blocks b hb).inStore⟩
        · have hh : Hands r n id s (Block.copyNodes s₂.tree b.body).1 (b.copied s₂) :=
            ⟨done, st, rest, l, s₁, b, s₂, hbuild, hdone, hcopies, rfl, rfl⟩
          exact ih (fun depth id' s₃ hn => hlevels (depth + 1) id' s₃ (.deeper hh hn)) hu

/-- Merges of a part, up to the repair of its table cells. -/
theorem merge_alongside {t : Tree} {env env' : Environment} (ht : Reworded w.varies w.guarded t t) (henv : env.Beside w env')
    (hlevels : ∀ depth id s, Nested r (levelBound (t.markers root)) root ⟨t, env, Ledger.empty⟩ depth id s → Level w r id s) :
    (t.merge r env').outcome = (t.merge r env).outcome ∧ Reworded w.varies w.guarded (t.merge r env).tree (t.merge r env').tree ∧
      (t.merge r env').env.media = (t.merge r env).env.media := by
  have hstart : Session.Beside w ⟨t, env, Ledger.empty⟩ ⟨t, env', Ledger.empty⟩ := ⟨ht, henv, rfl⟩
  have hrun := alongside_below hlevels hstart
  rw [merge_eq, merge_eq]
  generalize Merge.below r (levelBound (t.markers root)) root ⟨t, env, Ledger.empty⟩ = done at hrun ⊢
  generalize Merge.below r (levelBound (t.markers root)) root ⟨t, env', Ledger.empty⟩ = done' at hrun ⊢
  obtain ⟨result, last⟩ := done
  obtain ⟨result', last'⟩ := done'
  obtain ⟨hresult, hsession⟩ := hrun
  simp only at hresult hsession
  subst hresult
  cases result' with
  | error e => exact ⟨rfl, hsession.tree, hsession.env.media⟩
  | ok _ => exact ⟨rfl, hsession.tree.fillEmptyCells root, hsession.env.media⟩

end MailMerge
