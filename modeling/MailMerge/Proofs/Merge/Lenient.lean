/-
  MailMerge.Proofs.Merge.Lenient — what a lenient merge makes of a strict one.

  The policy is asked in one place: when a name is looked up that is bound nowhere. There a
  strict merge fails and a lenient one goes on with nil, so as long as the strict one has not
  failed there, the two have asked the same questions, with the same answers, and their
  sessions differ in the policy only. A step follows its strict run in this sense
  (`Merge.Loosens`) if it does so in all its parts; this is carried through every way in which
  steps are put together, and through the levels of a merge by induction on their number.

  Proved: a strict merge that goes through, or fails for anything but a name bound nowhere, is
  the lenient merge too, with the same outcome, tree and images (`merge_lenient`).
-/

import MailMerge.Proofs.Merge.Blame
import MailMerge.Proofs.Merge.Closed

namespace MailMerge

open Merge

/-! ## Sessions -/

def Environment.lenient (e : Environment) : Environment := { e with policy := .lenient }

def Session.lenient (s : Session) : Session := { s with env := s.env.lenient }

/-- A name was looked up that is bound nowhere. -/
def Failure.IsUndefined (e : Failure) : Prop := ∃ root operand, e.cause = .context (.undefined root operand)

/-- A result that is no failure, or another one. -/
def Defined {α : Type} (result : Except Failure α) : Prop := ∀ e, result = .error e → ¬ e.IsUndefined

theorem defined_ok {α : Type} (a : α) : Defined (.ok a) := fun _ he => nomatch he

/-! ## Questions -/

/-- A question that is answered alike under both policies, unless a name is bound nowhere. -/
def Environment.Settles {α : Type} (question : Environment → Except Failure α) : Prop :=
  ∀ env, Defined (question env) → question env.lenient = question env

namespace Operand

/-- Asked leniently, an operand means what it means, if its name is bound. -/
theorem lookup_lenient (o : Operand) (env : Environment) :
    o.lookup env.lenient = o.lookup env ∨ o.lookup env = .error (.undefined o.root o.toString) := by
  have hsame : env.lenient.lookup? o.root = env.lookup? o.root := rfl
  rw [lookup, lookup, hsame]
  cases env.lookup? o.root with
  | some value => exact Or.inl rfl
  | none =>
    cases env.policy with
    | lenient => exact Or.inl rfl
    | strict => exact Or.inr rfl

theorem evaluate_lenient (o : Operand) (env : Environment) :
    o.evaluate env.lenient = o.evaluate env ∨ o.evaluate env = .error (.undefined o.root o.toString) := by
  rw [evaluate, evaluate]
  rcases o.lookup_lenient env with h | h
  · rw [h]
    exact Or.inl rfl
  · rw [h]
    exact Or.inr rfl

theorem evaluatePredicate_lenient (o : Operand) (predicate : String) (env : Environment) :
    o.evaluatePredicate predicate env.lenient = o.evaluatePredicate predicate env ∨
      o.evaluatePredicate predicate env = .error (.undefined o.root o.toString) := by
  rw [evaluatePredicate, evaluatePredicate]
  rcases o.evaluate_lenient env with h | h
  · rw [h]
    exact Or.inl rfl
  · rw [h]
    exact Or.inr rfl

theorem evaluateItems_lenient (o : Operand) (env : Environment) :
    o.evaluateItems env.lenient = o.evaluateItems env ∨ o.evaluateItems env = .error (.undefined o.root o.toString) := by
  rw [evaluateItems, evaluateItems]
  rcases o.evaluate_lenient env with h | h
  · rw [h]
    exact Or.inl rfl
  · rw [h]
    exact Or.inr rfl

end Operand

theorem Failure.isUndefined_context (root operand : String) (span : Span) :
    (Failure.context (.undefined root operand) span).IsUndefined := by
  refine ⟨root, operand, ?_⟩
  rw [Failure.context, Failure.cause_locatedAt]
  rfl

/-- A fault of an operand, told at a place. -/
theorem Environment.settles_told {α : Type} {question : Environment → Except ContextFault α} (span : Span)
    (h : ∀ env, question env.lenient = question env ∨ ∃ root operand, question env = .error (.undefined root operand)) :
    Settles fun env => (question env).mapError fun fault => Failure.context fault span := by
  intro env hdefined
  rcases h env with h | ⟨root, operand, h⟩
  · simp only [h]
  · exact absurd (Failure.isUndefined_context root operand span) (hdefined _ (by simp only [h]; rfl))

theorem Condition.settles_holds (c : Condition) : Environment.Settles c.holds := by
  unfold holds
  cases c.predicate with
  | some predicate =>
    exact Environment.settles_told _ fun env => (c.operand.evaluatePredicate_lenient predicate env).imp_right fun h => ⟨_, _, h⟩
  | none =>
    have htruth : ∀ env : Environment, (c.operand.evaluate env.lenient).map Value.isTruthy = (c.operand.evaluate env).map Value.isTruthy ∨
        ∃ root operand, (c.operand.evaluate env).map Value.isTruthy = .error (.undefined root operand) := by
      intro env
      rcases c.operand.evaluate_lenient env with h | h
      · exact Or.inl (by rw [h])
      · exact Or.inr ⟨_, _, by rw [h]; rfl⟩
    exact Environment.settles_told _ htruth

theorem Condition.settles_firstHolding (cs : List Condition) : Environment.Settles fun env => firstHolding env cs := by
  induction cs with
  | nil => exact fun env _ => rfl
  | cons c cs ih =>
    intro env hdefined
    simp only [firstHolding] at hdefined ⊢
    have hc : Defined (c.holds env) := by
      intro e he
      rw [he] at hdefined
      exact hdefined e rfl
    rw [c.settles_holds env hc]
    cases hholds : c.holds env with
    | error e => rfl
    | ok holds =>
      rw [hholds] at hdefined
      cases holds with
      | true => rfl
      | false =>
        have hcs : Defined (firstHolding env cs) := by
          intro e he
          refine hdefined e ?_
          show (firstHolding env cs >>= fun later => Except.ok (later.map (· + 1))) = .error e
          rw [he]
          rfl
        have hsame : firstHolding env.lenient cs = firstHolding env cs := ih env hcs
        show (firstHolding env.lenient cs >>= _) = (firstHolding env cs >>= _)
        rw [hsame]

/-! ## Steps -/

/-- The lenient run of a step does what its strict run does, unless that meets a name bound
    nowhere. -/
def Merge.Loosens {α : Type} (step : Merge α) : Prop :=
  ∀ s : Session, Defined (step s).1 → step s.lenient = ((step s).1, (step s).2.lenient)

namespace Merge.Loosens

variable {α β : Type} {step : Merge α}

theorem bind {next : α → Merge β} (h : Loosens step) (hnext : ∀ a, Loosens (next a)) : Loosens (step >>= next) := by
  intro s hdefined
  have hs := h s
  rw [run_bind] at hdefined ⊢
  rw [run_bind]
  generalize step s = done at hs hdefined ⊢
  obtain ⟨result, s'⟩ := done
  cases result with
  | error e =>
    rw [hs fun e' he => hdefined e' (by cases he; rfl)]
  | ok a =>
    rw [hs (defined_ok a)]
    exact hnext a s' hdefined

theorem pure (a : α) : Loosens (Pure.pure a : Merge α) := fun _ _ => rfl

theorem throw (e : Failure) : Loosens (MonadExcept.throw e : Merge α) := fun _ _ => rfl

theorem editTree (f : Tree → Tree) : Loosens (Merge.editTree f) := fun _ _ => rfl

theorem withTree (f : Tree → α × Tree) : Loosens (Merge.withTree f) := fun _ _ => rfl

theorem ask {question : Environment → Except Failure α} (h : Environment.Settles question) :
    Loosens (Merge.ask fun s => question s.env) := by
  intro s hdefined
  rw [run_ask] at hdefined ⊢
  rw [run_ask]
  exact congrArg (·, s.lenient) (h s.env hdefined)

/-- What is asked of the tree alone. -/
theorem askTree (question : Tree → Except Failure α) : Loosens (Merge.ask fun s => question s.tree) := by
  intro s _
  rw [run_ask, run_ask]
  rfl

theorem underScope (h : Loosens step) (scope : Scope) : Loosens (Merge.underScope scope step) := by
  intro s hdefined
  rw [run_underScope] at hdefined ⊢
  have hstep := h { s with env := s.env.push scope } hdefined
  have hpushed : Session.lenient { s with env := s.env.push scope } = { s.lenient with env := s.lenient.env.push scope } := rfl
  rw [hpushed] at hstep
  rw [run_underScope, hstep]
  rfl

theorem underLedger (h : Loosens step) (ledger : Ledger) : Loosens (Merge.underLedger ledger step) := by
  intro s hdefined
  rw [run_underLedger] at hdefined ⊢
  have hstep := h { s with ledger } hdefined
  have hentered : Session.lenient { s with ledger } = { s.lenient with ledger } := rfl
  rw [hentered] at hstep
  rw [run_underLedger, hstep]
  rfl

end Merge.Loosens

theorem Statement.loosens_askOperand {α : Type} (span : Span) {question : Environment → Except ContextFault α}
    (h : ∀ env, question env.lenient = question env ∨ ∃ root operand, question env = .error (.undefined root operand)) :
    Loosens (askOperand span question) := .ask (Environment.settles_told span h)

theorem Statement.loosens_relationship (image : Image) : Loosens (relationship image) := by
  unfold relationship
  cases image.rid with
  | some rid => exact .pure rid
  | none => exact fun _ _ => rfl

/-! ## Merges -/

theorem Merge.closed_loosens : Closed @Loosens where
  pure := .pure
  throw := .throw
  bind := .bind
  remove _ := .editTree _
  putText _ _ := .editTree _
  putMarkup _ _ := .withTree _
  aimPictures _ _ _ := .editTree _
  copyNodes _ := .withTree _
  takeChildren _ := .withTree _
  askTree := .askTree
  askValue span o := Statement.loosens_askOperand span fun env => (o.evaluate_lenient env).imp_right fun h => ⟨_, _, h⟩
  askItems span o := Statement.loosens_askOperand span fun env => (o.evaluateItems_lenient env).imp_right fun h => ⟨_, _, h⟩
  askGuard c := .ask c.settles_holds
  askGuards cs := .ask (Condition.settles_firstHolding cs)
  giveWay _ _ := fun _ _ => rfl
  relationship := Statement.loosens_relationship
  underScope scope h := h.underScope scope
  underLedger ledger h := h.underLedger ledger

theorem Merge.loosens_part (r : Registry) : Loosens (part r) := by
  intro s hdefined
  have hpart := run_part r s
  have hlenient := run_part r s.lenient
  have htree : s.lenient.tree = s.tree := rfl
  rw [htree] at hlenient
  -- how many levels there are does not matter
  generalize levelBound (s.tree.markers Tree.root) = n at hpart hlenient
  rw [hpart] at hdefined ⊢
  rw [hlenient]
  exact Loosens.bind (closed_loosens.below r n Tree.root) (fun _ => fun _ _ => rfl) s hdefined

/-- **Strictness only adds failures.** Where the strict merge goes through, the lenient one does,
    and leaves the same tree and images; where the strict one fails for anything but a name bound
    nowhere, the lenient one fails in the same way. -/
theorem merge_lenient (t : Tree) (r : Registry) (context : Entries) (media : Media) :
    let strict := t.merge r (Environment.new context .strict media)
    let lenient := t.merge r (Environment.new context .lenient media)
    (strict.outcome = .ok () → lenient.outcome = .ok () ∧ lenient.tree = strict.tree ∧ lenient.env.media = strict.env.media) ∧
      ∀ e, strict.outcome = .error e → ¬ e.IsUndefined →
        lenient.outcome = .error e ∧ lenient.tree = strict.tree ∧ lenient.env.media = strict.env.media := by
  have hrun := loosens_part r ⟨t, Environment.new context .strict media, .empty⟩
  have hstart : Session.lenient ⟨t, Environment.new context .strict media, .empty⟩ = ⟨t, Environment.new context .lenient media, .empty⟩ := rfl
  rw [hstart] at hrun
  intro strict lenient
  have hstrict : strict = t.merge r (Environment.new context .strict media) := rfl
  have hlenient : lenient = t.merge r (Environment.new context .lenient media) := rfl
  rw [Tree.merge] at hstrict hlenient
  -- what the two runs are does not matter
  clear_value strict lenient
  generalize part r ⟨t, Environment.new context .strict media, .empty⟩ = run at hrun hstrict
  generalize part r ⟨t, Environment.new context .lenient media, .empty⟩ = run' at hrun hlenient
  obtain ⟨outcome, last⟩ := run
  subst hstrict hlenient
  refine ⟨fun hok => ?_, fun e he hdefined => ?_⟩
  · have hok : outcome = .ok () := hok
    subst hok
    rw [hrun (defined_ok ())]
    exact ⟨rfl, rfl, rfl⟩
  · have he : outcome = .error e := he
    subst he
    rw [hrun fun e' he' => by cases he'; exact hdefined]
    exact ⟨rfl, rfl, rfl⟩

/-! ## A conditional that goes through, and one that fails -/

namespace FieldsInParagraph

def bound : Entries := [("a", .boolean true), ("f", .content (.text "F"))]

/-- What is inserted is no markup. -/
def broken : Entries := [("a", .boolean true), ("f", .content (.markup "<"))]

def failsAtMarkup (m : Merged) : Bool :=
  match m.outcome with
  | .ok _ => false
  | .error e => e.cause matches .markup _

end FieldsInParagraph

open FieldsInParagraph in
theorem conditional_lenient :
    (kept.merge Registry.stock (Environment.new bound .lenient .empty)).outcome = .ok () ∧
    ∃ e, (kept.merge Registry.stock (Environment.new broken .strict .empty)).outcome = .error e ∧ ¬ e.IsUndefined ∧
      (kept.merge Registry.stock (Environment.new broken .lenient .empty)).outcome = .error e := by
  have hok : (kept.merge Registry.stock (Environment.new bound .strict .empty)).outcome = .ok () := by cbv
  refine ⟨((merge_lenient kept Registry.stock bound .empty).1 hok).1, ?_⟩
  have hmarkup : failsAtMarkup (kept.merge Registry.stock (Environment.new broken .strict .empty)) = true := by cbv
  cases hfail : (kept.merge Registry.stock (Environment.new broken .strict .empty)).outcome with
  | ok _ =>
    rw [failsAtMarkup, hfail] at hmarkup
    cases hmarkup
  | error e =>
    have hdefined : ¬ e.IsUndefined := by
      rintro ⟨root, operand, hcause⟩
      simp [failsAtMarkup, hfail, hcause] at hmarkup
    exact ⟨e, rfl, hdefined, ((merge_lenient kept Registry.stock broken .empty).2 e hfail hdefined).1⟩

end MailMerge
