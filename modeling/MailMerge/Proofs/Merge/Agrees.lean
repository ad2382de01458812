/-
  MailMerge.Proofs.Merge.Agrees — a run beside a reference that says what it should give.

  The reference is a plain result, or a fault. The run succeeds just when the reference
  does; then the two results and the session fit together as `Q` says.
-/

import MailMerge.Proofs.Merge.Edits

namespace MailMerge

open Merge

/-- The run and the reference both give a result, or both fail. -/
inductive Agrees {α β : Type} (Q : α → β → Session → Prop) : Except ContextFault β → Except Failure α × Session → Prop
  | ok {a : α} {b : β} {s : Session} : Q a b s → Agrees Q (.ok b) (.ok a, s)
  | error {e : ContextFault} {f : Failure} {s : Session} : Agrees Q (.error e) (.error f, s)

namespace Agrees

variable {α β γ δ : Type} {Q : α → β → Session → Prop} {ref : Except ContextFault β}

theorem mono {Q' : α → β → Session → Prop} {run : Except Failure α × Session} (h : Agrees Q ref run)
    (hQ : ∀ a b s, Q a b s → Q' a b s) : Agrees Q' ref run := by
  cases h with
  | ok hq => exact .ok (hQ _ _ _ hq)
  | error => exact .error

/-- What agrees step by step agrees as a whole. -/
theorem bind {Q' : γ → δ → Session → Prop} {step : Merge α} {s : Session} (h : Agrees Q ref (step s))
    {next : α → Merge γ} {refNext : β → Except ContextFault δ}
    (hnext : ∀ a b s', Q a b s' → Agrees Q' (refNext b) (next a s')) :
    Agrees Q' (ref >>= refNext) ((step >>= next) s) := by
  rw [run_bind]
  generalize step s = run at h
  cases h with
  | ok hq => exact hnext _ _ _ hq
  | error => exact .error

/-- More may be done in the run alone. -/
theorem andThen {Q' : γ → β → Session → Prop} {step : Merge α} {s : Session} (h : Agrees Q ref (step s)) {next : α → Merge γ}
    (hnext : ∀ a b s', Q a b s' → Agrees Q' (.ok b) (next a s')) : Agrees Q' ref ((step >>= next) s) := by
  rw [run_bind]
  generalize step s = run at h
  cases h with
  | ok hq => exact hnext _ _ _ hq
  | error => exact .error

/-- More may be done with the reference's result alone. -/
theorem bind_pure {run : Except Failure α × Session} (h : Agrees Q ref run) (g : β → δ) :
    Agrees (fun a d s => ∃ b, d = g b ∧ Q a b s) (ref >>= fun b => .ok (g b)) run := by
  cases h with
  | ok hq => exact .ok ⟨_, rfl, hq⟩
  | error => exact .error

theorem iff_ok {run : Except Failure α × Session} (h : Agrees Q ref run) :
    (∃ a, run.1 = .ok a) ↔ ∃ b, ref = .ok b := by
  cases h with
  | ok => exact ⟨fun _ => ⟨_, rfl⟩, fun _ => ⟨_, rfl⟩⟩
  | error =>
    constructor
    · rintro ⟨_, h⟩; cases h
    · rintro ⟨_, h⟩; cases h

end Agrees

/-- Statements agree with a reference if the first ones do, and then the others. -/
theorem Agrees.append {α β : Type} {Q : Unit → α → Session → Prop} {Q' : Unit → β → Session → Prop}
    {expand : NodeId → Merge Unit} {sts rest : List Statement} {s : Session} {ref : Except ContextFault α}
    (h : Agrees Q ref (Statement.evaluateAll expand sts s)) {refNext : α → Except ContextFault β}
    (hnext : ∀ a s', Q () a s' → Agrees Q' (refNext a) (Statement.evaluateAll expand rest s')) :
    Agrees Q' (ref >>= refNext) (Statement.evaluateAll expand (sts ++ rest) s) := by
  rw [Statement.run_evaluateAll_append]
  generalize Statement.evaluateAll expand sts s = run at h
  cases h with
  | ok hq => exact hnext _ _ hq
  | error => exact .error

/-- A question about an operand is answered as the environment alone answers it. -/
theorem agrees_askOperand {α : Type} (span : Span) {question : Environment → Except ContextFault α} {s : Session}
    {env : Environment} (h : question s.env = question env) :
    Agrees (fun a b s' => a = b ∧ s' = s ∧ question env = .ok b) (question env) (Statement.askOperand span question s) := by
  rw [Statement.run_askOperand, h]
  cases question env with
  | ok a => exact .ok ⟨rfl, rfl, rfl⟩
  | error e => exact .error

end MailMerge
