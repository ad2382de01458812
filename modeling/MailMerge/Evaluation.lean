/-
  MailMerge.Evaluation — what an operand stands for in an environment.

  The root name is looked up, then the members are taken one after the other. A predicate
  or an enumeration is asked of the result.
-/

import MailMerge.Environment
import MailMerge.Failure
import MailMerge.Value.Members

namespace MailMerge.Operand

/-- What the root name means; a name bound nowhere is up to the policy. -/
def lookup (o : Operand) (env : Environment) : Except ContextFault Value :=
  match env.lookup? o.root, env.policy with
  | some value, _ => .ok value
  | none, .lenient => .ok .nil
  | none, .strict => .error (.undefined o.root o.toString)

def takeMember (o : Operand) (value : Value) (member : String) : Except ContextFault Value :=
  match value.member? member with
  | some v => .ok v
  | none => .error (.unknownMember o.toString member value.typeName)

def evaluate (o : Operand) (env : Environment) : Except ContextFault Value := do
  o.members.foldlM (takeMember o) (← o.lookup env)

def evaluatePredicate (o : Operand) (predicate : String) (env : Environment) :
    Except ContextFault Bool := do
  let value ← o.evaluate env
  match value.predicate? predicate with
  | some answer => .ok answer
  | none => .error (.unknownPredicate o.toString predicate value.typeName)

def evaluateItems (o : Operand) (env : Environment) : Except ContextFault (List Value) := do
  let value ← o.evaluate env
  match value.enumerate? with
  | some items => .ok items
  | none => .error (.notEnumerable o.toString value.typeName)

end MailMerge.Operand
