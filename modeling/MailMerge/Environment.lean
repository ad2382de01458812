/-
  MailMerge.Environment — what names mean while a part is merged.

  The caller's context never changes. Loops lay a scope over it for each item and take it
  off again; a name means what the innermost scope that binds it says, and else what the
  context says. The policy decides about names bound nowhere.
-/

import MailMerge.Media
import MailMerge.Value.MarkupKeys

namespace MailMerge

/-- What a name bound nowhere means. -/
inductive Policy where
  /-- It is nil. -/
  | lenient
  /-- It is an error. -/
  | strict
  deriving DecidableEq, Repr

/-- The names of one scope; of two pairs with one name the first counts. -/
abbrev Scope := List (String × Value)

namespace Scope

/-- A scope for one iteration. -/
def binding (name : String) (value : Value) : Scope := [(name, value)]

/-- Of pairs with one name the last given counts. -/
def ofPairs (pairs : List (String × Value)) : Scope := pairs.reverse

end Scope

structure Environment where
  context : Entries
  /-- The innermost scope first. -/
  scopes : List Scope
  policy : Policy
  media : Media
  deriving Repr

namespace Environment

/-- An environment over a context, whose marked keys become markup. -/
def new (context : Entries) (policy : Policy) (media : Media) : Environment :=
  ⟨Value.readMarkedContext context, [], policy, media⟩

def push (env : Environment) (scope : Scope) : Environment :=
  { env with scopes := scope :: env.scopes }

def pop (env : Environment) : Environment := { env with scopes := env.scopes.drop 1 }

def depth (env : Environment) : Nat := env.scopes.length

/-- What the innermost scope that knows the name binds it to, or else the context. -/
def lookup? (env : Environment) (name : String) : Option Value :=
  env.scopes.findSome? (·.lookup name) <|> env.context.lookup name

end Environment

end MailMerge
