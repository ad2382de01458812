/-
  MailMerge.Failure — why a merge fails, and where.

  The template is at fault when its directives do not pair up or enclose nothing; the
  context when it does not fit the template. A failure carries the bytes of the directive
  it is about, once they are known: the first place known stays.
-/

import MailMerge.Markup.Fault
import MailMerge.Operand

namespace MailMerge

/-- What is wrong with a template. -/
inductive TemplateFault where
  | missingEnd (start stop : String)
  | unresolvable (start stop : String)
  | misplacedBranch (start marker : String)
  | invalidOperand (error : OperandError)
  deriving DecidableEq, Repr

namespace TemplateFault

def message : TemplateFault → String
  | missingEnd start stop =>
    "could not find end field for «" ++ start ++ "», was looking for «" ++ stop ++ "»"
  | unresolvable start stop =>
    "no row, paragraph or inline block encloses «" ++ start ++ "» and «" ++ stop ++ "»"
  | misplacedBranch start marker =>
    "«" ++ marker ++ "» cannot follow the else branch of «" ++ start ++ "»"
  | invalidOperand error => error.message

end TemplateFault

/-- How a context does not fit a template. -/
inductive ContextFault where
  | notEnumerable (operand typeName : String)
  | notAnImage (operand typeName : String)
  | unknownMember (operand member typeName : String)
  | unknownPredicate (operand predicate typeName : String)
  | undefined (name operand : String)
  deriving DecidableEq, Repr

namespace ContextFault

def message : ContextFault → String
  | notEnumerable operand typeName =>
    "«" ++ operand ++ "» should evaluate to an enumerable but was " ++ typeName
  | notAnImage operand typeName =>
    "«" ++ operand ++ "» should evaluate to an image but was " ++ typeName
  | unknownMember operand member typeName =>
    "undefined member `" ++ member ++ "` for " ++ typeName ++ " in «" ++ operand ++ "»"
  | unknownPredicate operand predicate typeName =>
    "undefined predicate `" ++ predicate ++ "` for " ++ typeName ++ " in «" ++ operand ++ "»"
  | undefined name operand => "undefined variable `" ++ name ++ "` in «" ++ operand ++ "»"

end ContextFault

inductive Cause where
  | template (fault : TemplateFault)
  | context (fault : ContextFault)
  /-- Markup that was to be read cannot be. -/
  | markup (error : Markup.MarkupError)
  /-- A file that was to be read or written is not there. -/
  | missingFile
  /-- Blocks are nested deeper than the bound that was given. -/
  | tooDeep
  deriving DecidableEq, Repr

namespace Cause

/-- What the system says about a file that is not there. -/
def missingFileText : String := "No such file or directory (os error 2)"

def message : Cause → String
  | template fault => fault.message
  | context fault => fault.message
  | markup error => "XML error: " ++ error.fault.message
  | missingFile => "I/O error: " ++ missingFileText
  | tooDeep => "blocks are nested too deep"

/-- Who has to mend it. -/
def className : Cause → String
  | template _ => "template error"
  | context _ => "context error"
  | _ => "error"

end Cause

structure Failure where
  cause : Cause
  span : Option Span
  source : Nat
  deriving DecidableEq, Repr

namespace Failure

def ofCause (cause : Cause) : Failure := ⟨cause, none, 0⟩

def ofMarkup (error : Markup.MarkupError) : Failure := ⟨.markup error, some error.span, error.source⟩

/-- Tells the place, unless one is known or the place is empty. -/
def locatedAt (f : Failure) (span : Span) : Failure :=
  if f.span.isNone && !span.isEmpty then { f with span := some span } else f

def withSource (f : Failure) (source : Nat) : Failure := { f with source }

def template (fault : TemplateFault) (span : Span) : Failure :=
  (ofCause (.template fault)).locatedAt span

def context (fault : ContextFault) (span : Span) : Failure :=
  (ofCause (.context fault)).locatedAt span

def message (f : Failure) : String := f.cause.message

end Failure

end MailMerge
