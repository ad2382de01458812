/-
  MailMerge.Markup.Fault — why a markup text cannot be read, and where.
-/

import MailMerge.Markup.Piece

namespace MailMerge.Markup

/-- What is wrong with an XML declaration. -/
inductive DeclarationFault where
  | badAttribute (fault : AttributeFault)
  | noVersion
  | versionNotFirst (found : String)
  deriving DecidableEq, Repr

namespace DeclarationFault

def message : DeclarationFault → String
  | badAttribute fault => "error while parsing attribute: " ++ fault.message
  | noVersion =>
    "ill-formed document: an XML declaration does not contain `version` attribute"
  | versionNotFirst found =>
    "ill-formed document: an XML declaration must start with `version` attribute, but in starts with `" ++
      found ++ "`"

end DeclarationFault

inductive MarkupFault where
  /-- No further piece can be cut. -/
  | cut (fault : CutFault)
  | mismatchedEnd (expected found : String)
  | unmatchedEnd (found : String)
  | badAttribute (element : String) (fault : AttributeFault)
  | badValue (key element : String) (fault : EntityFault)
  | badText (fault : EntityFault)
  | badDeclaration (fault : DeclarationFault)
  | unclosedElement (name : String)
  deriving DecidableEq, Repr

namespace MarkupFault

def message : MarkupFault → String
  | cut fault => "malformed XML: " ++ fault.message
  | mismatchedEnd expected found =>
    "malformed XML: ill-formed document: expected `</" ++ expected ++ ">`, but `</" ++ found ++
      ">` was found"
  | unmatchedEnd found =>
    "malformed XML: ill-formed document: close tag `</" ++ found ++ ">` does not match any open tag"
  | badAttribute element fault => "invalid attribute on <" ++ element ++ ">: " ++ fault.message
  | badValue key element fault =>
    "invalid value for attribute " ++ key ++ " on <" ++ element ++ ">: " ++ fault.message
  | badText fault => "invalid character data: " ++ fault.message
  | badDeclaration fault => "invalid XML declaration: " ++ fault.message
  | unclosedElement name => "unclosed element <" ++ name ++ ">"

/-- What a report adds below the source line. -/
def notes : MarkupFault → List String
  | unclosedElement _ => ["the input ended before this element was closed"]
  | _ => []

end MarkupFault

/-- A fault with the bytes it concerns and the number of the source text. -/
structure MarkupError where
  fault : MarkupFault
  span : Span
  source : Nat
  deriving DecidableEq, Repr

end MailMerge.Markup
