/-
  MailMerge.Text.CodeRanges — classes of characters as ranges of code points.
-/

namespace MailMerge.Text

/-- First and last code points, both in the class. -/
abbrev CodeRanges := List (Nat × Nat)

def inRanges (ranges : CodeRanges) (c : Char) : Bool :=
  ranges.any fun (first, last) => first ≤ c.toNat && c.toNat ≤ last

end MailMerge.Text
