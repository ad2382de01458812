/-
  MailMerge.Text.Width — how much room characters take on a line of a terminal.

  Most take one column. Wide characters take two, and so does a Khmer vowel that is an
  old spelling of two letters; a Khmer sign for "and so on" takes three. Invisible
  characters take none. A tab reaches to the next tab stop.
-/

import MailMerge.Text.WidthTable

namespace MailMerge.Text

/-- How many columns lie between two tab stops. -/
def tabWidth : Nat := 4

/-- Columns of single characters that are in neither table. -/
def oddWidths : List (Char × Nat) := [(Char.ofNat 0x17A4, 2), (Char.ofNat 0x17D8, 3)]

/-- How many columns a character takes wherever it stands. -/
def fixedWidth (c : Char) : Nat :=
  if inRanges invisibleRanges c then 0
  else if inRanges wideRanges c then 2
  else (oddWidths.lookup c).getD 1

/-- How many columns a character takes that starts in the given column, counted from 0. -/
def columnsFrom (column : Nat) (c : Char) : Nat :=
  if c = '\t' then tabWidth - column % tabWidth else fixedWidth c

end MailMerge.Text
