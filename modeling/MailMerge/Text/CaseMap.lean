/-
  MailMerge.Text.CaseMap — upper and lower case of whole texts.

  Each character maps on its own, to one character or to several, but for the capital
  sigma: at the end of a word its lower case has a form of its own. A sigma ends a word
  when, stepping over case-ignorable characters, a cased character comes before it and
  none comes after it.
-/

import MailMerge.Text.CaseTable

namespace MailMerge.Text

/-- The run's image of a code point, if the code point is in the run. -/
def CaseRun.image? (r : CaseRun) (n : Nat) : Option Nat :=
  if r.first ≤ n ∧ n ≤ r.last ∧ (n - r.first) % r.step = 0 then some (n + r.shift).toNat else none

/-- A character mapped by a table of runs and a table of longer mappings; characters in
    neither stay. -/
def mapCase (runs : List CaseRun) (long : List (Nat × List Nat)) (c : Char) : List Char :=
  match long.lookup c.toNat with
  | some codes => codes.map Char.ofNat
  | none =>
    match runs.findSome? (·.image? c.toNat) with
    | some n => [Char.ofNat n]
    | none => [c]

def isIgnorable (c : Char) : Bool := inRanges ignorableRanges c

/-- Stepping over case-ignorable characters, the next one is cased. -/
def meetsCased (cs : List Char) : Bool :=
  match cs.dropWhile isIgnorable with
  | c :: _ => inRanges casedRanges c
  | [] => false

def upcase (cs : List Char) : List Char := cs.flatMap (mapCase upperRuns upperLong)

/-- Lower case of the rest of a text; `passed` is what came before it, last first. -/
def downcaseFrom (passed : List Char) : List Char → List Char
  | [] => []
  | c :: cs =>
    let lower :=
      if c = 'Σ' then if meetsCased passed && !meetsCased cs then ['ς'] else ['σ']
      else mapCase lowerRuns lowerLong c
    lower ++ downcaseFrom (c :: passed) cs

def downcase (cs : List Char) : List Char := downcaseFrom [] cs

end MailMerge.Text
