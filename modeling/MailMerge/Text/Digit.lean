/-
  MailMerge.Text.Digit — digits and the numbers they write.
-/

namespace MailMerge.Text

/-- The value of a digit in a base of at most sixteen. -/
def digitValue? (base : Nat) (c : Char) : Option Nat :=
  let n := c.toNat
  let value :=
    if 48 ≤ n ∧ n ≤ 57 then some (n - 48)
    else if 97 ≤ n ∧ n ≤ 102 then some (n - 87)
    else if 65 ≤ n ∧ n ≤ 70 then some (n - 55)
    else none
  value.filter (· < base)

def isDigit (base : Nat) (c : Char) : Bool := (digitValue? base c).isSome

/-- The number that digits write, read from the left behind a number already read. -/
def numeralFrom (base : Nat) : (value : Nat) → List Char → Nat
  | value, [] => value
  | value, c :: cs => numeralFrom base (value * base + (digitValue? base c).getD 0) cs

def numeral (base : Nat) (digits : List Char) : Nat := numeralFrom base 0 digits

end MailMerge.Text
