/-
  MailMerge.Decimal.Numeral — numbers as texts write them, and the floats they mean.

  A numeral has whole digits and may have a fraction and an exponent. Two readings turn it
  into a float. `nearest?` answers the float nearest to it. `scaled?` keeps the leading
  digits that fit in 64 bits and scales their number by a power of ten, which rounds once
  more and may end one float beside the nearest. Neither answers a positive infinity.
-/

import MailMerge.Text.Digit

namespace MailMerge.Decimal

open MailMerge.Text

/-- One more than the largest signed number of 64 bits. -/
def integerBound : Nat := 0x8000000000000000

/-- A numeral without its sign. -/
structure Numeral where
  whole : List Char
  /-- The digits behind the point. -/
  fraction : Option (List Char)
  /-- The sign of the exponent, true for minus, and its digits. -/
  exponent : Option (Bool × List Char)
  deriving DecidableEq, Repr

namespace Numeral

/-- Whether it has whole digits only. -/
def isWhole (n : Numeral) : Bool := n.fraction.isNone && n.exponent.isNone

def power (n : Numeral) : Int :=
  match n.exponent with
  | none => 0
  | some (negative, digits) =>
    if negative then -(numeral 10 digits : Int) else (numeral 10 digits : Int)

/-! ## The nearest float -/

/-- The float nearest to `digits · 10^e`; there is none if that is beyond the largest. -/
def nearestTo? (digits : Nat) (e : Int) : Option Float :=
  let size := (Nat.toDigits 10 digits).length + e
  if digits = 0 ∨ size < -330 then some (Float.ofScientific 0 false 0)
  else if 310 < size then none
  else
    let x := Float.ofScientific digits (e < 0) e.natAbs
    if x.isInf then none else some x

def nearest? (n : Numeral) : Option Float :=
  let fraction := n.fraction.getD []
  nearestTo? (numeral 10 (n.whole ++ fraction)) (n.power - fraction.length)

/-! ## A float scaled by powers of ten -/

/-- The number of the digits that keep it below `limit`, and the digits left over. -/
def fitting (limit : Nat) : (value : Nat) → List Char → Nat × List Char
  | value, [] => (value, [])
  | value, c :: cs =>
    let next := value * 10 + (digitValue? 10 c).getD 0
    if next < limit then fitting limit next cs else (value, c :: cs)

/-- One more than the largest number of 64 bits. -/
def wordBound : Nat := 0x10000000000000000

/-- The largest power of ten that is a float. -/
def largestPower : Nat := 308

def floatTenTo (k : Nat) : Float := Float.ofScientific 1 false k

/-- Divides by a power of ten, by the largest at a time. -/
def shrink (x : Float) (k : Nat) : Float :=
  if k ≤ largestPower then x / floatTenTo k
  else if x == 0 then x
  else shrink (x / floatTenTo largestPower) (k - largestPower)
termination_by k
decreasing_by simp only [largestPower] at *; omega

def scaleBy? (x : Float) (e : Int) : Option Float :=
  if e < 0 then some (shrink x e.natAbs)
  else if e.toNat ≤ largestPower then
    let y := x * floatTenTo e.toNat
    if y.isInf then none else some y
  else if x == 0 then some x
  else none

def scaled? (n : Numeral) : Option Float :=
  let (value, dropped) := fitting wordBound 0 n.whole
  let fraction := n.fraction.getD []
  let (value, left) := fitting wordBound value fraction
  scaleBy? (Float.ofScientific value false 0)
    (n.power + dropped.length - (fraction.length - left.length : Nat))

end Numeral

end MailMerge.Decimal
