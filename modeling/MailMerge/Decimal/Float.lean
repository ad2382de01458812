/-
  MailMerge.Decimal.Float — the text of a floating-point number.

  The digits are the shortest that read back; they are written positionally, whatever
  their size, without a point when the number is whole. Zero has no sign.
-/

import MailMerge.Decimal.Shortest

namespace MailMerge.Decimal

/-- What the bits of a number of the binary format mean. -/
inductive Reading where
  | notANumber
  | infinite (negative : Bool)
  | zero
  /-- `m · 2^q`; `tight` when the numbers below lie twice as close. -/
  | finite (negative : Bool) (m : Nat) (q : Int) (tight : Bool)
  deriving DecidableEq, Repr

/-- The leading bit of a number's digits, which is not among its bits: 2^52. -/
def hiddenBit : Nat := 0x10000000000000

def Reading.ofBits (bits : UInt64) : Reading :=
  let n := bits.toNat
  let negative := n / 0x8000000000000000 == 1
  let exponent : Nat := n / hiddenBit % 2048
  let fraction : Nat := n % hiddenBit
  if exponent = 2047 then if fraction = 0 then .infinite negative else .notANumber
  else if exponent = 0 then if fraction = 0 then .zero else .finite negative fraction (-1074) false
  else .finite negative (hiddenBit + fraction) (exponent - 1075) (fraction == 0 && 1 < exponent)

/-- Digits and zeros around a point, which is left out if no digit follows it. -/
def positional (d : Decimal) : String :=
  let digits := (Nat.toDigits 10 d.digits)
  let shift := (-d.exponent).toNat
  if shift = 0 then String.ofList (digits ++ List.replicate d.exponent.toNat '0')
  else
    let whole := digits.take (digits.length - shift)
    let part := List.replicate (shift - digits.length) '0' ++ digits.drop (digits.length - shift)
    String.ofList ((if whole.isEmpty then ['0'] else whole) ++ '.' :: part)

def Reading.text : Reading → String
  | notANumber => "NaN"
  | infinite negative => if negative then "-inf" else "inf"
  | zero => "0"
  | finite negative m q tight =>
    (if negative then "-" else "") ++ positional (Interval.ofBinary m q tight).shortest

def floatText (x : Float) : String := (Reading.ofBits x.toBits).text

end MailMerge.Decimal
