/-
  MailMerge.Decimal.Shortest — the shortest decimal that reads back as a given number.

  A finite number of the binary format is m · 2^q. The decimals that read back as it are
  the rationals of an interval around it, its ends included exactly if m is even. For one
  digit, two digits and so on, the two neighbours of the number on the grid of decimals
  with so many digits are tried; the first grid that hits the interval wins, of two hits
  the nearer one, and of two equally near ones the larger.
-/

namespace MailMerge

/-- A decimal `digits · 10^exponent`. -/
structure Decimal where
  digits : Nat
  exponent : Int
  deriving DecidableEq, Repr

namespace Decimal

/-- The power of ten with this exponent, or 1 if that is negative. -/
def tenTo (e : Int) : Nat := Nat.pow 10 e.toNat

/-- A positive number and the ends of its interval, over one denominator. -/
structure Interval where
  low : Nat
  value : Nat
  high : Nat
  denominator : Nat
  closed : Bool
  deriving DecidableEq, Repr

/-- The interval of m · 2^q. Below a power of two the numbers lie twice as close, unless
    it is the least of its kind (`tight` tells that they do). -/
def Interval.ofBinary (m : Nat) (q : Int) (tight : Bool) : Interval :=
  let scale := Nat.pow 2 (q - 2).toNat
  let denominator := Nat.pow 2 (2 - q).toNat
  ⟨(4 * m - if tight then 1 else 2) * scale, 4 * m * scale, (4 * m + 2) * scale, denominator,
    m % 2 == 0⟩

namespace Interval

/-- Compares `a / denominator` with `d · 10^e`. -/
def compareTo (i : Interval) (a d : Nat) (e : Int) : Ordering :=
  compare (a * tenTo (-e)) (d * tenTo e * i.denominator)

/-- The decimal reads back as the number. -/
def holds (i : Interval) (d : Nat) (e : Int) : Bool :=
  let low := i.compareTo i.low d e
  let high := i.compareTo i.high d e
  (low == .lt || (i.closed && low == .eq)) && (high == .gt || (i.closed && high == .eq))

/-- The largest decimal with exponent `e` that is not above the number. -/
def floorAt (i : Interval) (e : Int) : Nat :=
  i.value * tenTo (-e) / (tenTo e * i.denominator)

/-- `d` is nearer to the number than `d + 1`, at exponent `e`. -/
def nearerBelow (i : Interval) (d : Nat) (e : Int) : Bool :=
  i.compareTo (2 * i.value) (2 * d + 1) e == .lt

/-- The best hit among the two neighbours on the grid of exponent `e`. -/
def hit? (i : Interval) (e : Int) : Option Decimal :=
  let d := i.floorAt e
  match i.holds d e, i.holds (d + 1) e with
  | true, true => some (if i.nearerBelow d e then ⟨d, e⟩ else ⟨d + 1, e⟩)
  | true, false => some ⟨d, e⟩
  | false, true => some ⟨d + 1, e⟩
  | false, false => none

/-- How many digits stand before the point, down to zero and below for small numbers:
    the least `p` with value < 10^p. -/
def magnitude (i : Interval) : Int :=
  if i.denominator ≤ i.value then (Nat.toDigits 10 (i.value / i.denominator)).length
  else -(leadingZeros 400 i.value)
where
  leadingZeros : Nat → Nat → Nat
    | 0, _ => 0
    | n + 1, v => if i.denominator ≤ v * 10 then 0 else leadingZeros n (v * 10) + 1

/-- The first hit on the grids from `e` on, each ten times finer than the last. -/
def searchFrom (i : Interval) : (grids : Nat) → (e : Int) → Decimal
  | 0, e => ⟨i.floorAt e, e⟩
  | n + 1, e =>
    match i.hit? e with
    | some d => d
    | none => searchFrom i n (e - 1)

/-- The grid of the next power of ten comes first, then those of one to seventeen digits,
    which always suffice. -/
def shortest (i : Interval) : Decimal := i.searchFrom 18 i.magnitude

end Interval

end Decimal

end MailMerge
