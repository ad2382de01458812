/-
  MailMerge.Toml.Moment — dates and times.

  A moment is read into its normal form: a `T` between date and time, a capital `Z`, at
  most nine digits of a second's fraction and no zeros at its end, and a plus before an
  offset of nothing.
-/

import MailMerge.Text.Read

namespace MailMerge.Toml

open MailMerge.Text

def isLeapYear (year : Nat) : Bool := year % 4 == 0 && (year % 100 != 0 || year % 400 == 0)

def daysInMonth (year month : Nat) : Nat :=
  if month = 2 then if isLeapYear year then 29 else 28
  else if month = 4 ∨ month = 6 ∨ month = 9 ∨ month = 11 then 30
  else 31

/-- Two digits whose number lies between the bounds. -/
def twoDigits (low high : Nat) : Read (List Char) := do
  let digits ← Read.times (isDigit 10) 2
  let n := numeral 10 digits
  if low ≤ n ∧ n ≤ high then pure digits else failure

def date : Read (List Char) := do
  let year ← Read.times (isDigit 10) 4
  Read.char '-'
  let month ← twoDigits 1 12
  Read.char '-'
  let day ← twoDigits 1 (daysInMonth (numeral 10 year) (numeral 10 month))
  pure (year ++ '-' :: month ++ '-' :: day)

/-- The fraction of a second, with its point, if any of it is left. -/
def secondFraction : Read (List Char) := do
  Read.char '.'
  let digits ← Read.run1 (isDigit 10)
  let kept := ((digits.take 9).reverse.dropWhile (· == '0')).reverse
  pure (if kept.isEmpty then [] else '.' :: kept)

def time : Read (List Char) := do
  let hour ← twoDigits 0 23
  Read.char ':'
  let minute ← twoDigits 0 59
  Read.char ':'
  let second ← twoDigits 0 60
  let fraction ← Read.optional secondFraction
  pure (hour ++ ':' :: minute ++ ':' :: second ++ fraction.getD [])

/-- Two digits of a number. -/
def padded (n : Nat) : List Char := if n < 10 then '0' :: Nat.toDigits 10 n else Nat.toDigits 10 n

/-- The normal form of an offset of so many minutes. -/
def offsetForm (sign : Char) (minutes : Nat) : List Char :=
  (if minutes = 0 then '+' else sign) :: padded (minutes / 60) ++ ':' :: padded (minutes % 60)

/-- An offset with at most so many hours and minutes. -/
def offset (lastHour lastMinute : Nat) : Read (List Char) :=
  (do
    let _ ← Read.one fun c => c == 'Z' || c == 'z'
    pure ['Z']) <|>
  (do
    let sign ← Read.one fun c => c == '+' || c == '-'
    let hour ← twoDigits 0 lastHour
    Read.char ':'
    let minute ← twoDigits 0 lastMinute
    let minutes := 60 * numeral 10 hour + numeral 10 minute
    if minutes ≤ 24 * 60 then pure (offsetForm sign minutes) else failure)

/-- The time of a date, with an offset or without one. -/
def timeOfDate (offset : Read (List Char)) : Read (List Char) := do
  let _ ← Read.one fun c => c == 'T' || c == 't' || c == ' '
  let time ← time
  let offset ← Read.optional offset
  pure ('T' :: time ++ offset.getD [])

def momentWith (offset : Read (List Char)) : Read String :=
  (do
    let date ← date
    let time ← Read.optional (timeOfDate offset)
    pure (String.ofList (date ++ time.getD []))) <|>
  (String.ofList <$> time)

/-- A moment in a document. -/
def moment : Read String := momentWith (offset 23 59)

/-- The normal form of a text that is a moment. -/
def normalMoment? (text : String) : Option String :=
  Read.whole (momentWith (offset 99 99)) text.toList

end MailMerge.Toml
