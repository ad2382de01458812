/-
  MailMerge.Toml.Item — what a TOML document holds, and how its tables grow.

  Pairs and headers name a place by a path of keys. On the way a missing table is made,
  and an array of tables is entered at its last table. A header may not open a table that
  another header, a pair or a dotted key made; a dotted key may not enter a table with a
  header of its own; no key is given twice. Tables written in braces are closed for good.
  The pairs of a table keep their order; a table that gets its own header after it was
  made on the way moves behind its siblings.

  A table below the root stands for a moment if the first of its keys is the one that is
  reserved for that. It then has to have a text there that is a moment; what follows in
  the table does not count.
-/

import MailMerge.Toml.Moment
import MailMerge.Value.Basic

namespace MailMerge.Toml

/-- How a table came to be. -/
inductive Origin where
  /-- Its own header. -/
  | header
  /-- The header of a table below it. -/
  | implied
  /-- A dotted key. -/
  | dotted
  /-- Braces. -/
  | braces
  deriving DecidableEq, Repr

inductive Item where
  | text (s : String)
  | integer (n : Int)
  | float (x : Float)
  | boolean (b : Bool)
  /-- A date, a time or both, in normal form. -/
  | moment (text : String)
  | array (items : List Item)
  | table (origin : Origin) (pairs : List (String × Item))
  /-- Tables with one repeated header; pairs go to the last one. -/
  | tables (earlier : List Item) (last : List (String × Item))
  deriving Inhabited, Repr

abbrev Pairs := List (String × Item)

/-- The key of a table that stands for a moment. -/
def momentKey : String := "$__toml_private_datetime"

namespace Pairs

/-- What a table that stands for a moment has under its first key. -/
def moment? : Pairs → Option Item
  | (key, item) :: _ => if key = momentKey then some item else none
  | [] => none

end Pairs

namespace Item

mutual

/-- The value of a merge context, if there is one. A moment is its text. -/
def value? : Item → Option Value
  | text s => some (.string s)
  | integer n => some (.integer n)
  | float x => some (.float x)
  | boolean b => some (.boolean b)
  | moment s => some (.string s)
  | array items => (values? items).map .list
  | table _ pairs => tableValue? pairs
  | tables earlier last => do
    let values ← values? earlier
    let value ← tableValue? last
    some (.list (values ++ [value]))

def values? : List Item → Option (List Value)
  | [] => some []
  | item :: items => do
    let value ← value? item
    let values ← values? items
    some (value :: values)

def tableValue? (pairs : List (String × Item)) : Option Value :=
  match Pairs.moment? pairs with
  | some (text s) => (normalMoment? s).map .string
  | some _ => none
  | none => (entries? pairs).map .map

/-- The entries of a table that stands for itself. -/
def entries? : List (String × Item) → Option Entries
  | [] => some []
  | (key, item) :: pairs => do
    let value ← value? item
    let entries ← entries? pairs
    some (Entries.insert key value entries)

end

end Item

namespace Pairs

/-- The item takes the place of one with its key, or comes last. -/
def place (key : String) (item : Item) : Pairs → Pairs
  | [] => [(key, item)]
  | (k, i) :: rest => if k = key then (key, item) :: rest else (k, i) :: place key item rest

/-- Changes the table that a path leads to. `origin` is that of the table to start from,
    and `byDots` tells whether the path is written as a dotted key. -/
def change (byDots : Bool) (edit : Origin → Pairs → Option Pairs) :
    (path : List String) → (origin : Origin) → Pairs → Option Pairs
  | [], origin, pairs => edit origin pairs
  | key :: path, _, pairs =>
    match pairs.lookup key with
    | none =>
      let origin := if byDots then .dotted else .implied
      (change byDots edit path origin []).map fun sub => place key (.table origin sub) pairs
    | some (.table origin sub) =>
      if origin = .braces ∨ (byDots ∧ origin = .header) then none
      else (change byDots edit path origin sub).map fun sub => place key (.table origin sub) pairs
    | some (.tables earlier last) =>
      (change byDots edit path .header last).map fun last => place key (.tables earlier last) pairs
    | some _ => none

/-- Puts an item where a dotted key tells: into this table, or into one that dotted keys
    made. -/
def define (path : List String) (key : String) (item : Item) : Origin → Pairs → Option Pairs :=
  change true (fun origin pairs =>
    if (path.isEmpty ∨ origin = .dotted) ∧ (pairs.lookup key).isNone then
      some (pairs ++ [(key, item)])
    else none) path

/-- Opens the table of a header, which then comes last. -/
def openTable (path : List String) (key : String) (root : Pairs) : Option Pairs :=
  change false (fun _ pairs =>
    match pairs.lookup key with
    | none => some (pairs ++ [(key, .table .header [])])
    | some (.table .implied sub) =>
      some (pairs.filter (·.1 != key) ++ [(key, .table .header sub)])
    | some _ => none) path .header root

/-- Opens one more table under a repeated header. -/
def openNext (path : List String) (key : String) (root : Pairs) : Option Pairs :=
  change false (fun _ pairs =>
    match pairs.lookup key with
    | none => some (place key (.tables [] []) pairs)
    | some (.tables earlier last) =>
      some (place key (.tables (earlier ++ [.table .header last]) []) pairs)
    | some _ => none) path .header root

end Pairs

end MailMerge.Toml
