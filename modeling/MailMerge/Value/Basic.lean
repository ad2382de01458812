/-
  MailMerge.Value.Basic — the values of a merge context.

  Maps are lists of pairs with ascending distinct keys (`Entries.insert` keeps them so);
  keys are ordered by code point. Contents know how they enter a document. Objects are
  values that the caller describes: their members, what they enumerate if they do, the
  predicates they answer themselves, and their text.
-/

import MailMerge.Decimal.Float

namespace MailMerge

structure Image where
  name : String
  data : List UInt8
  /-- The relationship id, if the caller has given it one. -/
  rid : Option String
  deriving DecidableEq, Repr

/-- What can be put in a field's place other than the text of a value. -/
inductive Content where
  | text (text : String)
  /-- Elements written as markup. -/
  | markup (source : String)
  | image (image : Image)
  deriving DecidableEq, Repr

inductive Value where
  | nil
  | boolean (b : Bool)
  | integer (n : Int)
  | float (x : Float)
  | string (s : String)
  | list (items : List Value)
  | map (entries : List (String × Value))
  | content (content : Content)
  | object (typeName : String) (members : List (String × Value)) (items : Option (List Value))
      (predicates : List (String × Bool)) (text : String)
  deriving Inhabited, Repr

/-- Pairs in ascending order of their distinct keys. -/
abbrev Entries := List (String × Value)

namespace Entries

/-- The pair takes the place of one with its key. -/
def insert (key : String) (value : Value) : Entries → Entries
  | [] => [(key, value)]
  | (k, v) :: rest =>
    if key < k then (key, value) :: (k, v) :: rest
    else if key = k then (key, value) :: rest
    else (k, v) :: insert key value rest

/-- Of pairs with one key the last is kept. -/
def ofPairs (pairs : List (String × Value)) : Entries :=
  pairs.foldl (fun entries (key, value) => insert key value entries) []

/-- The pairs stand in ascending order of their keys. -/
def Sorted (entries : Entries) : Prop := entries.Pairwise fun a b => a.1 < b.1

end Entries

namespace Content

def kindName : Content → String
  | text _ => "Text"
  | markup _ => "WordMl"
  | image _ => "Image"

end Content

namespace Value

def typeName : Value → String
  | nil => "nil"
  | boolean _ => "Boolean"
  | integer _ => "Integer"
  | float _ => "Float"
  | string _ => "String"
  | list _ => "List"
  | map _ => "Map"
  | content c => c.kindName
  | object typeName _ _ _ _ => typeName

/-! ## Text -/

mutual

/-- The text that a value puts into a document. -/
def display : Value → String
  | nil => ""
  | boolean b => if b then "true" else "false"
  | integer n => toString n
  | float x => Decimal.floatText x
  | string s => s
  | list items => String.intercalate ", " (displayItems items)
  | map entries => "\x7b" ++ String.intercalate ", " (displayEntries entries) ++ "\x7d"
  | content c => "<" ++ c.kindName ++ ">"
  | object _ _ _ _ text => text

def displayItems : List Value → List String
  | [] => []
  | item :: items => display item :: displayItems items

def displayEntries : List (String × Value) → List String
  | [] => []
  | (key, value) :: entries => (key ++ ": " ++ display value) :: displayEntries entries

end

/-! ## Equality -/

mutual

/-- Lists and maps are compared by what they hold, floats as numbers. Contents and
    objects are equal to nothing. -/
def same : Value → Value → Bool
  | nil, nil => true
  | boolean a, boolean b => a == b
  | integer a, integer b => a == b
  | float a, float b => a == b
  | string a, string b => a == b
  | list a, list b => sameItems a b
  | map a, map b => sameEntries a b
  | _, _ => false

def sameItems : List Value → List Value → Bool
  | [], [] => true
  | a :: as, b :: bs => same a b && sameItems as bs
  | _, _ => false

def sameEntries : List (String × Value) → List (String × Value) → Bool
  | [], [] => true
  | (j, a) :: as, (k, b) :: bs => j == k && same a b && sameEntries as bs
  | _, _ => false

end

end Value

end MailMerge
