/-
  MailMerge.Value.Members — what expressions can ask of a value.

  Enumeration, truth, members and predicates. Five questions turn on whether a value has
  no items: a loop's items, a plain guard, `empty?`, `any?` and `blank?`.
-/

import MailMerge.Text.Blank
import MailMerge.Text.CaseMap
import MailMerge.Value.Basic

namespace MailMerge.Value

open MailMerge.Text

def isNil : Value → Bool
  | nil => true
  | _ => false

/-- A map's entry as it is enumerated. -/
def entry (key : String) (value : Value) : Value := map [("key", string key), ("value", value)]

/-- The items of a list, the entries of a map, what an object enumerates. -/
def enumerate? : Value → Option (List Value)
  | list items => some items
  | map entries => some (entries.map fun (k, v) => entry k v)
  | object _ _ items _ _ => items
  | _ => none

/-- Nil and false are not truthy, nor is what enumerates no items. All else is. -/
def isTruthy : Value → Bool
  | nil => false
  | boolean b => b
  | list items => !items.isEmpty
  | map entries => !entries.isEmpty
  | object _ _ (some items) _ _ => !items.isEmpty
  | _ => true

/-! ## Members -/

def stringMember? (s : String) : String → Option Value
  | "upcase" => some (string (String.ofList (upcase s.toList)))
  | "downcase" => some (string (String.ofList (downcase s.toList)))
  | "strip" => some (string (trimmed s))
  | "size" | "length" => some (integer s.length)
  | "to_s" => some (string s)
  | _ => none

def listMember? (items : List Value) : String → Option Value
  | "size" | "length" | "count" => some (integer items.length)
  | "first" => some (items.head?.getD nil)
  | "last" => some (items.getLast?.getD nil)
  | _ => none

/-- The members of every map, which an entry of the same name hides. -/
def mapMember? (entries : Entries) : String → Option Value
  | "size" | "length" | "count" => some (integer entries.length)
  | "keys" => some (list (entries.map fun (k, _) => string k))
  | "values" => some (list (entries.map (·.2)))
  | _ => none

/-- The member of that name; a map has all, nil where it has no entry. -/
def member? (v : Value) (name : String) : Option Value :=
  match v with
  | nil => some nil
  | string s => stringMember? s name
  | list items => listMember? items name
  | map entries => entries.lookup name <|> mapMember? entries name <|> some nil
  | object _ members _ _ _ => members.lookup name
  | v => if name = "to_s" then some (string v.display) else none

/-! ## Predicates -/

/-- How many characters, items or entries a value has, if it can have any. -/
def length? : Value → Option Nat
  | string s => some s.length
  | list items => some items.length
  | map entries => some entries.length
  | object _ _ items _ _ => items.map List.length
  | _ => none

def isBlank : Value → Bool
  | nil => true
  | boolean b => !b
  | string s => allBlank s
  | v => v.length? == some 0

/-- A number's place relative to zero; NaN has none. -/
def compareZero? : Value → Option (Option Ordering)
  | integer n => some (some (compare n 0))
  | float x =>
    some (if x == 0 then some .eq else if x > 0 then some .gt else if x < 0 then some .lt else none)
  | _ => none

def evenness? : Value → Option Bool
  | integer n => some (n % 2 == 0)
  | _ => none

/-- The predicates of all values. -/
def commonPredicate? (v : Value) : String → Option Bool
  | "nil?" => some v.isNil
  | "present?" => some !v.isBlank
  | "blank?" => some v.isBlank
  | "true?" => some (match v with | boolean b => b | _ => false)
  | "false?" => some (match v with | boolean b => !b | _ => false)
  | "empty?" => v.length?.map (· == 0)
  | "any?" => v.length?.map (· > 0)
  | "zero?" => v.compareZero?.map (· == some .eq)
  | "positive?" => v.compareZero?.map (· == some .gt)
  | "negative?" => v.compareZero?.map (· == some .lt)
  | "even?" => v.evenness?
  | "odd?" => v.evenness?.map (!·)
  | _ => none

/-- What an object answers itself comes first. -/
def predicate? (v : Value) (name : String) : Option Bool :=
  match v with
  | object _ _ _ predicates _ => predicates.lookup name <|> v.commonPredicate? name
  | _ => v.commonPredicate? name

end MailMerge.Value
