/-
  MailMerge.Media — the registry that gives images their relationship ids.

  A collection numbers the images it is given from 1 and keeps them with their ids. An
  image it knows already, by name and data, gets the id it had. A registry of one id
  gives that id to all and keeps nothing.
-/

import MailMerge.Value.Basic

namespace MailMerge

inductive Media where
  | collection (stem : String) (images : List (String × Image))
  | fixed (rid : String)
  deriving DecidableEq, Repr

namespace Media

/-- How ids start when the caller does not say. -/
def defaultStem : String := "rIdDocmerge"

def empty : Media := .collection defaultStem []

/-- The images kept, with their ids, in the order they came. -/
def images : Media → List (String × Image)
  | collection _ images => images
  | fixed _ => []

/-- The same picture: the id a caller may have given it does not count. -/
def sameImage (a b : Image) : Bool := a.name == b.name && a.data == b.data

def register (m : Media) (image : Image) : String × Media :=
  match m with
  | fixed rid => (rid, m)
  | collection stem images =>
    match images.find? fun known => sameImage known.2 image with
    | some known => (known.1, m)
    | none =>
      let rid := stem ++ toString (images.length + 1)
      (rid, .collection stem (images ++ [(rid, image)]))

end Media

end MailMerge
