/-
  MailMerge.Directive.Registry — which handler reads which field.

  A registry is an ordered table of handlers under distinct names, and maybe a fallback.
  The first handler that accepts an expression reads it; what none accepts is read by the
  fallback, and is dropped where there is none.
-/

import MailMerge.Directive.Basic

namespace MailMerge

/-- A handler is asked whether it takes an expression, and what it makes of it. A fallback
    is not asked first. -/
structure Handler where
  label : String
  accepts : String → Bool
  reads : String → Directive

namespace Handler

open Directive

/-- A handler that accepts just what it can read. -/
def ofReader (label : String) (read : String → Option Directive) : Handler :=
  ⟨label, fun e => (read e).isSome, fun e => (read e).getD .nothing⟩

/-- As a fallback, it takes all but the first character for the operand. -/
def insertion : Handler :=
  ⟨"insertion", fun e => (insertion? e).isSome,
    fun e => .insertion (String.ofList (e.toList.drop 1))⟩

def each : Handler :=
  ofReader "each" fun e => (each? e).map fun (list, iterator) => .loop list iterator (loopEnd list)

def conditional : Handler := ofReader "conditional" fun e => (if? e).map .conditional

def picture : Handler := ofReader "image" fun e => (picture? e).map .picture

def comment : Handler := ⟨"comment", fun e => e == commentStart, fun _ => .comment⟩

/-- Takes every field and builds nothing. -/
def decline (label : String) : Handler := ⟨label, fun _ => true, fun _ => .nothing⟩

/-- Takes one expression for a directive given beforehand. -/
def exactly (label expression : String) (directive : Directive) : Handler :=
  ⟨label, fun e => e == expression, fun _ => directive⟩

end Handler

structure Registry where
  handlers : List (String × Handler)
  fallback : Option Handler

namespace Registry

def empty : Registry := ⟨[], none⟩

/-- Insertion, each, conditional, image and comment, in that order. -/
def stock : Registry :=
  ⟨[Handler.insertion, Handler.each, Handler.conditional, Handler.picture, Handler.comment].map
    fun h => (h.label, h), none⟩

def names (r : Registry) : List String := r.handlers.map (·.1)

inductive RegistryFault where
  | duplicate (name : String)
  deriving DecidableEq, Repr

def RegistryFault.message : RegistryFault → String
  | duplicate name => "a handler named `" ++ name ++ "` is already registered"

/-- Adds a handler at the end, under a new name. -/
def register (r : Registry) (name : String) (h : Handler) : Except RegistryFault Registry :=
  if r.names.contains name then .error (.duplicate name)
  else .ok { r with handlers := r.handlers ++ [(name, h)] }

def handler? (r : Registry) (name : String) : Option Handler := r.handlers.lookup name

/-- Puts a handler in the place of the one of that name, or at the end if there is none;
    answers the one displaced. -/
def replace (r : Registry) (name : String) (h : Handler) : Option Handler × Registry :=
  (r.handler? name, { r with handlers := put r.handlers })
where
  put : List (String × Handler) → List (String × Handler)
    | [] => [(name, h)]
    | (n, g) :: rest => if n = name then (n, h) :: rest else (n, g) :: put rest

/-- Takes out the handler of that name and answers it. -/
def remove (r : Registry) (name : String) : Option Handler × Registry :=
  (r.handler? name, { r with handlers := r.handlers.eraseP (·.1 == name) })

/-- Sets or clears the fallback and answers the one displaced. -/
def setFallback (r : Registry) (h : Option Handler) : Option Handler × Registry :=
  (r.fallback, { r with fallback := h })

def handlerFor? (r : Registry) (expression : String) : Option Handler :=
  ((r.handlers.find? fun entry => entry.2.accepts expression).map (·.2)) <|> r.fallback

/-- What the registry makes of an expression; nothing if no handler takes it. -/
def directive (r : Registry) (expression : String) : Directive :=
  match r.handlerFor? expression with
  | some h => h.reads expression
  | none => .nothing

end Registry

end MailMerge
