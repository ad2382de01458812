/-
  MailMerge.Statement — what is to be done with the fields of a part.
-/

import MailMerge.Block.Basic

namespace MailMerge

/-- One branch of a conditional: the guard and the block it keeps. -/
structure Condition where
  operand : Operand
  predicate : Option String
  block : Block
  deriving DecidableEq, Repr

inductive Statement where
  | insertion (field : Field) (operand : Operand)
  /-- Expands the block once per item, bound to the iterator. -/
  | loop (list : Operand) (iterator : String) (block : Block)
  /-- Keeps the block if the guard holds. -/
  | condition (condition : Condition)
  /-- Keeps the block of the first branch that holds, or else the last block. -/
  | choice (branches : List Condition) (otherwise : Option Block)
  /-- Gives the pictures of the block the operand's image. -/
  | picture (operand : Operand) (block : Block)
  /-- Drops the block. -/
  | comment (block : Block)
  deriving DecidableEq, Repr

namespace Statement

/-- The blocks of a statement, in document order. -/
def blocks : Statement → List Block
  | insertion _ _ => []
  | loop _ _ block | picture _ block | comment block => [block]
  | condition c => [c.block]
  | choice branches otherwise => branches.map (·.block) ++ otherwise.toList

end Statement

end MailMerge
