/-
  MailMerge.Block.Ledger — who still refers to the boundaries of blocks.

  The blocks built from one scan share their boundary fields, and the rows and paragraphs
  that hold these fields. A boundary may leave the tree only with the last block that
  refers to it. Paragraphs that also carry an inline or picture block are pinned: they
  stay. Each reference is one entry, so the number of references is the number of
  entries, and releasing what has none changes nothing.
-/

import MailMerge.Field.Basic

namespace MailMerge

structure Ledger where
  /-- References of fields, by marker. -/
  fields : List NodeId
  /-- References of rows and paragraphs. -/
  nodes : List NodeId
  pinned : List NodeId
  deriving DecidableEq, Repr

namespace Ledger

def empty : Ledger := ⟨[], [], []⟩

def fieldCount (l : Ledger) (f : Field) : Nat := l.fields.count f.marker

def nodeCount (l : Ledger) (id : NodeId) : Nat := l.nodes.count id

def isPinned (l : Ledger) (id : NodeId) : Bool := l.pinned.contains id

def addField (l : Ledger) (f : Field) : Ledger := { l with fields := f.marker :: l.fields }

def addNode (l : Ledger) (id : NodeId) : Ledger := { l with nodes := id :: l.nodes }

def pin (l : Ledger) (id : NodeId) : Ledger := { l with pinned := id :: l.pinned }

/-- Drops one reference of a field; tells whether none is left. -/
def releaseField (l : Ledger) (f : Field) : Bool × Ledger :=
  let l := { l with fields := l.fields.erase f.marker }
  (l.fieldCount f == 0, l)

/-- Drops one reference of a node; tells whether the node is now free to leave. -/
def releaseNode (l : Ledger) (id : NodeId) : Bool × Ledger :=
  let l := { l with nodes := l.nodes.erase id }
  (l.nodeCount id == 0 && !l.isPinned id, l)

/-! ## Counts -/

theorem fieldCount_addField (l : Ledger) (f g : Field) :
    (l.addField f).fieldCount g = l.fieldCount g + if f.marker = g.marker then 1 else 0 := by
  by_cases h : f.marker = g.marker <;> simp [addField, fieldCount, h]

theorem nodeCount_addNode (l : Ledger) (a b : NodeId) :
    (l.addNode a).nodeCount b = l.nodeCount b + if a = b then 1 else 0 := by
  by_cases h : a = b <;> simp [addNode, nodeCount, h]

theorem fieldCount_releaseField (l : Ledger) (f g : Field) :
    (l.releaseField f).2.fieldCount g = l.fieldCount g - if f.marker = g.marker then 1 else 0 := by
  by_cases h : f.marker = g.marker
  · simp [releaseField, fieldCount, h]
  · simp [releaseField, fieldCount, h, List.count_erase_of_ne (Ne.symm h)]

theorem nodeCount_releaseNode (l : Ledger) (a b : NodeId) :
    (l.releaseNode a).2.nodeCount b = l.nodeCount b - if a = b then 1 else 0 := by
  by_cases h : a = b
  · simp [releaseNode, nodeCount, h]
  · simp [releaseNode, nodeCount, h, List.count_erase_of_ne (Ne.symm h)]

end Ledger

end MailMerge
