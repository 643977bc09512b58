/-
# Capacities

A group of board objects is made in one of two sizes: up to 32 objects, or up
to 255. The size is a byte, so 255 is the most a group can hold and the index
255 is never an object's: it stands for "no object".
-/
import BoardObjects.Words.Basic

namespace BoardObjects

/-- How many objects a group can hold. -/
inductive Capacity where
  /-- 32 objects, one word. -/
  | small
  /-- 255 objects, eight words. -/
  | large
  deriving DecidableEq, Repr, Inhabited

/-- The index that no object has. -/
def noIndex : UInt8 := 255

namespace Capacity

def bits : Capacity → UInt8
  | small => 32
  | large => 255

/-- The capacity of the given number of indices. -/
def ofBits? (b : UInt8) : Option Capacity :=
  if b = small.bits then some small else if b = large.bits then some large else none

def size (c : Capacity) : Nat := c.bits.toNat

def wordCount (c : Capacity) : Nat := Words.wordCount c.size

/-- The bits in use of the last word. -/
def tailFilter (c : Capacity) : Word := Words.tailFilter c.size

theorem ofBits?_eq_some_iff {b : UInt8} {c : Capacity} : ofBits? b = some c ↔ b = c.bits := by
  unfold ofBits? bits
  by_cases h : b = 32
  · subst h; cases c <;> simp
  · by_cases h' : b = 255
    · subst h'; cases c <;> simp
    · cases c <;> simp [h, h']

theorem ofBits?_bits (c : Capacity) : ofBits? c.bits = some c := ofBits?_eq_some_iff.2 rfl

end Capacity

end BoardObjects
