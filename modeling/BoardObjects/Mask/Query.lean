/-
# Asking a mask

What a mask answers: how many indices it has, the least, the greatest and the
next one, and all of them in ascending order. Indices and counts are bytes: a
capacity is at most 255, so no number of a mask is cut off.

Reading all indices goes through a cursor that knows the index it will give
next. Each step of a cursor gives a greater index, so as many steps as the
capacity has indices are enough to reach the end.
-/
import BoardObjects.Mask.Text
import BoardObjects.Words.Search

namespace BoardObjects

namespace Mask

def isZero (m : Mask) : Bool := Words.isEmpty m.words

/-- The mask has every index below the capacity. -/
def isFull (m : Mask) : Bool := Words.isFull m.tailFilter m.words

def count (m : Mask) : UInt8 := UInt8.ofNat (Words.count m.words)

def lowest? (m : Mask) : Option UInt8 := (Words.first? m.words).map UInt8.ofNat

def highest? (m : Mask) : Option UInt8 := (Words.last? m.size m.words).map UInt8.ofNat

/-- The least index above `i`. -/
def next? (m : Mask) (i : UInt8) : Option UInt8 :=
  (Words.next? m.size m.words i.toNat).map UInt8.ofNat

/-- The least index, or `noIndex`. -/
def lowest (m : Mask) : UInt8 := m.lowest?.getD noIndex

/-- The greatest index, or `noIndex`. -/
def highest (m : Mask) : UInt8 := m.highest?.getD noIndex

/-! ### All indices -/

/-- A position in the ascending list of the indices of a mask. -/
structure Cursor where
  mask : Mask
  /-- The index that the next step gives, if any is left. -/
  upcoming : Option UInt8

namespace Cursor

/-- Gives the upcoming index and looks for the one above it. At the end it gives
nothing and stays. -/
def next (c : Cursor) : Option UInt8 × Cursor :=
  match c.upcoming with
  | none => (none, c)
  | some i => (some i, { c with upcoming := c.mask.next? i })

/-- What the next `k` steps give, up to the end. -/
def take : Nat → Cursor → List UInt8
  | 0, _ => []
  | k + 1, c =>
    match c.next with
    | (none, _) => []
    | (some i, c) => i :: take k c

end Cursor

/-- The position before the least index. -/
def cursor (m : Mask) : Cursor := ⟨m, m.lowest?⟩

def indices (m : Mask) : List UInt8 := m.cursor.take m.size

/-! ### Questions as values -/

def everyByte : List UInt8 := (List.range 256).map UInt8.ofNat

/-- Everything a mask says about itself. -/
structure Summary where
  bits : UInt8
  wordCount : Nat
  tailFilter : Word
  words : List Word
  isZero : Bool
  isFull : Bool
  count : UInt8
  lowest? : Option UInt8
  highest? : Option UInt8
  lowest : UInt8
  highest : UInt8
  indices : List UInt8
  text : String
  deriving DecidableEq, Repr

def summary (m : Mask) : Summary where
  bits := m.bits
  wordCount := m.wordCount
  tailFilter := m.tailFilter
  words := m.words
  isZero := m.isZero
  isFull := m.isFull
  count := m.count
  lowest? := m.lowest?
  highest? := m.highest?
  lowest := m.lowest
  highest := m.highest
  indices := m.indices
  text := m.text

/-- What can be asked of a mask without changing it. -/
inductive Query where
  | summary
  | get (i : UInt8)
  | next (i : UInt8)
  | bits
  | nexts
  | indices
  | text
  | prettyText
  deriving DecidableEq, Repr

inductive Answer where
  | summary (s : Summary)
  | truth (b : Bool)
  | index (i : Option UInt8)
  | bits (bs : List Bool)
  | nexts (is : List (Option UInt8))
  | indices (is : List UInt8)
  | text (s : String)
  deriving DecidableEq, Repr

/-- The answer of a mask; `bits` and `nexts` go through every byte. -/
def ask (m : Mask) : Query → Answer
  | .summary => .summary m.summary
  | .get i => .truth (m.get i)
  | .next i => .index (m.next? i)
  | .bits => .bits (everyByte.map m.get)
  | .nexts => .nexts (everyByte.map m.next?)
  | .indices => .indices m.indices
  | .text => .text m.text
  | .prettyText => .text m.prettyText

end Mask

end BoardObjects
