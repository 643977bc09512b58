/-
# Searching a list of words

Three searches for set bits. `first?` reads the whole list; `last?` and `next?`
know a size and answer nothing at or above it. `last?` looks at the highest set
bit of the whole list only, so a set bit above the size hides those below it.
-/
import BoardObjects.Words.Basic

namespace BoardObjects

namespace Words

/-- The least index of a set bit: words that are zero are skipped, 32 indices
each. -/
def first? : List Word → Option Nat
  | [] => none
  | w :: ws => if w = 0#32 then (first? ws).map (· + 32) else some w.ctz.toNat

/-- The greatest index of a set bit, whatever the size. -/
def highest? : List Word → Option Nat
  | [] => none
  | w :: ws =>
    match highest? ws with
    | some i => some (i + 32)
    | none => if w = 0#32 then none else some (31 - w.clz.toNat)

/-- The greatest index of a set bit, if it is below the size. -/
def last? (n : Nat) (ws : List Word) : Option Nat :=
  (highest? ws).filter (· < n)

/-- Clears the bits below `k` of the first word. -/
def skipLow (k : Nat) : List Word → List Word
  | [] => []
  | w :: ws => (w &&& (BitVec.allOnes 32 <<< k)) :: ws

/-- The least index of a set bit from `s` on, if it is below the size: the words before
`s` are dropped, and so are the bits before it in its own word. -/
def from? (n : Nat) (ws : List Word) (s : Nat) : Option Nat :=
  if s < n then
    ((first? (skipLow (s % 32) (ws.drop (s / 32)))).map (· + 32 * (s / 32))).filter (· < n)
  else none

/-- The least index of a set bit above `i`, if it is below the size. -/
def next? (n : Nat) (ws : List Word) (i : Nat) : Option Nat := from? n ws (i + 1)

/-- `next?` in machine integers: the index behind the greatest one does not exist. -/
def nextUSize? (n : USize) (ws : List Word) (i : USize) : Option Nat :=
  if i.toNat + 1 < USize.size then from? n.toNat ws (i + 1).toNat else none

end Words

end BoardObjects
