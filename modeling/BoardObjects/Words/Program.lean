/-
# Programs over a list of words

One command per function on words, and the answer it gives. The size and the
filter stay fixed while a program runs; the filter need not be the one of the
size.
-/
import BoardObjects.Words.Search

namespace BoardObjects

namespace Words

/-- What can be asked of a list of words. -/
inductive Command where
  | get (i : Nat)
  | set (i : Nat) (v : Bool)
  | setAll (v : Bool)
  | invert
  | normalize
  | count
  | first
  | last
  | next (i : Nat)
  | isEmpty
  | isFull
  | isSubset (of : List Word)
  | combine (f : Word → Word → Word) (a b : List Word)

inductive Reply where
  | done
  | truth (b : Bool)
  | number (n : Nat)
  | bit (b : Option Bool)
  | index (i : Option Nat)
  deriving DecidableEq, Repr

/-- The answer of a command and the list after it. -/
def step (n : Nat) (filter : Word) (ws : List Word) : Command → Reply × List Word
  | .get i => (.bit (get n ws i), ws)
  | .set i v => (.bit (set n ws i v).1, (set n ws i v).2)
  | .setAll v => (.done, setAll filter ws v)
  | .invert => (.done, invert filter ws)
  | .normalize => (.done, normalize filter ws)
  | .count => (.number (count ws), ws)
  | .first => (.index (first? ws), ws)
  | .last => (.index (last? n ws), ws)
  | .next i => (.index (next? n ws i), ws)
  | .isEmpty => (.truth (isEmpty ws), ws)
  | .isFull => (.truth (isFull filter ws), ws)
  | .isSubset of => (.truth (isSubset ws of), ws)
  | .combine f a b => (.done, combine f ws a b)

def run (n : Nat) (filter : Word) (ws : List Word) (cs : List Command) : List Word :=
  cs.foldl (fun ws c => (step n filter ws c).2) ws

/-- The answer of each command and the list after it, in order. -/
def trace (n : Nat) (filter : Word) : List Word → List Command → List (Reply × List Word)
  | _, [] => []
  | ws, c :: cs => step n filter ws c :: trace n filter (step n filter ws c).2 cs

end Words

end BoardObjects
