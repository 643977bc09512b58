/-
# Lists of words as bits

A list of words holds one bit per index: index `i` is bit `i % 32` of word
`i / 32`. A size `n` says how many indices are meant. It fixes how many words
they take (`wordCount`) and which bits of the last word are theirs
(`tailFilter`), but nothing forces a list to have that length or the bits
above `n` to be clear: every function here is defined for any list, any size
and any filter, and touches only what its comment says.
-/
import BoardObjects.Word

namespace BoardObjects

namespace Words

/-- The bit at index `i`, clear beyond the end of the list. -/
def bit (ws : List Word) (i : Nat) : Bool :=
  (ws.getD (i / 32) 0#32).getLsbD (i % 32)

/-! ### Geometry -/

/-- The number of words that hold `n` bits. -/
def wordCount (n : Nat) : Nat := (n + 31) / 32

/-- The bits of the last word that lie below the size `n`. A size that fills
its last word keeps all of it. -/
def tailFilter (n : Nat) : Word :=
  if n % 32 = 0 then BitVec.allOnes 32 else Word.single (n % 32) - 1#32

/-- Clears the bits of the last word that are not in the filter. -/
def normalize (filter : Word) : List Word → List Word
  | [] => []
  | [w] => [w &&& filter]
  | w :: v :: ws => w :: normalize filter (v :: ws)

/-! ### One bit -/

/-- The bit at index `i`, if the index is below the size and the list reaches
it. -/
def get (n : Nat) (ws : List Word) (i : Nat) : Option Bool :=
  if i < n then ws[i / 32]?.map fun (w : Word) => (w >>> (i % 32)) &&& 1#32 != 0#32 else none

/-- The word `w` with bit `k` made equal to `v`. -/
def assign (w : Word) (k : Nat) (v : Bool) : Word :=
  if v then w ||| Word.single k else w &&& ~~~Word.single k

/-- Makes the bit at index `i` equal to `v` and answers what it was. Where
`get` finds no bit there is none to write, and the list stays as it is. -/
def set (n : Nat) (ws : List Word) (i : Nat) (v : Bool) : Option Bool × List Word :=
  if i < n then
    match ws[i / 32]? with
    | some w => (some (w &&& Word.single (i % 32) != 0#32), ws.set (i / 32) (assign w (i % 32) v))
    | none => (none, ws)
  else (none, ws)

/-- Flips the bit at index `i`. -/
def flip (ws : List Word) (i : Nat) : List Word :=
  ws.modify (i / 32) (· ^^^ Word.single (i % 32))

/-- Flips every bit of the word of index `i` except the one at `i`. -/
def flipOthers (ws : List Word) (i : Nat) : List Word :=
  ws.modify (i / 32) (· ^^^ ~~~Word.single (i % 32))

/-! ### All bits -/

/-- Makes every bit equal to `v`, as far as the filter lets the last word. -/
def setAll (filter : Word) (ws : List Word) (v : Bool) : List Word :=
  normalize filter (ws.map fun _ => if v then BitVec.allOnes 32 else 0#32)

/-- Flips every bit, and clears those of the last word outside the filter. -/
def invert (filter : Word) (ws : List Word) : List Word :=
  normalize filter (ws.map (~~~ ·))

def count : List Word → Nat
  | [] => 0
  | w :: ws => w.popCount + count ws

def isEmpty (ws : List Word) : Bool :=
  ws.all (· == 0#32)

/-- Every word is full, the last one being full when it equals the filter. The
empty list is not full. -/
def isFull (filter : Word) : List Word → Bool
  | [] => false
  | [w] => w == filter
  | w :: v :: ws => w == BitVec.allOnes 32 && isFull filter (v :: ws)

/-! ### Two lists -/

/-- Every bit of `a` is a bit of `b`, as far as both lists reach. -/
def isSubset (a b : List Word) : Bool :=
  (a.zip b).all fun p => p.1 &&& p.2 == p.1

/-- Overwrites `dst` by the words `f a b`, as far as all three lists reach. -/
def combine (f : Word → Word → Word) : List Word → List Word → List Word → List Word
  | _ :: dst, a :: as, b :: bs => f a b :: combine f dst as bs
  | dst, _, _ => dst

end Words

end BoardObjects
