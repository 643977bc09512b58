/-
# Masks

A mask says which objects of a group are meant. It stores the number of indices, a
block of eight words, how many of the words are in use and which bits of the last
one are. The last two are written when the mask is made and read by everything
after; that they are those of the number of indices is `Mask.Formed`.

Two more things hold of every mask that the functions here make, and the functions
rely on them: no bit in use is set at or above the number of indices, and the words
that are not in use are zero (`Mask.Clean`). Some functions clear the tail after
their work (`clear`, `fill`, `invert`, `load`, `toggleOthers`); the others need not,
since they set no bit there unless an operand has one.

A function that can be refused is a `Change`: it says what it leaves of the mask also
then.
-/
import BoardObjects.Change
import BoardObjects.WireMask

namespace BoardObjects

/-- The ways to join two sets of indices. -/
inductive SetOp where
  | inter
  | union
  | symmDiff
  deriving DecidableEq, Repr

namespace SetOp

/-- The operation on all bits of a word. -/
def onWords : SetOp → Word → Word → Word
  | inter, a, b => a &&& b
  | union, a, b => a ||| b
  | symmDiff, a, b => a ^^^ b

/-- The operation on membership. -/
def onBits : SetOp → Bool → Bool → Bool
  | inter, a, b => a && b
  | union, a, b => a || b
  | symmDiff, a, b => a ^^ b

theorem getLsbD_onWords (op : SetOp) (a b : Word) (k : Nat) :
    (op.onWords a b).getLsbD k = op.onBits (a.getLsbD k) (b.getLsbD k) := by
  cases op <;> simp [onWords, onBits]

end SetOp

/-- A set of object indices below a capacity. -/
structure Mask where
  /-- The number of indices. -/
  bits : UInt8
  /-- The number of words in use. -/
  usedWords : UInt8
  /-- The bits in use of the last word in use. -/
  tailFilter : Word
  block : Block
  deriving Repr

namespace Mask

def size (m : Mask) : Nat := m.bits.toNat

def wordCount (m : Mask) : Nat := m.usedWords.toNat

/-- The words in use. -/
def words (m : Mask) : List Word := m.block.lead m.wordCount

/-- The mask with other leading words; the words behind them stay. -/
def withWords (m : Mask) (ws : List Word) : Mask := { m with block := m.block.overwrite ws }

/-- Clears the bits of the last word in use that are not in the filter. -/
def normalize (m : Mask) : Mask := m.withWords (Words.normalize m.tailFilter m.words)

/-- Masks are compared by the number of indices and by the words in use. -/
instance : BEq Mask := ⟨fun a b => a.bits == b.bits && a.words == b.words⟩

/-- The number of indices is one of the two that exist, and what is stored about the
words in use goes with it. -/
structure Formed (m : Mask) : Prop where
  bits : m.bits = 32 ∨ m.bits = 255
  wordCount : m.wordCount = Words.wordCount m.size
  tailFilter : m.tailFilter = Words.tailFilter m.size

/-- No bit in use lies at or above the number of indices, and no word out of use has
one. -/
structure Clean (m : Mask) : Prop where
  formed : m.Formed
  bit : ∀ i, m.size ≤ i → Words.bit m.words i = false
  spare : ∀ k, (h : k < 8) → m.wordCount ≤ k → m.block[k] = 0#32

/-- The bit at index `i`; none is set at or above the number of indices. -/
def get (m : Mask) (i : UInt8) : Bool :=
  (Words.get m.size m.words i.toNat).getD false

/-! ### Making masks -/

def empty (c : Capacity) : Mask where
  bits := c.bits
  usedWords := UInt8.ofNat c.wordCount
  tailFilter := c.tailFilter
  block := Block.zero

/-- Takes over the leading words of a wire mask and clears what lies at or above
the number of indices. -/
def load (m : Mask) (w : WireMask) : Mask := (m.withWords (w.block.lead m.wordCount)).normalize

/-- Takes over a wire mask meant for `bits` indices, which have to be the mask's
own. -/
def importFrom (m : Mask) (bits : UInt8) (w : WireMask) : Change Mask :=
  if m.bits = bits then (.ok (), m.load w) else (.error .invalidArgument, m)

/-- Writes the words in use over the leading words of a wire mask, whose other
words stay. The reader expects `bits` indices, which have to be the mask's own. -/
def exportTo (m : Mask) (bits : UInt8) (w : WireMask) : Change WireMask :=
  if m.bits = bits then (.ok (), ⟨w.block.overwrite m.words⟩) else (.error .invalidArgument, w)

/-- A mask for `bits` indices, empty or with the bits of a wire mask. -/
def create (bits : UInt8) (seed : Option WireMask) : Except ErrorCode Mask :=
  match Capacity.ofBits? bits with
  | none => .error .invalidArgument
  | some c =>
    match seed with
    | none => .ok (empty c)
    | some w => ((empty c).importFrom bits w).accepted

/-! ### Changing all bits -/

def clear (m : Mask) : Mask := m.withWords (Words.setAll m.tailFilter m.words false)

def fill (m : Mask) : Mask := m.withWords (Words.setAll m.tailFilter m.words true)

def invert (m : Mask) : Mask := m.withWords (Words.invert m.tailFilter m.words)

/-! ### Changing one bit -/

/-- Makes the bit at index `i` equal to `v`. The words are written back as
`Words.set` leaves them, whether or not it has found the bit. -/
def assignBit (m : Mask) (i : UInt8) (v : Bool) : Change Mask :=
  match Words.set m.size m.words i.toNat v with
  -- what the bit was is not of interest
  | (some _, ws) => (.ok (), m.withWords ws)
  | (none, ws) => (.error .invalidArgument, m.withWords ws)

def setBit (m : Mask) (i : UInt8) : Change Mask := m.assignBit i true

def clearBit (m : Mask) (i : UInt8) : Change Mask := m.assignBit i false

/-- Puts the index `i` in if it is out, and takes it out if it is in. The word of `i`
is looked up among all eight. -/
def toggleBit (m : Mask) (i : UInt8) : Change Mask :=
  if i < m.bits then (.ok (), m.withWords (Words.flip m.block.toList i.toNat))
  else (.error .invalidArgument, m)

/-- Toggles every index that shares a word with `i`, except `i` itself. Firmware
tables of one generation expect this where a toggle of `i` is asked for. -/
def toggleOthers (m : Mask) (i : UInt8) : Change Mask :=
  if i < m.bits then (.ok (), (m.withWords (Words.flipOthers m.block.toList i.toNat)).normalize)
  else (.error .invalidArgument, m)

/-! ### Two masks -/

def sizesEqual (a b : Mask) : Bool := a.bits == b.bits

/-- Every index of `a` is one of `b`, for masks of one capacity. -/
def isSubset (a b : Mask) : Bool := b.sizesEqual a && Words.isSubset a.words b.words

/-- Overwrites `dst` by the join of `a` and `b`, word by word and as far as all
three reach. -/
def merge (op : SetOp) (dst a b : Mask) : Mask :=
  dst.withWords (Words.combine op.onWords dst.words a.words b.words)

/-- Overwrites `dst` by the join of `a` and `b`, if all three have one capacity. -/
def combine (op : SetOp) (dst a b : Mask) : Change Mask :=
  if dst.sizesEqual a && dst.sizesEqual b then (.ok (), merge op dst a b)
  else (.error .invalidArgument, dst)

/-- Overwrites `dst` by `src`, if both have one capacity. -/
def copy (dst src : Mask) : Change Mask :=
  if dst.sizesEqual src then (.ok (), dst.withWords src.words) else (.error .invalidArgument, dst)

/-! ### Formed masks -/

theorem beq_iff (a b : Mask) : (a == b) = true ↔ a.bits = b.bits ∧ a.words = b.words := by
  show (a.bits == b.bits && a.words == b.words) = true ↔ _
  simp

theorem formed_empty (c : Capacity) : (empty c).Formed := by
  cases c with
  | small => exact ⟨.inl rfl, by decide, by decide⟩
  | large => exact ⟨.inr rfl, by decide, by decide⟩

namespace Formed

variable {m : Mask}

theorem exists_capacity (hm : m.Formed) : ∃ c : Capacity, m.bits = c.bits := by
  rcases hm.bits with h | h
  · exact ⟨.small, h⟩
  · exact ⟨.large, h⟩

/-- What is stored about the words in use goes with the number of indices. -/
theorem eq_of_bits_eq {a b : Mask} (ha : a.Formed) (hb : b.Formed) (h : a.bits = b.bits) :
    a = { b with block := a.block } := by
  have hsize : a.size = b.size := by rw [size, size, h]
  have hcount : a.wordCount = b.wordCount := by rw [ha.wordCount, hb.wordCount, hsize]
  have hfilter : a.tailFilter = b.tailFilter := by rw [ha.tailFilter, hb.tailFilter, hsize]
  obtain ⟨bits, used, filter, block⟩ := a
  obtain rfl : bits = b.bits := h
  obtain rfl : used = b.usedWords := UInt8.toNat_inj.mp hcount
  obtain rfl : filter = b.tailFilter := hfilter
  rfl

theorem wordCount_le (hm : m.Formed) : m.wordCount ≤ 8 := by
  have h := hm.wordCount
  have hlt : m.size < 256 := m.bits.toNat_lt
  unfold Words.wordCount at h
  omega

theorem wordCount_pos (hm : m.Formed) : 0 < m.wordCount := by
  obtain ⟨c, hc⟩ := hm.exists_capacity
  rw [hm.wordCount, size, hc]
  cases c <;> decide

theorem size_le (hm : m.Formed) : m.size ≤ 32 * m.wordCount := by
  have h := hm.wordCount
  unfold Words.wordCount at h
  omega

theorem length_words (hm : m.Formed) : m.words.length = m.wordCount := by
  have h := hm.wordCount_le
  rw [words, Block.length_lead]
  omega

/-- There are as many words in use as the number of indices needs. -/
theorem length_words_size (hm : m.Formed) : m.words.length = Words.wordCount m.size :=
  hm.length_words.trans hm.wordCount

theorem words_withWords (hm : m.Formed) {ws : List Word} (h : ws.length = m.wordCount) :
    (m.withWords ws).words = ws := by
  have h8 : m.wordCount ≤ 8 := hm.wordCount_le
  have hw : (m.withWords ws).words = (m.block.overwrite ws).lead m.wordCount := rfl
  rw [hw, ← h, Block.lead_overwrite _ _ (h ▸ h8)]

end Formed

end Mask

end BoardObjects
