/-
# Masks on the wire

The firmware exchanges a mask as eight words, sent as 32 bytes with the low byte
of each word first. The form does not say how many of its 256 bits are meant:
reader and writer agree on a capacity beforehand.
-/
import BoardObjects.Block
import BoardObjects.ErrorCode

namespace BoardObjects

/-- A mask as the firmware sees it. -/
structure WireMask where
  block : Block
  deriving DecidableEq, Repr

namespace WireMask

def empty : WireMask := ⟨Block.zero⟩

def words (w : WireMask) : List Word := w.block.toList

def bit (w : WireMask) (i : Nat) : Bool := Words.bit w.words i

/-- The mask with the given words; those that are missing are zero. -/
def ofWords (ws : List Word) : WireMask := ⟨Block.zero.overwrite ws⟩

/-- The number of bytes on the wire. -/
def byteCount : Nat := 32

/-- The words in order, four bytes each. -/
def toBytes (w : WireMask) : List UInt8 := w.words.flatMap Word.toBytes

/-- Cuts a list of bytes into words, as many as asked for. -/
def cut : Nat → List UInt8 → List Word
  | 0, _ => []
  | k + 1, bs => Word.ofBytes (bs.take 4) :: cut k (bs.drop 4)

/-- Reads the first 32 bytes and ignores the rest; fewer are refused. -/
def ofBytes (bs : List UInt8) : Except ErrorCode WireMask :=
  if bs.length < byteCount then .error .invalidArgument else .ok (ofWords (cut 8 bs))

/-- The words in decimal. -/
def text (w : WireMask) : String :=
  "CtrlBoardObjGrpMask \x7b data: ["
    ++ String.intercalate ", " (w.words.map fun v => toString v.toNat) ++ "] \x7d"

theorem length_words (w : WireMask) : w.words.length = 8 := by simp [words]

theorem ofBytes_eq_error_iff {bs : List UInt8} {e : ErrorCode} :
    ofBytes bs = .error e ↔ bs.length < byteCount ∧ e = .invalidArgument := by
  by_cases h : bs.length < byteCount <;> simp [ofBytes, h, eq_comm]

end WireMask

end BoardObjects
