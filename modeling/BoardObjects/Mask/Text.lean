/-
# The text of a mask

A mask prints its capacity and its words in use, each as eight hexadecimal
digits, on one line or over several; the words stay on one line in both.
-/
import BoardObjects.Mask.Basic

namespace BoardObjects

namespace Mask

/-- The words in use, as `[00000021]`. -/
def wordsText (m : Mask) : String :=
  "[" ++ String.intercalate ", " (m.words.map Word.hex) ++ "]"

/-- The mask on one line. -/
def text (m : Mask) : String :=
  "BoardObjGrpMask \x7b bitcount: " ++ toString m.bits.toNat ++ ", data: " ++ m.wordsText ++ " \x7d"

/-- The mask over several lines. -/
def prettyText (m : Mask) : String :=
  "BoardObjGrpMask \x7b\n    bitcount: " ++ toString m.bits.toNat ++ ",\n    data: " ++ m.wordsText
    ++ ",\n\x7d"

end Mask

end BoardObjects
