/-
# Frequency domains of the clock

A frequency domain is a board object whose body is one word: the mask of the
clocks that it drives.
-/
import BoardObjects.Object
import BoardObjects.Word

namespace BoardObjects

namespace Clock

structure Domain where
  clocks : Word
  deriving DecidableEq, Repr

namespace Domain

/-- The kind of a frequency domain, in its third version. -/
def kind : UInt8 := 1

instance : BoardObject Domain where
  kind _ := kind
  body d := d.clocks.toBytes
  fault _ := none

/-- The domain with its word in decimal. -/
def text (d : Domain) : String :=
  "ClkFreqDomain \x7b clk_domain: " ++ toString d.clocks.toNat ++ " \x7d"

end Domain

end Clock

end BoardObjects
