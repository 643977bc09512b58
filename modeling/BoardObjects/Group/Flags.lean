/-
# Flags of a group

A word of flags says how far a group has come: made, and sent to the firmware.
-/
import BoardObjects.Word

namespace BoardObjects

structure Flags where
  bits : Word
  deriving DecidableEq, Repr

namespace Flags

/-- The group has been made. -/
def constructed : Flags := ⟨1#32⟩

/-- The table of the group has been built for the firmware. -/
def sent : Flags := ⟨2#32⟩

def insert (a b : Flags) : Flags := ⟨a.bits ||| b.bits⟩

/-- The flags of `b` are among those of `a`. -/
def contains (a b : Flags) : Bool := a.bits &&& b.bits == b.bits

def known : List (Flags × String) :=
  [(constructed, "CONSTRUCTED"), (sent, "PMU_CONSTRUCTED")]

/-- The bits that no known flag has. -/
def unknownBits (a : Flags) : Word := Word.without a.bits (constructed.insert sent).bits

/-- The names of the flags, and the other bits in hexadecimal. -/
def text (a : Flags) : String :=
  let names := (known.filter fun p => a.contains p.1).map Prod.snd
  let rest := if a.unknownBits = 0#32 then [] else
    ["0x" ++ String.ofList (Nat.toDigits 16 a.unknownBits.toNat)]
  if names ++ rest = [] then "(empty)" else String.intercalate " | " (names ++ rest)

end Flags

end BoardObjects
