/-
# Masks of a known capacity

Where the capacity is fixed in the type, loading a wire mask and joining two
masks cannot be refused. Everything else is the work of the mask inside.
-/
import BoardObjects.Mask.Basic

namespace BoardObjects

namespace Mask

theorem bits_assignBit (m : Mask) (i : UInt8) (v : Bool) : (m.assignBit i v).2.bits = m.bits := by
  unfold assignBit
  split <;> rfl

theorem bits_toggleBit (m : Mask) (i : UInt8) : (m.toggleBit i).2.bits = m.bits := by
  unfold toggleBit
  split <;> rfl

theorem bits_toggleOthers (m : Mask) (i : UInt8) : (m.toggleOthers i).2.bits = m.bits := by
  unfold toggleOthers
  split <;> rfl

end Mask

/-- A mask of capacity `c`. -/
structure SizedMask (c : Capacity) where
  mask : Mask
  bits_eq : mask.bits = c.bits

namespace SizedMask

variable {c : Capacity}

def empty (c : Capacity) : SizedMask c := ⟨Mask.empty c, rfl⟩

instance : Inhabited (SizedMask c) := ⟨empty c⟩

def load (s : SizedMask c) (w : WireMask) : SizedMask c := ⟨s.mask.load w, s.bits_eq⟩

/-- The mask with the bits of a wire mask. -/
def ofWire (c : Capacity) (w : WireMask) : SizedMask c := (empty c).load w

def clear (s : SizedMask c) : SizedMask c := ⟨s.mask.clear, s.bits_eq⟩

def fill (s : SizedMask c) : SizedMask c := ⟨s.mask.fill, s.bits_eq⟩

def invert (s : SizedMask c) : SizedMask c := ⟨s.mask.invert, s.bits_eq⟩

/-- Takes over a change of the mask inside, refused or not. -/
def adopt (s : SizedMask c) (o : Change Mask) (h : o.2.bits = s.mask.bits) : Change (SizedMask c) :=
  (o.1, ⟨o.2, h.trans s.bits_eq⟩)

def assignBit (s : SizedMask c) (i : UInt8) (v : Bool) : Change (SizedMask c) :=
  s.adopt (s.mask.assignBit i v) (s.mask.bits_assignBit i v)

def setBit (s : SizedMask c) (i : UInt8) : Change (SizedMask c) := s.assignBit i true

def clearBit (s : SizedMask c) (i : UInt8) : Change (SizedMask c) := s.assignBit i false

def toggleBit (s : SizedMask c) (i : UInt8) : Change (SizedMask c) :=
  s.adopt (s.mask.toggleBit i) (s.mask.bits_toggleBit i)

def toggleOthers (s : SizedMask c) (i : UInt8) : Change (SizedMask c) :=
  s.adopt (s.mask.toggleOthers i) (s.mask.bits_toggleOthers i)

def combine (op : SetOp) (dst a b : SizedMask c) : SizedMask c :=
  ⟨Mask.merge op dst.mask a.mask b.mask, dst.bits_eq⟩

end SizedMask

end BoardObjects
