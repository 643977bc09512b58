/-
# Groups of board objects

A group has a slot for every index below its capacity, and a mask of the slots
that hold an object. The two are kept in step: an object goes into its slot when
its index goes into the mask, and leaves together with it. The mask is asked for
members and counts, the slots for objects.
-/
import BoardObjects.Group.Flags
import BoardObjects.Mask.Query
import BoardObjects.Outcome

namespace BoardObjects

/-- Objects of type `α`, each at an index of its own. -/
structure Group (α : Type) where
  mask : Mask
  slots : List (Option α)
  flags : Flags

namespace Group

variable {α : Type}

def empty (c : Capacity) : Group α := ⟨Mask.empty c, List.replicate c.size none, .constructed⟩

def construct (c : Capacity) : Outcome (Group α) Unit :=
  ⟨(), empty c, [.groupConstructed c.bits]⟩

def capacity (g : Group α) : UInt8 := g.mask.bits

def count (g : Group α) : Nat := g.mask.count.toNat

def isEmpty (g : Group α) : Bool := g.mask.isZero

def get? (g : Group α) (i : UInt8) : Option α := g.slots[i.toNat]?.join

/-- There is a slot for every index of the mask's capacity, the mask is clean,
and it has exactly the indices of the slots that hold an object. -/
def Coupled (g : Group α) : Prop :=
  g.slots.length = g.mask.size ∧ g.mask.Clean ∧
    ∀ i : UInt8, i < g.capacity → (g.mask.get i = true ↔ (g.get? i).isSome = true)

/-! ### Changing a group -/

/-- Puts an object at index `i`. The group has to have the index, and no object
at it. -/
def insert (g : Group α) (i : UInt8) (x : α) : Outcome (Group α) (Except ErrorCode Unit) :=
  if g.capacity ≤ i then .refused g .invalidArgument [.insertBeyond i g.capacity]
  else if g.mask.get i then .refused g .alreadyExists [.slotOccupied i]
  else
    match g.mask.setBit i with
    | (.error e, m) => .refused { g with mask := m } e []
    | (.ok (), m) => ⟨.ok (), { g with mask := m, slots := g.slots.set i.toNat (some x) }, []⟩

/-- The group with an empty slot at index `i`; the mask stays. -/
def vacate (g : Group α) (i : UInt8) : Group α := { g with slots := g.slots.set i.toNat none }

/-- Takes the object at index `i` out: first out of its slot, then out of the
mask. -/
def remove (g : Group α) (i : UInt8) : Outcome (Group α) (Except ErrorCode α) :=
  if g.capacity ≤ i then .refused g .invalidArgument []
  else
    match g.get? i with
    | none => .refused g .noEntry []
    | some x =>
      match g.mask.clearBit i with
      | (.error e, m) => .refused { g.vacate i with mask := m } e []
      | (.ok (), m) => ⟨.ok x, { g.vacate i with mask := m }, []⟩

/-- Changes the object at index `i` in its place, if there is one. -/
def modify (g : Group α) (i : UInt8) (f : α → α) : Group α :=
  { g with slots := g.slots.modify i.toNat (Option.map f) }

/-! ### Reading a group -/

/-- The objects with their indices, ascending. -/
def entries (g : Group α) : List (UInt8 × α) :=
  g.mask.indices.filterMap fun i => (g.get? i).map fun x => (i, x)

/-- The members that are in `w`: the mask of the group, copied and joined with it. -/
def filter (g : Group α) (w : Mask) : Except ErrorCode Mask :=
  (Mask.combine .inter g.mask g.mask w).accepted

def containsAll (g : Group α) (w : Mask) : Bool := w.isSubset g.mask

/-- A wire mask, read as a mask of the group's capacity. -/
def parseMask (g : Group α) (w : WireMask) : Except ErrorCode Mask :=
  Mask.create g.capacity (some w)

end Group

end BoardObjects
