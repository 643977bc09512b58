/-
# The payload of a group

The firmware learns about the objects of a group from one payload: the wire mask
of the objects it describes, then their records, ascending by index. A filter
asks for some of the objects; it may name members only. The first object in
order whose record cannot be written decides the refusal, and what has been
written by then is given up.
-/
import BoardObjects.Group.Basic
import BoardObjects.Object

namespace BoardObjects

/-- What is sent to the firmware. -/
structure Payload where
  mask : WireMask
  table : List UInt8
  deriving DecidableEq, Repr

/-- The mask, then the table. -/
def Payload.toBytes (p : Payload) : List UInt8 := p.mask.toBytes ++ p.table

namespace Group

variable {α : Type}

/-- The objects that a filter asks for: all members without one. -/
def selection (g : Group α) : Option Mask → Except ErrorCode Mask
  | none => .ok g.mask
  | some w => if g.containsAll w then .ok w else .error .invalidArgument

def filterLog (g : Group α) : Option Mask → List Event
  | none => []
  | some w => if g.containsAll w then [] else [.filterOutside w]

variable [FirmwareObject α]

/-- Writes the records of the objects at the given indices behind the bytes `bs`. An
object that cannot be written ends it; what it has written stays. -/
def writeRecords (g : Group α) : List UInt8 → List UInt8 → Change (List UInt8)
  | [], bs => (.ok (), bs)
  | i :: is, bs =>
    match g.get? i with
    | none => (.error .noEntry, bs)
    | some x =>
      match FirmwareObject.write x (bs ++ [FirmwareObject.kind x, i]) with
      | (.error e, bs) => (.error e, bs)
      | (.ok (), bs) => writeRecords g is bs

def payload (g : Group α) (filter : Option Mask) : Except ErrorCode Payload :=
  match g.selection filter with
  | .error e => .error e
  | .ok w =>
    match w.exportTo g.capacity .empty with
    | (.error e, _) => .error e
    | (.ok (), wire) =>
      match g.writeRecords w.indices [] with
      | (.error e, _) => .error e
      | (.ok (), bs) => .ok ⟨wire, bs⟩

/-- Builds the payload of all objects and notes that it has been built. -/
def send (g : Group α) : Outcome (Group α) (Except ErrorCode Payload) :=
  match g.payload none with
  | .error e => .refused g e []
  | .ok p =>
    ⟨.ok p, { g with flags := g.flags.insert .sent }, [.groupSent g.count p.table.length]⟩

end Group

end BoardObjects
