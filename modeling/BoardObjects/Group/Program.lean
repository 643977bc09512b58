/-
# Programs over a group

The calls on a group as values: questions, which leave the group as it is, and
commands, which may change it.
-/
import BoardObjects.Group.Payload

namespace BoardObjects

namespace Group

/-- What can be asked of a group without changing it. -/
inductive Query where
  | get (i : UInt8)
  | entries
  | summary
  | filter (w : Mask)
  | containsAll (w : Mask)
  | payload (filter : Option Mask)
  | parseMask (w : WireMask)

/-- Everything a group says about itself. -/
structure Summary where
  capacity : UInt8
  count : Nat
  isEmpty : Bool
  mask : Mask.Summary
  flags : Flags
  deriving DecidableEq, Repr

inductive Answer (α : Type) where
  | object (x : Option α)
  | entries (xs : List (UInt8 × α))
  | summary (s : Summary)
  | mask (m : Except ErrorCode Mask)
  | truth (b : Bool)
  | payload (p : Except ErrorCode Payload)

/-- What can be done to a group. -/
inductive Command (α : Type) where
  | insert (i : UInt8) (x : α)
  | remove (i : UInt8)
  | modify (i : UInt8) (f : α → α)
  | send
  | ask (q : Query)

inductive Reply (α : Type) where
  | result (r : Except ErrorCode Unit)
  | removed (r : Except ErrorCode α)
  /-- The object before a change in place. -/
  | modified (x : Option α)
  | sent (p : Except ErrorCode Payload)
  | answer (a : Answer α)

variable {α : Type}

def summary (g : Group α) : Summary where
  capacity := g.capacity
  count := g.count
  isEmpty := g.isEmpty
  mask := g.mask.summary
  flags := g.flags

variable [FirmwareObject α]

def ask (g : Group α) : Query → Answer α
  | .get i => .object (g.get? i)
  | .entries => .entries g.entries
  | .summary => .summary g.summary
  | .filter w => .mask (g.filter w)
  | .containsAll w => .truth (g.containsAll w)
  | .payload filter => .payload (g.payload filter)
  | .parseMask w => .mask (g.parseMask w)

/-- What is reported while a query is answered. -/
def askLog (g : Group α) : Query → List Event
  | .payload filter => g.filterLog filter
  | _ => []

def step (g : Group α) : Command α → Outcome (Group α) (Reply α)
  | .insert i x => (g.insert i x).map .result
  | .remove i => (g.remove i).map .removed
  | .modify i f => ⟨.modified (g.get? i), g.modify i f, []⟩
  | .send => g.send.map .sent
  | .ask q => ⟨.answer (g.ask q), g, g.askLog q⟩

end Group

end BoardObjects
