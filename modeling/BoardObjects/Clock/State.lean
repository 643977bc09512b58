/-
# The clock's share of the firmware state

Each device has at most one group of frequency domains. It comes into being
empty, is filled once from a list of domains, the first at index 0, and may be
sent to the firmware any number of times. It stays filled until it is freed.
-/
import BoardObjects.Clock.Domain
import BoardObjects.Group.Payload

namespace BoardObjects

namespace Clock

/-- The frequency domains of a device, and the flags they were set up with. -/
structure Bank where
  group : Group Domain
  initFlags : Word

/-- The bank of a device, if there is one. -/
inductive State where
  | absent
  | present (b : Bank)

namespace State

/-- The number of domains that a bank holds. -/
def capacity : Capacity := .small

def init : State → Outcome State (Except ErrorCode Unit)
  | present b => .refused (present b) .busy []
  | absent =>
    let made := Group.construct capacity
    ⟨.ok (), present ⟨made.state, 0#32⟩, made.log⟩

/-- Gives the bank up, if there is one. -/
def free (_ : State) : State := absent

/-- Puts domains into a group, the first of them at index `k`. -/
def populate : Group Domain → Nat → List Word → Outcome (Group Domain) (Except ErrorCode Unit)
  | g, _, [] => ⟨.ok (), g, []⟩
  | g, k, d :: ds =>
    let first := g.insert (UInt8.ofNat k) ⟨d⟩
    match first.answer with
    | .error e => .refused first.state e (first.log ++ [.domainRefused k e])
    | .ok () =>
      let rest := populate first.state (k + 1) ds
      ⟨rest.answer, rest.state, first.log ++ rest.log⟩

/-- Fills an empty bank from a list of domains. A bank that is not empty is
refused before the list is looked at. -/
def setUp (initFlags : Word) (ds : List Word) : State → Outcome State (Except ErrorCode Unit)
  | absent => .refused absent .noDevice []
  | present b =>
    if !b.group.isEmpty then .refused (present b) .busy []
    else if capacity.size < ds.length then
      .refused (present b) .invalidArgument [.tooManyDomains ds.length]
    else
      let filled := populate b.group 0 ds
      match filled.answer with
      | .error e => .refused (present { b with group := filled.state }) e filled.log
      | .ok () =>
        ⟨.ok (), present ⟨filled.state, initFlags⟩,
          filled.log ++ [.domainsReady filled.state.count]⟩

def send : State → Outcome State (Except ErrorCode Payload)
  | absent => .refused absent .noDevice []
  | present b =>
    let sent := b.group.send
    ⟨sent.answer, present { b with group := sent.state }, sent.log⟩

/-- Reads something off the bank. -/
def inspect {β : Type} (f : Bank → β) : State → Except ErrorCode β
  | absent => .error .noDevice
  | present b => .ok (f b)

end State

end Clock

end BoardObjects
