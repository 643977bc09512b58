/-
# Log messages

The layers above the masks report what they do and what they refuse. A message
is a value: its level and its text are read off it.
-/
import BoardObjects.Mask.Text

namespace BoardObjects

/-- How much a message matters. -/
inductive Level where
  | debug
  | warn
  | error
  deriving DecidableEq, Repr

def Level.name : Level → String
  | debug => "DEBUG"
  | warn => "WARN"
  | error => "ERROR"

/-- What is reported. -/
inductive Event where
  | groupConstructed (capacity : UInt8)
  /-- An object was offered at an index that the group does not have. -/
  | insertBeyond (index capacity : UInt8)
  /-- An object was offered at an index that has one. -/
  | slotOccupied (index : UInt8)
  /-- Objects were asked for that the group does not have. -/
  | filterOutside (filter : Mask)
  /-- The table of a group has been built for the firmware. -/
  | groupSent (objects bytes : Nat)
  | tooManyDomains (count : Nat)
  /-- A clock domain could not be put into its group. -/
  | domainRefused (index : Nat) (cause : ErrorCode)
  | domainsReady (count : Nat)

namespace Event

/-- The level of a message. -/
def level : Event → Level
  | groupConstructed _ => .debug
  | insertBeyond .. => .warn
  | slotOccupied _ => .warn
  | filterOutside _ => .warn
  | groupSent .. => .debug
  | tooManyDomains _ => .error
  | domainRefused .. => .error
  | domainsReady _ => .debug

def text : Event → String
  | groupConstructed c => "boardobjgrp: constructed, capacity " ++ toString c.toNat
  | insertBeyond i c =>
    "boardobjgrp: insert index " ++ toString i.toNat ++ " beyond capacity " ++ toString c.toNat
  | slotOccupied i => "boardobjgrp: slot " ++ toString i.toNat ++ " already occupied"
  | filterOutside w => "boardobjgrp: filter " ++ w.text ++ " is not a subset of the group"
  | groupSent n b =>
    "boardobjgrp: pmu setup, " ++ toString n ++ " objects, " ++ toString b ++ " bytes"
  | tooManyDomains n =>
    "clk_freq_domain: " ++ toString n ++ " clock domains exceed group capacity"
  | domainRefused i e => "clk_freq_domain: insert " ++ toString i ++ " failed: " ++ e.symbol
  | domainsReady n => "clk_freq_domain: sw setup done, " ++ toString n ++ " domains"

/-- The level and the text, as `DEBUG: …`. -/
def line (e : Event) : String := e.level.name ++ ": " ++ e.text

end Event

end BoardObjects
