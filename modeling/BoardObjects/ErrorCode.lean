/-
# Error codes

Every layer answers a refused call with one of twelve causes. A caller outside
the driver sees a cause as a number: as itself (`number`), or negated in the
POSIX way (`toPosix`). Reading a number back is partial: `ofPosix?`, `ofInt64?`
and `ofUInt64?` accept the numbers of the table and nothing else, at every
width.
-/

namespace BoardObjects

/-- Why a call was refused. -/
inductive ErrorCode where
  | notPermitted
  | noEntry
  | ioError
  | noMemory
  | busy
  | alreadyExists
  | noDevice
  | invalidArgument
  | noSpace
  | outOfRange
  | notSupported
  | timedOut
  deriving DecidableEq, Repr, Inhabited

namespace ErrorCode

/-- All causes, in the order of their numbers. -/
def all : List ErrorCode :=
  [notPermitted, noEntry, ioError, noMemory, busy, alreadyExists, noDevice,
    invalidArgument, noSpace, outOfRange, notSupported, timedOut]

def number : ErrorCode → Int32
  | notPermitted => 1
  | noEntry => 2
  | ioError => 5
  | noMemory => 12
  | busy => 16
  | alreadyExists => 17
  | noDevice => 19
  | invalidArgument => 22
  | noSpace => 28
  | outOfRange => 34
  | notSupported => 95
  | timedOut => 110

def symbol : ErrorCode → String
  | notPermitted => "EPERM"
  | noEntry => "ENOENT"
  | ioError => "EIO"
  | noMemory => "ENOMEM"
  | busy => "EBUSY"
  | alreadyExists => "EEXIST"
  | noDevice => "ENODEV"
  | invalidArgument => "EINVAL"
  | noSpace => "ENOSPC"
  | outOfRange => "ERANGE"
  | notSupported => "EOPNOTSUPP_OR_ENOTSUP"
  | timedOut => "ETIMEDOUT"

def ofSymbol? (s : String) : Option ErrorCode :=
  all.find? fun e => e.symbol == s

/-! ### Numbers of a cause -/

/-- The negative number that callers outside the driver receive. -/
def toPosix (e : ErrorCode) : Int32 := -e.number

def toInt64 (e : ErrorCode) : Int64 := e.number.toInt64

/-- The positive number as an unsigned word. -/
def toUInt64 (e : ErrorCode) : UInt64 := e.toInt64.toUInt64

/-- The name and the POSIX number, as `EINVAL (-22)`. -/
def message (e : ErrorCode) : String :=
  e.symbol ++ " (" ++ toString e.toPosix.toInt ++ ")"

/-! ### Reading a number -/

def ofInt64? (v : Int64) : Option ErrorCode :=
  all.find? fun e => e.toInt64 == v

/-- An unsigned word is read as the signed word of the same bits. -/
def ofUInt64? (u : UInt64) : Option ErrorCode :=
  ofInt64? u.toInt64

/-- The negation of `v`, which the least value does not have. -/
def negate? (v : Int32) : Option Int32 :=
  if v = Int32.minValue then none else some (-v)

/-- The cause whose negative number is `v`. Zero and the positive numbers mean
success, so they name no cause. -/
def ofPosix? (v : Int32) : Option ErrorCode :=
  if 0 ≤ v then none else (negate? v).bind fun p => ofInt64? p.toInt64

/-! ### The table -/

theorem mem_all (e : ErrorCode) : e ∈ all := by cases e <;> decide

theorem toPosix_neg (e : ErrorCode) : e.toPosix < 0 := by cases e <;> decide

end ErrorCode

end BoardObjects
