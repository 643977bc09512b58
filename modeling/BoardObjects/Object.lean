/-
# Board objects and their records

A board object is a piece of hardware that the firmware controls: a clock
domain, a voltage rail, a thermal zone. The firmware learns about it from a
record: the kind of the object, its index in the group, and a body whose length
goes with the kind. Writing the body may fail.

A group only needs that an object writes something (`FirmwareObject`). What is known
about the bytes needs that it appends them (`BoardObject`).
-/
import BoardObjects.Change

namespace BoardObjects

/-- What the firmware is told about an object. -/
class FirmwareObject (α : Type) where
  kind : α → UInt8
  /-- Writes the body to a buffer that already holds some bytes. -/
  write : α → List UInt8 → Change (List UInt8)

/-- An object that leaves the bytes of the buffer and writes behind them. -/
class BoardObject (α : Type) where
  kind : α → UInt8
  body : α → List UInt8
  /-- Why writing them fails, if it does; they are written up to there. -/
  fault : α → Option ErrorCode

namespace BoardObject

variable {α : Type} [BoardObject α]

def write (x : α) (bs : List UInt8) : Change (List UInt8) :=
  match fault x with
  | none => (.ok (), bs ++ body x)
  | some e => (.error e, bs ++ body x)

instance : FirmwareObject α := ⟨kind, write⟩

theorem write_ok {x : α} (h : fault x = none) (bs : List UInt8) :
    FirmwareObject.write x bs = (.ok (), bs ++ body x) := by
  show write x bs = _
  rw [write, h]

theorem write_fault {x : α} {e : ErrorCode} (h : fault x = some e) (bs : List UInt8) :
    FirmwareObject.write x bs = (.error e, bs ++ body x) := by
  show write x bs = _
  rw [write, h]

end BoardObject

/-- One object as the firmware sees it. -/
structure Record where
  kind : UInt8
  index : UInt8
  body : List UInt8
  deriving DecidableEq, Repr

namespace Record

def toBytes (r : Record) : List UInt8 := r.kind :: r.index :: r.body

/-- Reads records up to the end, where the length of a body goes with its kind.
Bytes that do not make up a whole record are refused. -/
def decode? (len : UInt8 → Nat) : List UInt8 → Option (List Record)
  | [] => some []
  | [_] => none
  | kind :: index :: bs =>
    if bs.length < len kind then none
    else (decode? len (bs.drop (len kind))).map (⟨kind, index, bs.take (len kind)⟩ :: ·)
termination_by bs => bs.length
decreasing_by
  rw [List.length_drop, List.length_cons, List.length_cons]
  exact Nat.lt_succ_of_le (Nat.le_succ_of_le (Nat.sub_le ..))

theorem decode?_toBytes_append (len : UInt8 → Nat) (r : Record) (bs : List UInt8)
    (h : r.body.length = len r.kind) :
    decode? len (r.toBytes ++ bs) = (decode? len bs).map (r :: ·) := by
  obtain ⟨kind, index, body⟩ := r
  have hb : ¬ (body ++ bs).length < len kind := by simp at h ⊢; omega
  have ht : (body ++ bs).take (len kind) = body := by rw [← h]; simp
  have hd : (body ++ bs).drop (len kind) = bs := by rw [← h]; simp
  rw [toBytes, List.cons_append, List.cons_append, decode?, if_neg hb, ht, hd]

end Record

end BoardObjects
