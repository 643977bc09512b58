/-
# Programs over named masks

A store holds masks and wire masks under names. A mask is held either as it is,
or with its capacity fixed by a type (`Register`). A command reads its operands
before it writes, so a name may stand for operand and destination at once. After a
command that has been refused, the store holds what the mask was left as. A command
that no store of its kind can carry out, because a name is not there or the two
forms of a mask do not go together, is `unknown` and changes nothing.
-/
import BoardObjects.Mask.Query
import BoardObjects.Mask.Sized

namespace BoardObjects

namespace Mask

/-- A mask as a store holds it. -/
inductive Register where
  | generic (m : Mask)
  | sized (c : Capacity) (m : SizedMask c)

def Register.mask : Register → Mask
  | generic m => m
  | sized _ s => s.mask

/-- Masks and wire masks under names. -/
structure Store where
  masks : String → Option Register
  wires : String → Option WireMask

namespace Store

def empty : Store := ⟨fun _ => none, fun _ => none⟩

def putMask (s : Store) (n : String) (r : Register) : Store :=
  { s with masks := fun n' => if n' = n then some r else s.masks n' }

def putWire (s : Store) (n : String) (w : WireMask) : Store :=
  { s with wires := fun n' => if n' = n then some w else s.wires n' }

end Store

/-! ### Commands -/

/-- The changes of every bit. -/
inductive Sweep where
  | clear
  | fill
  | invert
  deriving DecidableEq, Repr

/-- The changes at one index. -/
inductive Edit where
  | set
  | clear
  | toggle
  | toggleOthers
  deriving DecidableEq, Repr

/-- What can be asked of a store. -/
inductive Command where
  | putWire (c : String) (w : WireMask)
  | wireBytes (c : String)
  /-- A new mask for `bits` indices, with the bits of a wire mask if one is named. -/
  | create (m : String) (bits : UInt8) (seed : Option String)
  | createSized (m : String) (cap : Capacity)
  /-- A new sized mask with the bits of a wire mask. -/
  | createSizedFrom (m : String) (cap : Capacity) (c : String)
  | clone (m a : String)
  /-- A copy of a mask, as a mask of no fixed capacity. -/
  | forget (m a : String)
  | ask (m : String) (q : Query)
  | isSubset (a b : String)
  | sizesEqual (a b : String)
  | equal (a b : String)
  | sweep (f : Sweep) (m : String)
  | edit (f : Edit) (m : String) (i : UInt8)
  /-- Takes over a wire mask into a mask of no fixed capacity. -/
  | importFrom (m : String) (bits : UInt8) (c : String)
  /-- Takes over a wire mask into a sized mask. -/
  | load (m : String) (c : String)
  | exportTo (m : String) (bits : UInt8) (c : String)
  | combine (op : SetOp) (m a b : String)
  | copy (m a : String)

inductive Reply where
  /-- The command makes no sense in this store. -/
  | unknown
  /-- Done; this command cannot be refused. -/
  | done
  /-- Done, or refused for a cause. -/
  | result (r : Except ErrorCode Unit)
  | truth (b : Bool)
  | bytes (bs : List UInt8)
  | answer (a : Answer)

/-! ### Changes of a register -/

def sweep (m : Mask) : Sweep → Mask
  | .clear => m.clear
  | .fill => m.fill
  | .invert => m.invert

def edit (m : Mask) (i : UInt8) : Edit → Change Mask
  | .set => m.setBit i
  | .clear => m.clearBit i
  | .toggle => m.toggleBit i
  | .toggleOthers => m.toggleOthers i

end Mask

namespace SizedMask

variable {c : Capacity}

def sweep (s : SizedMask c) : Mask.Sweep → SizedMask c
  | .clear => s.clear
  | .fill => s.fill
  | .invert => s.invert

def edit (s : SizedMask c) (i : UInt8) : Mask.Edit → Change (SizedMask c)
  | .set => s.setBit i
  | .clear => s.clearBit i
  | .toggle => s.toggleBit i
  | .toggleOthers => s.toggleOthers i

end SizedMask

namespace Mask

namespace Register

def sweep : Register → Sweep → Register
  | generic m, f => .generic (m.sweep f)
  | sized c s, f => .sized c (s.sweep f)

def edit : Register → UInt8 → Edit → Change Register
  | generic m, i, f => (m.edit i f).map .generic
  | sized c s, i, f => (s.edit i f).map (.sized c)

/-- The join of `a` and `b` in `dst`. A sized destination takes operands of its
own type only and cannot refuse them. -/
def combine? (op : SetOp) : Register → Register → Register → Option (Change Register)
  | generic dst, a, b => some ((Mask.combine op dst a.mask b.mask).map .generic)
  | sized c dst, sized c₁ a, sized c₂ b =>
    if h : c₁ = c ∧ c₂ = c then
      some (.ok (), .sized c (SizedMask.combine op dst (h.1 ▸ a) (h.2 ▸ b)))
    else none
  | _, _, _ => none

end Register

/-! ### Running commands -/

/-- Holds a new mask. If none has been made there is nothing to hold. -/
def hold (s : Store) (m : String) : Except ErrorCode Mask → Reply × Store
  | .ok x => (.result (.ok ()), s.putMask m (.generic x))
  | .error e => (.result (.error e), s)

/-- Holds what a change has left of a mask, refused or not. -/
def settle (s : Store) (m : String) (o : Change Register) : Reply × Store :=
  (.result o.1, s.putMask m o.2)

/-- The answer of a command and the store after it. -/
def step (s : Store) : Command → Reply × Store
  | .putWire c w => (.done, s.putWire c w)
  | .wireBytes c =>
    match s.wires c with
    | some w => (.bytes w.toBytes, s)
    | none => (.unknown, s)
  | .create m bits none => hold s m (Mask.create bits none)
  | .create m bits (some c) =>
    match s.wires c with
    | some w => hold s m (Mask.create bits (some w))
    | none => (.unknown, s)
  | .createSized m cap => (.done, s.putMask m (.sized cap (SizedMask.empty cap)))
  | .createSizedFrom m cap c =>
    match s.wires c with
    | some w => (.done, s.putMask m (.sized cap (SizedMask.ofWire cap w)))
    | none => (.unknown, s)
  | .clone m a =>
    match s.masks a with
    | some r => (.done, s.putMask m r)
    | none => (.unknown, s)
  | .forget m a =>
    match s.masks a with
    | some r => (.done, s.putMask m (.generic r.mask))
    | none => (.unknown, s)
  | .ask m q =>
    match s.masks m with
    | some r => (.answer (r.mask.ask q), s)
    | none => (.unknown, s)
  | .isSubset a b =>
    match s.masks a, s.masks b with
    | some x, some y => (.truth (x.mask.isSubset y.mask), s)
    | _, _ => (.unknown, s)
  | .sizesEqual a b =>
    match s.masks a, s.masks b with
    | some x, some y => (.truth (x.mask.sizesEqual y.mask), s)
    | _, _ => (.unknown, s)
  | .equal a b =>
    match s.masks a, s.masks b with
    | some x, some y => (.truth (x.mask == y.mask), s)
    | _, _ => (.unknown, s)
  | .sweep f m =>
    match s.masks m with
    | some r => (.done, s.putMask m (r.sweep f))
    | none => (.unknown, s)
  | .edit f m i =>
    match s.masks m with
    | some r => settle s m (r.edit i f)
    | none => (.unknown, s)
  | .importFrom m bits c =>
    match s.masks m, s.wires c with
    | some (.generic x), some w => settle s m ((x.importFrom bits w).map .generic)
    | _, _ => (.unknown, s)
  | .load m c =>
    match s.masks m, s.wires c with
    | some (.sized cap x), some w => (.result (.ok ()), s.putMask m (.sized cap (x.load w)))
    | _, _ => (.unknown, s)
  | .exportTo m bits c =>
    match s.masks m, s.wires c with
    | some r, some w =>
      let o := r.mask.exportTo bits w
      (.result o.1, s.putWire c o.2)
    | _, _ => (.unknown, s)
  | .combine op m a b =>
    match s.masks m, s.masks a, s.masks b with
    | some d, some x, some y =>
      match Register.combine? op d x y with
      | some o => settle s m o
      | none => (.unknown, s)
    | _, _, _ => (.unknown, s)
  | .copy m a =>
    match s.masks m, s.masks a with
    | some (.generic d), some x => settle s m ((d.copy x.mask).map .generic)
    | _, _ => (.unknown, s)

def run (s : Store) (cs : List Command) : Store :=
  cs.foldl (fun s c => (step s c).2) s

/-- The answer of each command and the store after it, in order. -/
def trace : Store → List Command → List (Reply × Store)
  | _, [] => []
  | s, c :: cs => step s c :: trace (step s c).2 cs

end Mask

end BoardObjects
