/-
# Changes

A call that changes a value in place may be refused half way. Its verdict and what
it leaves behind are two things, so a change carries both: that a refused call has
left the old value is a property of the call, not of the form of its result.
-/
import BoardObjects.ErrorCode

namespace BoardObjects

/-- The verdict of a call that changes a value, and the value that it leaves behind,
also where it is refused. -/
abbrev Change (σ : Type) := Except ErrorCode Unit × σ

namespace Change

variable {σ τ : Type}

/-- What an accepted call leaves behind. A refused one leaves nothing to be used. -/
def accepted (o : Change σ) : Except ErrorCode σ := o.1.map fun _ => o.2

def map (f : σ → τ) (o : Change σ) : Change τ := (o.1, f o.2)

/-- Goes on with `f` from what an accepted call leaves behind. -/
def andThen (o : Change σ) (f : σ → Change σ) : Change σ :=
  match o with
  | (.ok (), s) => f s
  | (.error e, s) => (.error e, s)

end Change

end BoardObjects
