/-
# Outcomes

A call on a group or on a clock answers, leaves a state behind and reports. The
state is part of the outcome also when the call is refused: that a refused call
changes nothing is a property of the call, not of the form of its result.
-/
import BoardObjects.Event

namespace BoardObjects

/-- The answer `ρ` of a call, the state `σ` after it and what it reported. -/
structure Outcome (σ ρ : Type) where
  answer : ρ
  state : σ
  log : List Event

namespace Outcome

variable {σ ρ κ : Type}

/-- A call that is refused in the state `s`. -/
def refused (s : σ) (e : ErrorCode) (log : List Event) : Outcome σ (Except ErrorCode ρ) :=
  ⟨.error e, s, log⟩

def map {ρ' : Type} (f : ρ → ρ') (o : Outcome σ ρ) : Outcome σ ρ' := ⟨f o.answer, o.state, o.log⟩

/-- The state after a sequence of calls. -/
def run (step : σ → κ → Outcome σ ρ) (s : σ) (cs : List κ) : σ :=
  cs.foldl (fun s c => (step s c).state) s

/-- The outcome of each call of a sequence, in order. -/
def trace (step : σ → κ → Outcome σ ρ) : σ → List κ → List (Outcome σ ρ)
  | _, [] => []
  | s, c :: cs => step s c :: trace step (step s c).state cs

/-- What every call preserves, every sequence of calls preserves. -/
theorem run_preserves {step : σ → κ → Outcome σ ρ} {P : σ → Prop}
    (hstep : ∀ s c, P s → P (step s c).state) (cs : List κ) {s : σ} (hs : P s) :
    P (run step s cs) := by
  induction cs generalizing s with
  | nil => exact hs
  | cons c cs ih => exact ih (hstep s c hs)

end Outcome

end BoardObjects
