/-
# A call against its specification

What a call on a group or on a clock should do is told on a simpler state: the
answer and the simpler state after it, or the cause for which it is refused. A call
conforms if it gives this answer and leaves a state that stands for that simpler
state; and if a refused call leaves the very state that it found, in all that the
simpler state does not show.
-/
import BoardObjects.Outcome

namespace BoardObjects

namespace Outcome

variable {σ τ ρ : Type}

/-- The outcome `o` of a call in the state `s` is the specified one, where `R` says
which states stand for which simpler ones. -/
structure Conforms (R : σ → τ → Prop) (s : σ) (o : Outcome σ (Except ErrorCode ρ))
    (x : Except ErrorCode (ρ × τ)) : Prop where
  answer : o.answer = x.map Prod.fst
  accepted : ∀ r t, x = .ok (r, t) → R o.state t
  refused : ∀ e, x = .error e → o.state = s

/-- The simpler state after a call: the one specified, or the one before it if the
call is refused. -/
def settle (t : τ) : Except ErrorCode (ρ × τ) → τ
  | .error _ => t
  | .ok (_, t') => t'

variable {R : σ → τ → Prop}

theorem conforms_refused (s : σ) (e : ErrorCode) (log : List Event) :
    Conforms R s (refused s e log : Outcome σ (Except ErrorCode ρ)) (.error e) :=
  ⟨rfl, fun _ _ h => (by cases h), fun _ _ => rfl⟩

theorem conforms_done {s s' : σ} {t : τ} (h : R s' t) (r : ρ) (log : List Event) :
    Conforms R s ⟨.ok r, s', log⟩ (.ok (r, t)) := by
  refine ⟨rfl, fun r' t' heq => ?_, fun e heq => (by cases heq)⟩
  obtain ⟨-, rfl⟩ := Prod.mk.inj (Except.ok.inj heq)
  exact h

/-- A call that conforms keeps the two states related, refused or not. -/
theorem Conforms.related {s : σ} {t : τ} {o : Outcome σ (Except ErrorCode ρ)}
    {x : Except ErrorCode (ρ × τ)} (h : Conforms R s o x) (hs : R s t) : R o.state (settle t x) := by
  cases x with
  | error e => exact (h.refused e rfl).symm ▸ hs
  | ok rt => exact h.accepted rt.1 rt.2 rfl

end Outcome

end BoardObjects
