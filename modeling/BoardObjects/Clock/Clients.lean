/-
# Callers that share a clock state

A clock state may be shared by any number of callers. A lock makes each call one step:
it finds the state that the call before it has left, whoever made that. Each caller
makes its own calls in their order, and nothing is said of the order between the calls
of different callers.
-/
import BoardObjects.Clock.Program

namespace BoardObjects

namespace Clock

/-- A call that has been made. -/
structure Served (ι : Type) where
  caller : ι
  command : Command
  found : State
  reply : Reply

/-- A shared state and the calls that each caller has still to make. -/
structure System (ι : Type) where
  state : State
  pending : ι → List Command

namespace System

variable {ι : Type} [DecidableEq ι]

/-- The system after the call `c` of the caller `i`, who has the calls `cs` left. -/
def serve (x : System ι) (i : ι) (c : Command) (cs : List Command) : System ι :=
  ⟨(Clock.step x.state c).state, fun j => if j = i then cs else x.pending j⟩

inductive Step : System ι → Served ι → System ι → Prop
  | serve {x : System ι} {i : ι} {c : Command} {cs : List Command} (h : x.pending i = c :: cs) :
    Step x ⟨i, c, x.state, (Clock.step x.state c).answer⟩ (x.serve i c cs)

/-- The callers make calls in some order, each noted with what it found and what it
was answered. -/
inductive Run : System ι → List (Served ι) → System ι → Prop
  | nil (x : System ι) : Run x [] x
  | cons {x y z : System ι} {e : Served ι} {es : List (Served ι)} (first : Step x e y)
    (rest : Run y es z) : Run x (e :: es) z

end System

end Clock

end BoardObjects
