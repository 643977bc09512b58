/-
# Programs over the clock state

The calls on the clock state as values. Several callers may share a state; each
call is one step, so what they do together is one sequence of commands.
-/
import BoardObjects.Clock.State
import BoardObjects.Group.Program

namespace BoardObjects

namespace Clock

/-- What can be done to the clock state. -/
inductive Command where
  | init
  | free
  | setUp (initFlags : Word) (ds : List Word)
  | send
  /-- A question to the group of domains. -/
  | ask (q : Group.Query)

inductive Reply where
  | done
  | result (r : Except ErrorCode Unit)
  | sent (p : Except ErrorCode Payload)
  | answer (a : Except ErrorCode (Group.Answer Domain))

structure Summary where
  initFlags : Word
  flags : Flags
  words : List Word
  domains : List Domain
  deriving DecidableEq, Repr

def Bank.summary (b : Bank) : Summary where
  initFlags := b.initFlags
  flags := b.group.flags
  words := b.group.mask.words
  domains := b.group.entries.map Prod.snd

/-- What is reported while a question is answered. -/
def askLog (q : Group.Query) : State → List Event
  | .absent => []
  | .present b => b.group.askLog q

def step (s : State) : Command → Outcome State Reply
  | .init => s.init.map .result
  | .free => ⟨.done, s.free, []⟩
  | .setUp initFlags ds => (s.setUp initFlags ds).map .result
  | .send => s.send.map .sent
  | .ask q => ⟨.answer (s.inspect fun b => b.group.ask q), s, askLog q s⟩

end Clock

end BoardObjects
