import Multitrack.Guard
import Multitrack.TwoTape.Transition

/-! # Signatures

What the construction needs to know of a two-tape machine besides its transitions: its letters, its
states and a guard for the names of the emulation. -/
namespace Multitrack

/-- The letters and states that the emulation is built over. -/
structure Signature where
  /-- Every letter, the blank included. -/
  alphabet : List Letter
  /-- The letters that an input is made of. -/
  nonBlank : List Letter
  states : List StateName
  guard : Guard
deriving DecidableEq, Repr

namespace Signature

/-- The signature of a list of transitions: the blank and then the other letters in increasing order,
the start state and the named states in increasing order, and a guard over all these tokens. -/
def ofTransitions (ts : List Transition) : Signature :=
  let letters := ts.flatMap Transition.letters
  let states := ts.flatMap Transition.states
  let nonBlank := sortedNames (letters.filter (· ≠ blank))
  { alphabet := blank :: nonBlank
    nonBlank
    states := sortedNames (startState :: states)
    guard := .above (letters ++ states) }

def anchorStates (sig : Signature) : List StateName := sig.states.filter fun q => !isHalting q

def trackedCells (sig : Signature) : List Cell :=
  sig.alphabet.flatMap fun a => sig.alphabet.flatMap fun b => HeadSet.all.map (Cell.tracked a b)

def anchors (sig : Signature) : List Cell := sig.anchorStates.map Cell.anchor

end Signature

end Multitrack
