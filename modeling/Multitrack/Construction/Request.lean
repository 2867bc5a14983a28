import Multitrack.Construction.Fire
import Multitrack.Construction.Layout
import Multitrack.Construction.Locate
import Multitrack.Construction.Move
import Multitrack.RuleBook

/-! # Requests to a rule book

The parts of the construction can be requested one by one, in any order and repeatedly; a rule book
keeps what they have in common once. -/
namespace Multitrack

/-- A part of the construction, or a single rule. -/
inductive Request where
  | layout
  | locate
  | move
  | fire (t : Transition)
  | rule (r : Rule)
deriving DecidableEq, Repr

namespace Request

def rules (sig : Signature) : Request → List Rule
  | .layout => sig.layoutRules
  | .locate => sig.locateRules
  | .move => sig.moveRules
  | .fire t => t.fireRule?.toList
  | .rule r => [r]

end Request

def RuleBook.serve (b : RuleBook) (sig : Signature) (req : Request) : RuleBook :=
  b.insertAll (req.rules sig)

end Multitrack
