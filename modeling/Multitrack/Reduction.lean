import Multitrack.Construction.Request

/-! # The reduction

From a list of two-tape transitions to the rows of a single-tape machine that emulates it: layout,
locate, one rule for every transition that can fire, and move, without repetitions. -/
namespace Multitrack

structure Statistics where
  alphabetSize : Nat
  stateCount : Nat
  layoutRules : Nat
  locateRules : Nat
  fireRules : Nat
  moveRules : Nat
  /-- Rules that were entered again. -/
  duplicates : Nat
  /-- Transitions out of halting states, which never fire. -/
  skipped : Nat
deriving DecidableEq, Repr

/-- The rows of the emulating machine and the sizes of their parts. -/
structure Reduction where
  rows : List Row
  statistics : Statistics
deriving DecidableEq, Repr

/-- The single-tape machine that emulates a list of two-tape transitions. -/
def Reduction.ofTransitions (ts : List Transition) : Reduction :=
  let sig := Signature.ofTransitions ts
  let layout := RuleBook.empty.serve sig .layout
  let locate := layout.serve sig .locate
  let fire := ts.foldl (fun book t => book.serve sig (.fire t)) locate
  let move := fire.serve sig .move
  { rows := move.rules.toList.map sig.guard.row
    statistics :=
      { alphabetSize := sig.alphabet.length
        stateCount := sig.states.length
        layoutRules := layout.size
        locateRules := locate.size - layout.size
        fireRules := fire.size - locate.size
        moveRules := move.size - fire.size
        duplicates := move.duplicates
        skipped := ts.countP fun t => t.fireRule?.isNone } }

def reduce (ts : List Transition) : List Row := (Reduction.ofTransitions ts).rows

end Multitrack
