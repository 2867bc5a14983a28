import Multitrack.Signature

/-! # Firing a transition

On the anchor the emulated state and both letters are known, so the transition that they select is a
single rule. It leaves the new state on the anchor and remembers what the heads still have to do. A
transition into a halting state ends the emulation at once. -/
namespace Multitrack.Transition

/-- The rule that fires a transition; a transition out of a halting state never fires. -/
def fireRule? (t : Transition) : Option Rule :=
  if isHalting t.state then none
  else
    let source := Control.delivering t.read1 t.read2
    match Control.halting? t.next with
    | some halt => some ⟨source, .anchor t.state, halt, .sentinel, .stay⟩
    | none =>
      let seek := Control.moving .seek HeadSet.both.mask [t.write1, t.write2] [t.dir1, t.dir2]
      some ⟨source, .anchor t.state, seek, .anchor t.next, .right⟩

end Multitrack.Transition
