import Multitrack.Signature

/-! # Laying out the input

Before the first emulated step the input is shifted one cell to the right, which makes room for the
anchor, and packed into tracked cells whose second letter is blank. Both heads are then put on the
first tracked cell. -/
namespace Multitrack.Signature

/-- The rules that move the input one cell to the right and put the sentinel in front of it. The
first blank ends the input; an input that begins with it is not moved at all. -/
def shiftRules (sig : Signature) : List Rule :=
  let start : Control := .bare .init
  let back : Control := .bare .shiftReturn
  let pack : Control := .bare .pack
  let pickUp := sig.nonBlank.map fun s =>
    Rule.mk start (.plain s) (.carrying s) .sentinel .right
  let carry := sig.nonBlank.flatMap fun held =>
    (sig.nonBlank.map fun s => Rule.mk (.carrying held) (.plain s) (.carrying s) (.plain held) .right)
      ++ [⟨.carrying held, .plain blank, back, .plain held, .left⟩]
  let goBack := sig.nonBlank.map fun s => Rule.pass back (.plain s) .left
  pickUp ++ [⟨start, .plain blank, pack, .sentinel, .right⟩]
    ++ carry
    ++ goBack ++ [⟨back, .sentinel, pack, .sentinel, .right⟩]

/-- The rules that turn the shifted letters into tracked cells, up to the first blank, and put both
heads on the first of them. Where there is no letter the first tracked cell holds two blanks. -/
def packRules (sig : Signature) : List Rule :=
  let pack : Control := .bare .pack
  let back : Control := .bare .packReturn
  let place : Control := .bare .packHead
  let locate : Control := .locating 0 []
  let letters := sig.nonBlank.flatMap fun s =>
    let packed := Cell.tracked s blank .none
    [⟨pack, .plain s, pack, packed, .right⟩,
      Rule.pass back packed .left,
      ⟨place, packed, locate, packed.withTag .both, .stay⟩]
  letters ++
    [⟨pack, .plain blank, back, .plain blank, .left⟩,
      ⟨back, .sentinel, place, .sentinel, .right⟩,
      ⟨place, .plain blank, locate, .tracked blank blank .both, .stay⟩]

def layoutRules (sig : Signature) : List Rule := sig.shiftRules ++ sig.packRules

end Multitrack.Signature
