import Multitrack.Signature

/-! # Locating the heads

An emulated step begins with a sweep to the right that collects the letters under both heads. Once
both are known they are delivered to the anchor. -/
namespace Multitrack

/-- The letters collected so far, one for each head. -/
structure Capture where
  first : Option Letter
  second : Option Letter
deriving DecidableEq, Repr

namespace Capture

def empty : Capture := ⟨none, none⟩

/-- Takes the letters of a cell for the heads that stand on it and have none yet. -/
def look (k : Capture) (cell : Cell) : Capture where
  first := k.first <|> if cell.tag.one then some cell.letter1 else none
  second := k.second <|> if cell.tag.two then some cell.letter2 else none

def control : Capture → Control
  | ⟨none, none⟩ => .locating 0 []
  | ⟨some s, none⟩ => .locating 1 [s]
  | ⟨none, some s⟩ => .locating 2 [s]
  | ⟨some s, some t⟩ => .delivering s t

/-- Turns around once both letters are known, and goes on otherwise. -/
def dir : Capture → Dir
  | ⟨some _, some _⟩ => .left
  | _ => .right

/-- What happens on a cell while letters are missing. -/
def rule (k : Capture) (cell : Cell) : Rule :=
  ⟨k.control, cell, (k.look cell).control, cell, (k.look cell).dir⟩

end Capture

namespace Signature

/-- What can have been collected before the sweep is over: nothing, or the letter of one head. -/
def captures (sig : Signature) : List Capture :=
  .empty :: sig.alphabet.flatMap fun s => [⟨some s, none⟩, ⟨none, some s⟩]

/-- The rules that collect both letters and bring them to the anchor. -/
def locateRules (sig : Signature) : List Rule :=
  let cells := sig.trackedCells
  (sig.captures.flatMap fun k => cells.map k.rule)
    ++ sig.alphabet.flatMap fun s => sig.alphabet.flatMap fun t =>
      cells.map fun cell => Rule.pass (.delivering s t) cell .left

end Signature

end Multitrack
