import Multitrack.Cell
import Multitrack.Control

/-! # Rules of the emulation

A rule is a row of the emulating table before its states and cells have been given names. -/
namespace Multitrack

/-- In `source` and on `read`, write `write`, move by `dir` and go to `target`. -/
structure Rule where
  source : Control
  read : Cell
  target : Control
  write : Cell
  dir : Dir
deriving DecidableEq, Repr

namespace Rule

/-- Rules are ordered member by member. -/
instance : Ord Rule :=
  ⟨compareLex (compareOn Rule.source) <| compareLex (compareOn Rule.read) <|
    compareLex (compareOn Rule.target) <| compareLex (compareOn Rule.write)
      (compareOn Rule.dir)⟩

instance : Std.TransOrd Rule :=
  inferInstanceAs <| Std.TransCmp <|
    compareLex (compareOn Rule.source) <| compareLex (compareOn Rule.read) <|
      compareLex (compareOn Rule.target) <| compareLex (compareOn Rule.write)
        (compareOn Rule.dir)

instance : Std.LawfulEqOrd Rule where
  eq_of_compare := by
    intro ⟨s, r, t, w, d⟩ ⟨s', r', t', w', d'⟩ h
    obtain ⟨hs, h⟩ := compareLex_eq_eq.mp h
    obtain ⟨hr, h⟩ := compareLex_eq_eq.mp h
    obtain ⟨ht, h⟩ := compareLex_eq_eq.mp h
    obtain ⟨hw, hd⟩ := compareLex_eq_eq.mp h
    exact Rule.mk.injEq .. ▸ ⟨Std.LawfulEqCmp.eq_of_compare hs,
      Std.LawfulEqCmp.eq_of_compare hr, Std.LawfulEqCmp.eq_of_compare ht,
      Std.LawfulEqCmp.eq_of_compare hw, Std.LawfulEqCmp.eq_of_compare hd⟩

instance : LT Rule := ltOfOrd

/-- A rule that leaves control state and cell as they are and moves on. -/
def pass (c : Control) (cell : Cell) (dir : Dir) : Rule := ⟨c, cell, c, cell, dir⟩

end Rule

end Multitrack
