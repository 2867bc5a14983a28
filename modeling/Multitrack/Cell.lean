import Multitrack.Basic
import Multitrack.Heads

/-! # Cells of the emulating tape

The emulating tape keeps three kinds of cells. A plain cell holds a letter of the source, before it
is packed or beyond what the emulation has reached. A tracked cell holds one cell of each emulated
tape and the heads that stand on it. The anchor is the first cell, and its marker is the emulated
state. -/
namespace Multitrack

inductive Cell.Kind where
  | plain
  | tracked
  | anchor
deriving DecidableEq, Repr

/-- Kinds are ordered as they are declared. -/
instance : Ord Cell.Kind := ⟨compareOn Cell.Kind.ctorIdx⟩

instance : Std.TransOrd Cell.Kind := inferInstanceAs (Std.TransCmp (compareOn Cell.Kind.ctorIdx))

instance : Std.LawfulEqOrd Cell.Kind :=
  lawfulEqCmp_compareOn Cell.Kind.ctorIdx fun a b h => by
    rw [← Cell.Kind.ofNat_ctorIdx a, h, Cell.Kind.ofNat_ctorIdx]

/-- The contents of a cell. Members that the kind does not use are empty in every cell of the
construction, but they count when cells are compared. -/
structure Cell where
  kind : Cell.Kind
  letter1 : Letter
  letter2 : Letter
  tag : HeadSet
  marker : StateName
deriving DecidableEq, Repr

namespace Cell

def plain (s : Letter) : Cell := ⟨.plain, s, "", .none, ""⟩

def tracked (a b : Letter) (tag : HeadSet) : Cell := ⟨.tracked, a, b, tag, ""⟩

/-- The first cell, in the emulated state `q`. -/
def anchor (q : StateName) : Cell := ⟨.anchor, "", "", .none, q⟩

/-- The first cell before and after the emulation. -/
def sentinel : Cell := anchor startState

def letter (c : Cell) : Head → Letter
  | .one => c.letter1
  | .two => c.letter2

def withLetter (c : Cell) (h : Head) (s : Letter) : Cell :=
  match h with
  | .one => { c with letter1 := s }
  | .two => { c with letter2 := s }

def withTag (c : Cell) (tag : HeadSet) : Cell := { c with tag }

/-- Cells are ordered member by member. -/
instance : Ord Cell :=
  ⟨compareLex (compareOn Cell.kind) <| compareLex (compareOn Cell.letter1) <|
    compareLex (compareOn Cell.letter2) <| compareLex (compareOn Cell.tag)
      (compareOn Cell.marker)⟩

instance : Std.TransOrd Cell :=
  inferInstanceAs <| Std.TransCmp <|
    compareLex (compareOn Cell.kind) <| compareLex (compareOn Cell.letter1) <|
      compareLex (compareOn Cell.letter2) <| compareLex (compareOn Cell.tag)
        (compareOn Cell.marker)

instance : Std.LawfulEqOrd Cell where
  eq_of_compare := by
    intro ⟨k, a, b, t, q⟩ ⟨k', a', b', t', q'⟩ h
    obtain ⟨hk, h⟩ := compareLex_eq_eq.mp h
    obtain ⟨ha, h⟩ := compareLex_eq_eq.mp h
    obtain ⟨hb, h⟩ := compareLex_eq_eq.mp h
    obtain ⟨ht, hq⟩ := compareLex_eq_eq.mp h
    exact Cell.mk.injEq .. ▸ ⟨Std.LawfulEqCmp.eq_of_compare hk,
      Std.LawfulEqCmp.eq_of_compare ha, Std.LawfulEqCmp.eq_of_compare hb,
      Std.LawfulEqCmp.eq_of_compare ht, Std.LawfulEqCmp.eq_of_compare hq⟩

instance : LT Cell := ltOfOrd

end Cell

end Multitrack
