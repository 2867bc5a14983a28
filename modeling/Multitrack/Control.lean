import Multitrack.Basic
import Multitrack.Heads
import Multitrack.Text

/-! # Control states of the emulation

The emulating machine passes through phases. It shifts the input to make room for the anchor, packs
it into tracked cells, and then repeats one cycle for each emulated step: it locates the letters under
both heads, delivers them to the anchor, seeks the heads to write and move them, and rewinds. A control
state is a phase together with the letters, directions and heads that the phase remembers. -/
namespace Multitrack

/-- The phases, in increasing order. -/
inductive Phase where
  | init
  | accept
  | reject
  /-- Moves the input one cell to the right; remembers the letter it carries. -/
  | shiftCarry
  | shiftReturn
  | pack
  | packReturn
  | packHead
  /-- Looks for the heads; remembers the set of heads found and their letters. -/
  | locate
  /-- Brings both letters back to the anchor. -/
  | deliver
  /-- Looks for the heads that are still to be moved; remembers a letter and a direction for each. -/
  | seek
  /-- Has lifted a head and stepped left; remembers what is still to be done for the other one. -/
  | stepLeft
  /-- Has lifted a head and stepped right. -/
  | stepRight
  /-- Has met the anchor and puts the head back on the first cell. -/
  | clamp
  | rewind
deriving DecidableEq, Repr

/-- Phases are ordered as they are declared. -/
instance : Ord Phase := ⟨compareOn Phase.ctorIdx⟩

instance : Std.TransOrd Phase := inferInstanceAs (Std.TransCmp (compareOn Phase.ctorIdx))

instance : Std.LawfulEqOrd Phase :=
  lawfulEqCmp_compareOn Phase.ctorIdx fun a b h => by
    rw [← Phase.ofNat_ctorIdx a, h, Phase.ofNat_ctorIdx]

/-- A control state. `heads` is a mask while heads are located or sought, and the number of the lifted
head while one is carried. -/
structure Control where
  phase : Phase
  letters : List Letter
  dirs : List Dir
  heads : Int
deriving DecidableEq, Repr

/-- Why a name of the construction cannot be formed. -/
inductive NamingError where
  /-- The name is none of the three fixed states. -/
  | notReserved (name : StateName)
  /-- A guard needs at least one parenthesis. -/
  | nonPositiveGuard
deriving DecidableEq, Repr

/-- The wording of a naming error, up to the first null character. -/
def NamingError.message : NamingError → String
  | .notReserved name => Text.beforeNull ("Not a reserved state: " ++ name)
  | .nonPositiveGuard => "Guard depth must be positive"

namespace Control

def bare (phase : Phase) : Control := ⟨phase, [], [], 0⟩

/-- The control state in which the emulating machine ends when the emulated one enters `q`. -/
def halting? (q : StateName) : Option Control :=
  if q = acceptState then some (bare .accept)
  else if q = rejectState then some (bare .reject)
  else none

def reserved (name : StateName) : Except NamingError Control :=
  if name = startState then .ok (bare .init)
  else match halting? name with
    | some c => .ok c
    | none => .error (.notReserved name)

def carrying (s : Letter) : Control := ⟨.shiftCarry, [s], [], 0⟩

/-- Looks for the heads that `found` lacks, with the letters found so far. -/
def locating (found : Int) (letters : List Letter) : Control := ⟨.locate, letters, [], found⟩

/-- Brings the letters under both heads back to the anchor. -/
def delivering (s1 s2 : Letter) : Control := ⟨.deliver, [s1, s2], [], 0⟩

/-- A phase of the move, with the heads it is about and the letters and directions still to be
handled. -/
def moving (phase : Phase) (heads : Int) (letters : List Letter) (dirs : List Dir) : Control :=
  ⟨phase, letters, dirs, heads⟩

def rewinding : Control := bare .rewind

/-- Control states are ordered member by member. -/
instance : Ord Control :=
  ⟨compareLex (compareOn Control.phase) <| compareLex (compareOn Control.letters) <|
    compareLex (compareOn Control.dirs) (compareOn Control.heads)⟩

instance : Std.TransOrd Control :=
  inferInstanceAs <| Std.TransCmp <|
    compareLex (compareOn Control.phase) <| compareLex (compareOn Control.letters) <|
      compareLex (compareOn Control.dirs) (compareOn Control.heads)

instance : Std.LawfulEqOrd Control where
  eq_of_compare := by
    intro ⟨p, ls, ds, hs⟩ ⟨p', ls', ds', hs'⟩ h
    obtain ⟨hp, h⟩ := compareLex_eq_eq.mp h
    obtain ⟨hl, h⟩ := compareLex_eq_eq.mp h
    obtain ⟨hd, hh⟩ := compareLex_eq_eq.mp h
    exact Control.mk.injEq .. ▸ ⟨Std.LawfulEqCmp.eq_of_compare hp,
      Std.LawfulEqCmp.eq_of_compare hl, Std.LawfulEqCmp.eq_of_compare hd,
      Std.LawfulEqCmp.eq_of_compare hh⟩

instance : LT Control := ltOfOrd

end Control

end Multitrack
