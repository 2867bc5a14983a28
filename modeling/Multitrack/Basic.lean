import Multitrack.Order

/-! # Letters, states and directions

Letters and states are texts. Four texts have a fixed meaning: the blank letter, the state in which
every run begins, and the two states in which a run ends. -/
namespace Multitrack

/-- A letter of a tape; any text can be one. -/
abbrev Letter := String

abbrev StateName := String

def blank : Letter := "0"

def startState : StateName := "start"

def acceptState : StateName := "accept"

def rejectState : StateName := "reject"

def isHalting (q : StateName) : Bool := q == acceptState || q == rejectState

/-- What a head does after writing. -/
inductive Dir where
  | left
  | right
  | stay
deriving DecidableEq, Repr

namespace Dir

def all : List Dir := [.left, .right, .stay]

def letter : Dir → String
  | .left => "L"
  | .right => "R"
  | .stay => "S"

def ofLetter? (text : String) : Option Dir :=
  if text = "L" then some .left
  else if text = "R" then some .right
  else if text = "S" then some .stay
  else none

@[simp] theorem ofLetter?_letter (d : Dir) : ofLetter? d.letter = some d := by
  cases d <;> decide

theorem letter_injective {d e : Dir} (h : d.letter = e.letter) : d = e := by
  have hread := ofLetter?_letter d
  rw [h, ofLetter?_letter] at hread
  exact (Option.some.inj hread).symm

theorem eq_letter_of_ofLetter? {text : String} {d : Dir} (h : ofLetter? text = some d) :
    text = d.letter := by
  unfold ofLetter? at h
  split at h
  · cases h; assumption
  · split at h
    · cases h; assumption
    · split at h
      · cases h; assumption
      · cases h

/-- Directions are ordered as they are declared. -/
instance : Ord Dir := ⟨compareOn Dir.ctorIdx⟩

instance : Std.TransOrd Dir := inferInstanceAs (Std.TransCmp (compareOn Dir.ctorIdx))

instance : Std.LawfulEqOrd Dir :=
  lawfulEqCmp_compareOn Dir.ctorIdx fun a b h => by
    rw [← Dir.ofNat_ctorIdx a, h, Dir.ofNat_ctorIdx]

end Dir

end Multitrack
