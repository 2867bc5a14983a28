import Multitrack.Run

/-! # Two-tape machines

A two-tape machine is a list of transitions, and the first one that matches the state and both
letters applies. The input stands on the first tape, and the second one begins empty. -/
namespace Multitrack

/-- In `state` and on `read1` and `read2`, write a letter on each tape, move each head and go to
`next`. -/
structure Transition where
  state : StateName
  read1 : Letter
  read2 : Letter
  next : StateName
  write1 : Letter
  write2 : Letter
  dir1 : Dir
  dir2 : Dir
deriving DecidableEq, Repr

namespace Transition

/-- What a transition matches: a state and the letters under both heads. -/
structure Key where
  state : StateName
  read1 : Letter
  read2 : Letter
deriving DecidableEq, Repr

/-- Keys are ordered by state, then by the first letter, then by the second. -/
instance : Ord Key :=
  ⟨compareLex (compareOn Key.state) (compareLex (compareOn Key.read1) (compareOn Key.read2))⟩

instance : Std.TransOrd Key :=
  inferInstanceAs (Std.TransCmp (compareLex (compareOn Key.state)
    (compareLex (compareOn Key.read1) (compareOn Key.read2))))

instance : Std.LawfulEqOrd Key where
  eq_of_compare := by
    intro ⟨q, s, t⟩ ⟨q', s', t'⟩ h
    obtain ⟨hq, h⟩ := compareLex_eq_eq.mp h
    obtain ⟨hs, ht⟩ := compareLex_eq_eq.mp h
    exact Key.mk.injEq .. ▸ ⟨Std.LawfulEqCmp.eq_of_compare hq,
      Std.LawfulEqCmp.eq_of_compare hs, Std.LawfulEqCmp.eq_of_compare ht⟩

def key (t : Transition) : Key := ⟨t.state, t.read1, t.read2⟩

def letters (t : Transition) : List Letter := [t.read1, t.read2, t.write1, t.write2]

def states (t : Transition) : List StateName := [t.state, t.next]

end Transition

structure TapePair where
  first : Tape
  second : Tape
deriving DecidableEq, Repr

namespace TwoTape

abbrev Index := Std.TreeMap Transition.Key Transition

def index (ts : List Transition) : Index := firstByKey Transition.key ts

def Index.next? (index : Index) (q : StateName) (tapes : TapePair) :
    Option (StateName × TapePair) :=
  index[Transition.Key.mk q tapes.first.read tapes.second.read]?.map fun t =>
    (t.next, ⟨(tapes.first.write t.write1).move t.dir1, (tapes.second.write t.write2).move t.dir2⟩)

theorem next?_index (ts : List Transition) (q : StateName) (tapes : TapePair) :
    (index ts).next? q tapes =
      (ts.find? fun t => t.key = ⟨q, tapes.first.read, tapes.second.read⟩).map fun t =>
        (t.next, ⟨(tapes.first.write t.write1).move t.dir1,
          (tapes.second.write t.write2).move t.dir2⟩) := by
  rw [Index.next?, index, getElem?_firstByKey]

def Index.machine (index : Index) : Machine TapePair where
  next? := index.next?
  unused := ⟨.ofList [], .ofList []⟩
  load input := ⟨.ofList input, .ofList []⟩
  output := TapePair.first

def machine (ts : List Transition) : Machine TapePair := (index ts).machine

end TwoTape

end Multitrack
