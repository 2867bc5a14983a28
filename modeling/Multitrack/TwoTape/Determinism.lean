import Multitrack.TwoTape.Transition

/-! # Determinism of two-tape machines

A list of transitions is deterministic when transitions that match the same state and letters are
equal. Repeating a transition does no harm. -/
namespace Multitrack.TwoTape

/-- Two different transitions that match the same state and letters, by their places in the list
counted from one. -/
structure Conflict where
  earlier : Nat
  later : Nat
  key : Transition.Key
deriving DecidableEq, Repr

def Conflict.message (c : Conflict) : String :=
  "Nondeterministic input: transitions " ++ toString c.earlier ++ " and " ++ toString c.later ++
    " both match (" ++ c.key.state ++ ", " ++ c.key.read1 ++ ", " ++ c.key.read2 ++ ")"

/-- The first transition that differs from the first one with its key, together with that one. -/
def conflict? (ts : List Transition) : Option Conflict :=
  let numbered := ts.zipIdx 1
  let first := firstByKey (fun (t, _) => t.key) numbered
  numbered.findSome? fun (t, j) =>
    match first[t.key]? with
    | some (u, i) => if u = t then none else some ⟨i, j, t.key⟩
    | none => none

end Multitrack.TwoTape
