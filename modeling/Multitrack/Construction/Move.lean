import Multitrack.Signature

/-! # Writing and moving

After a transition has fired, a sweep to the right looks for the heads. On the cell of a head its letter
is written and the head is lifted, carried one cell to the left or right, and dropped there. A head that
would leave the tape to the left is put back on the first cell, and one that steps beyond the tracked
cells makes a new one. When both heads have moved the machine rewinds to the anchor. -/
namespace Multitrack

/-- What one head has to do: write a letter, then move. -/
structure Action where
  letter : Letter
  dir : Dir
deriving DecidableEq, Repr

/-- A phase of the move, with the actions that are still to be done. -/
def Control.withActions (phase : Phase) (heads : Int) (actions : List Action) : Control :=
  .moving phase heads (actions.map Action.letter) (actions.map Action.dir)

inductive Pending where
  | both (first second : Action)
  | only (head : Head) (action : Action)
deriving DecidableEq, Repr

/-- A head found with its action, and the other head's action if that is still to be done. -/
structure Found where
  head : Head
  action : Action
  rest : Option Action
deriving DecidableEq, Repr

namespace Pending

def control : Pending → Control
  | .both first second => .withActions .seek HeadSet.both.mask [first, second]
  | .only head action => .withActions .seek head.number [action]

/-- The head on a cell whose action comes next; head one goes first where both are on it. -/
def found? (p : Pending) (tag : HeadSet) : Option Found :=
  match p with
  | .both first second =>
    if tag.one then some ⟨.one, first, some second⟩
    else if tag.two then some ⟨.two, second, some first⟩
    else none
  | .only head action => if tag.has head then some ⟨head, action, none⟩ else none

end Pending

namespace Found

/-- A phase that carries the head found. -/
def carrying (f : Found) (phase : Phase) : Control :=
  .withActions phase f.head.number f.rest.toList

end Found

/-- The control state after a head has been dropped: looks for the other one if it still has to act, and
rewinds otherwise. -/
def resume (head : Head) : Option Action → Control
  | some action => (Pending.only head.other action).control
  | none => .rewinding

/-- What happens on a tracked cell while heads are looked for. A head that stays is done at once; one
that moves is lifted. -/
def Pending.rule (p : Pending) (cell : Cell) : Rule :=
  match p.found? cell.tag with
  | none => .pass p.control cell .right
  | some f =>
    let written := cell.withLetter f.head f.action.letter
    let lifted := written.withTag (cell.tag.erase f.head)
    match f.action.dir with
    | .stay => ⟨p.control, cell, resume f.head f.rest, written, if f.rest.isSome then .stay else .left⟩
    | .left => ⟨p.control, cell, f.carrying .stepLeft, lifted, .left⟩
    | .right => ⟨p.control, cell, f.carrying .stepRight, lifted, .right⟩

namespace Signature

def seekRules (sig : Signature) (p : Pending) : List Rule := sig.trackedCells.map p.rule

/-- The rules that drop a lifted head. If the other head still has to act, the sweep goes on from the
cell that this one was lifted from. -/
def dropRules (sig : Signature) (head : Head) (rest : Option Action) : List Rule :=
  let left := Control.withActions .stepLeft head.number rest.toList
  let right := Control.withActions .stepRight head.number rest.toList
  let clamp := Control.withActions .clamp head.number rest.toList
  let next := resume head rest
  let landings := (sig.trackedCells.filter fun cell => !cell.tag.has head).flatMap fun cell =>
    let landed := cell.withTag (cell.tag.insert head)
    [Rule.mk left cell next landed (if rest.isSome then .right else .left),
      ⟨right, cell, next, landed, .left⟩,
      ⟨clamp, cell, next, landed, if rest.isSome then .stay else .left⟩]
  landings
    ++ (sig.anchors.map fun anchor => Rule.mk left anchor clamp anchor .right)
    ++ [⟨right, .plain blank, next, .tracked blank blank (.only head), .left⟩]

/-- The rules that go back to the anchor and begin the next emulated step. -/
def rewindRules (sig : Signature) : List Rule :=
  (sig.trackedCells.map fun cell => Rule.pass .rewinding cell .left)
    ++ sig.anchors.map fun anchor => Rule.mk .rewinding anchor (.locating 0 []) anchor .right

def actions (sig : Signature) : List Action :=
  sig.alphabet.flatMap fun s => Dir.all.map (Action.mk s)

def moveRules (sig : Signature) : List Rule :=
  let actions := sig.actions
  (actions.flatMap fun first => actions.flatMap fun second => sig.seekRules (.both first second))
    ++ (Head.all.flatMap fun head =>
      sig.dropRules head none
        ++ actions.flatMap fun action =>
          sig.seekRules (.only head action) ++ sig.dropRules head.other (some action))
    ++ sig.rewindRules

end Signature

end Multitrack
